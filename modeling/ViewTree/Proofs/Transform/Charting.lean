import ViewTree.Proofs.Transform.Beside

namespace ViewTree

open Walk (Mirrors)

inductive Passage
  | visit (slot : Slot) (ctx : Context)
  | descent (s : Store)

abbrev Charted (σ : Type) := List Passage × σ

def Walk.chart (passage : Passage) : Walk (Charted σ) Unit :=
  Walk.modifyWorld fun world => (world.1 ++ [passage], world.2)

/-- A tour that is charted.  The question about descent is asked of structured nodes only, and unless
the answer is a cut the descent follows. -/
def Tour.charted (tour : Tour σ) : Tour (Charted σ) where
  prune node ctx := do
    let (cut, next) ← Walk.zoom Lens.snd (tour.prune node ctx)
    let s ← Walk.store
    if cut || next.skipping then return (cut, next)
    else
      Walk.chart (.descent s)
      return (cut, next)
  arrive kind slot ctx := do
    Walk.chart (.visit slot ctx)
    Walk.zoom Lens.snd (tour.arrive kind slot ctx)
  leave kind slot ctx := Walk.zoom Lens.snd (tour.leave kind slot ctx)

def chartedTransform (fuel : Nat) (visitors : List (Visitor σ)) (options : TransformOptions σ)
    (root : Value) : Walk (Charted σ) Value :=
  transformBeside Tour.charted fuel visitors options root

theorem Walk.untrace_chart (passage : Passage) :
    Mirrors (shed (List Passage) σ) (fun _ => ()) (Walk.chart passage : Walk (Charted σ) Unit) (pure ()) :=
  untrace_modifyWorld fun passages => passages ++ [passage]

theorem Tour.charted_mirrors (tour : Tour σ) : tour.charted.Mirrors (shed (List Passage) σ) tour := by
  refine ⟨?_, ?_, ?_⟩
  · apply Asked.of_base base_shed fun _ => rfl
    intro node ctx
    apply (Walk.untrace_zoom _).andThen
    intro given
    apply Walk.untrace_store.skip
    intro s
    split
    · exact .pure id given
    · apply (Walk.untrace_chart _).skip
      intro _
      exact .pure id given
  · intro kind slot ctx
    rw [base_shed, Slot.above_empty, Context.above_empty]
    apply (Walk.untrace_chart _).skip
    intro _
    refine Walk.untrace_moved (Walk.untrace_zoom _) fun next => ?_
    cases next with
    | none => rfl
    | some ctx => exact congrArg some ctx.above_empty
  · intro kind slot ctx
    rw [base_shed, Slot.above_empty, Context.above_empty]
    exact Walk.untrace_zoom _

theorem transform_uncharted (fuel : Nat) (visitors : List (Visitor σ))
    (options : TransformOptions σ) (root : Value) (s : Store) (passages : List Passage)
    (world : σ) :
    transform fuel visitors options root ⟨s, world⟩ =
      kept Prod.snd (chartedTransform fuel visitors options root ⟨s, passages, world⟩) :=
  transform_shed Tour.charted_mirrors fuel visitors options root s passages world

end ViewTree
