import ViewTree.Proofs.Transform.Entry
import ViewTree.Proofs.Visitor.Watching

/-!
Transforms with something kept beside.  A tour may keep a record beside the world of the visitors; a
transform that walks all boxed trees by it does what the transform does, as long as each walk does.
-/

namespace ViewTree

open Walk (Mirrors)

theorem Walk.untrace_moved {walk : Walk (τ × σ) α} {image : Walk σ α} {f : α → α}
    (h : Mirrors untrace id walk image) (hf : ∀ value, f value = value) :
    Mirrors untrace f walk image := by
  have hid : f = id := funext hf
  rwa [hid]

theorem Slot.above_empty (slot : Slot) : slot.above {} = slot := by
  obtain ⟨node, parent, index, place⟩ := slot
  have hparent : parent.map (ObjectRef.above {}) = parent := by
    cases parent with
    | none => rfl
    | some ref => simp [ObjectRef.above]
  have hplace : place.above {} = place := by
    cases place with
    | element array position => simp [Place.above, ArrayRef.above]
    | member object name => simp [Place.above, ObjectRef.above]
  rw [Slot.above, Value.above_empty, hparent, hplace]

abbrev shed (τ σ : Type) : Transit (τ × σ) σ := untrace

theorem base_shed : (shed τ σ).base = {} := rfl

variable (beside : Tour σ → Tour (τ × σ))

def Transform.runBeside (order : Order) (visitors : List (Visitor σ)) (prune : Prune σ) (fuel : Nat)
    (box : ArrayRef) : Walk (τ × σ) Unit := do
  (beside (tour visitors prune order)).run order fuel ((← Walk.store).rootSlots box)

def Transform.rootBeside (order : Order) (visitors : List (Visitor σ)) (prune : Prune σ) :
    Nat → Value → Walk (τ × σ) Value :=
  rootBy (fun node => Walk.zoom Lens.snd (primitive visitors node))
    (runBeside beside order visitors prune)

/-- A transform in which every walk over a boxed tree is one with a record beside. -/
def transformBeside (fuel : Nat) (visitors : List (Visitor σ)) (options : TransformOptions σ)
    (root : Value) : Walk (τ × σ) Value := do
  let order ← Walk.ofExcept (Order.resolve options.order)
  let tree ← Walk.copy options.clone root
  if visitors.isEmpty then return tree
  else Transform.rootBeside beside order visitors options.prune fuel tree

variable {beside}

theorem transform_shed (hbeside : ∀ tour, (beside tour).Mirrors (shed τ σ) tour) (fuel : Nat)
    (visitors : List (Visitor σ)) (options : TransformOptions σ) (root : Value) (s : Store)
    (record : τ) (world : σ) :
    transform fuel visitors options root ⟨s, world⟩ =
      kept Prod.snd (transformBeside beside fuel visitors options root ⟨s, record, world⟩) := by
  have hprimitive : ∀ node, Mirrors (shed τ σ) (Value.above (shed τ σ).base)
      (Walk.zoom Lens.snd (Transform.primitive visitors node))
      (Transform.primitive visitors (node.above (shed τ σ).base)) := by
    intro node
    rw [base_shed, Value.above_empty]
    exact Walk.untrace_moved (Walk.untrace_zoom _) Value.above_empty
  have hrun : ∀ order fuel box, Mirrors (shed τ σ) id
      (Transform.runBeside beside order visitors options.prune fuel box)
      (Transform.run fuel order visitors options.prune (box.above (shed τ σ).base)) := by
    intro order fuel box
    apply Mirrors.store.bind
    intro s
    rw [Store.rootSlots_above]
    exact Tour.run_mirrors (hbeside _) order fuel _
  have hmirrors : Mirrors (shed τ σ) (Value.above (shed τ σ).base)
      (transformBeside beside fuel visitors options root)
      (transform fuel visitors options (root.above (shed τ σ).base)) := by
    rw [transform_eq]
    apply (Mirrors.ofExcept _).bind
    intro order
    apply (copy_mirrors options.clone root).bind
    intro tree
    apply Mirrors.ite
    · exact .pure _ tree
    · rw [Transform.root_eq_rootBy]
      exact Transform.rootBy_mirrors hprimitive (hrun order) fuel tree
  have hsession := hmirrors ⟨s, record, world⟩
  rw [untrace_session, base_shed, Value.above_empty] at hsession
  rw [hsession]
  exact partOf_result Prod.snd Value.above_empty _

end ViewTree
