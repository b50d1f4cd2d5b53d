import ViewTree.Proofs.Transform.Transit
import ViewTree.Proofs.Walk.Abiding

namespace ViewTree

open Walk (Upholds)

/-- What a walk may fail with on its own account, its questions and its hooks apart. -/
def Failure.IsOwn : Failure → Prop
  | .invalidNode _ | .vanishedPosition | .exhausted => True
  | _ => False

/-- A property that is not about the store, in a walk that may fail on its own account. -/
structure Walk.Condones (inv : Session σ → Prop) (broken : Failure → Session σ → Prop) : Prop where
  store : ∀ {s next : Store} {world : σ}, inv ⟨s, world⟩ → inv ⟨next, world⟩
  own : ∀ {failure : Failure} {session : Session σ}, failure.IsOwn → inv session →
    broken failure session

def Visitor.Abides (inv : Session σ → Prop) (broken : Failure → Session σ → Prop)
    (visitor : Visitor σ) : Prop :=
  ∀ phase hook, visitor.hook? phase = some hook →
    ∀ node ctx, Walk.Upholds inv broken (hook node ctx)

theorem Transform.tour_prune (visitors : List (Visitor σ)) (prune : Prune σ) (order : Order) :
    (tour visitors prune order).prune = prune.test := by
  cases order <;> rfl

section

variable {inv : Session σ → Prop} {broken : Failure → Session σ → Prop}
  {visitors : List (Visitor σ)} (hvisitors : ∀ visitor ∈ visitors, visitor.Abides inv broken)

include hvisitors

theorem runPhase_upholds (phase : Phase) (node : Value) (ctx : Context) :
    Upholds inv broken (runPhase phase visitors node ctx) := by
  apply runHooks_upholds
  intro hook hhook
  obtain ⟨visitor, hvisitor, hhook⟩ := List.mem_filterMap.mp hhook
  exact hvisitors visitor hvisitor phase hook hhook node

theorem Transform.primitive_abides (node : Value) :
    Upholds inv broken (Transform.primitive visitors node) := by
  have hphase : ∀ phase ctx session, True → inv session →
      (runPhase phase visitors node ctx).Ends session
        (fun given after => inv after ∧ True ∧ ∀ value ∈ given.1, True) broken := by
    intro phase ctx session _ hsession
    apply (runPhase_upholds hvisitors phase node ctx session hsession).mono
    intro given after hafter
    exact ⟨hafter.1, trivial, fun _ _ => trivial⟩
  exact Transform.primitive_upholds hphase trivial trivial

end

namespace Walk.Condones

variable {inv : Session σ → Prop} {broken : Failure → Session σ → Prop} (h : Condones inv broken)

omit h in
theorem fails {mode : Failure → Prop} (h : ∀ {failure : Failure}, failure.IsOwn → mode failure) :
    Condones (fun _ : Session σ => True) fun failure _ => mode failure :=
  ⟨id, fun hown _ => h hown⟩

include h

theorem change (f : Store → α × Store) : Upholds inv broken (Walk.change f) :=
  fun _ hsession => ⟨h.store hsession, trivial⟩

theorem write (place : Place) (value : Value) : Upholds inv broken (Walk.write place value) :=
  fun _ hsession => .write (fun _ => ⟨h.store hsession, trivial⟩) fun _ => h.own trivial hsession

theorem copy (clone : Tree) (root : Value) : Upholds inv broken (Walk.copy clone root) := by
  rw [Walk.copy]
  exact .ite (fun _ => h.change _) fun _ => .pure trivial

theorem rootBy {primitive : Value → Walk σ Value} {walk : Nat → ArrayRef → Walk σ Unit}
    (hprimitive : ∀ node, Upholds inv broken (primitive node))
    (hwalk : ∀ fuel box, Upholds inv broken (walk fuel box)) (fuel : Nat) (root : Value) :
    Upholds inv broken (Transform.rootBy primitive walk fuel root) := by
  refine Transform.rootBy_upholds (fun _ => h.own trivial) (fun node _ => hprimitive node) ?_
    (fun _ _ _ _ => trivial) (fun _ _ _ _ => h.write _ _) fuel root trivial
  intro fuel node _
  rw [Transform.boxedBy]
  refine (h.change _).bind fun box _ => (hwalk fuel box).bind fun _ _ => ?_
  exact .bind .store fun s _ => .pure trivial

theorem settles {visitors : List (Visitor σ)}
    (hvisitors : ∀ visitor ∈ visitors, visitor.Abides inv broken) :
    Transform.Settles visitors inv broken fun _ _ _ => True := by
  intro phase slot depth ctx session _ hsession
  apply (runPhase_upholds hvisitors phase slot.node ctx session hsession).mono
  intro given after hafter
  refine ⟨hafter.1, trivial, fun value _ => ?_⟩
  exact (h.write slot.place value after hafter.1).mono fun _ _ => And.left

end Walk.Condones

theorem transform_upholds {inv : Session σ → Prop} {broken : Failure → Session σ → Prop}
    (h : Walk.Condones inv broken) {visitors : List (Visitor σ)}
    (hvisitors : ∀ visitor ∈ visitors, visitor.Abides inv broken) {options : TransformOptions σ}
    (hprune : ∀ node ctx, Upholds inv broken (options.prune.test node ctx))
    (horder : Upholds inv broken (Walk.ofExcept (Order.resolve options.order))) (fuel : Nat)
    (root : Value) : Upholds inv broken (transform fuel visitors options root) := by
  rw [transform_eq]
  refine horder.bind fun order _ => (h.copy _ root).bind fun tree _ => ?_
  refine .ite (fun _ => .pure trivial) fun _ => ?_
  rw [Transform.root_eq_rootBy]
  refine h.rootBy (Transform.primitive_abides hvisitors) (fun fuel box => ?_) fuel tree
  have htour := (h.settles hvisitors).tour_abides (fun _ => hprune _ _) (fun _ => trivial)
    (fun _ _ _ _ => trivial) (fun _ _ => h.own trivial) order
  exact .bind .store fun s _ => htour.run (fun _ => h.own trivial) order fuel fun _ _ => trivial

abbrev Walk.Maintains (holds : σ → Prop) (walk : Walk σ α) : Prop :=
  Walk.Upholds (fun session => holds session.world) (fun _ after => holds after.world) walk

abbrev Visitor.Maintains (holds : σ → Prop) (visitor : Visitor σ) : Prop :=
  Visitor.Abides (fun session => holds session.world) (fun _ after => holds after.world) visitor

theorem Walk.maintains_ofExcept (holds : σ → Prop) (given : Except Failure α) :
    Walk.Maintains holds (Walk.ofExcept given) := by
  cases given with
  | ok value => exact .pure trivial
  | error failure => exact .throw fun _ hsession => hsession

theorem Transform.maintains {holds : σ → Prop} {visitors : List (Visitor σ)}
    (hvisitors : ∀ visitor ∈ visitors, visitor.Maintains holds) {options : TransformOptions σ}
    (hprune : ∀ node ctx, (options.prune.test node ctx).Maintains holds) (fuel : Nat)
    (root : Value) : (transform fuel visitors options root).Maintains holds :=
  transform_upholds ⟨id, fun _ hsession => hsession⟩ hvisitors hprune
    (Walk.maintains_ofExcept holds _) fuel root

/-- A walk that stays off a part of the world. -/
def Walk.StaysOff (part : σ → τ) (walk : Walk σ α) : Prop :=
  ∀ value, walk.Maintains fun world => part world = value

def Visitor.StaysOff (part : σ → τ) (visitor : Visitor σ) : Prop :=
  ∀ phase hook, visitor.hook? phase = some hook → ∀ node ctx, (hook node ctx).StaysOff part

theorem Walk.StaysOff.maintains {part : σ → τ} {walk : Walk σ α} (h : walk.StaysOff part)
    (holds : τ → Prop) : walk.Maintains fun world => holds (part world) := by
  intro session hsession
  have hafter := h (part session.world) session rfl
  have hmoved : ∀ world, part world = part session.world → holds (part world) := by
    intro world hworld
    rwa [hworld]
  apply hafter.imp
  · rintro value after ⟨hsame, -⟩
    exact ⟨hmoved _ hsame, trivial⟩
  · intro failure after hsame
    exact hmoved _ hsame

/-- Where nothing can be set, a lens leaves what is there. -/
def Lens.SetsOrLeaves (lens : Lens ρ σ) : Prop :=
  ∀ given world, lens.get (lens.set given world) = given ∨
    lens.get (lens.set given world) = lens.get world

theorem Walk.Maintains.zoom {lens : Lens ρ σ} (hlens : lens.SetsOrLeaves) {holds : σ → Prop}
    {walk : Walk σ α} (h : walk.Maintains holds) :
    (Walk.zoom lens walk).Maintains fun world => holds (lens.get world) := by
  rintro ⟨s, world⟩ hsession
  have hset : ∀ given, holds given → holds (lens.get (lens.set given world)) := by
    intro given hgiven
    rcases hlens given world with hsame | hsame
    · rwa [hsame]
    · rwa [hsame]
  apply Walk.Ends.zoom
  apply (h ⟨s, lens.get world⟩ hsession).imp
  · rintro value after ⟨hafter, -⟩
    exact ⟨hset _ hafter, trivial⟩
  · intro failure after hafter
    exact hset _ hafter

theorem Visitor.Maintains.zoom {lens : Lens ρ σ} (hlens : lens.SetsOrLeaves) {holds : σ → Prop}
    {visitor : Visitor σ} (h : visitor.Maintains holds) :
    (visitor.zoom lens).Maintains fun world => holds (lens.get world) := by
  intro phase hook hhook node ctx
  rw [Visitor.hook?_zoom] at hhook
  obtain ⟨inner, hinner, rfl⟩ := Option.map_eq_some_iff.mp hhook
  exact Walk.Maintains.zoom hlens (h phase inner hinner node ctx)

theorem Visitor.staysOff_zoom {lens : Lens ρ σ} {part : ρ → τ}
    (hlens : ∀ given world, part (lens.set given world) = part world) (visitor : Visitor σ) :
    (visitor.zoom lens).StaysOff part := by
  intro phase hook hhook node ctx value
  rw [Visitor.hook?_zoom] at hhook
  obtain ⟨inner, -, rfl⟩ := Option.map_eq_some_iff.mp hhook
  rintro ⟨s, world⟩ hsession
  apply Walk.Ends.zoom
  apply (Walk.Ends.anyhow _ _).imp
  · intro given after _
    exact ⟨(hlens _ _).trans hsession, trivial⟩
  · intro failure after _
    exact (hlens _ _).trans hsession

end ViewTree
