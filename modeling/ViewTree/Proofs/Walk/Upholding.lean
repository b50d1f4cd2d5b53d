import ViewTree.Proofs.Walk.Course

namespace ViewTree

namespace Walk

/-- How a walk ends from a session: with a value and a session, or broken off with a failure. -/
def Ends (walk : Walk σ α) (session : Session σ) (post : α → Session σ → Prop)
    (broken : Failure → Session σ → Prop) : Prop :=
  match walk session with
  | .ok value after => post value after
  | .error failure after => broken failure after

namespace Ends

variable {walk : Walk σ α} {session after : Session σ} {post : α → Session σ → Prop}
  {broken : Failure → Session σ → Prop} {value : α} {failure : Failure}

theorem iff_of_ok (h : walk session = .ok value after) :
    walk.Ends session post broken ↔ post value after := by
  rw [Ends, h]

theorem iff_of_error (h : walk session = .error failure after) :
    walk.Ends session post broken ↔ broken failure after := by
  rw [Ends, h]

theorem imp {weaker : α → Session σ → Prop} {looser : Failure → Session σ → Prop}
    (h : walk.Ends session post broken)
    (hpost : ∀ value after, post value after → weaker value after)
    (hbroken : ∀ failure after, broken failure after → looser failure after) :
    walk.Ends session weaker looser := by
  cases hwalk : walk session with
  | ok value after => exact (iff_of_ok hwalk).mpr (hpost _ _ ((iff_of_ok hwalk).mp h))
  | error failure after => exact (iff_of_error hwalk).mpr (hbroken _ _ ((iff_of_error hwalk).mp h))

theorem mono {weaker : α → Session σ → Prop} (h : walk.Ends session post broken)
    (hpost : ∀ value after, post value after → weaker value after) :
    walk.Ends session weaker broken :=
  h.imp hpost fun _ _ => id

theorem forget (h : walk.Ends session post broken) : walk.Ends session post fun _ _ => True :=
  h.imp (fun _ _ => id) fun _ _ _ => trivial

theorem bind {next : α → Walk σ β} {goal : β → Session σ → Prop}
    (h : walk.Ends session post broken)
    (hnext : ∀ value after, post value after → (next value).Ends after goal broken) :
    (walk >>= next).Ends session goal broken := by
  rw [Ends, bind_apply]
  cases hwalk : walk session with
  | ok value after => exact hnext value after ((iff_of_ok hwalk).mp h)
  | error failure after => exact (iff_of_error hwalk).mp h

theorem anyhow (walk : Walk σ α) (session : Session σ) :
    walk.Ends session (fun _ _ => True) fun _ _ => True := by
  unfold Ends
  split
  · trivial
  · trivial

theorem write {place : Place} {value : Value} {s : Store} {world : σ}
    {post : Unit → Session σ → Prop} (h : s.has place = true → post () ⟨s.write place value, world⟩)
    (hgone : s.has place = false → broken .vanishedPosition ⟨s, world⟩) :
    (Walk.write place value).Ends ⟨s, world⟩ post broken := by
  rw [Ends, Walk.write]
  cases hplace : s.has place with
  | true => exact h hplace
  | false => exact hgone hplace

theorem zoom {lens : Lens ρ σ} {s : Store} {world : ρ} {goal : α → Session ρ → Prop}
    {lost : Failure → Session ρ → Prop}
    (h : walk.Ends ⟨s, lens.get world⟩
      (fun value after => goal value ⟨after.store, lens.set after.world world⟩)
      fun failure after => lost failure ⟨after.store, lens.set after.world world⟩) :
    (Walk.zoom lens walk).Ends ⟨s, world⟩ goal lost := by
  rw [Ends, Walk.zoom]
  cases hwalk : walk ⟨s, lens.get world⟩ with
  | ok value after => exact (iff_of_ok hwalk).mp h
  | error failure after => exact (iff_of_error hwalk).mp h

end Ends

/-- From sessions of which `inv` holds a walk returns to such a session, with a value that fits, or is
broken off. -/
def Upholds (inv : Session σ → Prop) (broken : Failure → Session σ → Prop) (walk : Walk σ α)
    (post : α → Prop := fun _ => True) : Prop :=
  ∀ session, inv session → walk.Ends session (fun value after => inv after ∧ post value) broken

/-- A walk after which `inv` holds again even where it fails. -/
abbrev Keeps (inv : Session σ → Prop) (walk : Walk σ α) (post : α → Prop) : Prop :=
  Upholds inv (fun _ => inv) walk post

abbrev FailsOnly (mode : Failure → Prop) (walk : Walk σ α) : Prop :=
  Upholds (fun _ => True) (fun failure _ => mode failure) walk

namespace Upholds

variable {inv : Session σ → Prop} {broken : Failure → Session σ → Prop} {walk : Walk σ α}
  {post : α → Prop}

theorem pure {value : α} (h : post value) :
    Upholds inv broken (Pure.pure value : Walk σ α) post :=
  fun _ hsession => ⟨hsession, h⟩

theorem throw {failure : Failure} (h : ∀ session, inv session → broken failure session) :
    Upholds inv broken (MonadExcept.throw failure : Walk σ α) post :=
  h

theorem mono {weaker : α → Prop} (h : Upholds inv broken walk post)
    (hpost : ∀ value, post value → weaker value) : Upholds inv broken walk weaker :=
  fun session hsession => (h session hsession).mono fun _ _ hafter => ⟨hafter.1, hpost _ hafter.2⟩

theorem bind {next : α → Walk σ β} {goal : β → Prop} (h : Upholds inv broken walk post)
    (hnext : ∀ value, post value → Upholds inv broken (next value) goal) :
    Upholds inv broken (walk >>= next) goal :=
  fun session hsession =>
    (h session hsession).bind fun value after hafter => hnext value hafter.2 after hafter.1

theorem forM {xs : List α} {visit : α → Walk σ PUnit}
    (h : ∀ x ∈ xs, Upholds inv broken (visit x)) : Upholds inv broken (xs.forM visit) := by
  induction xs with
  | nil => exact pure trivial
  | cons x xs ih =>
      obtain ⟨hhead, htail⟩ := List.forall_mem_cons.mp h
      exact hhead.bind fun _ _ => ih htail

theorem ite {condition : Prop} [Decidable condition] {other : Walk σ α}
    (h : condition → Upholds inv broken walk post)
    (hother : ¬ condition → Upholds inv broken other post) :
    Upholds inv broken (if condition then walk else other) post := by
  split
  · next hcondition => exact h hcondition
  · next hcondition => exact hother hcondition

theorem store : Upholds inv broken Walk.store fun s => ∃ world, inv ⟨s, world⟩ :=
  fun session hsession => ⟨hsession, session.world, hsession⟩

theorem ofExcept {given : Except Failure α}
    (h : ∀ failure session, given = .error failure → inv session → broken failure session) :
    Upholds inv broken (Walk.ofExcept given) fun value => given = .ok value := by
  cases given with
  | ok value => exact pure rfl
  | error failure => exact throw fun session => h failure session rfl

theorem classify {node : Value}
    (h : ∀ cause session, inv session → broken (.invalidNode cause) session) :
    Upholds inv broken (Walk.classify node) := by
  intro session hsession
  rw [Ends, classify_apply]
  cases session.store.classify node with
  | ok kind => exact ⟨hsession, trivial⟩
  | error cause => exact h cause session hsession

end Upholds

end Walk

end ViewTree
