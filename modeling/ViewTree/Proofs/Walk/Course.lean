import Mathlib.Data.List.Forall2
import ViewTree.Proofs.Store.Expansion
import ViewTree.Visit.Walk

/-!
Walks beside courses.  A course is what a walk comes to when there is no store and nodes are plain
trees.  `Walk.Follows` says that a walk, begun in a session, does what a course does: the worlds
agree, failures are the same, and results are related in the store that is reached.
-/

namespace ViewTree

abbrev Course (σ : Type) := EStateM Failure σ

theorem forM_append_eq [Monad m] [LawfulMonad m] (xs ys : List α) (visit : α → m PUnit) :
    (xs ++ ys).forM visit = (xs.forM visit >>= fun _ => ys.forM visit) :=
  List.forM_append

theorem forM_map_eq [Monad m] [LawfulMonad m] (xs : List α) (f : α → β) (visit : β → m PUnit) :
    (xs.map f).forM visit = xs.forM fun x => visit (f x) :=
  List.forM_map

namespace Course

def classify (node : Tree) : Course σ Kind :=
  match node.classify with
  | .ok kind => pure kind
  | .error cause => throw (.invalidNode cause)

end Course

namespace Walk

theorem bind_apply (first : EStateM ε σ α) (next : α → EStateM ε σ β) (start : σ) :
    (first >>= next) start =
      match first start with
      | .ok value after => next value after
      | .error failure after => .error failure after := by
  show EStateM.bind first next start = _
  rw [EStateM.bind]
  cases first start <;> rfl

theorem store_bind_apply (next : Store → Walk σ α) (session : Session σ) :
    (Walk.store >>= next) session = next session.store session := rfl

/-- A walk does from a session what a course does from the world of that session. -/
def Follows (walk : Walk σ α) (course : Course σ β) (session : Session σ)
    (post : α → β → Store → Prop) : Prop :=
  match walk session, course session.world with
  | .ok value after, .ok result world => after.world = world ∧ post value result after.store
  | .error failure after, .error cause world => failure = cause ∧ after.world = world
  | _, _ => False

namespace Follows

variable {walk : Walk σ α} {course : Course σ β} {session : Session σ}
  {post : α → β → Store → Prop}

theorem pure {value : α} {result : β} (h : post value result session.store) :
    Follows (Pure.pure value) (Pure.pure result) session post :=
  ⟨rfl, h⟩

theorem throw (failure : Failure) :
    Follows (MonadExcept.throw failure : Walk σ α) (MonadExcept.throw failure : Course σ β)
      session post :=
  ⟨rfl, rfl⟩

theorem of_ok {value : α} {result : β} {after : Session σ} (hwalk : walk session = .ok value after)
    (hcourse : course session.world = .ok result after.world)
    (hpost : post value result after.store) : Follows walk course session post := by
  simp only [Follows, hwalk, hcourse]
  exact ⟨trivial, hpost⟩

theorem mono {weaker : α → β → Store → Prop} (h : Follows walk course session post)
    (hpost : ∀ value result s, post value result s → weaker value result s) :
    Follows walk course session weaker := by
  unfold Follows at h ⊢
  split at h
  · exact ⟨h.1, hpost _ _ _ h.2⟩
  · exact h
  · exact h.elim

theorem bind {next : α → Walk σ γ} {rest : β → Course σ δ} {goal : γ → δ → Store → Prop}
    (h : Follows walk course session post)
    (hnext : ∀ value result after, post value result after.store →
      Follows (next value) (rest result) after goal) :
    Follows (walk >>= next) (course >>= rest) session goal := by
  unfold Follows at h
  split at h
  · next value after result world hwalk hcourse =>
      obtain ⟨rfl, hpost⟩ := h
      have hrest := hnext value result after hpost
      unfold Follows at hrest ⊢
      simp only [bind_apply, hwalk, hcourse]
      exact hrest
  · next failure after cause world hwalk hcourse =>
      obtain ⟨rfl, rfl⟩ := h
      unfold Follows
      simp only [bind_apply, hwalk, hcourse, and_self]
  · exact h.elim

theorem bind_ok {next : α → Walk σ γ} {rest : β → Course σ δ} {goal : γ → δ → Store → Prop}
    {value : α} {result : β} {after : Session σ} (hwalk : walk session = .ok value after)
    (hcourse : course session.world = .ok result after.world)
    (hnext : Follows (next value) (rest result) after goal) :
    Follows (walk >>= next) (course >>= rest) session goal := by
  simp only [Follows, bind_apply, hwalk, hcourse]
  exact hnext

/-- A step of the walk alone, which must leave the world as it is. -/
theorem step {next : α → Walk σ γ} {goal : γ → β → Store → Prop} {value : α}
    {after : Session σ} (hwalk : walk session = .ok value after)
    (hworld : after.world = session.world) (hnext : Follows (next value) course after goal) :
    Follows (walk >>= next) course session goal := by
  simp only [Follows, bind_apply, hwalk]
  rw [← hworld]
  exact hnext

theorem andThen {next : α → Walk σ γ} {goal : γ → β → Store → Prop}
    (h : Follows walk course session post)
    (hnext : ∀ value result after, post value result after.store →
      Follows (next value) (Pure.pure result) after goal) :
    Follows (walk >>= next) course session goal := by
  rw [← bind_pure course]
  exact h.bind hnext

theorem map {f : β → γ} {goal : α → γ → Store → Prop} (h : Follows walk course session post)
    (hpost : ∀ value result s, post value result s → goal value (f result) s) :
    Follows walk (course >>= fun result => Pure.pure (f result)) session goal := by
  rw [← bind_pure walk]
  exact h.bind fun _ _ _ hafter => .pure (hpost _ _ _ hafter)

/-- A loop follows a loop over related items when each step keeps an invariant of the store. -/
theorem forM {kept : Store → Prop} {related : α → β → Prop} {xs : List α} {ys : List β}
    {visit : α → Walk σ PUnit} {step : β → Course σ PUnit}
    (hitems : List.Forall₂ related xs ys)
    (hstep : ∀ x, ∀ y ∈ ys, related x y → ∀ session : Session σ, kept session.store →
      Follows (visit x) (step y) session fun _ _ s => kept s)
    (hkept : kept session.store) :
    Follows (xs.forM visit) (ys.forM step) session fun _ _ s => kept s := by
  induction hitems generalizing session with
  | nil => exact .pure hkept
  | cons hhead _ ih =>
      refine (hstep _ _ (by simp) hhead session hkept).bind fun _ _ after hafter => ?_
      exact ih (fun x y hy => hstep x y (List.mem_cons_of_mem _ hy)) hafter

end Follows

theorem classify_apply (node : Value) (session : Session σ) :
    Walk.classify node session =
      match session.store.classify node with
      | .ok kind => .ok kind session
      | .error cause => .error (.invalidNode cause) session := by
  simp only [Walk.classify, bind_apply, Walk.store]
  show (match session.store.classify node with
    | .ok kind => _
    | .error cause => _ : Walk σ Kind) session = _
  cases session.store.classify node <;> rfl

theorem classify_follows {tree : Tree} {value : Value} {cells : List Store.Cell}
    {session : Session σ} (h : session.store.Shows tree value cells) :
    Follows (Walk.classify value) (Course.classify tree) session
      fun kind other s => kind = other ∧ s = session.store ∧ tree.classify = .ok kind := by
  simp only [Follows, classify_apply, h.classify, Course.classify]
  cases tree.classify with
  | ok kind => exact ⟨rfl, rfl, rfl, rfl⟩
  | error cause => exact ⟨rfl, rfl⟩

end Walk

end ViewTree
