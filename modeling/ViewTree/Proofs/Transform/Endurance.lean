import ViewTree.Proofs.Transform.Entry
import ViewTree.Proofs.Walk.Course

namespace ViewTree

namespace Walk

/-- One walk does what another does wherever that one does not run out of fuel. -/
def Outlasts (longer shorter : Walk σ α) : Prop :=
  ∀ session, (∀ after, shorter session ≠ .error .exhausted after) →
    longer session = shorter session

namespace Outlasts

variable {longer shorter : Walk σ α}

theorem refl (walk : Walk σ α) : walk.Outlasts walk := fun _ _ => rfl

theorem exhausted (walk : Walk σ α) :
    walk.Outlasts (MonadExcept.throw Failure.exhausted : Walk σ α) :=
  fun session h => absurd rfl (h session)

theorem bind {next rest : α → Walk σ β} (h : longer.Outlasts shorter)
    (hnext : ∀ value, (next value).Outlasts (rest value)) :
    (longer >>= next).Outlasts (shorter >>= rest) := by
  intro session hsession
  have hfirst : ∀ after, shorter session ≠ .error .exhausted after := by
    intro after hshorter
    apply hsession after
    rw [bind_apply, hshorter]
  rw [bind_apply] at hsession
  rw [bind_apply, bind_apply, h session hfirst]
  cases hshorter : shorter session with
  | error failure after => rfl
  | ok value after =>
      apply hnext value
      simpa only [hshorter] using hsession

theorem then_ (walk : Walk σ β) {next rest : β → Walk σ α}
    (hnext : ∀ value, (next value).Outlasts (rest value)) :
    (walk >>= next).Outlasts (walk >>= rest) :=
  bind (.refl walk) hnext

theorem forM {xs : List β} {visit other : β → Walk σ PUnit}
    (h : ∀ x, (visit x).Outlasts (other x)) : (xs.forM visit).Outlasts (xs.forM other) := by
  induction xs with
  | nil => exact .refl _
  | cons x xs ih => exact bind (h x) fun _ => ih

end Outlasts

end Walk

namespace Tour

open Walk (Outlasts)

theorem depthFirst_outlasts (tour : Tour σ) (fuel : Nat) :
    ∀ (slot : Slot) (depth : Nat),
      (tour.depthFirst (fuel + 1) slot depth).Outlasts (tour.depthFirst fuel slot depth) := by
  induction fuel with
  | zero =>
      intro slot depth
      exact .exhausted _
  | succ fuel ih =>
      intro slot depth
      rw [depthFirst, depthFirst]
      apply Outlasts.then_
      intro kind
      apply Outlasts.then_
      intro next
      cases next with
      | none => exact .refl _
      | some ctx =>
          apply Outlasts.then_
          intro found
          apply Outlasts.bind (.forM fun child => ih child (depth + 1))
          intro _
          exact .refl _

theorem breadthFirst_outlasts (tour : Tour σ) (fuel : Nat) :
    ∀ queue : List (Slot × Nat),
      (tour.breadthFirst (fuel + 1) queue).Outlasts (tour.breadthFirst fuel queue) := by
  induction fuel with
  | zero =>
      intro queue
      cases queue with
      | nil => exact .refl _
      | cons entry queue => exact .exhausted _
  | succ fuel ih =>
      intro queue
      cases queue with
      | nil => exact .refl _
      | cons entry queue =>
          rw [breadthFirst, breadthFirst]
          apply Outlasts.then_
          intro kind
          apply Outlasts.then_
          intro next
          cases next with
          | none => exact ih queue
          | some ctx =>
              apply Outlasts.then_
              intro found
              exact ih _

theorem run_outlasts (tour : Tour σ) (order : Order) (fuel : Nat) (roots : List Slot) :
    (tour.run order (fuel + 1) roots).Outlasts (tour.run order fuel roots) := by
  apply Outlasts.forM
  intro root
  cases order with
  | preOrder => exact depthFirst_outlasts tour fuel root 0
  | postOrder => exact depthFirst_outlasts tour fuel root 0
  | breadthFirst => exact breadthFirst_outlasts tour fuel [(root, 0)]

end Tour

namespace Transform

open Walk (Outlasts)

variable (order : Order) (visitors : List (Visitor σ)) (prune : Prune σ)

theorem boxed_outlasts (fuel : Nat) (node : Value) :
    (boxed (fuel + 1) order visitors prune node).Outlasts
      (boxed fuel order visitors prune node) := by
  apply Outlasts.then_
  intro box
  refine Outlasts.bind (.then_ _ fun s => ?_) fun _ => .refl _
  exact Tour.run_outlasts _ order fuel _

theorem root_outlasts (fuel : Nat) :
    ∀ node : Value, (root order visitors prune (fuel + 1) node).Outlasts
      (root order visitors prune fuel node) := by
  induction fuel with
  | zero =>
      intro node
      exact .exhausted _
  | succ fuel ih =>
      intro node
      cases node with
      | array ref =>
          rw [Transform.root, Transform.root]
          apply Outlasts.then_
          intro s
          refine Outlasts.bind (.forM fun entry => ?_) fun _ => .refl _
          apply Outlasts.bind (ih entry.1)
          intro result
          exact .refl _
      | atom a =>
          rw [Transform.root, Transform.root]
          split
          · exact .refl _
          · exact boxed_outlasts order visitors prune fuel (.atom a)
      | tuple items => exact boxed_outlasts order visitors prune fuel (.tuple items)
      | object ref => exact boxed_outlasts order visitors prune fuel (.object ref)

end Transform

end ViewTree
