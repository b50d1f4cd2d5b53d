import ViewTree.Proofs.Walk.Course
import ViewTree.Visit.Tour

namespace ViewTree

namespace Tour

/-- What a tour does when it is the turn of a slot.  Gives the spots that are listed, and what is
needed to leave the node, unless the visit has ended. -/
def turn (tour : Tour σ) (slot : Slot) (depth : Nat) :
    Walk σ (List (Slot × Nat) × Option (Kind × Context)) := do
  let kind ← Walk.classify slot.node
  match ← tour.arrive kind slot (slot.context depth) with
  | none => return ([], none)
  | some ctx =>
    let (children, ctx) ← tour.descend kind slot.node ctx
    return (children.map fun child => (child, depth + 1), some (kind, ctx))

def close (tour : Tour σ) (slot : Slot) : Option (Kind × Context) → Walk σ Unit
  | none => return ()
  | some (kind, ctx) => tour.leave kind slot ctx

theorem depthFirst_turn (tour : Tour σ) (fuel : Nat) (slot : Slot) (depth : Nat) :
    tour.depthFirst (fuel + 1) slot depth = (do
      let (below, left) ← tour.turn slot depth
      below.forM fun spot => tour.depthFirst fuel spot.1 spot.2
      tour.close slot left) := by
  rw [depthFirst, turn, bind_assoc]
  refine congrArg (Walk.classify slot.node >>= ·) (funext fun kind => ?_)
  rw [bind_assoc]
  refine congrArg (tour.arrive kind slot (slot.context depth) >>= ·) (funext fun next => ?_)
  cases next with
  | none => rfl
  | some ctx =>
      rw [bind_assoc]
      refine congrArg (tour.descend kind slot.node ctx >>= ·) (funext fun listed => ?_)
      simp only [pure_bind, forM_map_eq, close]

theorem breadthFirst_turn (tour : Tour σ) (fuel : Nat) (slot : Slot) (depth : Nat)
    (waiting : List (Slot × Nat)) :
    tour.breadthFirst (fuel + 1) ((slot, depth) :: waiting) = (do
      let (below, _) ← tour.turn slot depth
      tour.breadthFirst fuel (waiting ++ below)) := by
  rw [breadthFirst, turn, bind_assoc]
  refine congrArg (Walk.classify slot.node >>= ·) (funext fun kind => ?_)
  rw [bind_assoc]
  refine congrArg (tour.arrive kind slot (slot.context depth) >>= ·) (funext fun next => ?_)
  cases next with
  | none => simp only [pure_bind, List.append_nil]
  | some ctx => simp only [bind_assoc, pure_bind]

theorem breadthFirst_nil (tour : Tour σ) (fuel : Nat) : tour.breadthFirst fuel [] = pure () := by
  cases fuel with
  | zero => rfl
  | succ fuel => rfl

def step (tour : Tour σ) (slot : Slot) (depth : Nat) : Walk σ (List (Slot × Nat)) := do
  return (← tour.turn slot depth).1

theorem breadthFirst_step (tour : Tour σ) (fuel : Nat) (slot : Slot) (depth : Nat)
    (waiting : List (Slot × Nat)) :
    tour.breadthFirst (fuel + 1) ((slot, depth) :: waiting) = (do
      let below ← tour.step slot depth
      tour.breadthFirst fuel (waiting ++ below)) := by
  rw [breadthFirst_turn, step]
  simp only [bind_assoc, pure_bind]

/-- Nothing is done on leaving a node. -/
def OnlyArrives (tour : Tour σ) : Prop :=
  ∀ kind slot ctx, tour.leave kind slot ctx = pure ()

theorem OnlyArrives.close {tour : Tour σ} (h : tour.OnlyArrives) (slot : Slot)
    (left : Option (Kind × Context)) : tour.close slot left = pure () := by
  cases left with
  | none => rfl
  | some given => exact h given.1 slot given.2

theorem OnlyArrives.depthFirst_step {tour : Tour σ} (h : tour.OnlyArrives) (fuel : Nat)
    (slot : Slot) (depth : Nat) : tour.depthFirst (fuel + 1) slot depth = (do
      let below ← tour.step slot depth
      below.forM fun entry => tour.depthFirst fuel entry.1 entry.2) := by
  rw [depthFirst_turn, step]
  simp only [bind_assoc, pure_bind, h.close, bind_pure_unit]

end Tour

end ViewTree
