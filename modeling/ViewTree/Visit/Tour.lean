import ViewTree.Visit.Visitor

/-!
Tours: what happens at a node when a walk arrives at it and when it leaves.  The walks themselves
are the same for all tours: `depthFirst` and `breadthFirst`, each with a bound on its length.
-/

namespace ViewTree

structure Tour (σ : Type) where
  /-- Asked before the children of a structured node are visited; true sets the latch. -/
  prune : Value → Context → Walk σ (Bool × Context) := fun _ ctx => pure (false, ctx)
  /-- None ends the visit: neither the children nor `leave` follow. -/
  arrive : Kind → Slot → Context → Walk σ (Option Context) := fun _ _ ctx => pure (some ctx)
  leave : Kind → Slot → Context → Walk σ Unit := fun _ _ _ => pure ()

namespace Tour

def descend (tour : Tour σ) (kind : Kind) (node : Value) (ctx : Context) :
    Walk σ (List Slot × Context) := do
  if kind = .structured ∧ ctx.skipping = false then
    let (cut, ctx) ← tour.prune node ctx
    if cut || ctx.skipping then
      return ([], ctx.skipChildren)
    else
      return ((← Walk.store).childSlots node, ctx)
  else
    return ([], ctx)

def depthFirst (tour : Tour σ) : Nat → Slot → Nat → Walk σ Unit
  | 0, _, _ => throw .exhausted
  | fuel + 1, slot, depth => do
    let kind ← Walk.classify slot.node
    match ← tour.arrive kind slot (slot.context depth) with
    | none => return ()
    | some ctx =>
      let (children, ctx) ← tour.descend kind slot.node ctx
      children.forM fun child => depthFirst tour fuel child (depth + 1)
      tour.leave kind slot ctx

/-- Visits a queue of slots and all below them, level by level; `fuel` bounds the visits. -/
def breadthFirst (tour : Tour σ) : Nat → List (Slot × Nat) → Walk σ Unit
  | _, [] => return ()
  | 0, _ :: _ => throw .exhausted
  | fuel + 1, (slot, depth) :: queue => do
    let kind ← Walk.classify slot.node
    match ← tour.arrive kind slot (slot.context depth) with
    | none => breadthFirst tour fuel queue
    | some ctx =>
      let (children, _) ← tour.descend kind slot.node ctx
      breadthFirst tour fuel (queue ++ children.map fun child => (child, depth + 1))

def run (tour : Tour σ) (order : Order) (fuel : Nat) (roots : List Slot) : Walk σ Unit :=
  roots.forM fun root =>
    match order with
    | .preOrder | .postOrder => tour.depthFirst fuel root 0
    | .breadthFirst => tour.breadthFirst fuel [(root, 0)]

end Tour

end ViewTree
