import ViewTree.Options

/-!
Transforms: visitors are called at every node and their replacements are written back.

In pre-order a node is entered, then its children are visited, then it is left; in post-order the
children come first.  Breadth-first only enters.  A node that is replaced on entry is neither
descended into nor left.
-/

namespace ViewTree

namespace Transform

def enterNode (visitors : List (Visitor σ)) (slot : Slot) (ctx : Context) :
    Walk σ (Option Context) := do
  match ← runPhase .enter visitors slot.node ctx with
  | (some replacement, _) =>
    Walk.write slot.place replacement
    return none
  | (none, ctx) => return some ctx

def leaveNode (visitors : List (Visitor σ)) (slot : Slot) (ctx : Context) : Walk σ Unit := do
  match ← runPhase .exit visitors slot.node ctx with
  | (some replacement, _) => Walk.write slot.place replacement
  | (none, _) => return ()

def tour (visitors : List (Visitor σ)) (prune : Prune σ) : Order → Tour σ
  | .preOrder | .breadthFirst =>
    { prune := prune.test
      arrive := fun _ => enterNode visitors
      leave := fun _ => leaveNode visitors }
  | .postOrder =>
    { prune := prune.test
      leave := fun _ slot ctx => do
        match ← enterNode visitors slot ctx with
        | some ctx => leaveNode visitors slot ctx
        | none => return () }

def run (fuel : Nat) (order : Order) (visitors : List (Visitor σ)) (prune : Prune σ)
    (box : ArrayRef) : Walk σ Unit := do
  (tour visitors prune order).run order fuel ((← Walk.store).rootSlots box)

/-- A primitive root is entered and left whatever the order. -/
def primitive (visitors : List (Visitor σ)) (node : Value) : Walk σ Value := do
  match ← runPhase .enter visitors node .alone with
  | (some replacement, _) => return replacement
  | (none, ctx) =>
    match ← runPhase .exit visitors node ctx with
    | (some replacement, _) => return replacement
    | (none, _) => return node

/-- Transforms a root.  Each item of an array is a root of its own, and its result is written back
into the array; `fuel` bounds the depth of arrays and the walk of each root. -/
def root (order : Order) (visitors : List (Visitor σ)) (prune : Prune σ) :
    Nat → Value → Walk σ Value
  | 0, _ => throw .exhausted
  | fuel + 1, .array ref => do
    ((← Walk.store).items ref).zipIdx.forM fun (item, position) => do
      let result ← root order visitors prune fuel item
      Walk.write (.element ref position) result
    return .array ref
  | fuel + 1, .atom a => do
    if a.isPrimitive then primitive visitors (.atom a) else
      let box ← Walk.box (.atom a)
      run fuel order visitors prune box
      Walk.unbox box
  | fuel + 1, node => do
    let box ← Walk.box node
    run fuel order visitors prune box
    Walk.unbox box

end Transform

/-- Transforms a tree.  The order is settled before anything is touched; without visitors the tree,
or its copy, is the result. -/
def transform (fuel : Nat) (visitors : List (Visitor σ)) (options : TransformOptions σ)
    (root : Value) : Walk σ Value := do
  let order ← Walk.ofExcept (Order.resolve options.order)
  let tree ← if options.clone.isTruthy then Walk.clone root else pure root
  if visitors.isEmpty then return tree
  else Transform.root order visitors options.prune fuel tree

def Tree.transform (fuel : Nat) (visitors : List (Visitor σ)) (options : TransformOptions σ)
    (world : σ) (t : Tree) : Except Failure Tree × σ :=
  let (root, s) := Store.load t {}
  match ViewTree.transform fuel visitors options root ⟨s, world⟩ with
  | .ok result session => (.ok (session.store.read result), session.world)
  | .error failure session => (.error failure, session.world)

end ViewTree
