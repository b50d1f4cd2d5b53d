import ViewTree.Options

/-!
Traversals: a consumer is shown the nodes of a tree in order, each with its context, and may set the
latch of what it is shown before it asks for the next.  In pre-order and breadth-first that keeps
the walk from the children; in post-order they have been shown already.
-/

namespace ViewTree

/-- Which nodes are shown.  A filter on types shows structured nodes only. -/
inductive TypeFilter
  | all
  | among (types : List Tree)
  /-- Types from a sequence that is no set, searched item by item. -/
  | listed (types : List Tree)
  | within (text : String)
  | withinBytes (bytes : List UInt8)
  | unusable

namespace TypeFilter

def ofTypes : Option (List Tree) → TypeFilter
  | none => .all
  | some types => .among types

def ofSetting (given : Tree) : TypeFilter :=
  match given, given.items? with
  | .atom .null, _ => .all
  | .atom (.text text), _ => .within text
  | .atom (.bytes bytes), _ => .withinBytes bytes
  | .atom _, _ => .unusable
  | .object _, some types => .among types
  | _, some types => .listed types
  | _, none => .unusable

def occursIn [BEq α] (part : List α) : List α → Bool
  | [] => part.isEmpty
  | c :: rest => part.isPrefixOf (c :: rest) || occursIn part rest

def contains (type : Tree) : TypeFilter → Except Failure Bool
  | .all => .ok true
  | .among types => if type.isFixed then .ok (types.any (·.countsAs type)) else .error .changeable
  | .listed types => .ok (types.any (·.countsAs type))
  | .within text =>
    match type.text? with
    | some part => .ok (occursIn part.toList text.toList)
    | none => .error .notCollection
  | .withinBytes bytes =>
    match type with
    | .atom (.bytes part) => .ok (occursIn part bytes)
    | type => do
      let n ← type.whole
      if 0 ≤ n ∧ n < 256 then return bytes.any fun byte => (byte.toNat : Int) = n
      else throw .malformed
  | .unusable => .error .notCollection

def admits (filter : TypeFilter) (kind : Kind) (node : Value) : Walk σ Bool := do
  match filter, kind, node with
  | .all, _, _ => return true
  | filter, .structured, .object ref =>
    let s ← Walk.store
    match (s.members ref).lookup "type" with
    | some type => Walk.ofExcept (filter.contains (s.read type))
    | none => throw (.missingMember "type")
  | _, _, _ => return false

end TypeFilter

/-- Takes a node with its context and gives the context back, perhaps with the latch set. -/
abbrev Consumer (σ : Type) := Value → Context → Walk σ Context

namespace Traverse

def offer (filter : TypeFilter) (consumer : Consumer σ) (kind : Kind) (slot : Slot)
    (ctx : Context) : Walk σ Context := do
  if ← filter.admits kind slot.node then consumer slot.node ctx else return ctx

def tour (filter : TypeFilter) (consumer : Consumer σ) : Order → Tour σ
  | .preOrder | .breadthFirst =>
    { arrive := fun kind slot ctx => some <$> offer filter consumer kind slot ctx }
  | .postOrder =>
    { leave := fun kind slot ctx => discard (offer filter consumer kind slot ctx) }

end Traverse

def traverse (fuel : Nat) (order : Order) (filter : TypeFilter) (consumer : Consumer σ)
    (root : Value) : Walk σ Unit := do
  let box ← Walk.box root
  (Traverse.tour filter consumer order).run order fuel ((← Walk.store).rootSlots box)

namespace Traverse

def prepare (options : TraverseOptions) (root : Value) : Walk σ (Order × Value) := do
  let order ← Walk.ofExcept (Order.resolve options.order)
  let tree ← if options.clone.isTruthy then Walk.clone root else pure root
  return (order, tree)

structure Item where
  node : Value
  context : Context

/-- A consumer that keeps what it is shown.  It sets the latch where it chooses to, in view of the
items before. -/
def keeper (skips : List Item → Item → Bool) : Consumer (List Item) := fun node ctx => do
  let before := (← get).world
  Walk.modifyWorld (· ++ [⟨node, ctx⟩])
  return if skips before ⟨node, ctx⟩ then ctx.skipChildren else ctx

def items (fuel : Nat) (order : Order) (filter : TypeFilter) (skips : List Item → Item → Bool)
    (root : Value) (s : Store) : List Item × Option Failure :=
  match traverse fuel order filter (keeper skips) root ⟨s, []⟩ with
  | .ok _ session => (session.world, none)
  | .error failure session => (session.world, some failure)

end Traverse

def collect (fuel : Nat) (order types : Tree) (root : Value) (s : Store) :
    Except Failure (List Value × Store) :=
  let walk : Walk (List Traverse.Item) Unit := do
    let options ← Walk.ofExcept (TraverseOptions.ofSettings order types)
    let (order, tree) ← Traverse.prepare options root
    traverse fuel order (.ofTypes options.types) (Traverse.keeper fun _ _ => false) tree
  match walk ⟨s, []⟩ with
  | .ok _ session => .ok (session.world.map (·.node), session.store)
  | .error failure _ => .error failure

end ViewTree
