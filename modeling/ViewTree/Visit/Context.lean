import ViewTree.Slot

namespace ViewTree

structure Context where
  depth : Nat
  parent : Option ObjectRef
  index : Nat
  /-- Once set, the children of the node are not visited. -/
  skipping : Bool := false
  attributes : Members Tree := []

def Context.skipChildren (ctx : Context) : Context :=
  { ctx with skipping := true }

def Context.mark (ctx : Context) (name : String) (value : Tree) : Context :=
  { ctx with attributes := ctx.attributes.put name value }

def Slot.context (slot : Slot) (depth : Nat) : Context :=
  ⟨depth, slot.parent, slot.index, false, []⟩

def Context.alone : Context :=
  ⟨0, none, 0, false, []⟩

@[simp] theorem Context.skipping_skipChildren (ctx : Context) :
    ctx.skipChildren.skipping = true := rfl

@[simp] theorem Slot.skipping_context (slot : Slot) (depth : Nat) :
    (slot.context depth).skipping = false := rfl

def positionText (depth : String) (parentType : Tree) (index : String) (skipping : Bool) : String :=
  "TransformContext(depth=" ++ depth ++ ", parent=" ++ parentType.literal ++
    ", index=" ++ index ++ ", skip=" ++ (Tree.bool skipping).literal ++ ")"

structure Standing where
  depth : Tree := .int 0
  parent : Tree := .null
  index : Tree := .int 0
  skipping : Bool := false

namespace Standing

def skipChildren (standing : Standing) : Standing :=
  { standing with skipping := true }

def isRoot (standing : Standing) : Bool :=
  standing.parent.isNull && standing.depth.agrees (.int 0)

def describe (standing : Standing) : String :=
  positionText standing.depth.display (standing.parent.member "type") standing.index.display
    standing.skipping

end Standing

structure View where
  node : Tree
  /-- The type of the parent as it is now, null if it has lost it; none without a parent. -/
  parentType? : Option Tree
  depth : Nat
  index : Nat
  skipping : Bool
  attributes : Members Tree

namespace View

def parentType (view : View) : Tree :=
  view.parentType?.getD .null

def isRoot (view : View) : Bool :=
  view.parentType?.isNone && view.depth == 0

def describe (view : View) : String :=
  positionText (toString view.depth) view.parentType (toString view.index) view.skipping

end View

def Context.view (ctx : Context) (s : Store) (node : Value) : View :=
  { node := s.read node
    parentType? := ctx.parent.map s.typeMember
    depth := ctx.depth
    index := ctx.index
    skipping := ctx.skipping
    attributes := ctx.attributes }

end ViewTree
