import ViewTree.Store

/-!
Slots: a node together with the place that holds it.  Arrays are transparent, so the children of a
node are the non-array values found in its `children` through arrays nested to any depth.  A place
names its array and position, or its object and member, at the time of listing; later changes to
the array shift nothing.
-/

namespace ViewTree

inductive Place
  | element (array : ArrayRef) (position : Nat)
  | member (object : ObjectRef) (name : String)

structure Slot where
  node : Value
  /-- The structured node whose children the slot belongs to; none at the top level. -/
  parent : Option ObjectRef
  /-- The position in the innermost array; zero for a single child and at the top level. -/
  index : Nat
  place : Place

namespace Store

/-- Whether a store has a place: an array may have become too short to have it. -/
def has (s : Store) : Place → Bool
  | .element array position => position < (s.items array).length
  | .member _ _ => true

def write (s : Store) : Place → Value → Store
  | .element array position, value => s.setItems array ((s.items array).set position value)
  | .member object name, value => s.setMembers object ((s.members object).put name value)

/-- The slots an array in a slot stands for, through so many levels of arrays.  An array that lies in
itself stands for nothing there. -/
def expandTo (s : Store) : Nat → List ArrayRef → Slot → List Slot
  | level, path, slot =>
    match slot.node with
    | .array ref =>
      match level with
      | 0 => []
      | level + 1 =>
        if ref ∈ path then []
        else (s.items ref).zipIdx.flatMap fun (value, position) =>
          s.expandTo level (ref :: path) ⟨value, slot.parent, position, .element ref position⟩
    | _ => [slot]

def expand (s : Store) (slot : Slot) : List Slot :=
  s.expandTo s.arrays.size [] slot

/-- The slots of the children of a node: none unless it is structured and has children. -/
def childSlots (s : Store) (node : Value) : List Slot :=
  match node with
  | .object ref =>
    if (s.nodeType? node).isSome && !(s.member ref "children").isNull then
      s.expand ⟨s.member ref "children", some ref, 0, .member ref "children"⟩
    else []
  | _ => []

def rootSlots (s : Store) (box : ArrayRef) : List Slot :=
  let root := (s.items box).headD .null
  (s.expand ⟨root, none, 0, .element box 0⟩).map fun slot => { slot with index := 0 }

def typeMember (s : Store) (ref : ObjectRef) : Tree :=
  s.read (s.member ref "type")

end Store

def Slot.literal (s : Store) (slot : Slot) : String :=
  "ChildSlot(node=" ++ (s.read slot.node).literal ++ ", index=" ++ toString slot.index ++ ")"

def Slot.replace (slot : Slot) (value : Value) (s : Store) : Except Failure (Slot × Store) :=
  if s.has slot.place then .ok ({ slot with node := value }, s.write slot.place value)
  else .error .vanishedPosition

end ViewTree
