import ViewTree.Node

/-!
Arrays and objects that are written to while a tree is walked.  A store keeps them in two spaces, so
a write to an array never touches an object and the reverse.  A `Value` is what one position holds:
an atom, a frozen tuple, or a reference.  Reading through a reference that is not there gives an
empty cell, and writing through one does nothing.
-/

namespace ViewTree

structure ArrayRef where
  index : Nat
deriving DecidableEq

structure ObjectRef where
  index : Nat
deriving DecidableEq

inductive Value
  | atom (value : Atom)
  | tuple (items : List Tree)
  | array (ref : ArrayRef)
  | object (ref : ObjectRef)

instance : Inhabited Value := ⟨.atom .null⟩

structure Store where
  arrays : Array (List Value) := #[]
  objects : Array (Members Value) := #[]

namespace Value

def null : Value := .atom .null

def isNull : Value → Bool
  | .atom .null => true
  | _ => false

def text? : Value → Option String
  | .atom a => a.text?
  | _ => none

/-- Whether two values are one array or one object; nothing for values without identity. -/
def sameCell? : Value → Value → Option Bool
  | .array a, .array b => some (a = b)
  | .object a, .object b => some (a = b)
  | .array _, _ | .object _, _ => some false
  | .atom _, _ | .tuple _, _ => none

end Value

namespace Store

def items (s : Store) (ref : ArrayRef) : List Value :=
  s.arrays[ref.index]?.getD []

def members (s : Store) (ref : ObjectRef) : Members Value :=
  s.objects[ref.index]?.getD []

def setItems (s : Store) (ref : ArrayRef) (items : List Value) : Store :=
  { s with arrays := s.arrays.setIfInBounds ref.index items }

def setMembers (s : Store) (ref : ObjectRef) (members : Members Value) : Store :=
  { s with objects := s.objects.setIfInBounds ref.index members }

def newArray (items : List Value) (s : Store) : Value × Store :=
  (.array ⟨s.arrays.size⟩, { s with arrays := s.arrays.push items })

def newObject (members : Members Value) (s : Store) : Value × Store :=
  (.object ⟨s.objects.size⟩, { s with objects := s.objects.push members })

def member (s : Store) (ref : ObjectRef) (name : String) : Value :=
  ((s.members ref).lookup name).getD .null

@[simp] theorem items_setItems_self (s : Store) (ref : ArrayRef) (items : List Value)
    (h : ref.index < s.arrays.size) : (s.setItems ref items).items ref = items := by
  simp [Store.items, setItems, h]

theorem items_setItems_of_ne (s : Store) {ref other : ArrayRef} (h : other ≠ ref)
    (items : List Value) : (s.setItems ref items).items other = s.items other := by
  have : ref.index ≠ other.index := fun heq => h (by cases ref; cases other; simp_all)
  simp [Store.items, setItems, this]

@[simp] theorem members_setItems (s : Store) (ref : ArrayRef) (items : List Value)
    (other : ObjectRef) : (s.setItems ref items).members other = s.members other := rfl

@[simp] theorem members_setMembers_self (s : Store) (ref : ObjectRef) (members : Members Value)
    (h : ref.index < s.objects.size) : (s.setMembers ref members).members ref = members := by
  simp [Store.members, setMembers, h]

theorem members_setMembers_of_ne (s : Store) {ref other : ObjectRef} (h : other ≠ ref)
    (members : Members Value) : (s.setMembers ref members).members other = s.members other := by
  have : ref.index ≠ other.index := fun heq => h (by cases ref; cases other; simp_all)
  simp [Store.members, setMembers, this]

@[simp] theorem items_setMembers (s : Store) (ref : ObjectRef) (members : Members Value)
    (other : ArrayRef) : (s.setMembers ref members).items other = s.items other := rfl

theorem items_newArray_of_lt (s : Store) (items : List Value) {ref : ArrayRef}
    (h : ref.index < s.arrays.size) : (newArray items s).2.items ref = s.items ref := by
  simp [Store.items, newArray, Array.getElem?_push, Nat.ne_of_lt h]

theorem members_newObject_of_lt (s : Store) (members : Members Value) {ref : ObjectRef}
    (h : ref.index < s.objects.size) : (newObject members s).2.members ref = s.members ref := by
  simp [Store.members, newObject, Array.getElem?_push, Nat.ne_of_lt h]

@[simp] theorem members_newArray (s : Store) (items : List Value) (ref : ObjectRef) :
    (newArray items s).2.members ref = s.members ref := rfl

@[simp] theorem items_newObject (s : Store) (members : Members Value) (ref : ArrayRef) :
    (newObject members s).2.items ref = s.items ref := rfl

mutual
def load : Tree → Store → Value × Store
  | .atom a, s => (.atom a, s)
  | .tuple items, s => (.tuple items, s)
  | .array items, s =>
    let (values, s) := loadItems items s
    newArray values s
  | .object members, s =>
    let (values, s) := loadMembers members s
    newObject values s

def loadItems : List Tree → Store → List Value × Store
  | [], s => ([], s)
  | item :: rest, s =>
    let (value, s) := load item s
    let (values, s) := loadItems rest s
    (value :: values, s)

def loadMembers : List (String × Tree) → Store → Members Value × Store
  | [], s => ([], s)
  | (name, item) :: rest, s =>
    let (value, s) := load item s
    let (values, s) := loadMembers rest s
    ((name, value) :: values, s)
end

inductive Cell
  | array (ref : ArrayRef)
  | object (ref : ObjectRef)
deriving DecidableEq

/-- The tree below a value, down to a number of levels.  A path that comes back to a cell it has
passed ends there in null. -/
def readTo (s : Store) : Nat → List Cell → Value → Tree
  | _, _, .atom a => .atom a
  | _, _, .tuple items => .tuple items
  | 0, _, .array _ | 0, _, .object _ => .null
  | level + 1, path, .array ref =>
    if .array ref ∈ path then .null
    else .array ((s.items ref).map (s.readTo level (.array ref :: path)))
  | level + 1, path, .object ref =>
    if .object ref ∈ path then .null
    else .object ((s.members ref).map fun member =>
      (member.1, s.readTo level (.object ref :: path) member.2))

def cellCount (s : Store) : Nat :=
  s.arrays.size + s.objects.size

/-- The tree below a value.  No path passes more cells than there are. -/
def read (s : Store) (value : Value) : Tree :=
  s.readTo (s.cellCount + 1) [] value

def cellsTo (s : Store) : Nat → Value → List Cell
  | _, .atom _ | _, .tuple _ => []
  | 0, .array ref => [.array ref]
  | 0, .object ref => [.object ref]
  | level + 1, .array ref => .array ref :: (s.items ref).flatMap (s.cellsTo level)
  | level + 1, .object ref =>
    .object ref :: (s.members ref).flatMap fun member => s.cellsTo level member.2

def cells (s : Store) (value : Value) : List Cell :=
  s.cellsTo s.cellCount value

def disjoint (s : Store) (a b : Value) : Bool :=
  let others := s.cells b
  (s.cells a).all fun cell => cell ∉ others

/-- A structural duplicate: every array and object below the value is laid out afresh, and all else
is the very thing it was. -/
def clone (value : Value) (s : Store) : Value × Store :=
  load (s.read value) s

def classify (s : Store) : Value → Except Misfit Kind
  | .atom a => a.classify
  | .tuple items => .error (.foreign (Tree.tuple items).typeName)
  | .array _ => .ok .array
  | .object ref =>
    match Members.nodeType? Value.text? (s.members ref) with
    | some _ => .ok .structured
    | none => .error (.untyped (s.read (.object ref)))

def nodeType? (s : Store) : Value → Option String
  | .object ref => Members.nodeType? Value.text? (s.members ref)
  | _ => none

def isTruthy (s : Store) : Value → Bool
  | .atom a => a.isTruthy
  | .tuple items => !items.isEmpty
  | .array ref => !(s.items ref).isEmpty
  | .object ref => !(s.members ref).isEmpty

end Store

end ViewTree
