import ViewTree.Failure

namespace ViewTree.Tree

def whole : Tree → Except Failure Int
  | .atom (.bool value) => .ok value.toNat
  | .atom (.int value) => .ok value
  | _ => .error .unsuitable

def isBelow (n : Int) : Tree → Except Failure Bool
  | .atom (.float value) => .ok (value.isBelow n)
  | given => return decide ((← given.whole) < n)

def isAtMost (n : Int) : Tree → Except Failure Bool
  | .atom (.float value) => .ok (value.isAtMost n)
  | given => return decide ((← given.whole) ≤ n)

/-- How often one can be taken from a number until it is at most zero; none if that never ends. -/
def steps? : Tree → Except Failure (Option Nat)
  | .atom (.float value) => .ok value.steps?
  | given => return some (← given.whole).toNat

@[simp] theorem isBelow_int (m n : Int) : (int m).isBelow n = .ok (decide (m < n)) := rfl

@[simp] theorem isAtMost_int (m n : Int) : (int m).isAtMost n = .ok (decide (m ≤ n)) := rfl

@[simp] theorem steps?_int (n : Int) : (int n).steps? = .ok (some n.toNat) := rfl

/-- A position in a list; a negative one counts from the end. -/
def position (length : Nat) (given : Tree) : Except Failure Nat := do
  let n ← given.whole
  if 0 ≤ n ∧ n < length then return n.toNat
  else if n < 0 ∧ 0 ≤ n + length then return (n + length).toNat
  else throw .noPosition

/-- The items a collection is made of: an object gives its names, a text its characters and bytes
their numbers. -/
def items? : Tree → Option (List Tree)
  | .tuple items | .array items => some items
  | .object members => some (members.map fun member => text member.1)
  | .atom (.text value) => some (value.toList.map fun c => text (String.singleton c))
  | .atom (.bytes bytes) => some (bytes.map fun byte => int byte.toNat)
  | .atom _ => none

def distinct (items : List Tree) : List Tree :=
  items.foldl (fun kept item => if kept.any (·.countsAs item) then kept else kept ++ [item]) []

def toSet (given : Tree) : Except Failure (List Tree) :=
  match given.items? with
  | none => .error .notCollection
  | some items => if areFixed items then .ok (distinct items) else .error .changeable

/-- A set of type names: a text is one name, any other collection gives its items. -/
def typeSet (given : Tree) : Except Failure (List Tree) :=
  match given.text? with
  | some name => .ok [text name]
  | none => given.toSet

def pair (given : Tree) : Except Failure (String × Tree) :=
  match given.items? with
  | none => .error .unsuitable
  | some [name, value] =>
    match name.text? with
    | some name => .ok (name, value)
    | none => .error .unsuitable
  | some _ => .error .malformed

def entries (given : Tree) : Except Failure (Members Tree) :=
  match given with
  | .object members => .ok members
  | given =>
    match given.items? with
    | none => .error .unsuitable
    | some items => items.mapM pair

def optionalEntries (given : Tree) : Except Failure (Members Tree) :=
  if given.isTruthy then given.entries else .ok []

end ViewTree.Tree
