import ViewTree.Members
import ViewTree.Number.Double
import ViewTree.Order

namespace ViewTree

inductive Marker
  | fragment
  | portal
deriving DecidableEq, Repr

def Marker.name : Marker → String
  | .fragment => "Fragment"
  | .portal => "Portal"

/-- Values without parts.  A callable and a token are known by name only: equal names are the same
thing, and only a callable can be called. -/
inductive Atom
  | null
  | bool (value : Bool)
  | int (value : Int)
  | float (value : Double)
  | text (value : String)
  | bytes (value : List UInt8)
  | callable (name : String)
  | token (name : String)
  | marker (value : Marker)
  | order (value : Order)
deriving DecidableEq

inductive Tree
  | atom (value : Atom)
  /-- A sequence that is no array: it is neither walked nor written to. -/
  | tuple (items : List Tree)
  | array (items : List Tree)
  | object (members : List (String × Tree))

instance : Inhabited Tree := ⟨.atom .null⟩

namespace Atom

def isTruthy : Atom → Bool
  | null => false
  | bool value => value
  | int value => value ≠ 0
  | float value => !value.isZero
  | text value => value ≠ ""
  | bytes value => value ≠ []
  | callable _ | token _ | marker _ | order _ => true

def typeName : Atom → String
  | null => "NoneType"
  | bool _ => "bool"
  | int _ => "int"
  | float _ => "float"
  | text _ => "str"
  | bytes _ => "bytes"
  | callable _ => "Fn"
  | token _ => "Obj"
  | marker _ => "BuiltinComponent"
  | order _ => "TraversalOrder"

def isPrimitive : Atom → Bool
  | null | bool _ | int _ | float _ | text _ => true
  | _ => false

def isCallable : Atom → Bool
  | callable _ => true
  | _ => false

def text? : Atom → Option String
  | text value => some value
  | _ => none

def integer? : Atom → Option Int
  | bool value => some value.toNat
  | int value => some value
  | float value => value.toInt?
  | _ => none

/-- Numbers agree when they have the same value, all else when it is the same. -/
def agrees : Atom → Atom → Bool
  | float a, float b => a.sameValue b
  | a, b =>
    match a.integer?, b.integer? with
    | some m, some n => m = n
    | _, _ => a = b

end Atom

namespace Tree

def null : Tree := .atom .null

def bool (value : Bool) : Tree := .atom (.bool value)

def int (value : Int) : Tree := .atom (.int value)

def text (value : String) : Tree := .atom (.text value)

def isNull : Tree → Bool
  | .atom .null => true
  | _ => false

def isCallable : Tree → Bool
  | .atom a => a.isCallable
  | _ => false

def text? : Tree → Option String
  | .atom a => a.text?
  | _ => none

def integer? : Tree → Option Int
  | .atom a => a.integer?
  | _ => none

def isTruthy : Tree → Bool
  | .atom a => a.isTruthy
  | .tuple items | .array items => !items.isEmpty
  | .object members => !members.isEmpty

def typeName : Tree → String
  | .atom a => a.typeName
  | .tuple _ => "tuple"
  | .array _ => "list"
  | .object _ => "dict"

def member (name : String) : Tree → Tree
  | .object members => (members.lookup name).getD null
  | _ => null

@[simp] theorem isNull_null : null.isNull = true := rfl

@[simp] theorem isTruthy_null : null.isTruthy = false := rfl

theorem eq_null_of_isNull {t : Tree} (h : t.isNull = true) : t = null := by
  unfold isNull at h
  split at h
  · rfl
  · cases h

mutual
def isFixed : Tree → Bool
  | .atom _ => true
  | .tuple items => areFixed items
  | .array _ | .object _ => false

def areFixed : List Tree → Bool
  | [] => true
  | item :: rest => item.isFixed && areFixed rest
end

def isSameAtom : Tree → Tree → Bool
  | .atom a, .atom b => a = b
  | _, _ => false

mutual
/-- Agreement part by part; the order of members does not matter.  Parts that are the very same atom
agree, so a NaN agrees with itself as a part of something, though not on its own. -/
def agrees : Tree → Tree → Bool
  | .atom a, .atom b => a.agrees b
  | .tuple as, .tuple bs | .array as, .array bs => itemsAgree as bs
  | .object as, .object bs => as.length = bs.length && membersAgree as bs
  | _, _ => false

def itemsAgree : List Tree → List Tree → Bool
  | [], [] => true
  | a :: as, b :: bs => (a.isSameAtom b || a.agrees b) && itemsAgree as bs
  | _, _ => false

def membersAgree : List (String × Tree) → List (String × Tree) → Bool
  | [], _ => true
  | (name, a) :: as, bs =>
    (match bs.lookup name with
      | some b => a.isSameAtom b || a.agrees b
      | none => false) && membersAgree as bs
end

def countsAs (a b : Tree) : Bool :=
  a.isSameAtom b || a.agrees b

def coincides (a b : Tree) : Bool :=
  a.typeName == b.typeName && a.agrees b

end Tree

end ViewTree
