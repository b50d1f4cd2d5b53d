import ViewTree.Failure

namespace ViewTree

/-- What names of handler props start with: one of some texts.  When a name starts with none of
them, what was given besides texts is looked at, and does not do. -/
structure NameStart where
  texts : List String
  textsOnly : Bool := true

namespace NameStart

def text (start : String) : NameStart := ⟨[start], true⟩

/-- A text stands for itself, a tuple for any of its items up to one that is no text. -/
def ofTree : Tree → NameStart
  | .atom (.text start) => text start
  | .tuple items =>
    ⟨(items.takeWhile (·.text?.isSome)).filterMap Tree.text?, items.all (·.text?.isSome)⟩
  | _ => ⟨[], false⟩

def begins (start : NameStart) (name : String) : Except Failure Bool :=
  if start.texts.any fun text => text.toList.isPrefixOf name.toList then .ok true
  else if start.textsOnly then .ok false
  else .error .unsuitable

@[simp] theorem begins_text (start name : String) :
    (text start).begins name = .ok (start.toList.isPrefixOf name.toList) := by
  cases h : start.toList.isPrefixOf name.toList <;> simp [text, begins, h]

end NameStart

namespace Handler

/-- The callable a map has under a name.  Only an object can be looked into. -/
def find? (handlers : Tree) (name : String) : Except Failure (Option Atom) :=
  match handlers with
  | .object entries =>
    match entries.lookup name with
    | some (.atom (.callable handler)) => .ok (some (.callable handler))
    | _ => .ok none
  | _ => .error .notObject

end Handler

end ViewTree
