import ViewTree.Setting

/-!
Component registries.  A type resolves in three steps: to the entry it has in the registry, to the
built-in marker of that name, or to its own name.  An entry that is null blocks its type.
-/

namespace ViewTree

def Marker.ofName? (name : String) : Option Marker :=
  if name = Marker.fragment.name then some .fragment
  else if name = Marker.portal.name then some .portal
  else none

@[simp] theorem Marker.ofName?_name (marker : Marker) : ofName? marker.name = some marker := by
  cases marker <;> decide

def Marker.component (marker : Marker) : Tree := .atom (.marker marker)

def Tree.component? (t : Tree) : Option Tree :=
  if t.isNull then none else some t

structure Registry where
  entries : Members Tree := []
  nodup_names : entries.names.Nodup := by exact List.nodup_nil

namespace Registry

def extend (registry : Registry) (entries : Members Tree) : Registry :=
  ⟨Members.putAll registry.entries entries,
    Members.nodup_names_putAll registry.nodup_names entries⟩

def ofEntries (entries : Members Tree) : Registry :=
  extend {} entries

def ofSettings (entries : Tree) : Except Failure Registry :=
  ofEntries <$> entries.optionalEntries

def extendBy (registry : Registry) (entries : Tree) : Except Failure Registry :=
  registry.extend <$> entries.entries

/-- The component of a type; none for what is no non-empty text, and for a blocked type. -/
def resolve (registry : Registry) (type : Tree) : Option Tree :=
  match type.text? with
  | none => none
  | some name =>
    if name = "" then none
    else
      match registry.entries.lookup name with
      | some entry => entry.component?
      | none =>
        match Marker.ofName? name with
        | some marker => some marker.component
        | none => some (.text name)

def isBuiltin (registry : Registry) (type : Tree) : Bool :=
  match registry.resolve type with
  | some (.atom (.marker _)) => true
  | _ => false

def contains (registry : Registry) (type : Tree) : Bool :=
  (registry.resolve type).isSome

def get (registry : Registry) (type : Tree) : Except Failure Tree :=
  match registry.resolve type with
  | some component => .ok component
  | none => .error (.unresolved type)

def getD (registry : Registry) (type default : Tree) : Tree :=
  (registry.resolve type).getD default

def keys (registry : Registry) : List String :=
  registry.entries.names

def items (registry : Registry) : Except Failure (Members Tree) :=
  registry.keys.mapM fun name => return (name, ← registry.get (.text name))

def values (registry : Registry) : Except Failure (List Tree) :=
  registry.items.map fun items => items.map Prod.snd

def size (registry : Registry) : Nat :=
  registry.entries.length

def extendWith (registry other : Registry) : Except Failure Registry :=
  registry.extend <$> other.items

/-- Registries are compared by their items. -/
def agrees (registry other : Registry) : Except Failure Bool := do
  let items ← registry.items
  let others ← other.items
  return (Tree.object items).agrees (.object others)

def literal (registry : Registry) : String :=
  let names := registry.keys.mergeSort fun a b => decide (a ≤ b)
  "ComponentRegistry(" ++ (Tree.array (names.map Tree.text)).literal ++ ")"

end Registry

inductive Resolver
  /-- Every type but the blocked ones has a component. -/
  | layered (registry : Registry)
  /-- Only the given entries and the built-in markers are components. -/
  | strict (entries : Members Tree)
  | unusable

namespace Resolver

/-- The component an entry of a strict resolver gives: a null entry leaves room for a marker. -/
def strictComponent (entries : Members Tree) (name : String) : Option Tree :=
  match (entries.lookup name).bind Tree.component? with
  | some component => some component
  | none => (Marker.ofName? name).map Marker.component

/-- The component of a type.  A strict resolver cannot look up what can change. -/
def resolve (resolver : Resolver) (type : Tree) : Except Failure (Option Tree) :=
  match resolver with
  | .layered registry => .ok (registry.resolve type)
  | .strict entries =>
    if type.isFixed then .ok (type.text?.bind (strictComponent entries))
    else .error .changeable
  | .unusable => .error .notObject

def ofTree : Tree → Resolver
  | .atom .null => .layered {}
  | .object entries => .strict entries
  | _ => .unusable

end Resolver

end ViewTree
