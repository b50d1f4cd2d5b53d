import ViewTree.Setting

namespace ViewTree

structure Host where
  containers : Members Tree := []
  fallback : Tree := .text "body"

namespace Host

/-- A selector finds the container of that name; with a leading `#`, also the one of the name
without it.  A container that is null is not found. -/
def find (host : Host) (selector : String) : Tree :=
  match host.containers.lookup selector with
  | some container => container
  | none =>
    match selector.toList with
    | '#' :: name => (host.containers.lookup (String.ofList name)).getD .null
    | _ => .null

def findBy (host : Host) (selector : Tree) : Except Failure Tree :=
  match selector with
  | .atom (.text selector) => .ok (host.find selector)
  | .atom (.bytes _) => .error .unsuitable
  | selector => .error (if selector.isFixed then .notText else .changeable)

def add (host : Host) (name : String) (container : Tree) : Host :=
  { host with containers := host.containers.put name container }

def ofSettings (containers fallback : Tree) : Except Failure Host :=
  return { containers := Members.putAll [] (← containers.optionalEntries), fallback := fallback }

end Host

inductive Output
  | nothing
  | leaf (value : Atom)
  | element (component : Tree) (props : List (String × Tree)) (children : List Output)
      (key : Option Tree)
  | portal (container : Tree) (children : List Output) (key : Option Tree)
  | list (items : List Output)

instance : Inhabited Output := ⟨.nothing⟩

namespace Output

/-- What an output adds to a list of children: nothing vanishes and lists are spliced in. -/
def splice : Output → List Output
  | .nothing => []
  | .list items => items
  | output => [output]

@[simp] theorem splice_nothing : nothing.splice = [] := rfl

@[simp] theorem splice_list (items : List Output) : (list items).splice = items := rfl

@[simp] theorem splice_leaf (value : Atom) : (leaf value).splice = [leaf value] := rfl

end Output

end ViewTree
