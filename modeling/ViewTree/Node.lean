import ViewTree.Failure

/-!
Nodes of a view.  A node is a primitive, an array of siblings, or a structured node: an object with
a non-empty text as its `type`.  Every other value is a misfit.
-/

namespace ViewTree

inductive Kind
  | primitive
  | array
  | structured
deriving DecidableEq, Repr

def Kind.name : Kind → String
  | .primitive => "primitive"
  | .array => "array"
  | .structured => "structured"

def Members.nodeType? (asText : α → Option String) (members : Members α) : Option String :=
  ((members.lookup "type").bind asText).filter (· ≠ "")

def Atom.classify (a : Atom) : Except Misfit Kind :=
  if a.isPrimitive then .ok .primitive else .error (.foreign a.typeName)

namespace Tree

def classify : Tree → Except Misfit Kind
  | .atom a => a.classify
  | .tuple items => .error (.foreign (tuple items).typeName)
  | .array _ => .ok .array
  | .object members =>
    match Members.nodeType? text? members with
    | some _ => .ok .structured
    | none => .error (.untyped (.object members))

def isPrimitive : Tree → Bool
  | .atom a => a.isPrimitive
  | _ => false

def isArray : Tree → Bool
  | .array _ => true
  | _ => false

def nodeType? : Tree → Option String
  | .object members => Members.nodeType? text? members
  | _ => none

def isStructured (t : Tree) : Bool :=
  t.nodeType?.isSome

/-- What a visit to a node is labelled with. -/
def label (t : Tree) : String :=
  t.nodeType?.getD t.literal

theorem isPrimitive_iff_classify (t : Tree) :
    t.isPrimitive = true ↔ t.classify = .ok .primitive := by
  cases t with
  | atom a => simp [isPrimitive, classify, Atom.classify]
  | object members =>
      simp only [isPrimitive, classify]
      split <;> simp
  | _ => simp [isPrimitive, classify]

theorem isStructured_iff_classify (t : Tree) :
    t.isStructured = true ↔ t.classify = .ok .structured := by
  cases t with
  | atom a =>
      simp only [isStructured, nodeType?, classify, Atom.classify]
      split <;> simp
  | object members =>
      simp only [isStructured, nodeType?, classify]
      split <;> simp_all
  | _ => simp [isStructured, nodeType?, classify]

/-- A structured node.  Props that are null, children that are not given, and a key or an id that
counts as false are left out. -/
def node (type : Tree) (props : Tree := null) (children : Option Tree := none)
    (key : Tree := null) (id : Tree := null) : Except Failure Tree :=
  match type.text?.filter (· ≠ "") with
  | none => .error (.invalidType type)
  | some name => .ok <| .object <|
      [("type", text name)] ++
      (if props.isNull then [] else [("props", props)]) ++
      (children.toList.map fun value => ("children", value)) ++
      (if key.isTruthy then [("key", key)] else []) ++
      (if id.isTruthy then [("id", id)] else [])

def group (children : Tree) (key : Tree := null) : Except Failure Tree :=
  node (text Marker.fragment.name) (.object []) (some children) key

def redirect (target children : Tree) (key : Tree := null) : Except Failure Tree :=
  node (text Marker.portal.name) (.object [("container", target)]) (some children) key

end Tree

end ViewTree
