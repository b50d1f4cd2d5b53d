import ViewTree.Visitor.Script
import ViewTree.Traverse

namespace ViewTree

inductive Clause
  | type (name : String)
  | kind (kind : Kind)
  | typeName (name : String)
  | equals (value : Tree)
  | prop (name : String) (value : Tree)
  | depth (value : Tree)
  | index (value : Tree)
  | minDepth (value : Tree)
  | parentType (value : Tree)
  | skipping (value : Bool)
  | root (value : Bool)
  | attribute (name : String) (value : Tree)

namespace Clause

def propHolds (node : Tree) (name : String) (value : Tree) : Bool :=
  match node with
  | .object members =>
    match members.lookup "props" with
    | some (.object props) => ((props.lookup name).getD .null).coincides value
    | _ => false
  | _ => false

def holds (view : View) : Clause → Bool
  | .type name => view.node.nodeType? == some name
  | .kind .primitive => view.node.isPrimitive
  | .kind .array => view.node.isArray
  | .kind .structured => view.node.isStructured
  | .typeName name => view.node.typeName == name
  | .equals value => view.node.coincides value
  | .prop name value => propHolds view.node name value
  | .depth value => (Tree.int view.depth).agrees value
  | .index value => (Tree.int view.index).agrees value
  | .minDepth value => (value.isAtMost view.depth).toOption.getD false
  | .parentType value => view.parentType.agrees value
  | .skipping value => view.skipping == value
  | .root value => view.isRoot == value
  | .attribute name value => ((view.attributes.lookup name).getD .null).coincides value

end Clause

abbrev Guard := List Clause

def Guard.holds (guard : Guard) (view : View) : Bool :=
  guard.all (·.holds view)

inductive Entry
  /-- A hook call, and the number of the rule that applied. -/
  | call (visitor : Nat) (phase : Phase) (view : View) (rule : Option Nat)
  | asked (view : View)
  | note (text : String)

abbrev Journal := Array Entry

structure Rule where
  guard : Guard := []
  actions : List (Action Journal) := []
  answer : Answer := .nothing

def Action.describe : Action Journal :=
  .observe fun view journal => journal.push (.note view.describe)

namespace Rule

def choose (rules : List Rule) (view : View) : Option (Rule × Nat) :=
  rules.zipIdx.find? fun (rule, _) => rule.guard.holds view

def record (visitor : Nat) (phase : Phase) (rule : Option Nat) : Action Journal :=
  .observe fun view journal => journal.push (.call visitor phase view rule)

/-- What is done at a call: it is written down, then the chosen rule is carried out. -/
def script (visitor : Nat) (phase : Phase) (rules : List Rule) : Script Journal Answer :=
  .look fun view _ =>
    match choose rules view with
    | some (rule, number) =>
      .acts (record visitor phase (some number) :: rule.actions) rule.answer
    | none => .acts [record visitor phase none] .nothing

def visitor (number : Nat) (enter exit : Option (List Rule)) : Visitor Journal :=
  .scripted (enter.map (script number .enter)) (exit.map (script number .exit))

end Rule

def Prune.guards (guards : List Guard) : Prune Journal :=
  .scripted <| .look fun view _ =>
    .acts [.observe fun view journal => journal.push (.asked view)] (guards.any (·.holds view))

end ViewTree
