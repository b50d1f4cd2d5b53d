import ViewTree.Transform

/-!
Scripts: what is done at a node.  A script looks, acts, and comes to a result; it reaches the tree
only through the node and the parent in its context.  Hooks and questions about descent can be
scripted, and what holds of every script holds of every hook that keeps to this.
-/

namespace ViewTree

inductive Edit
  | set (name : String) (value : Tree)
  | delete (name : String)
  /-- Props that are no object are first replaced by an empty one. -/
  | setProp (name : String) (value : Tree)
  | deleteProp (name : String)
  | append (value : Tree)
  | insert (value : Tree)
  | pop

inductive Target
  | node
  | parent
deriving DecidableEq, Repr

inductive Action (τ : Type)
  | skip
  | mark (name : String) (value : Tree)
  | edit (target : Target) (change : Edit)
  | observe (note : View → τ → τ)
  | abandon (text : String)

inductive Answer
  | nothing
  | noChange
  | plain
  | replace (value : Tree)
  | value (given : Tree)
  | self (replacing : Bool)
  | wrap (type : Tree)
  | unwrap
  /-- A text or an integer with these texts around it. -/
  | affix (before after : String)

inductive Script (τ ρ : Type)
  | done (result : ρ)
  | act (action : Action τ) (rest : Script τ ρ)
  | look (next : View → τ → Script τ ρ)
  | lookUp (next : Option Tree → Script τ ρ)

def Script.acts (actions : List (Action τ)) (result : ρ) : Script τ ρ :=
  actions.foldr .act (.done result)

namespace Edit

def onChildren (ref : ObjectRef) (change : List Value → List Value) (s : Store) : Store :=
  match s.member ref "children" with
  | .array children => s.setItems children (change (s.items children))
  | _ => s

def apply (ref : ObjectRef) : Edit → Store → Store
  | .set name value, s =>
    let (value, s) := Store.load value s
    s.setMembers ref ((s.members ref).put name value)
  | .delete name, s => s.setMembers ref ((s.members ref).remove name)
  | .setProp name value, s =>
    let (value, s) := Store.load value s
    match s.member ref "props" with
    | .object props => s.setMembers props ((s.members props).put name value)
    | _ =>
      let (props, s) := Store.newObject [(name, value)] s
      s.setMembers ref ((s.members ref).put "props" props)
  | .deleteProp name, s =>
    match s.member ref "props" with
    | .object props => s.setMembers props ((s.members props).remove name)
    | _ => s
  | .append value, s =>
    let (value, s) := Store.load value s
    onChildren ref (fun children => children ++ [value]) s
  | .insert value, s =>
    let (value, s) := Store.load value s
    onChildren ref (fun children => value :: children) s
  | .pop, s => onChildren ref List.dropLast s

end Edit

def Target.object? (node : Value) (ctx : Context) : Target → Option ObjectRef
  | .node =>
    match node with
    | .object ref => some ref
    | _ => none
  | .parent => ctx.parent

namespace Action

def run (node : Value) (ctx : Context) : Action τ → Walk τ Context
  | .skip => return ctx.skipChildren
  | .mark name value => return ctx.mark name value
  | .edit target change => do
    match target.object? node ctx with
    | some ref => Walk.change fun s => ((), change.apply ref s)
    | none => pure ()
    return ctx
  | .observe note => do
    let view := ctx.view (← Walk.store) node
    Walk.modifyWorld (note view)
    return ctx
  | .abandon text => throw (.abandoned text)

def runAll (node : Value) : List (Action τ) → Context → Walk τ Context
  | [], ctx => return ctx
  | action :: rest, ctx => do runAll node rest (← action.run node ctx)

end Action

namespace Answer

def affixed? (before after : String) : Value → Option Value
  | .atom (.text text) => some (.atom (.text (before ++ text ++ after)))
  | .atom (.int n) => some (.atom (.text (before ++ toString n ++ after)))
  | _ => none

def reply (node : Value) : Answer → Walk τ (Reply Value)
  | .nothing => return .nothing
  | .noChange => return .outcome .noChange
  | .plain => return .outcome .plain
  | .replace given => return .outcome (.replace (← Walk.load given))
  | .value given => return .value (← Walk.load given)
  | .self true => return .outcome (.replace node)
  | .self false => return .value node
  | .wrap type => do
    match type.text?.filter (· ≠ "") with
    | none => throw (.invalidType type)
    | some name =>
      let members := [("type", .atom (.text name)), ("children", node)]
      return .value (← Walk.change (Store.newObject members))
  | .unwrap =>
    match node with
    | .object ref => return .value ((← Walk.store).member ref "children")
    | _ => return .nothing
  | .affix before after => return .value ((affixed? before after node).getD .null)

/-- What an answer settles to for a node that stands alone. -/
def outcomeFor (answer : Answer) (node : Tree) : Except Failure (Outcome Tree) :=
  let walk : Walk Unit (Outcome Value) := do
    return (← answer.reply (← Walk.load node)).settle Value.isNull
  match walk ⟨{}, ()⟩ with
  | .ok outcome session => .ok (outcome.map session.store.read)
  | .error failure _ => .error failure

end Answer

namespace Script

def run (node : Value) : Script τ ρ → Context → Walk τ (ρ × Context)
  | .done result, ctx => return (result, ctx)
  | .act action rest, ctx => do run node rest (← action.run node ctx)
  | .look next, ctx => do
    let session ← get
    run node (next (ctx.view session.store node) session.world) ctx
  | .lookUp next, ctx => do
    let s ← Walk.store
    run node (next (ctx.parent.map fun ref => s.read (.object ref))) ctx

end Script

def Hook.scripted (script : Script τ Answer) : Hook τ := fun node ctx => do
  let (answer, ctx) ← script.run node ctx
  return (← answer.reply node, ctx)

def Visitor.scripted (enter exit : Option (Script τ Answer)) : Visitor τ :=
  { enter? := enter.map Hook.scripted, exit? := exit.map Hook.scripted }

def Prune.scripted (script : Script τ Bool) : Prune τ :=
  .predicate fun node ctx => script.run node ctx

end ViewTree
