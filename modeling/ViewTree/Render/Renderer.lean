import ViewTree.Node
import ViewTree.Handler
import ViewTree.Diagnostic.Policy
import ViewTree.Render.Host
import ViewTree.Render.Registry

namespace ViewTree

structure Renderer where
  resolver : Resolver := .layered {}
  handlers : Tree := .object []
  start : NameStart := .text "on"
  host : Host := {}

abbrev Rendering := Reporting Tree

namespace Renderer

def ofExcept : Except Failure α → Rendering α
  | .ok value => pure value
  | .error failure => throw failure

def handler? (renderer : Renderer) (name : String) : Except Failure (Option Atom) :=
  if renderer.handlers.isTruthy then Handler.find? renderer.handlers name else .ok none

/-- A prop, its handler put in place of the name; a name without a handler stays. -/
def resolveProp (renderer : Renderer) (node : Tree) (name : String) (value : Tree) :
    Rendering (String × Tree) := do
  if ← ofExcept (renderer.start.begins name) then
    match value.text? with
    | none => return (name, value)
    | some handlerName =>
      match ← ofExcept (renderer.handler? handlerName) with
      | some handler => return (name, .atom handler)
      | none =>
        Policy.report (.unresolvedHandler node name handlerName)
        return (name, value)
  else return (name, value)

def resolveProps (renderer : Renderer) (node : Tree) (props : Members Tree) :
    Rendering (Members Tree) :=
  props.mapM fun (name, value) => renderer.resolveProp node name value

def processProps (renderer : Renderer) (node props : Tree) : Rendering (Members Tree) :=
  match props with
  | .object members => renderer.resolveProps node members
  | _ => throw .notObject

def isKey (t : Tree) : Bool :=
  !t.isNull && !t.agrees (.text "")

/-- The key of an element: the key or the id of its node, or else those of its props. -/
def keyOf (members props : Members Tree) : Option Tree :=
  [members.lookup "key", members.lookup "id", props.lookup "key", props.lookup "id"].findSome?
    fun candidate => candidate.filter isKey

def containerFor (renderer : Renderer) (node container : Tree) : Rendering Tree := do
  match container with
  | .atom .null => return renderer.host.fallback
  | .atom (.text selector) =>
    let found := renderer.host.find selector
    if found.isNull then
      Policy.report (.unresolvedContainer node selector)
      return renderer.host.fallback
    else return found
  | container => return container

def build (renderer : Renderer) (node component : Tree) (props : Members Tree)
    (children : List Output) (key : Option Tree) : Rendering Output := do
  match component with
  | .atom (.marker .fragment) => return .list children
  | .atom (.marker .portal) =>
    let container ← renderer.containerFor node ((props.lookup "container").getD .null)
    return .portal container children key
  | component => return .element component props children key

def renderAtom (node : Tree) (a : Atom) : Rendering Output := do
  match a.classify with
  | .error cause =>
    Policy.report (.notRendered node cause)
    return .nothing
  | .ok _ =>
    match a with
    | .null | .bool _ => return .nothing
    | a => return .leaf a

def propsOf (members : Members Tree) : Tree :=
  let props := (members.lookup "props").getD .null
  if props.isTruthy then props else .object []

mutual
def render (renderer : Renderer) : Tree → Rendering Output
  | .atom a => renderAtom (.atom a) a
  | .tuple items => do
    Policy.report (.notRendered (.tuple items) (.foreign (Tree.tuple items).typeName))
    return .nothing
  | .array items => .list <$> renderAll renderer items
  | .object members => do
    let node := Tree.object members
    match node.nodeType? with
    | none =>
      Policy.report (.notRendered node (.untyped node))
      return .nothing
    | some type =>
      match ← ofExcept (renderer.resolver.resolve (.text type)) with
      | none =>
        Policy.report (.unknownComponent node type)
        return .nothing
      | some component =>
        let props ← renderer.processProps node (propsOf members)
        let children ← renderBelow renderer members
        renderer.build node component (Members.remove "key" props) children (keyOf members props)

/-- Renders a list of nodes into one flat list. -/
def renderAll (renderer : Renderer) : List Tree → Rendering (List Output)
  | [] => return []
  | item :: rest => do
    let output ← render renderer item
    let outputs ← renderAll renderer rest
    return output.splice ++ outputs

def renderBelow (renderer : Renderer) : List (String × Tree) → Rendering (List Output)
  | [] => return []
  | (name, value) :: rest => do
    if name = "children" then
      let output ← render renderer value
      return output.splice
    else renderBelow renderer rest
end

def renderChildren (renderer : Renderer) (children : Tree) : Rendering (List Output) :=
  Output.splice <$> renderer.render children

end Renderer

end ViewTree
