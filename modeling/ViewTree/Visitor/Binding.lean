import ViewTree.Transform
import ViewTree.Handler
import ViewTree.Diagnostic.Policy

namespace ViewTree

def Walk.report (diagnostic : Diagnostic Value) : Walk (Desk Value) Unit := fun session =>
  match Policy.report diagnostic session.world with
  | .ok _ desk => .ok () { session with world := desk }
  | .error failure desk => .error failure { session with world := desk }

namespace Binding

structure Settings where
  handlers : Tree
  start : NameStart := .text "on"
  warnOnMissing : Bool := true

def bindProp (settings : Settings) (node : Value) (props : ObjectRef) (name : String)
    (value : Value) : Walk (Desk Value) Unit := do
  if ← Walk.ofExcept (settings.start.begins name) then
    match value.text? with
    | none => return ()
    | some handlerName =>
      match ← Walk.ofExcept (Handler.find? settings.handlers handlerName) with
      | some handler => Walk.write (.member props name) (.atom handler)
      | none =>
        if settings.warnOnMissing then
          Walk.report (.unresolvedHandler node name handlerName)

def enter (settings : Settings) : Hook (Desk Value) := fun node ctx => do
  let s ← Walk.store
  match node with
  | .object ref =>
    if (s.nodeType? node).isSome && s.isTruthy (s.member ref "props") then
      match s.member ref "props" with
      | .object props =>
        (s.members props).forM fun (name, value) => bindProp settings node props name value
      | _ => throw .notObject
  | _ => pure ()
  return (.nothing, ctx)

end Binding

def bindHandlers (settings : Binding.Settings) : Visitor (Desk Value) :=
  { enter? := some (Binding.enter settings) }

end ViewTree
