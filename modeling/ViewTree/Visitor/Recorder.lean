import ViewTree.Transform

namespace ViewTree

namespace Recorder

structure Contact where
  phase : Phase
  label : String
  depth : Nat
  index : Nat
deriving DecidableEq

structure Log where
  events : Array String := #[]
  contacts : Array Contact := #[]

def Contact.event (contact : Contact) : String :=
  contact.phase.name ++ "-" ++ contact.label

def Log.add (contact : Contact) (log : Log) : Log :=
  { events := log.events.push contact.event, contacts := log.contacts.push contact }

/-- The label in an event of a phase. -/
def labelOf? (phase : Phase) (event : String) : Option String :=
  if (phase.name.toList ++ ['-']).isPrefixOf event.toList then
    some (String.ofList ((event.toList.dropWhile (· ≠ '-')).drop 1))
  else none

def Log.labels (phase : Phase) (log : Log) : List String :=
  log.events.toList.filterMap (labelOf? phase)

structure Settings where
  skipTypes : List Tree := []
  recordPrimitives : Bool := true

def record (settings : Settings) (phase : Phase) (node : Value) (ctx : Context) :
    Walk Log Unit := do
  let s ← Walk.store
  match s.nodeType? node with
  | some type => Walk.modifyWorld (Log.add ⟨phase, type, ctx.depth, ctx.index⟩)
  | none =>
    if settings.recordPrimitives then
      Walk.modifyWorld (Log.add ⟨phase, (s.read node).literal, ctx.depth, ctx.index⟩)

def enter (settings : Settings) : Hook Log := fun node ctx => do
  record settings .enter node ctx
  match (← Walk.store).nodeType? node with
  | some type =>
    if settings.skipTypes.any (·.countsAs (.text type)) then return (.nothing, ctx.skipChildren)
    else return (.nothing, ctx)
  | none => return (.nothing, ctx)

def exit (settings : Settings) : Hook Log := fun node ctx => do
  record settings .exit node ctx
  return (.nothing, ctx)

end Recorder

def recorder (settings : Recorder.Settings) : Visitor Recorder.Log :=
  { enter? := some (Recorder.enter settings), exit? := some (Recorder.exit settings) }

end ViewTree
