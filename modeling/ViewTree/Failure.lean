import ViewTree.Tree.Literal

namespace ViewTree

inductive Misfit
  | untyped (value : Tree)
  | foreign (typeName : String)

def Misfit.message : Misfit → String
  | .untyped value => "Structured node requires a non-empty string 'type': " ++ value.literal
  | .foreign typeName => "Not a tree node: " ++ typeName

inductive Failure
  | invalidNode (cause : Misfit)
  | invalidType (given : Tree)
  | invalidOrder (given : Tree)
  | refused (message : String)
  | invalidSink (typeName : String)
  | unresolved (name : Tree)
  | abandoned (text : String)
  | unknownField (name : String)
  | missingField (name : String)
  | notCallable
  | notCollection
  | changeable
  | unsuitable
  /-- A value has a suitable type, but is not made as it should be. -/
  | malformed
  | readOnly
  | uncounted
  | keepsNoList
  | notObject
  | notText
  | missingMember (name : String)
  | unknownKind (name : Tree)
  /-- A replacement was to be written past the end of an array. -/
  | vanishedPosition
  | noPosition
  | stopped
  /-- The bound on the length of a walk was reached. -/
  | exhausted

def Order.invalidMessage (given : Tree) : String :=
  "Invalid traversal order: " ++ given.literal

def Failure.message? : Failure → Option String
  | .invalidNode cause => some cause.message
  | .invalidType given => some ("Node type must be a non-empty string, got " ++ given.literal)
  | .invalidOrder given => some (Order.invalidMessage given)
  | .refused message => some message
  | .invalidSink typeName =>
    some ("Diagnostic sink must be a DiagnosticPolicy or callable, got " ++ typeName)
  | .unresolved name => some name.literal
  | .abandoned text => some text
  | _ => none

def Members.checkFields (required optional : List String) (fields : Members α) :
    Except Failure Unit := do
  for name in fields.names do
    unless name ∈ required ++ optional do
      throw (.unknownField name)
  for name in required do
    unless name ∈ fields.names do
      throw (.missingField name)

end ViewTree
