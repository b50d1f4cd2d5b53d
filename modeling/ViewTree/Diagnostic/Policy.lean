import ViewTree.Diagnostic
import ViewTree.Setting
import ViewTree.Tree.Equality

namespace ViewTree

inductive Handling
  | warn (verbose : Bool) (ownStream : Bool)
  | gather
  | failFast
  | threshold (limit : Tree) (verbose : Bool)
  | callback (keeps : Bool)
deriving DecidableEq

structure Policy (ν : Type) where
  handling : Handling
  /-- What the policy has recorded, or what a callback has kept. -/
  recorded : List (Diagnostic ν) := []
  stream : List String := []

structure Desk (ν : Type) where
  policy : Policy ν
  console : List String := []

abbrev Reporting (ν : Type) := EStateM Failure (Desk ν)

namespace Handling

def records : Handling → Bool
  | .warn .. | .gather | .threshold .. => true
  | .failFast | .callback _ => false

def default : Handling := .warn true false

def defaultLimit : Tree := .int 10

end Handling

namespace Desk

def record (diagnostic : Diagnostic ν) (desk : Desk ν) : Desk ν :=
  { desk with policy := { desk.policy with recorded := desk.policy.recorded ++ [diagnostic] } }

def print (line : String) (desk : Desk ν) : Desk ν :=
  { desk with console := desk.console ++ [line] }

def printOwn (line : String) (desk : Desk ν) : Desk ν :=
  { desk with policy := { desk.policy with stream := desk.policy.stream ++ [line] } }

end Desk

def warning (message : String) : String :=
  "WARNING: " ++ message ++ "\n"

def countedWarning (count : Nat) (limit : Tree) (message : String) : String :=
  "WARNING [" ++ toString count ++ "/" ++ limit.display ++ "]: " ++ message ++ "\n"

namespace Policy

def ofHandling (handling : Handling) : Policy ν := ⟨handling, [], []⟩

def report (diagnostic : Diagnostic ν) : Reporting ν Unit := do
  match (← get).policy.handling with
  | .warn verbose ownStream =>
    modify (·.record diagnostic)
    if verbose then
      if ownStream then modify (·.printOwn (warning diagnostic.message))
      else modify (·.print (warning diagnostic.message))
  | .gather => modify (·.record diagnostic)
  | .failFast => throw (.refused diagnostic.message)
  | .threshold limit verbose =>
    modify (·.record diagnostic)
    let count := (← get).policy.recorded.length
    match limit.isBelow count with
    | .error failure => throw failure
    | .ok true => throw (.refused diagnostic.message)
    | .ok false =>
      if verbose then modify (·.print (countedWarning count limit diagnostic.message))
  | .callback keeps => if keeps then modify (·.record diagnostic)

def list (policy : Policy ν) (otherwise : Failure) : Except Failure (List (Diagnostic ν)) :=
  if policy.handling.records then .ok policy.recorded else .error otherwise

def selectKind (kind : DiagnosticKind) (diagnostics : List (Diagnostic ν)) : List (Diagnostic ν) :=
  diagnostics.filter (·.kind = kind)

def ofKind (policy : Policy ν) (kind : Tree) : Except Failure (List (Diagnostic ν)) := do
  let diagnostics ← policy.list .keepsNoList
  return selectKind (← DiagnosticKind.ofName kind) diagnostics

def clear (policy : Policy ν) : Except Failure (Policy ν) := do
  let _ ← policy.list .keepsNoList
  return { policy with recorded := [] }

structure Statistics (ν : Type) where
  total : Nat
  unknownTypes : Nat
  unresolvedHandlers : Nat
  unresolvedContainers : Nat
  diagnostics : List (Diagnostic ν)

def statistics (policy : Policy ν) : Except Failure (Statistics ν) := do
  let diagnostics ← policy.list .keepsNoList
  let count (kind : DiagnosticKind) := (selectKind kind diagnostics).length
  return {
    total := diagnostics.length
    unknownTypes := count .unknownType
    unresolvedHandlers := count .unresolvedHandler
    unresolvedContainers := count .unresolvedContainer
    diagnostics := diagnostics }

def size (policy : Policy ν) : Except Failure Nat :=
  List.length <$> policy.list .uncounted

/-- A policy counts as false when it keeps a list and the list is empty. -/
def isTruthy (policy : Policy ν) : Bool :=
  !policy.handling.records || !policy.recorded.isEmpty

end Policy

inductive Sink
  | policy (handling : Handling)
  | keeper
  | value (given : Tree)

namespace Sink

/-- The policy a sink stands for: null stands for the default one, and a callable is handed each
diagnostic. -/
def handling : Sink → Except Failure Handling
  | .policy handling => .ok handling
  | .keeper => .ok (.callback true)
  | .value given =>
    if given.isNull then .ok .default
    else if given.isCallable then .ok (.callback false)
    else .error (.invalidSink given.typeName)

def isPolicy : Sink → Bool
  | .policy _ => true
  | .keeper | .value _ => false

end Sink

end ViewTree
