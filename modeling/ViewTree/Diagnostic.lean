import ViewTree.Failure

namespace ViewTree

inductive DiagnosticKind
  | unknownType
  | unresolvedHandler
  | unresolvedContainer
deriving DecidableEq, Repr

namespace DiagnosticKind

def name : DiagnosticKind → String
  | unknownType => "unknown_type"
  | unresolvedHandler => "unresolved_handler"
  | unresolvedContainer => "unresolved_container"

def all : List DiagnosticKind := [unknownType, unresolvedHandler, unresolvedContainer]

def ofName (given : Tree) : Except Failure DiagnosticKind :=
  match all.find? fun kind => (Tree.text kind.name).agrees given with
  | some kind => .ok kind
  | none => .error (.unknownKind given)

@[simp] theorem mem_all (kind : DiagnosticKind) : kind ∈ all := by
  cases kind <;> decide

end DiagnosticKind

/-- A reported condition; `ν` is what stands for the node it is about. -/
structure Diagnostic (ν : Type) where
  kind : DiagnosticKind
  message : String
  node : ν
  detail : Tree := .object []

namespace Diagnostic

def unresolvedHandler (node : ν) (prop handler : String) : Diagnostic ν :=
  { kind := .unresolvedHandler
    message := "Event handler not found: " ++ handler
    node := node
    detail := .object [("prop", .text prop), ("handler", .text handler)] }

def notRendered (node : ν) (cause : Misfit) : Diagnostic ν :=
  { kind := .unknownType
    message := "Cannot render node: " ++ cause.message
    node := node }

def unknownComponent (node : ν) (type : String) : Diagnostic ν :=
  { kind := .unknownType
    message := "Unknown component type: " ++ type
    node := node
    detail := .object [("type", .text type)] }

def unresolvedContainer (node : ν) (container : String) : Diagnostic ν :=
  { kind := .unresolvedContainer
    message := "Portal container not found: " ++ container
    node := node
    detail := .object [("container", .text container)] }

def mapNode (f : ν → μ) (diagnostic : Diagnostic ν) : Diagnostic μ :=
  { kind := diagnostic.kind
    message := diagnostic.message
    node := f diagnostic.node
    detail := diagnostic.detail }

end Diagnostic

end ViewTree
