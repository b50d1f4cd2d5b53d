import ViewTree.Setting
import ViewTree.Visit.Tour

namespace ViewTree

/-- An order is given by itself, by one of its names, or by null for the default. -/
def Order.resolve : Tree → Except Failure Order
  | .atom .null => .ok .preOrder
  | .atom (.order order) => .ok order
  | .atom (.text name) =>
    match ofName? name with
    | some order => .ok order
    | none => .error (.invalidOrder (.text name))
  | given => .error (.invalidOrder given)

def Order.problems (given : Tree) : List String :=
  match resolve given with
  | .ok _ => []
  | .error _ => [invalidMessage given]

def Order.setting (order : Order) : Tree := .atom (.order order)

/-- What is asked before descent: a predicate, or a plain value.  Null never prunes; a callable
known by name only answers nothing, which is no; any other value cannot be asked. -/
inductive Prune (σ : Type)
  | predicate (test : Value → Context → Walk σ (Bool × Context))
  | setting (given : Tree)

namespace Prune

def isNull : Prune σ → Bool
  | .predicate _ => false
  | .setting given => given.isNull

def isCallable : Prune σ → Bool
  | .predicate _ => true
  | .setting given => given.isCallable

def test : Prune σ → Value → Context → Walk σ (Bool × Context)
  | .predicate test => test
  | .setting given => fun _ ctx =>
    if given.isNull || given.isCallable then pure (false, ctx) else throw .notCallable

end Prune

structure TransformOptions (σ : Type) where
  order : Tree := Order.preOrder.setting
  clone : Tree := .bool true
  prune : Prune σ := .setting .null

namespace TransformOptions

def inPlace (order : Tree := Order.preOrder.setting) : TransformOptions σ :=
  { order := order, clone := .bool false }

def bottomUp (prune : Prune σ := .setting .null) : TransformOptions σ :=
  { order := Order.postOrder.setting, prune := prune }

def override (options : TransformOptions σ) (order clone : Tree) (prune : Prune σ) :
    TransformOptions σ :=
  { order := if order.isNull then options.order else order
    clone := if clone.isNull then options.clone else clone
    prune := if prune.isNull then options.prune else prune }

def validate (options : TransformOptions σ) : List String :=
  Order.problems options.order ++
    if options.prune.isNull || options.prune.isCallable then [] else ["prune must be callable"]

end TransformOptions

structure TraverseOptions where
  order : Tree := Order.preOrder.setting
  types : Option (List Tree) := none
  clone : Tree := .bool false

namespace TraverseOptions

/-- Reads type names given as a plain value; null asks for all nodes. -/
def readTypes (given : Tree) : Except Failure (Option (List Tree)) :=
  if given.isNull then .ok none else some <$> given.typeSet

def ofSettings (order : Tree := Order.preOrder.setting) (types : Tree := .null)
    (clone : Tree := .bool false) : Except Failure TraverseOptions := do
  return { order := order, types := ← readTypes types, clone := clone }

def override (options : TraverseOptions) (order types clone : Option Tree) :
    Except Failure TraverseOptions := do
  let types ← match types with
    | some given => readTypes given
    | none => pure options.types
  return {
    order := order.getD options.order
    types := types
    clone := clone.getD options.clone }

def isTypeName (t : Tree) : Bool :=
  (t.text?.filter (· ≠ "")).isSome

def validate (options : TraverseOptions) : List String :=
  Order.problems options.order ++
    if (options.types.getD []).all isTypeName then []
    else ["node_types must contain non-empty strings"]

end TraverseOptions

end ViewTree
