import ViewTree.Visit.Walk

namespace ViewTree

inductive Outcome (α : Type u)
  | noChange
  | plain
  | replace (node : α)

inductive Reply (α : Type u)
  | outcome (result : Outcome α)
  | value (given : α)

def Outcome.replacement? : Outcome α → Option α
  | .replace node => some node
  | .noChange | .plain => none

/-- A null stands for no change, any other value for the replacement by it. -/
def Reply.settle (isNull : α → Bool) : Reply α → Outcome α
  | .outcome result => result
  | .value given => if isNull given then .noChange else .replace given

def Reply.nothing : Reply Value := .value .null

@[simp] theorem Reply.settle_outcome (isNull : α → Bool) (result : Outcome α) :
    (Reply.outcome result).settle isNull = result := rfl

@[simp] theorem Reply.settle_nothing :
    Reply.nothing.settle Value.isNull = Outcome.noChange := rfl

def Outcome.map (f : α → β) : Outcome α → Outcome β
  | .noChange => .noChange
  | .plain => .plain
  | .replace node => .replace (f node)

def Reply.agrees : Reply Tree → Reply Tree → Bool
  | .outcome (.replace a), .outcome (.replace b) => b.agrees a
  | _, _ => false

def Outcome.literal? : Outcome Tree → Option String
  | .noChange => some "NO_CHANGE"
  | .plain => none
  | .replace node => some ("Replace(" ++ node.literal ++ ")")

abbrev Hook (σ : Type) := Value → Context → Walk σ (Reply Value × Context)

structure Visitor (σ : Type) where
  enter? : Option (Hook σ) := none
  exit? : Option (Hook σ) := none

inductive Phase
  | enter
  | exit
deriving DecidableEq, Repr

def Phase.name : Phase → String
  | .enter => "enter"
  | .exit => "exit"

def Visitor.hook? (phase : Phase) (visitor : Visitor σ) : Option (Hook σ) :=
  match phase with
  | .enter => visitor.enter?
  | .exit => visitor.exit?

def Hook.zoom (lens : Lens ρ σ) (hook : Hook σ) : Hook ρ := fun node ctx =>
  Walk.zoom lens (hook node ctx)

def Visitor.zoom (lens : Lens ρ σ) (visitor : Visitor σ) : Visitor ρ :=
  ⟨visitor.enter?.map (Hook.zoom lens), visitor.exit?.map (Hook.zoom lens)⟩

/-- Calls hooks in order until one replaces the node.  Gives the replacement, if there is one, and
the context as the hooks left it. -/
def runHooks : List (Hook σ) → Value → Context → Walk σ (Option Value × Context)
  | [], _, ctx => return (none, ctx)
  | hook :: rest, node, ctx => do
    let (reply, ctx) ← hook node ctx
    match (reply.settle Value.isNull).replacement? with
    | some replacement => return (some replacement, ctx)
    | none => runHooks rest node ctx

def runPhase (phase : Phase) (visitors : List (Visitor σ)) (node : Value) (ctx : Context) :
    Walk σ (Option Value × Context) :=
  runHooks (visitors.filterMap (·.hook? phase)) node ctx

@[simp] theorem runHooks_nil (node : Value) (ctx : Context) :
    runHooks ([] : List (Hook σ)) node ctx = pure (none, ctx) := rfl

@[simp] theorem runPhase_nil (phase : Phase) (node : Value) (ctx : Context) :
    runPhase phase ([] : List (Visitor σ)) node ctx = pure (none, ctx) := rfl

end ViewTree
