import ViewTree.Visitor.Rule

namespace ViewTree

structure Survey.Item where
  view : View
  /-- Whether the node is the very tree that was passed in; none for trees without identity. -/
  same : Option Bool
  rule : Option Nat

structure Survey where
  items : Array Survey.Item := #[]
  journal : Journal := #[]

/-- How far a survey got. -/
inductive Progress
  | refused (failure : Failure)
  | failed (failure : Failure)
  | paused
  | finished

namespace Survey

def journalPart : Lens Survey Journal :=
  ⟨Survey.journal, fun journal survey => { survey with journal := journal }⟩

def consumer (tree : Value) (rules : List Rule) (limit : Option Nat) : Consumer Survey :=
  fun node ctx => do
    let view := ctx.view (← Walk.store) node
    let chosen := Rule.choose rules view
    Walk.modifyWorld fun survey =>
      { survey with items := survey.items.push ⟨view, tree.sameCell? node, chosen.map Prod.snd⟩ }
    let actions := (chosen.map fun choice => choice.1.actions).getD []
    let ctx ← (Action.runAll node actions ctx).zoom journalPart
    if limit = some (← get).world.items.size then throw .stopped
    return ctx

def run (fuel : Nat) (order : Order) (filter : TypeFilter) (rules : List Rule)
    (limit : Option Nat) (tree root : Value) (s : Store) : Progress × Session Survey :=
  if limit = some 0 then (.paused, ⟨s, {}⟩)
  else
    match traverse fuel order filter (consumer tree rules limit) root ⟨s, {}⟩ with
    | .ok _ session => (.finished, session)
    | .error .stopped session => (.paused, session)
    | .error failure session => (.failed failure, session)

def withOptions (fuel : Nat) (options : Except Failure TraverseOptions) (rules : List Rule)
    (limit : Option Nat) (tree : Value) (s : Store) : Progress × Session Survey :=
  let preparation : Walk Survey (TraverseOptions × Order × Value) := do
    let options ← Walk.ofExcept options
    return (options, ← Traverse.prepare options tree)
  match preparation ⟨s, {}⟩ with
  | .error failure session => (.refused failure, session)
  | .ok (options, order, root) session =>
    run fuel order (.ofTypes options.types) rules limit tree root session.store

def withOrder (fuel : Nat) (order : Tree) (filter : TypeFilter) (rules : List Rule)
    (limit : Option Nat) (tree : Value) (s : Store) : Option Order × Progress × Session Survey :=
  match Order.resolve order with
  | .error failure => (none, .refused failure, ⟨s, {}⟩)
  | .ok order => (some order, run fuel order filter rules limit tree tree s)

end Survey

end ViewTree
