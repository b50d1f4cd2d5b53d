import ViewTree.Visitor.Rule
import ViewTree.Visitor.Recorder
import ViewTree.Visitor.Binding

namespace ViewTree

inductive Report
  | log (log : Recorder.Log)
  | policy (policy : Policy Value)

structure Ledger where
  journal : Journal := #[]
  console : List String := []
  /-- One for each recorder and each binding visitor, in the order of the visitors. -/
  reports : List Report := []

namespace Ledger

def journalPart : Lens Ledger Journal :=
  ⟨Ledger.journal, fun journal ledger => { ledger with journal := journal }⟩

def setReport (number : Nat) (report : Report) (ledger : Ledger) : Ledger :=
  { ledger with reports := ledger.reports.set number report }

def logPart (number : Nat) : Lens Ledger Recorder.Log :=
  { get := fun ledger =>
      match ledger.reports[number]? with
      | some (.log log) => log
      | _ => {}
    set := fun log ledger => ledger.setReport number (.log log) }

def deskPart (number : Nat) : Lens Ledger (Desk Value) :=
  { get := fun ledger =>
      match ledger.reports[number]? with
      | some (.policy policy) => ⟨policy, ledger.console⟩
      | _ => ⟨.ofHandling .gather, ledger.console⟩
    set := fun desk ledger =>
      { ledger.setReport number (.policy desk.policy) with console := desk.console } }

end Ledger

inductive Plan
  | rules (enter exit : Option (List Rule))
  | record (skipTypes : Tree) (recordPrimitives : Bool)
  | bind (settings : Binding.Settings) (sink : Sink)

structure Company where
  visitors : List (Visitor Ledger) := []
  reports : List Report := []

namespace Company

def join (company : Company) : Plan → Except Failure Company
  | .rules enter exit =>
    .ok { company with
      visitors := company.visitors ++
        [(Rule.visitor company.visitors.length enter exit).zoom Ledger.journalPart] }
  | .record skipTypes recordPrimitives => do
    let settings : Recorder.Settings := ⟨← skipTypes.toSet, recordPrimitives⟩
    return {
      visitors := company.visitors ++
        [(recorder settings).zoom (Ledger.logPart company.reports.length)]
      reports := company.reports ++ [.log {}] }
  | .bind settings sink => do
    let handling ← sink.handling
    return {
      visitors := company.visitors ++
        [(bindHandlers settings).zoom (Ledger.deskPart company.reports.length)]
      reports := company.reports ++ [.policy (.ofHandling handling)] }

def joinAll : List Plan → Company → Company × Option Failure
  | [], company => (company, none)
  | plan :: rest, company =>
    match company.join plan with
    | .ok company => joinAll rest company
    | .error failure => (company, some failure)

def ofPlans (plans : List Plan) : Company × Option Failure :=
  joinAll plans {}

def ledger (company : Company) : Ledger :=
  { reports := company.reports }

end Company

def Prune.zoom (lens : Lens ρ σ) : Prune σ → Prune ρ
  | .predicate test => .predicate fun node ctx => Walk.zoom lens (test node ctx)
  | .setting given => .setting given

end ViewTree
