import ViewTree.Proofs.Visitor.Discretion
import ViewTree.Proofs.Visitor.Portability

namespace ViewTree

def Report.move (base : Store) : Report → Report
  | .log entries => .log entries
  | .policy kept => .policy (kept.mapNode (Value.above base))

def Report.shown (s : Store) : Report → Recorder.Log ⊕ Policy Tree
  | .log entries => .inl entries
  | .policy kept => .inr (kept.mapNode s.read)

theorem Report.shown_move (base s : Store) (report : Report) :
    (report.move base).shown (s.above base) = report.shown s := by
  cases report with
  | log entries => rfl
  | policy policy =>
      have hread : (s.above base).read ∘ Value.above base = s.read := by
        funext value
        exact Store.read_above base s value
      rw [Report.move, Report.shown, Policy.mapNode_mapNode, hread]
      rfl

namespace Ledger

/-- A ledger with all it holds of the tree read. -/
structure Shown where
  journal : Journal
  console : List String
  reports : List (Recorder.Log ⊕ Policy Tree)

def memory : Memory Ledger Shown where
  move := fun base ledger => { ledger with reports := ledger.reports.map (Report.move base) }
  shown := fun s ledger => ⟨ledger.journal, ledger.console, ledger.reports.map (Report.shown s)⟩
  shown_move := by
    intro base s ledger
    have hreport : Report.shown (s.above base) ∘ Report.move base = Report.shown s := by
      funext report
      exact Report.shown_move base s report
    simp only [List.map_map, hreport]

theorem journalPart_carries : journalPart.Carries memory Memory.plain := by
  refine ⟨?_, ?_⟩
  · intro _ _
    rfl
  · intro _ _ _
    rfl

theorem setReport_move (base : Store) (number : Nat) (report : Report) (ledger : Ledger) :
    (memory.move base ledger).setReport number (report.move base) =
      memory.move base (ledger.setReport number report) := by
  simp only [setReport, memory, List.map_set]

theorem logPart_carries (number : Nat) : (logPart number).Carries memory Memory.plain := by
  refine ⟨?_, ?_⟩
  · intro base ledger
    simp only [logPart, memory, Memory.plain, List.getElem?_map]
    cases ledger.reports[number]? with
    | none => rfl
    | some report =>
        cases report with
        | log entries => rfl
        | policy policy => rfl
  · intro base log ledger
    exact setReport_move base number (.log log) ledger

theorem deskPart_carries (number : Nat) : (deskPart number).Carries memory Desk.memory := by
  refine ⟨?_, ?_⟩
  · intro base ledger
    simp only [deskPart, memory, List.getElem?_map]
    cases ledger.reports[number]? with
    | none => rfl
    | some report =>
        cases report with
        | log entries => rfl
        | policy policy => rfl
  · intro base desk ledger
    have hset := setReport_move base number (.policy desk.policy) ledger
    exact congrArg (fun after : Ledger => { after with console := desk.console }) hset

end Ledger

namespace Company

theorem join_cases {plan : Plan} {company joined : Company}
    (h : company.join plan = .ok joined) :
    (∃ number enter exit, joined =
      ⟨company.visitors ++ [(Rule.visitor number enter exit).zoom Ledger.journalPart],
        company.reports⟩) ∨
    (∃ settings number, joined =
      ⟨company.visitors ++ [(recorder settings).zoom (Ledger.logPart number)],
        company.reports ++ [.log {}]⟩) ∨
    (∃ settings number handling, joined =
      ⟨company.visitors ++ [(bindHandlers settings).zoom (Ledger.deskPart number)],
        company.reports ++ [.policy (.ofHandling handling)]⟩) := by
  cases plan with
  | rules enter exit =>
      cases h
      exact .inl ⟨_, _, _, rfl⟩
  | record skipTypes recordPrimitives =>
      rw [join] at h
      cases hset : skipTypes.toSet with
      | error failure =>
          rw [hset] at h
          cases h
      | ok types =>
          rw [hset] at h
          cases h
          exact .inr (.inl ⟨_, _, rfl⟩)
  | bind settings sink =>
      rw [join] at h
      cases hhandling : sink.handling with
      | error failure =>
          rw [hhandling] at h
          cases h
      | ok handling =>
          rw [hhandling] at h
          cases h
          exact .inr (.inr ⟨_, _, _, rfl⟩)

theorem joinAll_keeps (holds : Company → Prop)
    (h : ∀ {plan company joined}, company.join plan = .ok joined → holds company → holds joined)
    (plans : List Plan) :
    ∀ {company : Company}, holds company → holds (joinAll plans company).1 := by
  induction plans with
  | nil =>
      intro company hcompany
      exact hcompany
  | cons plan plans ih =>
      intro company hcompany
      rw [joinAll]
      cases hjoin : company.join plan with
      | error failure => exact hcompany
      | ok joined => exact ih (h hjoin hcompany)

theorem forall_visitors {holds : Visitor Ledger → Prop}
    (hrules : ∀ number enter exit, holds ((Rule.visitor number enter exit).zoom Ledger.journalPart))
    (hrecord : ∀ settings number, holds ((recorder settings).zoom (Ledger.logPart number)))
    (hbind : ∀ settings number, holds ((bindHandlers settings).zoom (Ledger.deskPart number)))
    (plans : List Plan) : ∀ visitor ∈ (ofPlans plans).1.visitors, holds visitor := by
  have hadd : ∀ {visitors : List (Visitor Ledger)} {added : Visitor Ledger},
      (∀ visitor ∈ visitors, holds visitor) → holds added →
        ∀ visitor ∈ visitors ++ [added], holds visitor := by
    intro visitors added hvisitors hadded visitor hvisitor
    rcases List.mem_append.mp hvisitor with hvisitor | hvisitor
    · exact hvisitors visitor hvisitor
    · rw [List.mem_singleton.mp hvisitor]
      exact hadded
  apply joinAll_keeps fun company => ∀ visitor ∈ company.visitors, holds visitor
  · intro plan company joined hjoin hcompany
    obtain ⟨number, enter, exit, rfl⟩ | ⟨settings, number, rfl⟩ | ⟨settings, number, _, rfl⟩ :=
      join_cases hjoin
    · exact hadd hcompany (hrules number enter exit)
    · exact hadd hcompany (hrecord settings number)
    · exact hadd hcompany (hbind settings number)
  · intro visitor hvisitor
    cases hvisitor

theorem visitors_portable (plans : List Plan) :
    ∀ visitor ∈ (ofPlans plans).1.visitors, visitor.Portable Ledger.memory := by
  apply forall_visitors
  · intro number enter exit
    exact (Visitor.scripted_portable _ _).zoom Ledger.journalPart_carries
  · intro settings number
    exact (recorder_portable settings).zoom (Ledger.logPart_carries number)
  · intro settings number
    exact (bindHandlers_portable settings).zoom (Ledger.deskPart_carries number)

theorem visitors_discreet (plans : List Plan) (guarded : Store.Cell → Prop) :
    ∀ visitor ∈ (ofPlans plans).1.visitors, visitor.Discreet guarded := by
  apply forall_visitors
  · intro number enter exit
    exact (Visitor.scripted_discreet _ _).zoom Ledger.journalPart
  · intro settings number
    exact (recorder_discreet settings).zoom (Ledger.logPart number)
  · intro settings number
    exact (bindHandlers_discreet settings).zoom (Ledger.deskPart number)

theorem move_ledger (plans : List Plan) (base : Store) :
    Ledger.memory.move base (ofPlans plans).1.ledger = (ofPlans plans).1.ledger := by
  have hadd : ∀ {reports : List Report} {added : Report},
      reports.map (Report.move base) = reports → added.move base = added →
        (reports ++ [added]).map (Report.move base) = reports ++ [added] := by
    intro reports added hreports hadded
    rw [List.map_append, List.map_singleton, hreports, hadded]
  have hreports : (ofPlans plans).1.reports.map (Report.move base) = (ofPlans plans).1.reports := by
    apply joinAll_keeps fun company => company.reports.map (Report.move base) = company.reports
    · intro plan company joined hjoin hcompany
      obtain ⟨number, enter, exit, rfl⟩ | ⟨settings, number, rfl⟩ | ⟨settings, number, _, rfl⟩ :=
        join_cases hjoin
      · exact hcompany
      · exact hadd hcompany rfl
      · exact hadd hcompany rfl
    · rfl
  simp only [Ledger.memory, ledger, hreports]

end Company

end ViewTree
