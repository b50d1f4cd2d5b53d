import Mathlib.Data.List.DropRight
import ViewTree.Proofs.Render.Policies

namespace ViewTree

variable {ν : Type}

inductive Request (ν : Type)
  | report (diagnostic : Diagnostic ν)
  | clear

namespace Request

def diagnostic? : Request ν → Option (Diagnostic ν)
  | .report diagnostic => some diagnostic
  | .clear => none

def isReport (request : Request ν) : Bool :=
  request.diagnostic?.isSome

/-- The diagnostics reported since the last clear, if there was one. -/
def sinceClear (requests : List (Request ν)) : List (Diagnostic ν) :=
  (requests.rtakeWhile isReport).filterMap diagnostic?

@[simp] theorem sinceClear_nil : sinceClear ([] : List (Request ν)) = [] := by
  rw [sinceClear, List.rtakeWhile_nil, List.filterMap_nil]

@[simp] theorem sinceClear_report (requests : List (Request ν)) (diagnostic : Diagnostic ν) :
    sinceClear (requests ++ [.report diagnostic]) = sinceClear requests ++ [diagnostic] := by
  rw [sinceClear, List.rtakeWhile_concat_pos _ _ _ rfl, List.filterMap_append]
  rfl

@[simp] theorem sinceClear_clear (requests : List (Request ν)) :
    sinceClear (requests ++ [.clear]) = [] := by
  rw [sinceClear, List.rtakeWhile_concat_neg _ _ _ Bool.false_ne_true, List.filterMap_nil]

theorem sinceClear_reports (requests : List (Request ν)) (told : List (Diagnostic ν)) :
    sinceClear (requests ++ told.map .report) = sinceClear requests ++ told := by
  induction told generalizing requests with
  | nil => rw [List.map_nil, List.append_nil, List.append_nil]
  | cons first rest ih =>
      have hrest := ih (requests ++ [.report first])
      rw [sinceClear_report, List.append_assoc, List.append_assoc] at hrest
      exact hrest

end Request

namespace Desk

/-- Carries a request out.  Gives the failure it ends in, if it does, and the desk as it is then. -/
def serve (desk : Desk ν) : Request ν → Option Failure × Desk ν
  | .report diagnostic =>
    match Policy.report diagnostic desk with
    | .ok _ after => (none, after)
    | .error failure after => (some failure, after)
  | .clear =>
    match desk.policy.clear with
    | .ok policy => (none, { desk with policy := policy })
    | .error failure => (some failure, desk)

def serveAll (desk : Desk ν) (requests : List (Request ν)) : Desk ν :=
  requests.foldl (fun desk request => (desk.serve request).2) desk

theorem serveAll_append (desk : Desk ν) (requests more : List (Request ν)) :
    desk.serveAll (requests ++ more) = (desk.serveAll requests).serveAll more :=
  List.foldl_append

theorem serve_report {desk : Desk ν} (h : desk.policy.handling.records = true)
    (diagnostic : Diagnostic ν) :
    (desk.serve (.report diagnostic)).2.policy.handling = desk.policy.handling ∧
      (desk.serve (.report diagnostic)).2.policy.recorded =
        desk.policy.recorded ++ [diagnostic] := by
  obtain ⟨⟨handling, recorded, stream⟩, console⟩ := desk
  cases handling with
  | warn verbose ownStream => cases verbose <;> cases ownStream <;> exact ⟨rfl, rfl⟩
  | gather => exact ⟨rfl, rfl⟩
  | failFast => cases h
  | threshold limit verbose =>
      rw [serve, Policy.report_threshold]
      generalize limit.isBelow (recorded ++ [diagnostic]).length = given
      rcases given with failure | exceeded
      · exact ⟨rfl, rfl⟩
      · cases exceeded <;> cases verbose <;> exact ⟨rfl, rfl⟩
  | callback keeps => cases h

theorem serve_clear {desk : Desk ν} (h : desk.policy.handling.records = true) :
    desk.serve .clear = (none, { desk with policy := { desk.policy with recorded := [] } }) := by
  have hclear : desk.policy.clear = .ok { desk.policy with recorded := [] } := by
    rw [Policy.clear, Policy.list, if_pos h]
    rfl
  rw [serve, hclear]

/-- After any run a policy that records has recorded what was reported since the last clear. -/
theorem serveAll_fresh {handling : Handling} (h : handling.records = true) (console : List String)
    (requests : List (Request ν)) :
    ((fresh handling console).serveAll requests).policy.handling = handling ∧
      ((fresh handling console).serveAll requests).policy.recorded =
        Request.sinceClear requests := by
  induction requests using List.reverseRecOn with
  | nil => exact ⟨rfl, Request.sinceClear_nil.symm⟩
  | append_singleton requests request ih =>
      obtain ⟨hhandling, hrecorded⟩ := ih
      rw [serveAll_append]
      generalize (fresh handling console).serveAll requests = desk at hhandling hrecorded
      have hrecords : desk.policy.handling.records = true := hhandling ▸ h
      cases request with
      | report diagnostic =>
          obtain ⟨hsame, hadded⟩ := serve_report hrecords diagnostic
          rw [Request.sinceClear_report, ← hrecorded]
          exact ⟨hsame.trans hhandling, hadded⟩
      | clear =>
          have hserve : desk.serveAll [.clear] = (desk.serve .clear).2 := rfl
          rw [Request.sinceClear_clear, hserve, serve_clear hrecords]
          exact ⟨hhandling, rfl⟩

theorem serve_threshold {desk : Desk ν} {limit : Int} {verbose : Bool}
    (h : desk.policy.handling = .threshold (.int limit) verbose) (diagnostic : Diagnostic ν) :
    ((desk.serve (.report diagnostic)).1 =
        if limit < desk.policy.recorded.length + 1 then some (.refused diagnostic.message)
        else none) ∧
      (desk.serve (.report diagnostic)).2.console =
        if verbose = true ∧ ¬ limit < desk.policy.recorded.length + 1 then
          desk.console ++ ["WARNING [" ++ toString (desk.policy.recorded.length + 1) ++ "/" ++
            toString limit ++ "]: " ++ diagnostic.message ++ "\n"]
        else desk.console := by
  obtain ⟨⟨handling, recorded, stream⟩, console⟩ := desk
  cases h
  have hreport := Policy.report_threshold_int recorded stream console limit verbose diagnostic
  rw [serve, hreport]
  by_cases hover : limit < recorded.length + 1
  · simp [hover]
  · cases verbose <;> simp [hover, countedLines]

/-- What was told since the last clear stays in the books, so that a limit that is exceeded stays
exceeded up to the next clear. -/
theorem serve_past_limit {limit : Int} {verbose : Bool} (console : List String)
    {past : List (Request ν)} (h : limit < (Request.sinceClear past).length)
    (more : List (Diagnostic ν)) (next : Diagnostic ν) :
    (((fresh (.threshold (.int limit) verbose) console).serveAll
      (past ++ more.map .report)).serve (.report next)).1 = some (.refused next.message) := by
  obtain ⟨hhandling, hrecorded⟩ :=
    serveAll_fresh (rfl : (Handling.threshold (.int limit) verbose).records = true) console
      (past ++ more.map .report)
  have hserve := (serve_threshold hhandling next).1
  rw [Request.sinceClear_reports] at hrecorded
  have hover : limit < (Request.sinceClear past ++ more).length + 1 := by
    rw [List.length_append]
    omega
  rwa [hrecorded, if_pos hover] at hserve

theorem serve_of_no_limit {desk : Desk ν} (h : desk.policy.handling.records = true)
    (hfree : ∀ limit verbose, desk.policy.handling ≠ .threshold limit verbose)
    (diagnostic : Diagnostic ν) : (desk.serve (.report diagnostic)).1 = none := by
  rw [serve]
  cases hreport : Policy.report diagnostic desk with
  | ok _ after => rfl
  | error failure after =>
      rcases Handling.refuses_only ⟨diagnostic, desk, rfl, hreport⟩ with
        hfast | ⟨limit, verbose, hthreshold⟩
      · rw [hfast] at h
        cases h
      · exact absurd hthreshold (hfree limit verbose)

end Desk

def Policy.Statistics.count (statistics : Policy.Statistics ν) : DiagnosticKind → Nat
  | .unknownType => statistics.unknownTypes
  | .unresolvedHandler => statistics.unresolvedHandlers
  | .unresolvedContainer => statistics.unresolvedContainers

namespace Policy

theorem statistics_of_records {policy : Policy ν} (h : policy.handling.records = true) :
    policy.statistics = .ok {
      total := policy.recorded.length
      unknownTypes := (selectKind .unknownType policy.recorded).length
      unresolvedHandlers := (selectKind .unresolvedHandler policy.recorded).length
      unresolvedContainers := (selectKind .unresolvedContainer policy.recorded).length
      diagnostics := policy.recorded } := by
  rw [statistics, list, if_pos h]
  rfl

theorem ofKind_of_records {policy : Policy ν} (h : policy.handling.records = true)
    (kind : DiagnosticKind) :
    policy.ofKind (.text kind.name) = .ok (selectKind kind policy.recorded) := by
  have hname : DiagnosticKind.ofName (.text kind.name) = .ok kind := by cases kind <;> rfl
  rw [ofKind, list, if_pos h, hname]
  rfl

theorem length_eq_selectKinds (diagnostics : List (Diagnostic ν)) :
    diagnostics.length = (selectKind .unknownType diagnostics).length +
      (selectKind .unresolvedHandler diagnostics).length +
      (selectKind .unresolvedContainer diagnostics).length := by
  simp only [selectKind]
  induction diagnostics with
  | nil => rfl
  | cons diagnostic rest ih =>
      cases hkind : diagnostic.kind <;>
        simp only [List.filter_cons, hkind, List.length_cons, ih, decide_true, if_true, reduceCtorEq,
          decide_false, Bool.false_eq_true, if_false] <;>
        omega

theorem books_of_records {policy : Policy ν} (h : policy.handling.records = true) :
    ∃ books, policy.statistics = .ok books ∧ books.diagnostics = policy.recorded ∧
      books.total = policy.recorded.length ∧
      books.total =
        books.count .unknownType + books.count .unresolvedHandler +
          books.count .unresolvedContainer ∧
      ∀ kind : DiagnosticKind, ∃ found, policy.ofKind (.text kind.name) = .ok found ∧
        found.length = books.count kind ∧ found.Sublist policy.recorded ∧
        ∀ diagnostic, diagnostic ∈ found ↔
          diagnostic ∈ policy.recorded ∧ diagnostic.kind = kind := by
  refine ⟨_, statistics_of_records h, rfl, rfl, length_eq_selectKinds _, fun kind => ?_⟩
  refine ⟨_, ofKind_of_records h kind, by cases kind <;> rfl, List.filter_sublist,
    fun diagnostic => ?_⟩
  rw [selectKind, List.mem_filter, decide_eq_true_iff]

/-- The books of a policy that records, after any run of reports and clears.  It has recorded what was
reported since the last clear, refused or not; its counts are those of the kinds and add up.  A limit
refuses a report exactly if it is exceeded by the reports since the last clear, this one among them, and
then refuses all that follow up to the next clear; a report that is not refused is printed under its
number, if any is.  Nothing else is refused. -/
theorem books_lawful {handling : Handling} (h : handling.records = true) (console : List String)
    (past : List (Request ν)) :
    let desk := (Desk.fresh handling console).serveAll past
    let told := Request.sinceClear past
    desk.policy.recorded = told ∧
    (∃ books, desk.policy.statistics = .ok books ∧ books.diagnostics = told ∧
      books.total = told.length ∧
      books.total =
        books.count .unknownType + books.count .unresolvedHandler +
          books.count .unresolvedContainer ∧
      ∀ kind : DiagnosticKind, ∃ found, desk.policy.ofKind (.text kind.name) = .ok found ∧
        found.length = books.count kind ∧ found.Sublist told ∧
        ∀ diagnostic, diagnostic ∈ found ↔ diagnostic ∈ told ∧ diagnostic.kind = kind) ∧
    ((desk.serve .clear).1 = none ∧ (desk.serve .clear).2.console = desk.console) ∧
    ((∀ limit verbose, handling ≠ .threshold limit verbose) →
      ∀ diagnostic, (desk.serve (.report diagnostic)).1 = none) ∧
    ∀ (limit : Int) (verbose : Bool), handling = .threshold (.int limit) verbose →
      ∀ diagnostic : Diagnostic ν,
        ((desk.serve (.report diagnostic)).1 =
          if limit < told.length + 1 then some (.refused diagnostic.message) else none) ∧
        ((desk.serve (.report diagnostic)).2.console =
          if verbose = true ∧ ¬ limit < told.length + 1 then
            desk.console ++ ["WARNING [" ++ toString (told.length + 1) ++ "/" ++ toString limit ++
              "]: " ++ diagnostic.message ++ "\n"]
          else desk.console) ∧
        ((desk.serve (.report diagnostic)).1.isSome = true →
          ∀ (more : List (Diagnostic ν)) (next : Diagnostic ν),
          ((desk.serveAll (.report diagnostic :: more.map .report)).serve (.report next)).1 =
            some (.refused next.message)) := by
  intro desk told
  obtain ⟨hhandling, hrecorded⟩ := Desk.serveAll_fresh h console past
  have hrecords : desk.policy.handling.records = true := (congrArg Handling.records hhandling).trans h
  have hbooks := books_of_records hrecords
  rw [hrecorded] at hbooks
  refine ⟨hrecorded, hbooks, ?_,
    fun hfree => Desk.serve_of_no_limit hrecords (hhandling ▸ hfree), ?_⟩
  · rw [Desk.serve_clear hrecords]
    exact ⟨rfl, rfl⟩
  · rintro limit verbose rfl diagnostic
    obtain ⟨hfailure, hconsole⟩ := Desk.serve_threshold hhandling diagnostic
    rw [hrecorded] at hfailure hconsole
    refine ⟨hfailure, hconsole, fun hrefused more next => ?_⟩
    have hover : limit < told.length + 1 := by
      by_contra hroom
      rw [hfailure, if_neg hroom] at hrefused
      cases hrefused
    have hrun : desk.serveAll (.report diagnostic :: more.map .report) =
        (Desk.fresh (.threshold (.int limit) verbose) console).serveAll
          (past ++ [.report diagnostic] ++ more.map .report) := by
      rw [Desk.serveAll_append, Desk.serveAll_append]
      rfl
    rw [hrun]
    apply Desk.serve_past_limit
    rw [Request.sinceClear_report, List.length_append]
    exact hover

theorem books_lawful_past_limit :
    let gauge := Diagnostic.unknownComponent 0 "gauge"
    let dial := Diagnostic.unknownComponent 1 "dial"
    let requests := [.report gauge, .clear, .report dial, .report gauge]
    let desk := (Desk.fresh (.threshold (.int 1) true) []).serveAll requests
    desk.policy.recorded = [dial, gauge] ∧
      (desk.serve (.report dial)).1 = some (.refused "Unknown component type: dial") := by
  intro gauge dial requests desk
  obtain ⟨hrecorded, -, -, -, hlimit⟩ :=
    books_lawful (rfl : (Handling.threshold (.int 1) true).records = true) [] requests
  obtain ⟨hrefused, -, -⟩ := hlimit 1 true rfl dial
  exact ⟨hrecorded, hrefused⟩

end Policy

end ViewTree
