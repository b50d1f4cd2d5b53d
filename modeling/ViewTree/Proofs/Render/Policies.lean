import ViewTree.Proofs.Diagnostic.Refusal
import ViewTree.Proofs.Render.Replaying

namespace ViewTree

def Desk.fresh (handling : Handling) (console : List String) : Desk ν :=
  ⟨.ofHandling handling, console⟩

def warningLines (told : List (Diagnostic ν)) : List String :=
  told.map fun diagnostic => "WARNING: " ++ diagnostic.message ++ "\n"

/-- One line for each diagnostic, numbered from a count on, with the limit. -/
def countedLines (limit : Int) : Nat → List (Diagnostic ν) → List String
  | _, [] => []
  | count, diagnostic :: rest =>
    ("WARNING [" ++ toString count ++ "/" ++ toString limit ++ "]: " ++ diagnostic.message ++ "\n") ::
      countedLines limit (count + 1) rest

namespace Policy

variable {ν : Type} (told : List (Diagnostic ν)) (recorded : List (Diagnostic ν))
  (stream console : List String)

theorem forM_report_append (more : List (Diagnostic ν)) (desk : Desk ν) :
    (told ++ more).forM report desk =
      match told.forM report desk with
      | .ok _ after => more.forM report after
      | .error failure after => .error failure after := by
  have happend : ((told ++ more).forM report : Reporting ν PUnit) =
      (told.forM report >>= fun _ => more.forM report) := List.forM_append
  rw [happend, Walk.bind_apply]
  cases told.forM report desk <;> rfl

theorem forM_report_gather :
    told.forM report ⟨⟨.gather, recorded, stream⟩, console⟩ =
      .ok () ⟨⟨.gather, recorded ++ told, stream⟩, console⟩ := by
  induction told generalizing recorded with
  | nil => rw [List.append_nil]; rfl
  | cons first rest ih =>
      rw [List.append_cons]
      exact ih (recorded ++ [first])

theorem forM_report_callback (keeps : Bool) :
    told.forM report ⟨⟨.callback keeps, recorded, stream⟩, console⟩ =
      .ok () ⟨⟨.callback keeps, if keeps then recorded ++ told else recorded, stream⟩, console⟩ := by
  induction told generalizing recorded with
  | nil => cases keeps <;> simp <;> rfl
  | cons first rest ih =>
      cases keeps with
      | false => exact ih recorded
      | true =>
          rw [if_pos rfl, List.append_cons]
          exact ih (recorded ++ [first])

theorem forM_report_warn (verbose ownStream : Bool) :
    told.forM report ⟨⟨.warn verbose ownStream, recorded, stream⟩, console⟩ =
      .ok () ⟨⟨.warn verbose ownStream, recorded ++ told,
          if verbose && ownStream then stream ++ warningLines told else stream⟩,
        if verbose && !ownStream then console ++ warningLines told else console⟩ := by
  induction told generalizing recorded stream console with
  | nil => cases verbose <;> cases ownStream <;> simp [warningLines] <;> rfl
  | cons first rest ih =>
      have hlines : warningLines (first :: rest) = warning first.message :: warningLines rest := rfl
      rw [hlines]
      cases verbose with
      | false =>
          rw [List.append_cons]
          exact ih (recorded ++ [first]) stream console
      | true =>
          cases ownStream with
          | true =>
              have hrest := ih (recorded ++ [first]) (stream ++ [warning first.message]) console
              simp only [List.append_assoc, List.singleton_append] at hrest
              exact hrest
          | false =>
              have hrest := ih (recorded ++ [first]) stream (console ++ [warning first.message])
              simp only [List.append_assoc, List.singleton_append] at hrest
              exact hrest

theorem forM_report_failFast :
    told.forM report ⟨⟨.failFast, recorded, stream⟩, console⟩ =
      match told with
      | [] => .ok () ⟨⟨.failFast, recorded, stream⟩, console⟩
      | first :: _ => .error (.refused first.message) ⟨⟨.failFast, recorded, stream⟩, console⟩ := by
  cases told with
  | nil => rfl
  | cons first rest => rfl

theorem report_threshold_int (limit : Int) (verbose : Bool) (first : Diagnostic ν) :
    report first ⟨⟨.threshold (.int limit) verbose, recorded, stream⟩, console⟩ =
      if limit < recorded.length + 1 then
        .error (.refused first.message)
          ⟨⟨.threshold (.int limit) verbose, recorded ++ [first], stream⟩, console⟩
      else
        .ok () ⟨⟨.threshold (.int limit) verbose, recorded ++ [first], stream⟩,
          if verbose then console ++ countedLines limit (recorded.length + 1) [first]
          else console⟩ := by
  have hcount : (recorded ++ [first]).length = recorded.length + 1 := List.length_append
  have hbelow : (Tree.int limit).isBelow ((recorded ++ [first]).length : Nat) =
      .ok (decide (limit < (recorded.length : Int) + 1)) := by
    rw [Tree.isBelow_int, hcount]
    rfl
  rw [report_threshold, hbelow, hcount]
  by_cases hlimit : limit < (recorded.length : Int) + 1
  · simp only [hlimit, decide_true, if_true]
    rfl
  · simp only [hlimit, decide_false, if_false]
    cases verbose <;> rfl

theorem forM_report_threshold_of_le {limit : Int} (verbose : Bool)
    (h : recorded.length + told.length ≤ limit.toNat) :
    told.forM report ⟨⟨.threshold (.int limit) verbose, recorded, stream⟩, console⟩ =
      .ok () ⟨⟨.threshold (.int limit) verbose, recorded ++ told, stream⟩,
        if verbose then console ++ countedLines limit (recorded.length + 1) told else console⟩ := by
  induction told generalizing recorded console with
  | nil => cases verbose <;> simp [countedLines] <;> rfl
  | cons first rest ih =>
      rw [List.length_cons] at h
      have hroom : ¬ limit < recorded.length + 1 := by omega
      have hrest : (recorded ++ [first]).length + rest.length ≤ limit.toNat := by
        rw [List.length_append, List.length_singleton]
        omega
      have hfirst := report_threshold_int recorded stream console limit verbose first
      rw [if_neg hroom] at hfirst
      rw [forM_report_cons, hfirst]
      simp only [ih _ _ hrest, List.length_append, List.length_singleton, List.append_assoc,
        List.singleton_append]
      cases verbose with
      | false => rfl
      | true => simp only [if_true, countedLines, List.append_assoc, List.singleton_append]

/-- The first that finds no room is refused when it has been recorded. -/
theorem forM_report_threshold_of_lt {limit : Int} (verbose : Bool)
    (h : limit.toNat < told.length) :
    told.forM report ⟨⟨.threshold (.int limit) verbose, [], stream⟩, console⟩ =
      .error (.refused told[limit.toNat].message)
        ⟨⟨.threshold (.int limit) verbose, told.take (limit.toNat + 1), stream⟩,
          if verbose then console ++ countedLines limit 1 (told.take limit.toNat)
          else console⟩ := by
  have hsplit : told =
      told.take limit.toNat ++ told[limit.toNat] :: told.drop (limit.toNat + 1) := by
    rw [List.getElem_cons_drop, List.take_append_drop]
  have hlength : (told.take limit.toNat).length = limit.toNat := List.length_take_of_le h.le
  have hroom : ([] : List (Diagnostic ν)).length + (told.take limit.toNat).length ≤
      limit.toNat := by
    rw [hlength, List.length_nil, Nat.zero_add]
  have hfull : limit < (told.take limit.toNat).length + 1 := by omega
  have hall := forM_report_threshold_of_le _ [] stream console verbose hroom
  rw [List.take_succ_eq_append_getElem h]
  conv_lhs => rw [hsplit]
  rw [forM_report_append, hall]
  simp only [forM_report_cons, List.nil_append, report_threshold_int, if_pos hfull,
    List.length_nil, Nat.zero_add]

end Policy

theorem Renderer.render_eq_replay (renderer : Renderer) (t : Tree) {console : List String}
    {output : Output} {after : Desk Tree}
    (h : renderer.render t (.fresh .gather console) = .ok output after) (desk : Desk Tree) :
    renderer.render t desk =
      match after.policy.recorded.forM Policy.report desk with
      | .ok _ last => .ok output last
      | .error failure last => .error failure last := by
  obtain ⟨told, result, hreplays⟩ := renderer.render_replayable t
  unfold Rendering.Replays at hreplays
  have hgather := Policy.forM_report_gather told [] [] console
  rw [hreplays, Walk.bind_apply] at h
  simp only [Desk.fresh, Policy.ofHandling, hgather, List.nil_append] at h
  cases result with
  | error failure => cases h
  | ok value =>
      cases h
      rw [hreplays, Walk.bind_apply]
      simp only
      cases told.forM Policy.report desk with
      | ok _ last => rfl
      | error failure last => rfl

/-- With the diagnostics of a gathering render in hand, a render that warns or hands on has the same
output and told the same, one that fails at once fails at the first diagnostic, and one with a limit
fails at the first diagnostic beyond it.  A limit below zero leaves room for none. -/
theorem Renderer.render_under_policies (renderer : Renderer) (t : Tree) (console : List String)
    {output : Output} {after : Desk Tree}
    (h : renderer.render t (.fresh .gather console) = .ok output after) :
    (∀ verbose ownStream, renderer.render t (.fresh (.warn verbose ownStream) console) =
      .ok output
        ⟨⟨.warn verbose ownStream, after.policy.recorded,
            if verbose && ownStream then warningLines after.policy.recorded else []⟩,
          if verbose && !ownStream then console ++ warningLines after.policy.recorded
          else console⟩) ∧
    (∀ keeps, renderer.render t (.fresh (.callback keeps) console) =
      .ok output
        ⟨⟨.callback keeps, if keeps then after.policy.recorded else [], []⟩, console⟩) ∧
    renderer.render t (.fresh .failFast console) =
      (match after.policy.recorded with
      | [] => .ok output (.fresh .failFast console)
      | first :: _ => .error (.refused first.message) (.fresh .failFast console)) ∧
    ∀ (limit : Int) (verbose : Bool),
      (after.policy.recorded.length ≤ limit.toNat →
        renderer.render t (.fresh (.threshold (.int limit) verbose) console) =
          .ok output
            ⟨⟨.threshold (.int limit) verbose, after.policy.recorded, []⟩,
              if verbose then console ++ countedLines limit 1 after.policy.recorded
              else console⟩) ∧
      ∀ hover : limit.toNat < after.policy.recorded.length,
        renderer.render t (.fresh (.threshold (.int limit) verbose) console) =
          .error (.refused after.policy.recorded[limit.toNat].message)
            ⟨⟨.threshold (.int limit) verbose,
                after.policy.recorded.take (limit.toNat + 1), []⟩,
              if verbose then
                console ++ countedLines limit 1 (after.policy.recorded.take limit.toNat)
              else console⟩ := by
  have hreplay := renderer.render_eq_replay t h
  refine ⟨?_, ?_, ?_, ?_⟩
  · intro verbose ownStream
    rw [hreplay, Desk.fresh, Policy.ofHandling, Policy.forM_report_warn]
    rfl
  · intro keeps
    rw [hreplay, Desk.fresh, Policy.ofHandling, Policy.forM_report_callback]
    rfl
  · rw [hreplay, Desk.fresh, Policy.ofHandling, Policy.forM_report_failFast]
    cases after.policy.recorded with
    | nil => rfl
    | cons first rest => rfl
  · intro limit verbose
    constructor
    · intro hroom
      have hall : ([] : List (Diagnostic Tree)).length + after.policy.recorded.length ≤
          limit.toNat := by
        rw [List.length_nil, Nat.zero_add]
        exact hroom
      rw [hreplay, Desk.fresh, Policy.ofHandling,
        Policy.forM_report_threshold_of_le _ _ _ _ _ hall]
      rfl
    · intro hover
      rw [hreplay, Desk.fresh, Policy.ofHandling,
        Policy.forM_report_threshold_of_lt _ _ _ _ hover]

def gallery : Tree :=
  .object [("type", .text "Portal"), ("props", .object [("onOpen", .text "open"),
    ("container", .text "#wall")]), ("children", .array [.object [("type", .text "frame")],
    .text "caption"])]

def curator : Renderer :=
  { resolver := .strict [] }

theorem Renderer.render_under_policies_gallery :
    ∃ output after, curator.render gallery (.fresh .gather []) = .ok output after ∧
      after.policy.recorded.map (·.message) =
        ["Event handler not found: open", "Unknown component type: frame",
          "Portal container not found: #wall"] ∧
      curator.render gallery (.fresh (.threshold (.int 1) true) []) =
        .error (.refused "Unknown component type: frame")
          ⟨⟨.threshold (.int 1) true, after.policy.recorded.take 2, []⟩,
            ["WARNING [1/1]: Event handler not found: open\n"]⟩ := by
  refine ⟨_, _, rfl, rfl, ?_⟩
  obtain ⟨-, -, -, hthreshold⟩ := curator.render_under_policies gallery [] rfl
  exact (hthreshold 1 true).2 (by decide)

/-- A limit below zero is not met by a render that has nothing to tell. -/
theorem Renderer.render_threshold_below_zero :
    ¬ ∀ (renderer : Renderer) (t : Tree) (limit : Int) (output : Output) (after : Desk Tree),
      renderer.render t (.fresh .gather []) = .ok output after →
      ¬ (after.policy.recorded.length : Int) ≤ limit →
      ∃ failure last,
        renderer.render t (.fresh (.threshold (.int limit) true) []) = .error failure last := by
  intro hall
  obtain ⟨failure, last, hrender⟩ := hall {} .null (-1) .nothing (.fresh .gather []) rfl (by decide)
  cases hrender

end ViewTree
