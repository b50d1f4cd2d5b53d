import ViewTree.Diagnostic.Policy

namespace ViewTree

variable {ν μ κ : Type}

def Policy.mapNode (f : ν → μ) (policy : Policy ν) : Policy μ :=
  { handling := policy.handling
    recorded := policy.recorded.map (Diagnostic.mapNode f)
    stream := policy.stream }

namespace Desk

def mapNode (f : ν → μ) (desk : Desk ν) : Desk μ :=
  { policy := desk.policy.mapNode f, console := desk.console }

/-- How a report ended, with other nodes. -/
def mapEnd (f : ν → μ) :
    EStateM.Result Failure (Desk ν) Unit → EStateM.Result Failure (Desk μ) Unit
  | .ok _ desk => .ok () (desk.mapNode f)
  | .error failure desk => .error failure (desk.mapNode f)

theorem record_mapNode (f : ν → μ) (diagnostic : Diagnostic ν) (desk : Desk ν) :
    (desk.mapNode f).record (diagnostic.mapNode f) = (desk.record diagnostic).mapNode f := by
  simp only [record, mapNode, Policy.mapNode, List.map_append, List.map_singleton]

end Desk

namespace Policy

theorem mapNode_mapNode (f : ν → μ) (g : μ → κ) (policy : Policy ν) :
    (policy.mapNode f).mapNode g = policy.mapNode (g ∘ f) := by
  simp only [mapNode, List.map_map]
  rfl

/-- What a policy with a limit does once it has counted. -/
def judge (limit : Tree) (verbose : Bool) (message : String) (count : Nat) :
    Except Failure Bool → Reporting ν Unit
  | .error failure => throw failure
  | .ok true => throw (.refused message)
  | .ok false => if verbose then modify (·.print (countedWarning count limit message)) else pure ()

theorem report_threshold (limit : Tree) (verbose : Bool) (diagnostic : Diagnostic ν)
    (recorded : List (Diagnostic ν)) (stream console : List String) :
    report diagnostic ⟨⟨.threshold limit verbose, recorded, stream⟩, console⟩ =
      judge limit verbose diagnostic.message (recorded ++ [diagnostic]).length
        (limit.isBelow (recorded ++ [diagnostic]).length)
        ⟨⟨.threshold limit verbose, recorded ++ [diagnostic], stream⟩, console⟩ := rfl

theorem judge_mapNode (f : ν → μ) (limit : Tree) (verbose : Bool) (message : String)
    (count : Nat) (given : Except Failure Bool) (desk : Desk ν) :
    judge limit verbose message count given (desk.mapNode f) =
      Desk.mapEnd f (judge limit verbose message count given desk) := by
  cases given with
  | error failure => rfl
  | ok exceeded =>
      cases exceeded with
      | true => rfl
      | false =>
          cases verbose with
          | true => rfl
          | false => rfl

theorem report_mapNode (f : ν → μ) (diagnostic : Diagnostic ν) (desk : Desk ν) :
    report (diagnostic.mapNode f) (desk.mapNode f) = Desk.mapEnd f (report diagnostic desk) := by
  have hrecord := desk.record_mapNode f diagnostic
  have hprint := fun line : String => congrArg (Desk.print line) hrecord
  have hprintOwn := fun line : String => congrArg (Desk.printOwn line) hrecord
  obtain ⟨⟨handling, recorded, stream⟩, console⟩ := desk
  cases handling with
  | gather => exact congrArg (EStateM.Result.ok ()) hrecord
  | failFast => rfl
  | callback keeps =>
      cases keeps with
      | false => rfl
      | true => exact congrArg (EStateM.Result.ok ()) hrecord
  | warn verbose ownStream =>
      cases verbose with
      | false => exact congrArg (EStateM.Result.ok ()) hrecord
      | true =>
          cases ownStream with
          | false => exact congrArg (EStateM.Result.ok ()) (hprint _)
          | true => exact congrArg (EStateM.Result.ok ()) (hprintOwn _)
  | threshold limit verbose =>
      have hlength : (recorded.map (Diagnostic.mapNode f) ++ [diagnostic.mapNode f]).length =
          (recorded ++ [diagnostic]).length := by
        simp only [List.length_append, List.length_map, List.length_singleton]
      have hjudge := judge_mapNode f limit verbose diagnostic.message
        (recorded ++ [diagnostic]).length (limit.isBelow (recorded ++ [diagnostic]).length)
        ⟨⟨.threshold limit verbose, recorded ++ [diagnostic], stream⟩, console⟩
      rw [report_threshold, ← hjudge, ← hlength]
      exact congrArg (judge limit verbose diagnostic.message _ _) hrecord

end Policy

end ViewTree
