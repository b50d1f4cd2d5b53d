import ViewTree.Proofs.Diagnostic.Mapping
import ViewTree.Proofs.Walk.Course

namespace ViewTree

/-- A policy of this handling has refused a report, and left a desk. -/
def Handling.Refuses (handling : Handling) (failure : Failure) (after : Desk ν) : Prop :=
  ∃ diagnostic desk, desk.policy.handling = handling ∧
    Policy.report diagnostic desk = .error failure after

theorem Policy.report_handling {diagnostic : Diagnostic ν} {desk after : Desk ν}
    (h : report diagnostic desk = .ok () after) :
    after.policy.handling = desk.policy.handling := by
  obtain ⟨⟨handling, recorded, stream⟩, console⟩ := desk
  cases handling with
  | warn verbose ownStream => cases verbose <;> cases ownStream <;> cases h <;> rfl
  | gather => cases h; rfl
  | failFast => cases h
  | threshold limit verbose =>
      rw [report_threshold] at h
      generalize limit.isBelow (recorded ++ [diagnostic]).length = given at h
      rcases given with failure | exceeded
      · cases h
      · cases exceeded <;> cases verbose <;> cases h <;> rfl
  | callback keeps => cases keeps <;> cases h <;> rfl

theorem Handling.refuses_only {handling : Handling} {failure : Failure} {after : Desk ν}
    (h : handling.Refuses failure after) :
    handling = .failFast ∨ ∃ limit verbose, handling = .threshold limit verbose := by
  obtain ⟨diagnostic, ⟨⟨handling, recorded, stream⟩, console⟩, rfl, hreport⟩ := h
  cases handling with
  | warn verbose ownStream => cases verbose <;> cases ownStream <;> cases hreport
  | gather => cases hreport
  | failFast => exact .inl rfl
  | threshold limit verbose => exact .inr ⟨limit, verbose, rfl⟩
  | callback keeps => cases keeps <;> cases hreport

theorem Policy.forM_report_cons (told : List (Diagnostic ν)) (first : Diagnostic ν)
    (desk : Desk ν) :
    (first :: told).forM report desk =
      match report first desk with
      | .ok _ after => told.forM report after
      | .error failure after => .error failure after := by
  show (report first >>= fun _ => told.forM report) desk = _
  rw [Walk.bind_apply]
  cases report first desk <;> rfl

theorem Policy.forM_report_handling {told : List (Diagnostic ν)} {desk after : Desk ν}
    (h : told.forM report desk = .ok () after) :
    after.policy.handling = desk.policy.handling := by
  induction told generalizing desk with
  | nil =>
      cases h
      rfl
  | cons first rest ih =>
      rw [forM_report_cons] at h
      cases hfirst : report first desk with
      | ok _ middle =>
          rw [hfirst] at h
          exact (ih h).trans (report_handling hfirst)
      | error failure middle =>
          rw [hfirst] at h
          cases h

/-- Reports one after the other are all taken, or the policy refuses one of them. -/
theorem Policy.forM_report_or_refused (told : List (Diagnostic ν)) (desk : Desk ν) :
    (∃ after, told.forM report desk = .ok () after) ∨
      ∃ failure after, told.forM report desk = .error failure after ∧
        desk.policy.handling.Refuses failure after := by
  induction told generalizing desk with
  | nil => exact .inl ⟨desk, rfl⟩
  | cons first rest ih =>
      rw [forM_report_cons]
      cases hfirst : report first desk with
      | ok _ after =>
          have hrest := ih after
          rwa [report_handling hfirst] at hrest
      | error failure after => exact .inr ⟨failure, after, rfl, first, desk, rfl, hfirst⟩

end ViewTree
