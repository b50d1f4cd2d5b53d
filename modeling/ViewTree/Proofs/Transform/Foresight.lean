import ViewTree.Proofs.Transform.Weighing
import ViewTree.Sample

namespace ViewTree

namespace Order

theorem resolve_cases (given : Tree) :
    (∃ order, resolve given = .ok order) ∨ resolve given = .error (.invalidOrder given) := by
  rw [resolve.eq_def]
  split
  · exact .inl ⟨_, rfl⟩
  · exact .inl ⟨_, rfl⟩
  · split
    · exact .inl ⟨_, rfl⟩
    · exact .inr rfl
  · exact .inr rfl

theorem invalidMessage_ne_prune (given : Tree) :
    invalidMessage given ≠ "prune must be callable" := by
  intro h
  have hsame : ("Invalid traversal order: " ++ given.literal).toList =
      "prune must be callable".toList := congrArg String.toList h
  rw [String.toList_append] at hsame
  simp at hsame

end Order

namespace TransformOptions

variable {options : TransformOptions σ}

theorem validate_of_resolve {order : Order} (h : Order.resolve options.order = .ok order) :
    options.validate = if options.prune.isNull || options.prune.isCallable then []
      else ["prune must be callable"] := by
  rw [validate, Order.problems, h, List.nil_append]

theorem validate_of_refused (h : Order.resolve options.order = .error (.invalidOrder options.order)) :
    options.validate = Order.invalidMessage options.order ::
      if options.prune.isNull || options.prune.isCallable then []
        else ["prune must be callable"] := by
  rw [validate, Order.problems, h]
  rfl

theorem invalidMessage_mem_validate_iff :
    Order.invalidMessage options.order ∈ options.validate ↔
      Order.resolve options.order = .error (.invalidOrder options.order) := by
  rcases Order.resolve_cases options.order with ⟨order, horder⟩ | hrefused
  · rw [validate_of_resolve horder, horder]
    refine iff_of_false (fun hmem => ?_) (by simp)
    split at hmem
    · cases hmem
    · exact Order.invalidMessage_ne_prune _ (List.mem_singleton.mp hmem)
  · rw [validate_of_refused hrefused]
    exact iff_of_true List.mem_cons_self hrefused

theorem validate_eq_nil_iff :
    options.validate = [] ↔
      (∃ order, Order.resolve options.order = .ok order) ∧ ¬ options.prune.CannotBeAsked := by
  rcases Order.resolve_cases options.order with ⟨order, horder⟩ | hrefused
  · rw [validate_of_resolve horder, and_iff_right ⟨order, horder⟩, Prune.CannotBeAsked]
    cases options.prune.isNull || options.prune.isCallable <;> simp
  · rw [validate_of_refused hrefused, hrefused]
    simp

theorem validate_eq_prune_iff :
    options.validate = ["prune must be callable"] ↔
      (∃ order, Order.resolve options.order = .ok order) ∧ options.prune.CannotBeAsked := by
  rcases Order.resolve_cases options.order with ⟨order, horder⟩ | hrefused
  · rw [validate_of_resolve horder, and_iff_right ⟨order, horder⟩, Prune.CannotBeAsked]
    cases options.prune.isNull || options.prune.isCallable <;> simp
  · rw [validate_of_refused hrefused, hrefused]
    simp [Order.invalidMessage_ne_prune]

end TransformOptions

/-- The decisions a weighed transform came to. -/
def decisionsOf : EStateM.Result Failure (Session (Weighed σ)) α → List (Decision σ)
  | .ok _ after => after.world.1
  | .error _ after => after.world.1

theorem transform_of_refused {options : TransformOptions σ} {failure : Failure}
    (h : Order.resolve options.order = .error failure) (fuel : Nat) (visitors : List (Visitor σ))
    (root : Value) (session : Session σ) :
    transform fuel visitors options root session = .error failure session := by
  rw [transform_eq, h]
  rfl

section

variable {options : TransformOptions σ} {order : Order}
  (horder : Order.resolve options.order = .ok order) (fuel : Nat) (visitors : List (Visitor σ))
  (root : Value) (s : Store) (world : σ)

include horder

theorem transform_blames {failure : Failure} {after : Session σ}
    (h : transform fuel visitors options root ⟨s, world⟩ = .error failure after) :
    Blames visitors options.prune failure ∨
      options.prune.CannotBeAsked ∧ failure = .notCallable := by
  have hbreaks := weighedTransform_upholds fuel visitors horder root ⟨s, [], world⟩
    fun _ _ hnone => by cases hnone
  rw [transform_unweighed fuel visitors options root s [] world] at h
  cases hweighed : weighedTransform fuel visitors options root ⟨s, [], world⟩ with
  | ok value last =>
      rw [hweighed] at h
      cases h
  | error cause last =>
      rw [hweighed] at h
      rw [Walk.Ends.iff_of_error hweighed] at hbreaks
      cases h
      rcases hbreaks with ⟨-, hblames⟩ | ⟨hstuck, -, -, -, -, -, hcause, -⟩
      · exact .inl hblames
      · exact .inr ⟨hstuck, hcause⟩

/-- Where the question about descent cannot be asked, the first decision that asks it is the last, and
the transform fails there. -/
theorem transform_balks (hstuck : options.prune.CannotBeAsked) :
    let weighed := weighedTransform fuel visitors options root ⟨s, [], world⟩
    ((∀ decision ∈ decisionsOf weighed, ¬ decision.IsOpen) ∧
      ∀ failure after, transform fuel visitors options root ⟨s, world⟩ = .error failure after →
        Blames visitors options.prune failure) ∨
    ∃ before decision, decisionsOf weighed = before ++ [decision] ∧
      (∀ earlier ∈ before, ¬ earlier.IsOpen) ∧ decision.IsOpen ∧
      transform fuel visitors options root ⟨s, world⟩ = .error .notCallable decision.session := by
  intro weighed
  have hbreaks := weighedTransform_upholds fuel visitors horder root ⟨s, [], world⟩
    fun _ _ hnone => by cases hnone
  rw [transform_unweighed fuel visitors options root s [] world]
  cases hweighed : weighedTransform fuel visitors options root ⟨s, [], world⟩ with
  | ok value last =>
      rw [Walk.Ends.iff_of_ok hweighed] at hbreaks
      refine .inl ⟨?_, fun _ _ h => by cases h⟩
      simp only [weighed, hweighed]
      exact hbreaks.1 hstuck
  | error cause last =>
      rw [Walk.Ends.iff_of_error hweighed] at hbreaks
      simp only [weighed, hweighed]
      rcases hbreaks with ⟨hcalm, hblames⟩ |
        ⟨-, before, decision, hdecisions, hbefore, hopen, rfl, hsession⟩
      · refine .inl ⟨hcalm hstuck, fun failure after h => ?_⟩
        cases h
        exact hblames
      · exact .inr ⟨before, decision, hdecisions, hbefore, hopen, hsession ▸ rfl⟩

end

namespace TransformOptions

variable {options : TransformOptions σ} {fuel : Nat} {visitors : List (Visitor σ)} {root : Value}
  {s : Store} {world : σ}

theorem transform_of_order_problem (h : Order.invalidMessage options.order ∈ options.validate) :
    transform fuel visitors options root ⟨s, world⟩ =
        .error (.invalidOrder options.order) ⟨s, world⟩ ∧
      transform fuel (traceAll visitors) options.traced root ⟨s, [], world⟩ =
        .error (.invalidOrder options.order) ⟨s, [], world⟩ := by
  have hresolve := invalidMessage_mem_validate_iff.mp h
  have htraced : Order.resolve options.traced.order = .error (.invalidOrder options.order) := hresolve
  exact ⟨transform_of_refused hresolve fuel visitors root _,
    transform_of_refused htraced fuel (traceAll visitors) root _⟩

theorem order_problem_iff_fails
    (hinnocent : ∀ given, ¬ Raises visitors options.prune (.invalidOrder given)) :
    Order.invalidMessage options.order ∈ options.validate ↔
      ∃ given after, transform fuel visitors options root ⟨s, world⟩ =
        .error (.invalidOrder given) after := by
  refine ⟨fun h => ⟨_, _, (transform_of_order_problem h).1⟩, ?_⟩
  rintro ⟨given, after, hfailed⟩
  rcases Order.resolve_cases options.order with ⟨order, horder⟩ | hresolve
  · rcases transform_blames horder fuel visitors root s world hfailed with
      (hown | hraises) | ⟨-, hother⟩
    · exact hown.elim
    · exact absurd hraises (hinnocent given)
    · cases hother
  · exact invalidMessage_mem_validate_iff.mpr hresolve

theorem raises_of_validate_eq_nil (h : options.validate = []) {failure : Failure}
    {after : Session σ}
    (hfailed : transform fuel visitors options root ⟨s, world⟩ = .error failure after)
    (hfailure : failure = .notCallable ∨ ∃ given, failure = .invalidOrder given) :
    Raises visitors options.prune failure := by
  obtain ⟨⟨order, horder⟩, hprune⟩ := validate_eq_nil_iff.mp h
  rcases transform_blames horder fuel visitors root s world hfailed with
    (hown | hraises) | ⟨hstuck, -⟩
  · rcases hfailure with rfl | ⟨given, rfl⟩
    · exact hown.elim
    · exact hown.elim
  · exact hraises
  · exact absurd hstuck hprune

/-- The first open decision is the last, so there is no other. -/
theorem fails_at_open_decision (h : options.validate = ["prune must be callable"])
    {decision : Decision σ} (hopen : decision.IsOpen)
    (hdecision : decision ∈
      decisionsOf (weighedTransform fuel visitors options root ⟨s, [], world⟩)) :
    ∃ before, decisionsOf (weighedTransform fuel visitors options root ⟨s, [], world⟩) =
        before ++ [decision] ∧
      (∀ earlier ∈ before, ¬ earlier.IsOpen) ∧
      transform fuel visitors options root ⟨s, world⟩ = .error .notCallable decision.session := by
  obtain ⟨⟨order, horder⟩, hstuck⟩ := validate_eq_prune_iff.mp h
  rcases transform_balks horder fuel visitors root s world hstuck with
    ⟨hcalm, -⟩ | ⟨before, last, hdecisions, hbefore, -, hfailed⟩
  · exact absurd hopen (hcalm decision hdecision)
  · obtain rfl : decision = last := by
      rw [hdecisions] at hdecision
      rcases List.mem_append.mp hdecision with hearlier | hsame
      · exact absurd hopen (hbefore decision hearlier)
      · exact List.mem_singleton.mp hsame
    exact ⟨before, hdecisions, hbefore, hfailed⟩

theorem not_callable_iff_open_decision (h : options.validate = ["prune must be callable"])
    (hinnocent : ¬ Raises visitors options.prune .notCallable) :
    (∃ after, transform fuel visitors options root ⟨s, world⟩ = .error .notCallable after) ↔
      ∃ decision ∈ decisionsOf (weighedTransform fuel visitors options root ⟨s, [], world⟩),
        decision.IsOpen := by
  obtain ⟨⟨order, horder⟩, hstuck⟩ := validate_eq_prune_iff.mp h
  constructor
  · rintro ⟨after, hfailed⟩
    rcases transform_balks horder fuel visitors root s world hstuck with
      ⟨-, hblames⟩ | ⟨before, last, hdecisions, -, hopen, -⟩
    · rcases hblames _ _ hfailed with hown | hraises
      · exact hown.elim
      · exact absurd hraises hinnocent
    · refine ⟨last, ?_, hopen⟩
      rw [hdecisions]
      exact List.mem_append_right _ (List.mem_singleton_self _)
  · rintro ⟨decision, hdecision, hopen⟩
    obtain ⟨-, -, -, hfailed⟩ := fails_at_open_decision h hopen hdecision
    exact ⟨_, hfailed⟩

end TransformOptions

/-- What a check of options, merged with settings that override them, tells of every run with them.  It
finds a problem with the order exactly if runs fail for the order; they then call nobody and touch
nothing.  If it finds no problem, runs fail neither for the order nor for the question about descent,
but for visitors who fail in this way themselves.  If it finds the question only, a run with visitors
fails for it exactly if it comes to a decision about a structured node whose latch is clear; this
decision is then its last, and nothing is done after. -/
theorem TransformOptions.validate_foretells (options : TransformOptions σ) (order clone : Tree)
    (prune : Prune σ) :
    let merged := options.override order clone prune
    (∀ fuel visitors root (s : Store) (world : σ),
      (Order.invalidMessage merged.order ∈ merged.validate →
        transform fuel visitors merged root ⟨s, world⟩ =
            .error (.invalidOrder merged.order) ⟨s, world⟩ ∧
          transform fuel (traceAll visitors) merged.traced root ⟨s, [], world⟩ =
            .error (.invalidOrder merged.order) ⟨s, [], world⟩) ∧
      ((∀ given, ¬ Raises visitors merged.prune (.invalidOrder given)) →
        (Order.invalidMessage merged.order ∈ merged.validate ↔
          ∃ given after, transform fuel visitors merged root ⟨s, world⟩ =
            .error (.invalidOrder given) after))) ∧
    (merged.validate = [] → ∀ fuel visitors root (s : Store) (world : σ) failure after,
      transform fuel visitors merged root ⟨s, world⟩ = .error failure after →
      (failure = .notCallable ∨ ∃ given, failure = .invalidOrder given) →
      Raises visitors merged.prune failure) ∧
    (merged.validate = ["prune must be callable"] →
      ∀ fuel visitors root (s : Store) (world : σ),
      let weighed := weighedTransform fuel visitors merged root ⟨s, [], world⟩
      transform fuel visitors merged root ⟨s, world⟩ = kept Prod.snd weighed ∧
      (∀ decision ∈ decisionsOf weighed, decision.IsOpen → ∃ before,
        decisionsOf weighed = before ++ [decision] ∧ (∀ earlier ∈ before, ¬ earlier.IsOpen) ∧
        transform fuel visitors merged root ⟨s, world⟩ = .error .notCallable decision.session) ∧
      (¬ Raises visitors merged.prune .notCallable →
        ((∃ after, transform fuel visitors merged root ⟨s, world⟩ = .error .notCallable after) ↔
          ∃ decision ∈ decisionsOf weighed, decision.IsOpen))) := by
  intro merged
  refine ⟨fun fuel visitors root s world => ⟨transform_of_order_problem, order_problem_iff_fails⟩,
    fun hvalid fuel visitors root s world failure after hfailed hfailure => ?_,
    fun hvalid fuel visitors root s world => ⟨?_, ?_, ?_⟩⟩
  · exact raises_of_validate_eq_nil hvalid hfailed hfailure
  · exact transform_unweighed fuel visitors merged root s [] world
  · exact fun decision hdecision hopen => fails_at_open_decision hvalid hopen hdecision
  · exact not_callable_iff_open_decision hvalid

theorem TransformOptions.validate_foretells_sample :
    let options : TransformOptions Unit := .override {} (.text "bfs") .null (.setting (.int 3))
    let laid := Store.load Tree.sample {}
    options.validate = ["prune must be callable"] ∧
      ∃ after, transform 30 [{}] options laid.1 ⟨laid.2, ()⟩ = .error .notCallable after := by
  intro options laid
  obtain ⟨-, -, hstuck⟩ := TransformOptions.validate_foretells ({} : TransformOptions Unit)
    (.text "bfs") .null (.setting (.int 3))
  have hvalid : options.validate = ["prune must be callable"] := by decide
  obtain ⟨-, -, hexactly⟩ := hstuck hvalid 30 [{}] laid.1 laid.2 ()
  have hinnocent : ¬ Raises [({} : Visitor Unit)] options.prune .notCallable := by
    intro hraises
    cases hraises with
    | @hook _ phase _ _ _ _ _ hvisitor hhook =>
        obtain rfl := List.mem_singleton.mp hvisitor
        cases phase <;> cases hhook
    | predicate hprune => cases hprune
  have hcomes : ((decisionsOf (weighedTransform 30 [{}] options laid.1 ⟨laid.2, [], ()⟩)).any
      fun decision => decision.IsOpen) = true := by
    decide +kernel
  obtain ⟨decision, hdecision, hopen⟩ := List.any_eq_true.mp hcomes
  exact ⟨hvalid, (hexactly hinnocent).mpr ⟨decision, hdecision, of_decide_eq_true hopen⟩⟩

end ViewTree
