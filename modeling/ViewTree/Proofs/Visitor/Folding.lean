import ViewTree.Proofs.Visitor.Tracing
import ViewTree.Proofs.Walk.Course

namespace ViewTree

theorem Value.isNull_eq_true_iff {value : Value} : value.isNull = true ↔ value = .null := by
  cases value with
  | atom a => cases a <;> simp [isNull, null]
  | _ => simp [isNull, null]

theorem Reply.replacement?_eq_some_iff {reply : Reply Value} {replacement : Value} :
    (reply.settle Value.isNull).replacement? = some replacement ↔
      reply = .outcome (.replace replacement) ∨
        reply = .value replacement ∧ replacement ≠ .null := by
  cases reply with
  | outcome result => cases result <;> simp [settle, Outcome.replacement?]
  | value given =>
      rw [settle]
      by_cases hnull : given.isNull = true
      · rw [if_pos hnull]
        rw [Value.isNull_eq_true_iff] at hnull
        subst hnull
        simp [Outcome.replacement?, eq_comm]
      · rw [if_neg hnull]
        rw [Value.isNull_eq_true_iff] at hnull
        simp only [Outcome.replacement?, Option.some.injEq, value.injEq, reduceCtorEq, false_or]
        constructor
        · rintro rfl
          exact ⟨rfl, hnull⟩
        · exact And.left

theorem runHooks_append (hooks more : List (Hook σ)) (node : Value) (ctx : Context) :
    runHooks (hooks ++ more) node ctx = (do
      let (replacement?, next) ← runHooks hooks node ctx
      match replacement? with
      | some replacement => return (some replacement, next)
      | none => runHooks more node next) := by
  induction hooks generalizing ctx with
  | nil =>
      rw [List.nil_append, runHooks_nil, pure_bind]
  | cons hook hooks ih =>
      rw [List.cons_append, runHooks, runHooks, bind_assoc]
      refine bind_congr fun result => ?_
      obtain ⟨reply, next⟩ := result
      simp only
      cases (reply.settle Value.isNull).replacement? with
      | some replacement => simp only [pure_bind]
      | none => exact ih next

/-- The hooks of a phase, with the numbers of their visitors in the list. -/
def numberedHooks (phase : Phase) (visitors : List (Visitor σ)) : List (Nat × Hook σ) :=
  visitors.zipIdx.filterMap fun entry => (entry.1.hook? phase).map (entry.2, ·)

def hooked (phase : Phase) (visitors : List (Visitor σ)) : List Nat :=
  (visitors.zipIdx.filter fun entry => (entry.1.hook? phase).isSome).map Prod.snd

theorem hooked_pairwise (phase : Phase) (visitors : List (Visitor σ)) :
    (hooked phase visitors).Pairwise (· < ·) := by
  have hall : (visitors.zipIdx.map Prod.snd).Pairwise (· < ·) := by
    rw [List.zipIdx_map_snd]
    exact List.pairwise_lt_range'
  exact hall.sublist (List.filter_sublist.map Prod.snd)

theorem numberedHooks_numbers (phase : Phase) (visitors : List (Visitor σ)) :
    (numberedHooks phase visitors).map Prod.fst = hooked phase visitors := by
  rw [numberedHooks, hooked]
  induction visitors.zipIdx with
  | nil => rfl
  | cons entry rest ih =>
      rw [List.filterMap_cons, List.filter_cons]
      cases entry.1.hook? phase with
      | none => exact ih
      | some hook => exact congrArg (entry.2 :: ·) ih

theorem numberedHooks_hooks (phase : Phase) (visitors : List (Visitor σ)) :
    (numberedHooks phase visitors).map Prod.snd = visitors.filterMap (·.hook? phase) := by
  have hplain : visitors.filterMap (·.hook? phase) =
      visitors.zipIdx.filterMap fun entry => entry.1.hook? phase := by
    conv_lhs => rw [← List.zipIdx_map_fst 0 visitors, List.filterMap_map]
    rfl
  rw [numberedHooks, hplain, List.map_filterMap]
  refine List.filterMap_congr fun entry _ => ?_
  cases entry.1.hook? phase <;> rfl

theorem numberedHooks_traced (phase : Phase) (visitors : List (Visitor σ)) :
    (numberedHooks phase visitors).map (fun entry => entry.2.traced entry.1 phase) =
      (traceAll visitors).filterMap (·.hook? phase) := by
  rw [numberedHooks, traceAll, List.mapIdx_eq_zipIdx_map, List.filterMap_map, List.map_filterMap]
  refine List.filterMap_congr fun entry _ => ?_
  rw [Function.comp_apply, Visitor.hook?_traced]
  cases entry.1.hook? phase <;> rfl

def noted (trace : List Event) :
    EStateM.Result Failure (Session σ) α → EStateM.Result Failure (Session (Traced σ)) α
  | .ok value ⟨s, world⟩ => .ok value ⟨s, trace, world⟩
  | .error failure ⟨s, world⟩ => .error failure ⟨s, trace, world⟩

def Event.caller? (phase : Phase) : Event → Option Nat
  | .call visitor called _ => if called = phase then some visitor else none
  | .replaced .. | .asked _ => none

def Event.replacer? (phase : Phase) : Event → Option Nat
  | .replaced visitor called _ => if called = phase then some visitor else none
  | .call .. | .asked _ => none

theorem Hook.traced_result (hook : Hook σ) (number : Nat) (phase : Phase) (node : Value)
    (ctx : Context) (s : Store) (trace : List Event) (world : σ) :
    hook.traced number phase node ctx ⟨s, trace, world⟩ =
      match hook node ctx ⟨s, world⟩ with
      | .ok (reply, next) after =>
        .ok (reply, next) ⟨after.store, trace ++ .call number phase (ctx.view s node) ::
          if reply.replaces then [.replaced number phase ctx.depth] else [], after.world⟩
      | .error failure after =>
        .error failure
          ⟨after.store, trace ++ [.call number phase (ctx.view s node)], after.world⟩ := by
  have htrace : (do
      let s ← Walk.store
      Walk.trace (.call number phase (ctx.view s node)) : Walk (Traced σ) Unit)
      ⟨s, trace, world⟩ = .ok () ⟨s, trace ++ [.call number phase (ctx.view s node)], world⟩ := rfl
  unfold Hook.traced
  rw [← bind_assoc, Walk.bind_apply, htrace]
  dsimp only
  rw [Walk.bind_apply, Walk.zoom]
  simp only [Lens.snd]
  cases hook node ctx ⟨s, world⟩ with
  | error failure after => rfl
  | ok answer after =>
      obtain ⟨reply, next⟩ := answer
      cases hreplaces : reply.replaces with
      | false =>
          simp only [hreplaces]
          rfl
      | true =>
          simp only [hreplaces, if_true]
          rw [List.append_cons trace (.call number phase (ctx.view s node)) [_]]
          rfl

/-- How far a phase has called the hooks of some visitors: up to the first that has replaced the node
or has failed, or else all of them. -/
def Reached (phase : Phase) (numbers : List Nat) (events : List Event) :
    EStateM.Result Failure (Session σ) (Option Value × Context) → Prop
  | .ok (none, _) _ =>
    events.filterMap (Event.caller? phase) = numbers ∧
      events.filterMap (Event.replacer? phase) = []
  | .ok (some _, _) _ => ∃ done last rest, numbers = done ++ last :: rest ∧
    events.filterMap (Event.caller? phase) = done ++ [last] ∧
      events.filterMap (Event.replacer? phase) = [last]
  | .error _ _ => ∃ done last rest, numbers = done ++ last :: rest ∧
    events.filterMap (Event.caller? phase) = done ++ [last] ∧
      events.filterMap (Event.replacer? phase) = []

theorem Reached.cons {phase : Phase} {number : Nat} {numbers : List Nat} {event : Event}
    {events : List Event} {result : EStateM.Result Failure (Session σ) (Option Value × Context)}
    (hcall : event.caller? phase = some number) (hreplaced : event.replacer? phase = none)
    (h : Reached phase numbers events result) :
    Reached phase (number :: numbers) (event :: events) result := by
  have hcallers := List.filterMap_cons_some hcall (l := events)
  have hreplacers := List.filterMap_cons_none hreplaced (l := events)
  cases result with
  | error failure after =>
      obtain ⟨done, last, rest, rfl, hcalled, hnone⟩ := h
      exact ⟨number :: done, last, rest, rfl, by rw [hcallers, hcalled]; rfl, hreplacers.trans hnone⟩
  | ok answer after =>
      obtain ⟨replacement?, next⟩ := answer
      cases replacement? with
      | none =>
          obtain ⟨rfl, hnone⟩ := h
          exact ⟨hcallers, hreplacers.trans hnone⟩
      | some replacement =>
          obtain ⟨done, last, rest, rfl, hcalled, hone⟩ := h
          exact ⟨number :: done, last, rest, rfl, by rw [hcallers, hcalled]; rfl,
            hreplacers.trans hone⟩

theorem runHooks_reached (hooks : List (Nat × Hook σ)) (phase : Phase) (node : Value) (ctx : Context)
    (s : Store) (trace : List Event) (world : σ) :
    ∃ events,
      runHooks (hooks.map fun entry => entry.2.traced entry.1 phase) node ctx ⟨s, trace, world⟩ =
        noted (trace ++ events) (runHooks (hooks.map Prod.snd) node ctx ⟨s, world⟩) ∧
      Reached phase (hooks.map Prod.fst) events
        (runHooks (hooks.map Prod.snd) node ctx ⟨s, world⟩) := by
  induction hooks generalizing ctx s trace world with
  | nil => exact ⟨[], by rw [List.append_nil]; rfl, rfl, rfl⟩
  | cons entry hooks ih =>
      obtain ⟨number, hook⟩ := entry
      have hcall : Event.caller? phase (.call number phase (ctx.view s node)) = some number :=
        if_pos rfl
      simp only [List.map_cons, runHooks]
      rw [Walk.bind_apply, Walk.bind_apply, hook.traced_result]
      cases hook node ctx ⟨s, world⟩ with
      | error failure after =>
          refine ⟨[.call number phase (ctx.view s node)], rfl, [], number, _, rfl, ?_, rfl⟩
          rw [List.filterMap_cons_some hcall]
          rfl
      | ok answer after =>
          obtain ⟨reply, next⟩ := answer
          cases hreplacement : (reply.settle Value.isNull).replacement? with
          | some replacement =>
              have hreplaces : reply.replaces = true := by
                rw [Reply.replaces, hreplacement]
                rfl
              have hlast : Event.replacer? phase (.replaced number phase ctx.depth) = some number :=
                if_pos rfl
              simp only [hreplaces, if_true, hreplacement]
              refine ⟨_, rfl, [], number, _, rfl, ?_, ?_⟩
              · rw [List.filterMap_cons_some hcall]
                rfl
              · rw [List.filterMap_cons_none rfl, List.filterMap_cons_some hlast]
                rfl
          | none =>
              have hreplaces : reply.replaces = false := by
                rw [Reply.replaces, hreplacement]
                rfl
              simp only [hreplaces, Bool.false_eq_true, if_false, hreplacement]
              obtain ⟨events, hrun, hreached⟩ := ih next after.store
                (trace ++ [.call number phase (ctx.view s node)]) after.world
              refine ⟨.call number phase (ctx.view s node) :: events, ?_, hreached.cons hcall rfl⟩
              rw [hrun, List.append_cons trace _ events]

theorem runPhase_singleton (phase : Phase) (visitor : Visitor σ) (node : Value) (ctx : Context) :
    runPhase phase [visitor] node ctx =
      match visitor.hook? phase with
      | none => pure (none, ctx)
      | some hook => do
        let (reply, next) ← hook node ctx
        return ((reply.settle Value.isNull).replacement?, next) := by
  rw [runPhase, List.filterMap_cons]
  cases visitor.hook? phase with
  | none => rfl
  | some hook =>
      simp only [List.filterMap_nil, runHooks]
      refine bind_congr fun result => ?_
      obtain ⟨reply, next⟩ := result
      simp only
      cases (reply.settle Value.isNull).replacement? <;> rfl

theorem filterMap_hook?_filter (phase : Phase) (visitors : List (Visitor σ)) :
    (visitors.filter fun visitor => (visitor.hook? phase).isSome).filterMap (·.hook? phase) =
      visitors.filterMap (·.hook? phase) := by
  rw [List.filterMap_filter]
  refine List.filterMap_congr fun visitor _ => ?_
  cases visitor.hook? phase <;> rfl

/-- The phase of some visitors and then others goes on with the others where the first have left it,
unless one of them has replaced the node or failed.  One visitor is asked once, visitors without a
hook make no difference, and the calls are those of the visitors that have one, in order, up to the
first that replaces the node or fails.  A reply replaces the node if it says so or is a value other
than null, and then by that very value. -/
theorem runPhase_folds (phase : Phase) (visitors : List (Visitor σ)) (node : Value)
    (ctx : Context) :
    (∀ more, runPhase phase (visitors ++ more) node ctx = (do
      let (replacement?, next) ← runPhase phase visitors node ctx
      match replacement? with
      | some replacement => return (some replacement, next)
      | none => runPhase phase more node next)) ∧
    (∀ visitor : Visitor σ, runPhase phase [visitor] node ctx =
      match visitor.hook? phase with
      | none => pure (none, ctx)
      | some hook => do
        let (reply, next) ← hook node ctx
        return ((reply.settle Value.isNull).replacement?, next)) ∧
    runPhase phase (visitors.filter fun visitor => (visitor.hook? phase).isSome) node ctx =
      runPhase phase visitors node ctx ∧
    (hooked phase visitors).Pairwise (· < ·) ∧
    (∀ (s : Store) (trace : List Event) (world : σ), ∃ events,
      runPhase phase (traceAll visitors) node ctx ⟨s, trace, world⟩ =
        noted (trace ++ events) (runPhase phase visitors node ctx ⟨s, world⟩) ∧
      Reached phase (hooked phase visitors) events (runPhase phase visitors node ctx ⟨s, world⟩)) ∧
    ∀ (reply : Reply Value) (replacement : Value),
      (reply.settle Value.isNull).replacement? = some replacement ↔
        reply = .outcome (.replace replacement) ∨
          reply = .value replacement ∧ replacement ≠ .null := by
  refine ⟨?_, fun visitor => runPhase_singleton phase visitor node ctx, ?_,
    hooked_pairwise phase visitors, ?_, fun _ _ => Reply.replacement?_eq_some_iff⟩
  · intro more
    rw [runPhase, List.filterMap_append]
    exact runHooks_append _ _ node ctx
  · rw [runPhase, runPhase, filterMap_hook?_filter]
  · intro s trace world
    have hreached := runHooks_reached (numberedHooks phase visitors) phase node ctx s trace world
    rw [numberedHooks_traced, numberedHooks_hooks, numberedHooks_numbers] at hreached
    exact hreached

end ViewTree
