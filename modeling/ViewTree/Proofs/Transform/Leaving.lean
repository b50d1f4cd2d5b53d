import ViewTree.Proofs.Transform.Leaves
import ViewTree.Proofs.Walk.Abiding

namespace ViewTree

def Event.phase? : Event → Option Phase
  | .call _ phase _ => some phase
  | .replaced _ phase _ => some phase
  | .asked _ => none

/-- The trace goes on from an earlier one with calls of exit hooks. -/
def Traced.Leaves (before : List Event) (session : Session (Traced σ)) : Prop :=
  ∃ calls, session.world.1 = before ++ calls ∧ ∀ event ∈ calls, event.phase? = some .exit

/-- An account goes on where another ends, with calls of exit hooks. -/
def Account.LeavesAfter (account entered : Account) : Prop :=
  ∃ calls, account.events = entered.events ++ calls ∧
    (∀ event ∈ calls, event.phase? = some .exit) ∧ (calls = [] → account = entered) ∧
    (entered.failure? ≠ none → calls = [])

theorem Account.LeavesAfter.refl (account : Account) : account.LeavesAfter account :=
  ⟨[], (List.append_nil _).symm, by simp, fun _ => rfl, fun _ => rfl⟩

theorem Account.LeavesAfter.of_leaves {entered : Account} (hentered : entered.failure? = none)
    {first : Event} (hfirst : first.phase? = some .exit) {last : Session (Traced Unit)}
    (h : Traced.Leaves (entered.events ++ [first]) last) (failure? : Option Failure) (tree : Tree) :
    Account.LeavesAfter ⟨last.world.1, failure?, tree⟩ entered := by
  obtain ⟨calls, hcalls, hexit⟩ := h
  refine ⟨first :: calls, ?_, List.forall_mem_cons.mpr ⟨hfirst, hexit⟩, by simp,
    fun hfailure => absurd hentered hfailure⟩
  rw [hcalls, List.append_assoc, List.singleton_append]

open Walk (Keeps Upholds)

section

variable {before : List Event}

theorem Walk.trace_leaves {event : Event} (h : event.phase? = some .exit) :
    Keeps (Traced.Leaves before) (Walk.trace event : Walk (Traced σ) Unit) fun _ => True := by
  intro session hsession
  obtain ⟨calls, hcalls, hexit⟩ := hsession
  refine ⟨⟨calls ++ [event], ?_, ?_⟩, trivial⟩
  · rw [← List.append_assoc, ← hcalls]
  · rw [List.forall_mem_append]
    exact ⟨hexit, by simpa using h⟩

theorem Walk.zoom_leaves (walk : Walk σ α) :
    Keeps (Traced.Leaves before) (Walk.zoom Lens.snd walk : Walk (Traced σ) α) fun _ => True := by
  rintro ⟨s, trace, world⟩ hsession
  apply Walk.Ends.zoom
  exact (Walk.Ends.anyhow _ _).imp (fun _ _ _ => ⟨hsession, trivial⟩) fun _ _ _ => hsession

/-- What a traced hook does once it has noted down that it is called. -/
def Hook.answered (visitor : Nat) (phase : Phase) (hook : Hook σ) : Hook (Traced σ) :=
  fun node ctx => do
    let (reply, next) ← Walk.zoom Lens.snd (hook node ctx)
    Walk.traceIf reply.replaces (.replaced visitor phase ctx.depth)
    return (reply, next)

theorem Hook.traced_apply (visitor : Nat) (phase : Phase) (hook : Hook σ) (node : Value)
    (ctx : Context) (s : Store) (trace : List Event) (world : σ) :
    hook.traced visitor phase node ctx ⟨s, trace, world⟩ =
      hook.answered visitor phase node ctx
        ⟨s, trace ++ [.call visitor phase (ctx.view s node)], world⟩ := rfl

theorem Hook.answered_leaves (visitor : Nat) (hook : Hook σ) (node : Value) (ctx : Context) :
    Keeps (Traced.Leaves before) (hook.answered visitor .exit node ctx) fun _ => True := by
  apply Upholds.bind (Walk.zoom_leaves (hook node ctx))
  intro given _
  refine Upholds.bind (Upholds.ite (fun _ => Walk.trace_leaves rfl) fun _ => .pure trivial) ?_
  intro _ _
  exact .pure trivial

theorem Hook.traced_leaves (visitor : Nat) (hook : Hook σ) (node : Value) (ctx : Context) :
    Keeps (Traced.Leaves before) (hook.traced visitor .exit node ctx) fun _ => True := by
  intro session hsession
  exact answered_leaves visitor hook node ctx _ (Walk.trace_leaves rfl session hsession).1

end

theorem exists_of_mem_exits {visitors : List (Visitor σ)} {hook : Hook (Traced σ)}
    (h : hook ∈ (traceAll visitors).filterMap (·.hook? .exit)) :
    ∃ number own, hook = Hook.traced number .exit own := by
  obtain ⟨visitor, hvisitor, hhook⟩ := List.mem_filterMap.mp h
  obtain ⟨number, hnumber, rfl⟩ := List.mem_mapIdx.mp hvisitor
  rw [Visitor.hook?_traced] at hhook
  obtain ⟨own, -, rfl⟩ := Option.map_eq_some_iff.mp hhook
  exact ⟨number, own, rfl⟩

theorem exitPhase_ends (visitors : List (Visitor σ)) (node : Value) (ctx : Context)
    (session : Session (Traced σ)) :
    runPhase .exit (traceAll visitors) node ctx = pure (none, ctx) ∨
      ∃ first : Event, first.phase? = some .exit ∧
        (runPhase .exit (traceAll visitors) node ctx).Ends session
          (fun _ => Traced.Leaves (session.world.1 ++ [first]))
          fun _ => Traced.Leaves (session.world.1 ++ [first]) := by
  have hhooks : ∀ hook ∈ (traceAll visitors).filterMap (·.hook? .exit),
      ∃ number own, hook = Hook.traced number .exit own := fun _ => exists_of_mem_exits
  unfold runPhase
  cases hooks : (traceAll visitors).filterMap (·.hook? .exit) with
  | nil => exact .inl rfl
  | cons hook rest =>
      rw [hooks] at hhooks
      obtain ⟨number, own, rfl⟩ := hhooks hook List.mem_cons_self
      obtain ⟨s, trace, world⟩ := session
      refine .inr ⟨.call number .exit (ctx.view s node), rfl, ?_⟩
      -- the first hook has been noted down, and answers with the trace as it is then
      have hfirst : runHooks (own.traced number .exit :: rest) node ctx ⟨s, trace, world⟩ =
          runHooks (own.answered number .exit :: rest) node ctx
            ⟨s, trace ++ [.call number .exit (ctx.view s node)], world⟩ := by
        rw [runHooks, runHooks, Walk.bind_apply, Walk.bind_apply, Hook.traced_apply]
      have hkeeps : Keeps (Traced.Leaves (trace ++ [.call number .exit (ctx.view s node)]))
          (runHooks (own.answered number .exit :: rest) node ctx) fun _ => True := by
        refine runHooks_upholds (List.forall_mem_cons.mpr ⟨?_, ?_⟩) ctx
        · exact Hook.answered_leaves number own node
        · intro other hother
          obtain ⟨number, own, rfl⟩ := hhooks other (List.mem_cons_of_mem _ hother)
          exact Hook.traced_leaves number own node
      have hstart : Traced.Leaves (trace ++ [.call number .exit (ctx.view s node)])
          ⟨s, trace ++ [.call number .exit (ctx.view s node)], world⟩ :=
        ⟨[], (List.append_nil _).symm, by simp⟩
      have hends := (hkeeps _ hstart).mono fun _ _ hafter => hafter.1
      unfold Walk.Ends at hends ⊢
      rw [hfirst]
      exact hends

namespace Transform

open Account (ofWalk)

/-- Enters a node.  The replacement, if there is one, is given back. -/
def entrance (visitors : List (Visitor σ)) (node : Value) : Walk σ (Option Value) := do
  return (← runPhase .enter visitors node .alone).1

theorem survey_primitive_breadthFirst {visitors : List (Visitor σ)} {prune : Prune σ} {a : Atom}
    (ha : a.isPrimitive = true) (fuel : Nat) :
    survey .breadthFirst visitors prune (fuel + 1) (.atom a) = entrance visitors (.atom a) := by
  rw [survey, classify_primitive ha, pure_bind]
  refine congrArg (runPhase .enter visitors _ _ >>= ·) (funext fun result => ?_)
  obtain ⟨replacement, ctx⟩ := result
  cases replacement with
  | some replacement => rfl
  | none =>
      simp only [descend_primitive, pure_bind, List.map_nil, Tour.breadthFirst_nil]

/-- A primitive that is entered and left goes on where one that is only entered ends. -/
theorem primitive_leavesAfter (visitors : List (Visitor Unit)) (a : Atom) :
    (ofWalk (primitive (traceAll visitors)) (.atom a)).LeavesAfter
      (ofWalk (Walk.answer (entrance (traceAll visitors))) (.atom a)) := by
  cases hgiven : runPhase .enter (traceAll visitors) (.atom a) .alone ⟨{}, [], ()⟩ with
  | error failure after =>
      have hown : primitive (traceAll visitors) (.atom a) ⟨{}, [], ()⟩ = .error failure after := by
        rw [primitive, Walk.bind_apply, hgiven]
      have hentered : Walk.answer (entrance (traceAll visitors)) (.atom a) ⟨{}, [], ()⟩ =
          .error failure after := by
        rw [Walk.answer, entrance, bind_assoc, Walk.bind_apply, hgiven]
      rw [Account.ofWalk_of_error hown, Account.ofWalk_of_error hentered]
      exact .refl _
  | ok given after =>
      obtain ⟨replacement, ctx⟩ := given
      have hentered : Walk.answer (entrance (traceAll visitors)) (.atom a) ⟨{}, [], ()⟩ =
          .ok (replacement.getD (.atom a)) after := by
        rw [Walk.answer, entrance, bind_assoc, Walk.bind_apply, hgiven]
        rfl
      cases replacement with
      | some replacement =>
          have hown : primitive (traceAll visitors) (.atom a) ⟨{}, [], ()⟩ =
              .ok replacement after := by
            rw [primitive, Walk.bind_apply, hgiven]
            rfl
          rw [Account.ofWalk_of_ok hown, Account.ofWalk_of_ok hentered]
          exact .refl _
      | none =>
          rcases exitPhase_ends visitors (.atom a) ctx after with hexit | ⟨first, hfirst, hends⟩
          · have hown : primitive (traceAll visitors) (.atom a) ⟨{}, [], ()⟩ =
                .ok (.atom a) after := by
              rw [primitive, Walk.bind_apply, hgiven]
              simp only [hexit, pure_bind]
              rfl
            rw [Account.ofWalk_of_ok hown, Account.ofWalk_of_ok hentered]
            exact .refl _
          · have haccount : ofWalk (Walk.answer (entrance (traceAll visitors))) (.atom a) =
                ⟨after.world.1, none, after.store.read (.atom a)⟩ := Account.ofWalk_of_ok hentered
            rw [haccount]
            unfold Walk.Ends at hends
            split at hends
            · next given last hleft =>
                obtain ⟨replacement, next⟩ := given
                have hown : primitive (traceAll visitors) (.atom a) ⟨{}, [], ()⟩ =
                    .ok (replacement.getD (.atom a)) last := by
                  rw [primitive, Walk.bind_apply, hgiven]
                  dsimp only
                  rw [Walk.bind_apply, hleft]
                  cases replacement <;> rfl
                rw [Account.ofWalk_of_ok hown]
                exact .of_leaves rfl hfirst hends _ _
            · next failure last hleft =>
                have hown : primitive (traceAll visitors) (.atom a) ⟨{}, [], ()⟩ =
                    .error failure last := by
                  rw [primitive, Walk.bind_apply, hgiven]
                  dsimp only
                  rw [Walk.bind_apply, hleft]
                rw [Account.ofWalk_of_error hown]
                exact .of_leaves rfl hfirst hends _ _

end Transform

end ViewTree
