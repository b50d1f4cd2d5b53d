import ViewTree.Proofs.Transform.Beside
import ViewTree.Proofs.Transform.Upholding

/-!
Weighed transforms.  A visit comes to the decision about descent unless the node was replaced on entry.
A weighed transform keeps each of these decisions, with the session it is made in, and otherwise does
what the transform does.  Where the question about descent cannot be asked, the first decision that asks
it is the last thing the transform does.
-/

namespace ViewTree

open Walk (Ends FailsOnly Mirrors Upholds)

structure Decision (σ : Type) where
  kind : Kind
  slot : Slot
  ctx : Context
  session : Session σ

/-- The node is structured and the latch is clear, so that the question about descent is asked. -/
def Decision.IsOpen (decision : Decision σ) : Prop :=
  decision.kind = .structured ∧ decision.ctx.skipping = false

instance (decision : Decision σ) : Decidable decision.IsOpen :=
  inferInstanceAs (Decidable (_ ∧ _))

abbrev Weighed (σ : Type) := List (Decision σ) × σ

def Walk.weigh (kind : Kind) (slot : Slot) : Option Context → Walk (Weighed σ) Unit
  | some ctx => fun ⟨s, decisions, world⟩ =>
      .ok () ⟨s, decisions ++ [⟨kind, slot, ctx, ⟨s, world⟩⟩], world⟩
  | none => return ()

/-- A tour that is weighed.  The decision follows on arrival. -/
def Tour.weighed (tour : Tour σ) : Tour (Weighed σ) where
  prune node ctx := Walk.zoom Lens.snd (tour.prune node ctx)
  arrive kind slot ctx := do
    let next ← Walk.zoom Lens.snd (tour.arrive kind slot ctx)
    Walk.weigh kind slot next
    return next
  leave kind slot ctx := Walk.zoom Lens.snd (tour.leave kind slot ctx)

def weighedTransform (fuel : Nat) (visitors : List (Visitor σ)) (options : TransformOptions σ)
    (root : Value) : Walk (Weighed σ) Value :=
  transformBeside Tour.weighed fuel visitors options root

theorem Walk.untrace_weigh (kind : Kind) (slot : Slot) (next : Option Context) :
    Mirrors (shed (List (Decision σ)) σ) (fun _ => ()) (Walk.weigh kind slot next) (pure ()) := by
  cases next with
  | none => exact .pure _ ()
  | some ctx =>
      rintro ⟨s, decisions, world⟩
      exact congrArg (EStateM.Result.ok ())
        ((untrace_session s decisions world).trans (untrace_session s _ world).symm)

theorem Tour.weighed_mirrors (tour : Tour σ) :
    tour.weighed.Mirrors (shed (List (Decision σ)) σ) tour := by
  refine ⟨?_, ?_, ?_⟩
  · exact Asked.of_base base_shed (fun _ => rfl) fun node ctx => Walk.untrace_zoom _
  · intro kind slot ctx
    rw [base_shed, Slot.above_empty, Context.above_empty]
    refine Walk.untrace_moved ?_ fun next => ?_
    · apply (Walk.untrace_zoom _).andThen
      intro next
      apply (Walk.untrace_weigh kind slot next).skip
      intro _
      exact .pure id next
    · cases next with
      | none => rfl
      | some ctx => exact congrArg some ctx.above_empty
  · intro kind slot ctx
    rw [base_shed, Slot.above_empty, Context.above_empty]
    exact Walk.untrace_zoom _

theorem transform_unweighed (fuel : Nat) (visitors : List (Visitor σ))
    (options : TransformOptions σ) (root : Value) (s : Store) (decisions : List (Decision σ))
    (world : σ) :
    transform fuel visitors options root ⟨s, world⟩ =
      kept Prod.snd (weighedTransform fuel visitors options root ⟨s, decisions, world⟩) :=
  transform_shed Tour.weighed_mirrors fuel visitors options root s decisions world

/-- A hook of a visitor, or the predicate that is asked before descent, fails in this way. -/
inductive Raises (visitors : List (Visitor σ)) (prune : Prune σ) (failure : Failure) : Prop
  | hook {visitor : Visitor σ} {phase : Phase} {hook : Hook σ} {node : Value} {ctx : Context}
      {session after : Session σ} (hvisitor : visitor ∈ visitors)
      (hhook : visitor.hook? phase = some hook) (h : hook node ctx session = .error failure after)
  | predicate {test : Value → Context → Walk σ (Bool × Context)} {node : Value} {ctx : Context}
      {session after : Session σ} (hprune : prune = .predicate test)
      (h : test node ctx session = .error failure after)

def Blames (visitors : List (Visitor σ)) (prune : Prune σ) (failure : Failure) : Prop :=
  failure.IsOwn ∨ Raises visitors prune failure

section

variable {visitors : List (Visitor σ)} {prune : Prune σ}

theorem condones_blames :
    Walk.Condones (fun _ : Session σ => True) fun failure _ => Blames visitors prune failure :=
  .fails fun hown => .inl hown

variable (visitors prune)

theorem visitors_blamed : ∀ visitor ∈ visitors,
    visitor.Abides (fun _ => True) fun failure _ => Blames visitors prune failure := by
  intro visitor hvisitor phase hook hhook node ctx session _
  unfold Ends
  split
  · exact ⟨trivial, trivial⟩
  · next failure after hfailed => exact .inr (.hook hvisitor hhook hfailed)

theorem primitive_fails (node : Value) :
    FailsOnly (Blames visitors prune) (Transform.primitive visitors node) :=
  Transform.primitive_abides (visitors_blamed visitors prune) node

end

/-- No question that cannot be asked has been asked so far. -/
def Calm (stuck : Prop) (session : Session (Weighed σ)) : Prop :=
  stuck → ∀ decision ∈ session.world.1, ¬ decision.IsOpen

/-- The transform failed at its last decision, which asks the question, and nothing came after. -/
def Balked (failure : Failure) (after : Session (Weighed σ)) : Prop :=
  ∃ before decision, after.world.1 = before ++ [decision] ∧
    (∀ earlier ∈ before, ¬ earlier.IsOpen) ∧ decision.IsOpen ∧ failure = .notCallable ∧
    decision.session = ⟨after.store, after.world.2⟩

/-- The ways in which a weighed walk breaks off. -/
def Breaks (stuck : Prop) (mode : Failure → Prop) (failure : Failure)
    (after : Session (Weighed σ)) : Prop :=
  Calm stuck after ∧ mode failure ∨ stuck ∧ Balked failure after

/-- The parts of a tour fail in some ways only; the question about descent may be one that cannot be
asked. -/
structure Tour.Tempered (tour : Tour σ) (stuck : Prop) (mode : Failure → Prop) : Prop where
  own : ∀ {failure : Failure}, failure.IsOwn → mode failure
  arrive : ∀ kind slot ctx, FailsOnly mode (tour.arrive kind slot ctx)
  leave : ∀ kind slot ctx, FailsOnly mode (tour.leave kind slot ctx)
  asks : ¬ stuck → ∀ node ctx, FailsOnly mode (tour.prune node ctx)
  stuck : stuck → ∀ node ctx, tour.prune node ctx = throw .notCallable

section

variable {stuck : Prop} {mode : Failure → Prop}

theorem condones_breaks (hown : ∀ {failure : Failure}, failure.IsOwn → mode failure) :
    Walk.Condones (Calm stuck) (Breaks stuck mode : Failure → Session (Weighed σ) → Prop) :=
  ⟨fun hcalm => hcalm, fun hfailure hcalm => .inl ⟨hcalm, hown hfailure⟩⟩

theorem Walk.FailsOnly.zoom {walk : Walk σ α} (h : FailsOnly mode walk) :
    Upholds (Calm stuck) (Breaks stuck mode) (Walk.zoom Lens.snd walk : Walk (Weighed σ) α) := by
  rintro ⟨s, decisions, world⟩ hcalm
  apply Ends.zoom
  apply (h ⟨s, world⟩ trivial).imp
  · intro value after _
    exact ⟨hcalm, trivial⟩
  · intro failure after hfailure
    exact .inl ⟨hcalm, hfailure⟩

theorem Tour.weighed_arrive_apply (tour : Tour σ) (kind : Kind) (slot : Slot) (ctx : Context)
    (s : Store) (decisions : List (Decision σ)) (world : σ) :
    tour.weighed.arrive kind slot ctx ⟨s, decisions, world⟩ =
      match tour.arrive kind slot ctx ⟨s, world⟩ with
      | .ok (some next) after =>
          .ok (some next) ⟨after.store, decisions ++ [⟨kind, slot, next, after⟩], after.world⟩
      | .ok none after => .ok none ⟨after.store, decisions, after.world⟩
      | .error failure after => .error failure ⟨after.store, decisions, after.world⟩ := by
  show (Walk.zoom Lens.snd (tour.arrive kind slot ctx) >>= fun next => do
    Walk.weigh kind slot next
    return next : Walk (Weighed σ) _) ⟨s, decisions, world⟩ = _
  rw [Walk.bind_apply, Walk.zoom_snd_apply]
  cases tour.arrive kind slot ctx ⟨s, world⟩ with
  | ok next after => cases next <;> rfl
  | error failure after => rfl

namespace Tour.Tempered

variable {tour : Tour σ} (h : tour.Tempered stuck mode)

include h

theorem condones : Walk.Condones (Calm stuck)
    (Breaks stuck mode : Failure → Session (Weighed σ) → Prop) :=
  condones_breaks h.own

theorem descend {decision : Decision σ} (hfree : stuck → ¬ decision.IsOpen) :
    Upholds (Calm stuck) (Breaks stuck mode)
      (tour.weighed.descend decision.kind decision.slot.node decision.ctx) := by
  rw [Tour.descend]
  by_cases hopen : decision.kind = .structured ∧ decision.ctx.skipping = false
  · have hanswers : ¬ stuck := fun hstuck => hfree hstuck hopen
    rw [if_pos hopen]
    refine .bind (h.asks hanswers _ _).zoom ?_
    rintro ⟨cut, next⟩ _
    exact .ite (fun _ => .pure trivial) fun _ => .bind .store fun s _ => .pure trivial
  · rw [if_neg hopen]
    exact .pure trivial

theorem close (slot : Slot) (left : Option (Kind × Context)) :
    Upholds (Calm stuck) (Breaks stuck mode) (tour.weighed.close slot left) := by
  cases left with
  | none => exact .pure trivial
  | some given => exact (h.leave given.1 slot given.2).zoom

theorem abides :
    tour.weighed.Abides (Calm stuck) (Breaks stuck mode) fun _ _ => True := by
  intro slot depth _
  rw [Tour.turn]
  refine (Upholds.classify fun _ _ => h.condones.own trivial).bind ?_
  rintro kind - ⟨s, decisions, world⟩ hcalm
  have harrive := h.arrive kind slot (slot.context depth) ⟨s, world⟩ trivial
  rw [Ends, Walk.bind_apply, tour.weighed_arrive_apply]
  cases hresult : tour.arrive kind slot (slot.context depth) ⟨s, world⟩ with
  | error failure after => exact .inl ⟨hcalm, (Ends.iff_of_error hresult).mp harrive⟩
  | ok given after =>
      cases given with
      | none => exact ⟨hcalm, fun _ _ => trivial, h.close slot none⟩
      | some ctx =>
          let decision : Decision σ := ⟨kind, slot, ctx, after⟩
          by_cases hbars : stuck ∧ decision.IsOpen
          · obtain ⟨hstuck, hopen⟩ := hbars
            have hasks : kind = .structured ∧ ctx.skipping = false := hopen
            have hthrow : tour.weighed.prune slot.node ctx = throw .notCallable := by
              show Walk.zoom Lens.snd (tour.prune slot.node ctx) = _
              rw [h.stuck hstuck]
              rfl
            simp only
            rw [Walk.bind_apply, Tour.descend, if_pos hasks, hthrow]
            exact .inr ⟨hstuck, decisions, decision, rfl, hcalm hstuck, hopen, rfl, rfl⟩
          · have hfree : stuck → ¬ decision.IsOpen := fun hstuck hopen => hbars ⟨hstuck, hopen⟩
            have hstill : Calm stuck
                (⟨after.store, decisions ++ [decision], after.world⟩ : Session (Weighed σ)) := by
              intro hstuck
              exact List.forall_mem_append.mpr
                ⟨hcalm hstuck, List.forall_mem_singleton.mpr (hfree hstuck)⟩
            refine ((h.descend hfree).bind fun found _ => ?_) _ hstill
            exact .pure ⟨fun _ _ => trivial, h.close slot _⟩

end Tour.Tempered

end

/-- The question about descent is there, but it cannot be asked. -/
def Prune.CannotBeAsked (prune : Prune σ) : Prop :=
  (prune.isNull || prune.isCallable) = false

theorem Prune.test_fails {prune : Prune σ} (h : ¬ prune.CannotBeAsked) (visitors : List (Visitor σ))
    (node : Value) (ctx : Context) :
    FailsOnly (Blames visitors prune) (prune.test node ctx) := by
  cases prune with
  | predicate test =>
      intro session _
      unfold Ends
      split
      · exact ⟨trivial, trivial⟩
      · next failure after hfailed => exact .inr (.predicate rfl hfailed)
  | setting given =>
      have hgiven : (given.isNull || given.isCallable) = true := Bool.of_not_eq_false h
      show FailsOnly _ (if (given.isNull || given.isCallable) = true then _ else _)
      rw [if_pos hgiven]
      exact .pure trivial

theorem Prune.CannotBeAsked.test {prune : Prune σ} (h : prune.CannotBeAsked) (node : Value)
    (ctx : Context) : prune.test node ctx = throw .notCallable := by
  cases prune with
  | predicate test => cases h
  | setting given =>
      have hgiven : (given.isNull || given.isCallable) = false := h
      rw [Prune.test, hgiven]
      rfl

theorem Transform.tour_tempered (visitors : List (Visitor σ)) (prune : Prune σ) (order : Order) :
    (tour visitors prune order).Tempered prune.CannotBeAsked (Blames visitors prune) := by
  have hsettles := condones_blames.settles (visitors_blamed visitors prune)
  have hasked := tour_prune visitors prune order
  exact
    { own := fun hown => .inl hown
      arrive := fun kind _ _ => (hsettles.arrive 0 trivial prune order kind).mono fun _ _ => trivial
      leave := fun kind _ _ => hsettles.leave 0 trivial prune order kind
      asks := fun h => hasked ▸ prune.test_fails h visitors
      stuck := fun h => hasked ▸ h.test }

theorem weighedTransform_upholds (fuel : Nat) (visitors : List (Visitor σ))
    {options : TransformOptions σ} {order : Order} (horder : Order.resolve options.order = .ok order)
    (root : Value) :
    Upholds (Calm options.prune.CannotBeAsked)
      (Breaks options.prune.CannotBeAsked (Blames visitors options.prune))
      (weighedTransform fuel visitors options root) := by
  have htempered := Transform.tour_tempered visitors options.prune order
  have hsettled : Walk.ofExcept (.ok order) = (pure order : Walk (Weighed σ) Order) := rfl
  rw [weighedTransform, transformBeside, horder, hsettled, pure_bind]
  refine (htempered.condones.copy _ root).bind fun tree _ => ?_
  refine .ite (fun _ => .pure trivial) fun _ => ?_
  exact htempered.condones.rootBy (fun node => (primitive_fails visitors _ node).zoom)
    (fun fuel box => .bind .store fun s _ =>
      htempered.abides.run (fun _ => htempered.condones.own trivial) order fuel fun _ _ => trivial)
    fuel tree

end ViewTree
