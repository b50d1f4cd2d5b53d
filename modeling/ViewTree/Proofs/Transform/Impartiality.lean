import ViewTree.Proofs.Transform.Entry
import ViewTree.Proofs.Walk.Lockstep

namespace ViewTree

open Walk (InStep)

inductive Reply.Pairs (p : Pairing) : Reply Value → Reply Value → Prop
  | noChange : Pairs p (.outcome .noChange) (.outcome .noChange)
  | plain : Pairs p (.outcome .plain) (.outcome .plain)
  | replace {value other : Value} (h : value.Pairs p other) :
      Pairs p (.outcome (.replace value)) (.outcome (.replace other))
  | value {value other : Value} (h : value.Pairs p other) : Pairs p (.value value) (.value other)

/-- Whoever is asked about paired nodes gives related answers. -/
def AsksAlike (agree : σ → σ → Prop) (related : Pairing → α → α → Prop)
    (ask : Value → Context → Walk σ (α × Context)) : Prop :=
  ∀ {p : Pairing} {value other : Value} {ctx partner : Context}, value.Pairs p other →
    ctx.Pairs p partner → InStep p agree (ask value ctx) (ask other partner)
      fun q answer same => related q answer.1 same.1 ∧ answer.2.Pairs q same.2

/-- The worlds are those on both sides that agree. -/
def Hook.Impartial (agree : σ → σ → Prop) (hook : Hook σ) : Prop :=
  AsksAlike agree Reply.Pairs hook

def Visitor.Impartial (agree : σ → σ → Prop) (visitor : Visitor σ) : Prop :=
  ∀ phase, ∀ hook ∈ visitor.hook? phase, hook.Impartial agree

def Prune.Impartial (agree : σ → σ → Prop) (prune : Prune σ) : Prop :=
  AsksAlike agree (fun _ => Eq) prune.test

variable {agree : σ → σ → Prop} {p : Pairing}

theorem Reply.Pairs.mono {q : Pairing} {reply answer : Reply Value} (hle : p ≤ q)
    (h : reply.Pairs p answer) : reply.Pairs q answer := by
  cases h with
  | noChange => exact .noChange
  | plain => exact .plain
  | replace h => exact .replace (h.mono hle)
  | value h => exact .value (h.mono hle)

theorem Reply.Pairs.replacement? {reply answer : Reply Value} (h : reply.Pairs p answer) :
    Option.Rel (Value.Pairs p) (reply.settle Value.isNull).replacement?
      (answer.settle Value.isNull).replacement? := by
  cases h with
  | noChange => exact .none
  | plain => exact .none
  | replace h => exact .some h
  | value h =>
      simp only [settle, h.isNull_eq]
      split
      · exact .none
      · exact .some h

theorem runHooks_impartial {hooks : List (Hook σ)} (h : ∀ hook ∈ hooks, hook.Impartial agree) :
    AsksAlike agree (fun q => Option.Rel (Value.Pairs q)) (runHooks hooks) := by
  induction hooks with
  | nil =>
      intro p value other ctx partner _ hctx
      exact .pure ⟨.none, hctx⟩
  | cons hook rest ih =>
      intro p value other ctx partner hvalue hctx
      rw [runHooks, runHooks]
      apply InStep.bind (h hook List.mem_cons_self hvalue hctx)
      rintro q hle ⟨reply, next⟩ ⟨answer, last⟩ ⟨hreply, hnext⟩
      have hreplacement := hreply.replacement?
      simp only at hnext hreplacement ⊢
      revert hreplacement
      generalize (reply.settle Value.isNull).replacement? = replacement
      generalize (answer.settle Value.isNull).replacement? = given
      intro hreplacement
      cases hreplacement with
      | none =>
          exact ih (fun other hother => h other (List.mem_cons_of_mem _ hother))
            (hvalue.mono hle) hnext
      | some hgiven => exact .pure ⟨.some hgiven, hnext⟩

section

variable {visitors : List (Visitor σ)} (hvisitors : ∀ visitor ∈ visitors, visitor.Impartial agree)

include hvisitors

theorem runPhase_impartial (phase : Phase) :
    AsksAlike agree (fun q => Option.Rel (Value.Pairs q)) (runPhase phase visitors) := by
  apply runHooks_impartial
  intro hook hhook
  obtain ⟨visitor, hvisitor, hhook⟩ := List.mem_filterMap.mp hhook
  exact hvisitors visitor hvisitor phase hook hhook

namespace Transform

theorem enterNode_inStep {slot later : Slot} {ctx partner : Context} (hslot : slot.Pairs p later)
    (hctx : ctx.Pairs p partner) :
    InStep p agree (enterNode visitors slot ctx) (enterNode visitors later partner)
      fun q => Option.Rel (Context.Pairs q) := by
  apply InStep.bind (runPhase_impartial hvisitors .enter hslot.node hctx)
  rintro q hle ⟨replacement, next⟩ ⟨given, last⟩ ⟨hgiven, hnext⟩
  cases hgiven with
  | none => exact .pure (.some hnext)
  | some hvalue =>
      apply (InStep.write (hslot.place.mono hle) hvalue).bind
      intro q _ _ _ _
      exact .pure .none

theorem leaveNode_inStep {slot later : Slot} {ctx partner : Context} (hslot : slot.Pairs p later)
    (hctx : ctx.Pairs p partner) :
    InStep p agree (leaveNode visitors slot ctx) (leaveNode visitors later partner)
      fun _ _ _ => True := by
  apply InStep.bind (runPhase_impartial hvisitors .exit hslot.node hctx)
  rintro q hle ⟨replacement, next⟩ ⟨given, last⟩ ⟨hgiven, -⟩
  cases hgiven with
  | none => exact .pure trivial
  | some hvalue => exact .write (hslot.place.mono hle) hvalue

theorem primitive_inStep {value other : Value} (hvalue : value.Pairs p other) :
    InStep p agree (primitive visitors value) (primitive visitors other)
      fun q result same => result.Pairs q same := by
  apply InStep.bind (runPhase_impartial hvisitors .enter hvalue (.alone p))
  rintro q hle ⟨replacement, next⟩ ⟨given, last⟩ ⟨hgiven, hnext⟩
  cases hgiven with
  | some hresult => exact .pure hresult
  | none =>
      apply InStep.bind (runPhase_impartial hvisitors .exit (hvalue.mono hle) hnext)
      rintro r hmore ⟨replacement, next⟩ ⟨given, last⟩ ⟨hgiven, -⟩
      cases hgiven with
      | some hresult => exact .pure hresult
      | none => exact .pure ((hvalue.mono hle).mono hmore)

variable {prune : Prune σ} (hprune : prune.Impartial agree)

include hprune

theorem tour_impartial (order : Order) : (tour visitors prune order).Impartial agree := by
  cases order with
  | postOrder =>
      refine ⟨fun hvalue hctx => hprune hvalue hctx, fun _ _ hctx => .pure (.some hctx), ?_⟩
      intro p slot later ctx partner _ hslot hctx
      apply (enterNode_inStep hvisitors hslot hctx).bind
      intro q hle next last hnext
      cases hnext with
      | none => exact .pure trivial
      | some hctx => exact leaveNode_inStep hvisitors (hslot.mono hle) hctx
  | _ =>
      exact ⟨fun hvalue hctx => hprune hvalue hctx,
        fun _ hslot hctx => enterNode_inStep hvisitors hslot hctx,
        fun _ hslot hctx => leaveNode_inStep hvisitors hslot hctx⟩

theorem run_inStep (fuel : Nat) (order : Order) {box partner : ArrayRef}
    (hp : p (.array box) (.array partner)) :
    InStep p agree (run fuel order visitors prune box) (run fuel order visitors prune partner)
      fun _ _ _ => True := by
  apply InStep.store.bind
  intro q hle s t hstore
  exact Tour.run_inStep (tour_impartial hvisitors hprune order) order fuel
    (hstore.rootSlots_pairs (hle _ _ hp))

theorem boxed_inStep (fuel : Nat) (order : Order) {value other : Value}
    (hvalue : value.Pairs p other) :
    InStep p agree (boxed fuel order visitors prune value) (boxed fuel order visitors prune other)
      fun q result same => result.Pairs q same := by
  apply (InStep.box hvalue).bind
  intro q _ box partner hp
  apply (run_inStep hvisitors hprune fuel order hp).bind
  intro r hle _ _ _
  exact .unbox (hle _ _ hp)

theorem root_inStep (order : Order) (fuel : Nat) :
    ∀ {p : Pairing} {value other : Value}, value.Pairs p other →
      InStep p agree (Transform.root order visitors prune fuel value)
        (Transform.root order visitors prune fuel other)
        fun q result same => result.Pairs q same := by
  induction fuel with
  | zero =>
      intro p value other _
      exact .throw .exhausted
  | succ fuel ih =>
      intro p value other hvalue
      cases hvalue with
      | @array ref partner hp =>
          rw [Transform.root, Transform.root]
          apply InStep.store.bind
          intro q hle s t hstore
          replace hp := hle _ _ hp
          have hloop : InStep q agree
              ((s.items ref).zipIdx.forM fun entry => do
                let result ← Transform.root order visitors prune fuel entry.1
                Walk.write (.element ref entry.2) result)
              ((t.items partner).zipIdx.forM fun entry => do
                let result ← Transform.root order visitors prune fuel entry.1
                Walk.write (.element partner entry.2) result) fun _ _ _ => True := by
            apply InStep.forM_zipIdx (hstore.items hp)
            intro r hmore item same position hitem
            apply (ih hitem).bind
            intro u hlast result last hresult
            exact .write (.element (hlast _ _ (hmore _ _ hp)) position) hresult
          apply hloop.bind
          intro r hmore _ _ _
          exact .pure (.array (hmore _ _ hp))
      | atom a =>
          rw [Transform.root]
          apply InStep.ite
          · exact primitive_inStep hvisitors (.atom a)
          · exact boxed_inStep hvisitors hprune fuel order (.atom a)
      | tuple items => exact boxed_inStep hvisitors hprune fuel order (.tuple items)
      | object hp => exact boxed_inStep hvisitors hprune fuel order (.object hp)

end Transform

end

end ViewTree
