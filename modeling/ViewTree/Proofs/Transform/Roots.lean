import ViewTree.Proofs.Transform.Elements
import ViewTree.Proofs.Walk.Turns

namespace ViewTree

open Walk (InStep)

namespace Transform

/-- Enters a node and leaves it, unless it is replaced on entry. -/
def phases (visitors : List (Visitor σ)) (node : Value) (ctx : Context) :
    Walk σ (Option Value) := do
  match ← runPhase .enter visitors node ctx with
  | (some replacement, _) => return some replacement
  | (none, ctx) => return (← runPhase .exit visitors node ctx).1

/-- Visits a root.  The replacement, if there is one, is not written but given back. -/
def survey (order : Order) (visitors : List (Visitor σ)) (prune : Prune σ) :
    Nat → Value → Walk σ (Option Value)
  | 0, _ => throw .exhausted
  | fuel + 1, node => do
    let kind ← Walk.classify node
    match order with
    | .preOrder =>
      match ← runPhase .enter visitors node .alone with
      | (some replacement, _) => return some replacement
      | (none, ctx) =>
        let (children, ctx) ← (tour visitors prune .preOrder).descend kind node ctx
        children.forM fun child => (tour visitors prune .preOrder).depthFirst fuel child 1
        return (← runPhase .exit visitors node ctx).1
    | .postOrder =>
      let (children, ctx) ← (tour visitors prune .postOrder).descend kind node .alone
      children.forM fun child => (tour visitors prune .postOrder).depthFirst fuel child 1
      phases visitors node ctx
    | .breadthFirst =>
      match ← runPhase .enter visitors node .alone with
      | (some replacement, _) => return some replacement
      | (none, ctx) =>
        let (children, _) ← (tour visitors prune .breadthFirst).descend kind node ctx
        (tour visitors prune .breadthFirst).breadthFirst fuel
          (children.map fun child => (child, 1))
        return none

variable {visitors : List (Visitor σ)} {prune : Prune σ}

theorem leaveNode_eq (slot : Slot) (ctx : Context) :
    leaveNode visitors slot ctx = (do
      let (replacement, _) ← runPhase .exit visitors slot.node ctx
      Walk.settle slot.place replacement) := by
  refine congrArg (runPhase .exit visitors slot.node ctx >>= ·) (funext fun result => ?_)
  obtain ⟨replacement, next⟩ := result
  cases replacement with
  | none => rfl
  | some replacement => rfl

theorem depthFirst_preOrder_eq (fuel : Nat) (node : Value) (place : Place) :
    (tour visitors prune .preOrder).depthFirst fuel ⟨node, none, 0, place⟩ 0 =
      survey .preOrder visitors prune fuel node >>= Walk.settle place := by
  cases fuel with
  | zero => rfl
  | succ fuel =>
      rw [Tour.depthFirst, survey, bind_assoc]
      refine congrArg (Walk.classify node >>= ·) (funext fun kind => ?_)
      simp only [tour, enterNode, bind_assoc]
      refine congrArg (runPhase .enter visitors node _ >>= ·) (funext fun result => ?_)
      obtain ⟨replacement, ctx⟩ := result
      cases replacement with
      | none => simp only [pure_bind, bind_assoc, leaveNode_eq]
      | some replacement => simp only [bind_assoc, pure_bind, Walk.settle, bind_pure_unit]

theorem depthFirst_postOrder_eq (fuel : Nat) (node : Value) (place : Place) :
    (tour visitors prune .postOrder).depthFirst fuel ⟨node, none, 0, place⟩ 0 =
      survey .postOrder visitors prune fuel node >>= Walk.settle place := by
  cases fuel with
  | zero => rfl
  | succ fuel =>
      rw [Tour.depthFirst, survey, bind_assoc]
      refine congrArg (Walk.classify node >>= ·) (funext fun kind => ?_)
      simp only [tour, pure_bind, bind_assoc, phases, enterNode]
      refine congrArg (_ >>= ·) (funext fun found => ?_)
      refine congrArg (_ >>= ·) (funext fun _ => ?_)
      refine congrArg (runPhase .enter visitors node _ >>= ·) (funext fun result => ?_)
      obtain ⟨replacement, ctx⟩ := result
      cases replacement with
      | none => simp only [pure_bind, bind_assoc, leaveNode_eq]
      | some replacement => simp only [bind_assoc, pure_bind, Walk.settle, bind_pure_unit]

theorem breadthFirst_eq (fuel : Nat) (node : Value) (place : Place) :
    (tour visitors prune .breadthFirst).breadthFirst fuel [(⟨node, none, 0, place⟩, 0)] =
      survey .breadthFirst visitors prune fuel node >>= Walk.settle place := by
  cases fuel with
  | zero => rfl
  | succ fuel =>
      rw [Tour.breadthFirst, survey, bind_assoc]
      refine congrArg (Walk.classify node >>= ·) (funext fun kind => ?_)
      simp only [tour, enterNode, bind_assoc]
      refine congrArg (runPhase .enter visitors node _ >>= ·) (funext fun result => ?_)
      obtain ⟨replacement, ctx⟩ := result
      cases replacement with
      | none =>
          simp only [pure_bind, bind_assoc, Walk.settle, List.nil_append]
          refine congrArg (_ >>= ·) (funext fun found => ?_)
          exact bind_pure_unit.symm
      | some replacement =>
          simp only [bind_assoc, pure_bind, Walk.settle, Tour.breadthFirst_nil, bind_pure_unit]

theorem run_singleton (order : Order) (fuel : Nat) (node : Value) (place : Place) :
    (tour visitors prune order).run order fuel [⟨node, none, 0, place⟩] =
      survey order visitors prune fuel node >>= Walk.settle place := by
  rw [Tour.run, List.forM, List.forM, bind_pure_unit]
  cases order with
  | preOrder => exact depthFirst_preOrder_eq fuel node place
  | postOrder => exact depthFirst_postOrder_eq fuel node place
  | breadthFirst => exact breadthFirst_eq fuel node place

section

variable {agree : σ → σ → Prop} {p : Pairing}
  (hvisitors : ∀ visitor ∈ visitors, visitor.Impartial agree)

include hvisitors

theorem phases_inStep {value other : Value} (hvalue : value.Pairs p other) {ctx partner : Context}
    (hctx : ctx.Pairs p partner) :
    InStep p agree (phases visitors value ctx) (phases visitors other partner)
      fun q => Option.Rel (Value.Pairs q) := by
  apply InStep.bind (runPhase_impartial hvisitors .enter hvalue hctx)
  rintro q hle ⟨replacement, next⟩ ⟨given, last⟩ ⟨hgiven, hnext⟩
  cases hgiven with
  | some hresult => exact .pure (.some hresult)
  | none =>
      apply InStep.bind (runPhase_impartial hvisitors .exit (hvalue.mono hle) hnext)
      rintro r _ ⟨replacement, next⟩ ⟨given, last⟩ ⟨hgiven, -⟩
      exact .pure hgiven

theorem survey_inStep (hprune : prune.Impartial agree) (order : Order) (fuel : Nat)
    {value other : Value} (hvalue : value.Pairs p other) :
    InStep p agree (survey order visitors prune fuel value) (survey order visitors prune fuel other)
      fun q => Option.Rel (Value.Pairs q) := by
  have htour := tour_impartial hvisitors hprune
  cases fuel with
  | zero => exact .throw .exhausted
  | succ fuel =>
      rw [survey, survey]
      apply (InStep.classify hvalue).bind
      rintro q hle kind _ rfl
      replace hvalue := hvalue.mono hle
      cases order with
      | preOrder =>
          apply InStep.bind (runPhase_impartial hvisitors .enter hvalue (.alone q))
          rintro q hle ⟨replacement, next⟩ ⟨given, last⟩ ⟨hgiven, hnext⟩
          replace hvalue := hvalue.mono hle
          cases hgiven with
          | some hresult => exact .pure (.some hresult)
          | none =>
              apply (Tour.descend_inStep (htour .preOrder) kind hvalue hnext).bind
              rintro q hle ⟨children, ctx⟩ ⟨others, partner⟩ ⟨hchildren, hctx⟩
              replace hvalue := hvalue.mono hle
              apply (Tour.forM_slots_inStep (fun _ _ _ hchild =>
                Tour.depthFirst_inStep (htour .preOrder) fuel 1 hchild) hchildren).bind
              intro q hle _ _ _
              apply InStep.bind
                (runPhase_impartial hvisitors .exit (hvalue.mono hle) (hctx.mono hle))
              rintro r _ ⟨replacement, next⟩ ⟨given, last⟩ ⟨hgiven, -⟩
              exact .pure hgiven
      | postOrder =>
          apply (Tour.descend_inStep (htour .postOrder) kind hvalue (.alone q)).bind
          rintro q hle ⟨children, ctx⟩ ⟨others, partner⟩ ⟨hchildren, hctx⟩
          replace hvalue := hvalue.mono hle
          apply (Tour.forM_slots_inStep (fun _ _ _ hchild =>
            Tour.depthFirst_inStep (htour .postOrder) fuel 1 hchild) hchildren).bind
          intro q hle _ _ _
          exact phases_inStep hvisitors (hvalue.mono hle) (hctx.mono hle)
      | breadthFirst =>
          apply InStep.bind (runPhase_impartial hvisitors .enter hvalue (.alone q))
          rintro q hle ⟨replacement, next⟩ ⟨given, last⟩ ⟨hgiven, hnext⟩
          replace hvalue := hvalue.mono hle
          cases hgiven with
          | some hresult => exact .pure (.some hresult)
          | none =>
              apply (Tour.descend_inStep (htour .breadthFirst) kind hvalue hnext).bind
              rintro q _ ⟨children, ctx⟩ ⟨others, partner⟩ ⟨hchildren, -⟩
              have hqueue : List.Forall₂
                  (fun entry partner => entry.1.Pairs q partner.1 ∧ entry.2 = partner.2)
                  (children.map fun child => (child, 1)) (others.map fun child => (child, 1)) := by
                rw [List.forall₂_map_left_iff, List.forall₂_map_right_iff]
                exact hchildren.imp fun _ _ hchild => ⟨hchild, rfl⟩
              apply (Tour.breadthFirst_inStep (htour .breadthFirst) fuel hqueue).bind
              intro r _ _ _ _
              exact .pure .none

end

end Transform

end ViewTree
