import ViewTree.Proofs.Transform.Schedule
import ViewTree.Proofs.Walk.Abiding
import ViewTree.Visitor.Script

namespace ViewTree

namespace Store

variable {s : Store}

/-- What holds of a slot, and passes from an array to its items, holds of the slots it stands for. -/
theorem expandTo_induct {motive : Slot → Prop}
    (item : ∀ {slot : Slot} {ref : ArrayRef} {value : Value} {position : Nat}, motive slot →
      (s.items ref)[position]? = some value →
      motive ⟨value, slot.parent, position, .element ref position⟩) (level : Nat) :
    ∀ {path : List ArrayRef} {slot : Slot}, motive slot →
      ∀ child ∈ s.expandTo level path slot, motive child := by
  induction level with
  | zero =>
      intro path slot hslot child hchild
      unfold expandTo at hchild
      split at hchild
      · cases hchild
      · rwa [List.mem_singleton.mp hchild]
  | succ level ih =>
      intro path slot hslot child hchild
      unfold expandTo at hchild
      split at hchild
      · next ref hnode =>
          simp only at hchild
          split at hchild
          · cases hchild
          · obtain ⟨⟨value, position⟩, hentry, hchild⟩ := List.mem_flatMap.mp hchild
            have hitem := item hslot (List.mk_mem_zipIdx_iff_getElem?.mp hentry)
            exact ih hitem child hchild
      · rwa [List.mem_singleton.mp hchild]

theorem parent_of_mem_rootSlots {box : ArrayRef} {root : Slot} (h : root ∈ s.rootSlots box) :
    root.parent = none := by
  obtain ⟨slot, hslot, rfl⟩ := List.mem_map.mp h
  exact expandTo_induct (motive := fun slot => slot.parent = none) (fun hparent _ => hparent) _ rfl
    slot hslot

theorem childSlots_at? {node : Value} {child : Slot} (h : child ∈ s.childSlots node) :
    ∃ ref, node = .object ref ∧ child.parent = some ref ∧ s.at? child.place = some child.node := by
  cases node with
  | object ref =>
      unfold childSlots at h
      simp only at h
      split at h
      · next hchildren =>
          have hstart : s.at? (.member ref "children") = some (s.member ref "children") := by
            rw [at?, member]
            cases hvalue : (s.members ref).lookup "children" with
            | some value => rfl
            | none =>
                have hnull : (s.member ref "children").isNull = true := by
                  rw [member, hvalue]
                  rfl
                rw [hnull, Bool.not_true, Bool.and_false] at hchildren
                exact absurd hchildren Bool.false_ne_true
          obtain ⟨hparent, hplace⟩ := expandTo_induct
            (motive := fun slot => slot.parent = some ref ∧ s.at? slot.place = some slot.node)
            (fun hslot hvalue => ⟨hslot.1, hvalue⟩) _ ⟨rfl, hstart⟩ child h
          exact ⟨ref, rfl, hparent, hplace⟩
      · cases h
  | _ => cases h

def Lacks (s : Store) : Place → Prop
  | .element array position => (s.items array).length ≤ position
  | .member _ _ => False

theorem has_iff_not_lacks {place : Place} : s.has place = true ↔ ¬ s.Lacks place := by
  cases place with
  | element array position => simp [has, Lacks]
  | member object name => simp [has, Lacks]

end Store

structure Rose.Rooted (record : Rose Call) : Prop where
  depth : record.value.depth = 0
  parent : record.value.slot.parent = none
  frozen : record.Frozen

namespace Walk

/-- A value is put into a place unless the place is lacking. -/
def Puts (place : Place) (value : Value) (session : Session σ) (returned : α)
    (result : EStateM.Result Failure (Session σ) α) : Prop :=
  (session.store.Lacks place → result = .error .vanishedPosition session) ∧
    (¬ session.store.Lacks place →
      result = .ok returned ⟨session.store.write place value, session.world⟩)

theorem write_puts (place : Place) (value : Value) (session : Session σ) :
    Puts place value session () (write place value session) := by
  refine ⟨fun hlacks => ?_, fun hlacks => ?_⟩
  · have hgone : ¬ session.store.has place = true := fun has =>
      Store.has_iff_not_lacks.mp has hlacks
    exact if_neg hgone
  · exact if_pos (Store.has_iff_not_lacks.mpr hlacks)

def Scheduled (order : Order) (walk : Walk (Charted σ) α) : Prop :=
  ∀ session, ∃ records : List (Rose Call), (∀ record ∈ records, record.Rooted) ∧
    Timely (Rose.listings order records) session.world.1 (walk session)

theorem Quiet.scheduled {order : Order} {walk : Walk (Charted σ) α} (h : walk.Quiet) :
    walk.Scheduled order :=
  fun session => ⟨[], by simp, .nil (h session)⟩

namespace Scheduled

variable {order : Order}

theorem pure (value : α) : Scheduled order (Pure.pure value : Walk (Charted σ) α) :=
  Quiet.scheduled fun _ => rfl

theorem bind {walk : Walk (Charted σ) α} {next : α → Walk (Charted σ) β}
    (h : walk.Scheduled order) (hnext : ∀ value, (next value).Scheduled order) :
    (walk >>= next).Scheduled order := by
  intro session
  obtain ⟨records, hrooted, htimely⟩ := h session
  rw [bind_apply]
  cases hwalk : walk session with
  | error failure after =>
      rw [hwalk] at htimely
      exact ⟨records, hrooted, htimely⟩
  | ok value after =>
      rw [hwalk] at htimely
      obtain ⟨hmade, hchart⟩ := htimely
      obtain ⟨others, hothers, hrest⟩ := hnext value after
      rw [hchart] at hrest
      refine ⟨records ++ others, List.forall_mem_append.mpr ⟨hrooted, hothers⟩, ?_⟩
      rw [Rose.listings_append]
      exact hrest.append hmade

theorem forM {xs : List α} {visit : α → Walk (Charted σ) PUnit}
    (h : ∀ x, (visit x).Scheduled order) : (xs.forM visit).Scheduled order := by
  induction xs with
  | nil => exact .pure _
  | cons x xs ih => exact (h x).bind fun _ => ih

theorem ite {condition : Prop} [Decidable condition] {walk other : Walk (Charted σ) α}
    (h : walk.Scheduled order) (hother : other.Scheduled order) :
    (if condition then walk else other).Scheduled order := by
  split
  · exact h
  · exact hother

end Scheduled

theorem quiet_change (f : Store → α × Store) : Quiet (change f : Walk (Charted σ) α) :=
  fun _ => rfl

theorem quiet_write (place : Place) (value : Value) :
    Quiet (write place value : Walk (Charted σ) Unit) := by
  intro session
  obtain ⟨s, world⟩ := session
  rw [write]
  split
  · rfl
  · rfl

end Walk

namespace Transform

variable {visitors : List (Visitor σ)} {prune : Prune σ} {order : Order} {slot : Slot}
  {ctx next : Context} {session after : Session σ} {replacement : Value}

theorem enterNode_puts
    (h : runPhase .enter visitors slot.node ctx session = .ok (some replacement, next) after) :
    Walk.Puts slot.place replacement after none (enterNode visitors slot ctx session) := by
  obtain ⟨hlacks, hhas⟩ := Walk.write_puts slot.place replacement after
  rw [enterNode, Walk.bind_apply, h]
  simp only [Walk.bind_apply]
  refine ⟨fun hplace => ?_, fun hplace => ?_⟩
  · rw [hlacks hplace]
  · rw [hhas hplace]
    rfl

theorem leaveNode_puts
    (h : runPhase .exit visitors slot.node ctx session = .ok (some replacement, next) after) :
    Walk.Puts slot.place replacement after () (leaveNode visitors slot ctx session) := by
  rw [leaveNode, Walk.bind_apply, h]
  exact Walk.write_puts slot.place replacement after

section

variable {primitive : Value → Walk (Charted σ) Value}
  {walk : Nat → ArrayRef → Walk (Charted σ) Unit}
  (hwalk : ∀ fuel box, (walk fuel box).Scheduled order)

include hwalk

theorem boxedBy_scheduled (fuel : Nat) (node : Value) :
    (boxedBy walk fuel node).Scheduled order := by
  apply (Walk.quiet_change _).scheduled.bind
  intro box
  apply (hwalk fuel box).bind
  intro _
  exact Walk.Quiet.scheduled fun _ => rfl

theorem rootBy_scheduled (hprimitive : ∀ node, (primitive node).Quiet) (fuel : Nat) (node : Value) :
    (rootBy primitive walk fuel node).Scheduled order := by
  refine rootBy_induct (motive := fun _ walk => walk.Scheduled order) ?_ ?_ ?_ ?_ fuel node
  · exact fun _ => Walk.Quiet.scheduled fun _ => rfl
  · intro ref item ih
    apply (Walk.Quiet.scheduled fun _ => rfl : (Walk.store : Walk (Charted σ) Store).Scheduled
      order).bind
    intro s
    refine .bind (.forM fun entry => ?_) fun _ => .pure _
    apply (ih entry.1).bind
    intro result
    exact (Walk.quiet_write _ _).scheduled
  · exact fun a _ => (hprimitive _).scheduled
  · exact fun fuel node _ => boxedBy_scheduled hwalk fuel node

end

theorem runBeside_scheduled (horder : order ≠ .postOrder) (fuel : Nat) (box : ArrayRef) :
    (runBeside Tour.charted order visitors prune fuel box).Scheduled order := by
  intro session
  obtain ⟨records, hspots, hfrozen, htimely⟩ :=
    (tour visitors prune order).run_charts horder fuel (session.store.rootSlots box) session
  refine ⟨records, fun record hrecord => ?_, htimely⟩
  have hspot : record.value.spot ∈ (session.store.rootSlots box).map (·, 0) := by
    rw [← hspots]
    exact List.mem_map_of_mem hrecord
  obtain ⟨root, hroot, heq⟩ := List.mem_map.mp hspot
  obtain ⟨hslot, hdepth⟩ := Prod.mk.inj heq
  refine ⟨hdepth.symm, ?_, hfrozen record hrecord⟩
  rw [← hslot]
  exact Store.parent_of_mem_rootSlots hroot

end Transform

theorem chartedTransform_scheduled {options : TransformOptions σ} {order : Order}
    (hresolve : Order.resolve options.order = .ok order) (horder : order ≠ .postOrder) (fuel : Nat)
    (visitors : List (Visitor σ)) (root : Value) :
    (chartedTransform fuel visitors options root).Scheduled order := by
  have hpure : Walk.ofExcept (.ok order) = (pure order : Walk (Charted σ) Order) := rfl
  rw [chartedTransform, transformBeside, hresolve, hpure, pure_bind]
  refine .bind (.ite (Walk.quiet_change _).scheduled (.pure root)) fun tree => ?_
  refine .ite (.pure tree) ?_
  exact Transform.rootBy_scheduled (Transform.runBeside_scheduled horder)
    (fun node => Walk.quiet_zoom _) fuel tree

/-- What the walks of a transform keep to.  From any roots a walk visits these and what is listed below
them.  A structured node that the enter phase and the question about descent let pass is descended
into, with the store as it is then.  A child is listed with the place that holds it, and a replacement
goes to that place. -/
structure Transform.Freezes (visitors : List (Visitor σ)) (prune : Prune σ) (order : Order) :
    Prop where
  visits : ∀ fuel roots, Walk.Charts (Rose.listings order) (roots.map (·, 0))
    ((tour visitors prune order).charted.run order fuel roots)
  descends : ∀ {node : Value} {ctx next : Context} {session after : Session σ}
    (passages : List Passage), ctx.skipping = false →
    prune.test node ctx session = .ok (false, next) after → next.skipping = false →
    (tour visitors prune order).charted.descend .structured node ctx
        ⟨session.store, passages, session.world⟩ =
      .ok (after.store.childSlots node, next)
        ⟨after.store, passages ++ [.descent after.store], after.world⟩
  lists : ∀ (s : Store) (node : Value), ∀ child ∈ s.childSlots node,
    ∃ ref, node = .object ref ∧ child.parent = some ref ∧ s.at? child.place = some child.node
  enters : ∀ {slot : Slot} {ctx next : Context} {session after : Session σ} {replacement : Value}
    (kind : Kind),
    runPhase .enter visitors slot.node ctx session = .ok (some replacement, next) after →
    Walk.Puts slot.place replacement after none
      ((tour visitors prune order).arrive kind slot ctx session)
  leaves : ∀ {slot : Slot} {ctx next : Context} {session after : Session σ} {replacement : Value}
    (kind : Kind),
    runPhase .exit visitors slot.node ctx session = .ok (some replacement, next) after →
    Walk.Puts slot.place replacement after ()
      ((tour visitors prune order).leave kind slot ctx session)

theorem Transform.freezes (visitors : List (Visitor σ)) (prune : Prune σ) {order : Order}
    (horder : order ≠ .postOrder) : Freezes visitors prune order where
  visits fuel roots := (tour visitors prune order).run_charts horder fuel roots
  descends := by
    intro node ctx next session after passages hctx htest hnext
    have hprune : (tour visitors prune order).prune node ctx session = .ok (false, next) after := by
      cases order with
      | postOrder => exact absurd rfl horder
      | _ => exact htest
    rw [Tour.descend, if_pos ⟨rfl, hctx⟩, Walk.bind_apply, Tour.prune_charted, hprune]
    simp only [hnext]
    rfl
  lists _ _ _ hchild := Store.childSlots_at? hchild
  enters kind h := by
    cases order with
    | postOrder => exact absurd rfl horder
    | _ => exact enterNode_puts h
  leaves kind h := by
    cases order with
    | postOrder => exact absurd rfl horder
    | _ => exact leaveNode_puts h

/-- The schedule of siblings is frozen.  In pre-order and breadth-first a transform, charted, makes
the visits that records of calls list, one after the other, and all of them unless it fails; below the
call for a node that is descended into stand the slots of its children in the store of the descent,
one level deeper. -/
theorem transform_children_frozen {options : TransformOptions σ} {order : Order}
    (hresolve : Order.resolve options.order = .ok order) (horder : order ≠ .postOrder) (fuel : Nat)
    (visitors : List (Visitor σ)) (root : Value) (s : Store) (world : σ) :
    kept Prod.snd (chartedTransform fuel visitors options root ⟨s, [], world⟩) =
        transform fuel visitors options root ⟨s, world⟩ ∧
      (∃ records : List (Rose Call), (∀ record ∈ records, record.Rooted) ∧
        Timely (Rose.listings order records) []
          (chartedTransform fuel visitors options root ⟨s, [], world⟩)) ∧
      Transform.Freezes visitors options.prune order :=
  ⟨(transform_uncharted fuel visitors options root s [] world).symm,
    chartedTransform_scheduled hresolve horder fuel visitors root ⟨s, [], world⟩,
    Transform.freezes visitors options.prune horder⟩

def harvester : Visitor Unit :=
  .scripted
    (some (.look fun view _ =>
      if view.node.label = "row" then .acts [.edit .node (.append (.text "cherry"))] .nothing
      else if view.node = .text "pear" then .acts [.edit .parent .pop, .edit .parent .pop] .nothing
      else if view.node = .text "plum" then .done (.replace (.text "jam"))
      else .done .nothing))
    none

def grove : Tree :=
  .object [("type", .text "grove"), ("children", .array [
    .object [("type", .text "row"), ("children", .array [.text "pear", .text "plum"])],
    .text "fig"])]

def harvest : TransformOptions Unit :=
  { order := Order.setting .breadthFirst, clone := .bool false }

def felledRow : Tree :=
  .object [("type", .text "row"), ("children", .array [.text "pear"])]

def felledGrove : Tree :=
  .object [("type", .text "grove"), ("children", .array [felledRow, .text "fig"])]

def Passage.node? : Passage → Option Value
  | .visit slot _ => some slot.node
  | .descent _ => none

def vanished? (root : Value) :
    EStateM.Result Failure (Session (Charted Unit)) Value → Option (List Tree × Tree)
  | .error .vanishedPosition after =>
      some ((after.world.1.filterMap Passage.node?).map after.store.read, after.store.read root)
  | _ => none

/-- The plum is visited although the row has lost it, and there is no place any more for the jam. -/
theorem transform_children_frozen_grove :
    Order.resolve harvest.order = .ok .breadthFirst ∧ Order.breadthFirst ≠ .postOrder ∧
      ∃ passages after,
        transform 20 [harvester] harvest (Store.load grove {}).1 ⟨(Store.load grove {}).2, ()⟩ =
          .error .vanishedPosition after ∧
        after.store.read (Store.load grove {}).1 = felledGrove ∧
        (passages.filterMap Passage.node?).map after.store.read =
          [felledGrove, felledRow, .text "fig", .text "pear", .text "plum"] ∧
        ∃ records : List (Rose Call), (∀ record ∈ records, record.Rooted) ∧
          Timely (Rose.listings .breadthFirst records) []
            (.error .vanishedPosition ⟨after.store, passages, after.world⟩ :
              EStateM.Result Failure (Session (Charted Unit)) Value) := by
  have hresolve : Order.resolve harvest.order = .ok .breadthFirst := rfl
  have horder : Order.breadthFirst ≠ .postOrder := by decide
  obtain ⟨hkept, hrecords, -⟩ := transform_children_frozen hresolve horder 20 [harvester]
    (Store.load grove {}).1 (Store.load grove {}).2 ()
  have hend : vanished? (Store.load grove {}).1 (chartedTransform 20 [harvester] harvest
      (Store.load grove {}).1 ⟨(Store.load grove {}).2, [], ()⟩) =
        some ([felledGrove, felledRow, .text "fig", .text "pear", .text "plum"],
          felledGrove) := by
    decide +kernel
  unfold vanished? at hend
  split at hend
  · next after hrun =>
      obtain ⟨hnodes, htree⟩ := Prod.mk.inj (Option.some.inj hend)
      rw [hrun] at hkept hrecords
      exact ⟨hresolve, horder, after.world.1, ⟨after.store, after.world.2⟩, hkept.symm, htree, hnodes,
        hrecords⟩
  · cases hend

end ViewTree
