import ViewTree.Proofs.Store.Joining
import ViewTree.Proofs.Walk.Course
import ViewTree.Visit.Tour

/-!
Walks in step.  Begun in paired stores, two walks both return, with related results, or both fail with
the same failure.  Either way the stores are then paired at least as before, and no cell without a
partner has changed.
-/

namespace ViewTree

namespace Walk

def InStep (p : Pairing) (agree : σ → σ → Prop) (walk other : Walk σ α)
    (post : Pairing → α → α → Prop) : Prop :=
  ∀ s t world memory, s.Pairs p t → agree world memory →
    match walk ⟨s, world⟩, other ⟨t, memory⟩ with
    | .ok result after, .ok partner later => ∃ q, p.Leads s t q after.store later.store ∧
        agree after.world later.world ∧ post q result partner
    | .error failure after, .error cause later => failure = cause ∧
        ∃ q, p.Leads s t q after.store later.store ∧ agree after.world later.world
    | _, _ => False

namespace InStep

variable {p : Pairing} {agree : σ → σ → Prop} {walk other : Walk σ α}
  {post : Pairing → α → α → Prop}

theorem pure {result partner : α} (h : post p result partner) :
    InStep p agree (Pure.pure result) (Pure.pure partner) post := by
  intro s t world memory hstore hworld
  exact ⟨p, .refl hstore, hworld, h⟩

theorem throw (failure : Failure) :
    InStep p agree (MonadExcept.throw failure : Walk σ α) (MonadExcept.throw failure) post := by
  intro s t world memory hstore hworld
  exact ⟨rfl, p, .refl hstore, hworld⟩

theorem bind {next rest : α → Walk σ β} {goal : Pairing → β → β → Prop}
    (h : InStep p agree walk other post)
    (hnext : ∀ q, p ≤ q → ∀ result partner, post q result partner →
      InStep q agree (next result) (rest partner) goal) :
    InStep p agree (walk >>= next) (other >>= rest) goal := by
  intro s t world memory hstore hworld
  have hboth := h s t world memory hstore hworld
  rw [bind_apply, bind_apply]
  split at hboth
  · next result after partner later hwalk hother =>
      obtain ⟨q, hleads, hafter, hresult⟩ := hboth
      have hrest := hnext q hleads.keeps result partner hresult after.store later.store after.world
        later.world hleads.pairs hafter
      rw [hwalk, hother]
      simp only
      split at hrest
      · next hlast hend =>
          obtain ⟨r, hmore, hdone, hgoal⟩ := hrest
          rw [hlast, hend]
          exact ⟨r, hleads.trans hmore, hdone, hgoal⟩
      · next hlast hend =>
          obtain ⟨heq, r, hmore, hdone⟩ := hrest
          rw [hlast, hend]
          exact ⟨heq, r, hleads.trans hmore, hdone⟩
      · exact hrest.elim
  · next hwalk hother =>
      rw [hwalk, hother]
      exact hboth
  · exact hboth.elim

theorem ite {condition : Prop} [Decidable condition] {walk other first second : Walk σ α}
    (h : InStep p agree walk other post) (hnot : InStep p agree first second post) :
    InStep p agree (if condition then walk else first) (if condition then other else second)
      post := by
  split
  · exact h
  · exact hnot

theorem forM {related : Pairing → α → α → Prop} {xs ys : List α} {visit other : α → Walk σ PUnit}
    (hmono : ∀ q r x y, q ≤ r → related q x y → related r x y)
    (hstep : ∀ q x y, related q x y → InStep q agree (visit x) (other y) fun _ _ _ => True)
    (hitems : List.Forall₂ (related p) xs ys) :
    InStep p agree (xs.forM visit) (ys.forM other) fun _ _ _ => True := by
  induction xs generalizing p ys with
  | nil =>
      cases hitems
      exact pure trivial
  | cons x xs ih =>
      cases hitems with
      | cons hhead htail =>
          apply bind (hstep p x _ hhead)
          intro q hle _ _ _
          exact ih (htail.imp fun x y => hmono p q x y hle)

theorem forM_zipIdx {visit other : Value × Nat → Walk σ PUnit} {items others : List Value}
    (hitems : List.Forall₂ (Value.Pairs p) items others)
    (hstep : ∀ q, p ≤ q → ∀ value partner position, Value.Pairs q value partner →
      InStep q agree (visit (value, position)) (other (partner, position)) fun _ _ _ => True)
    (start : Nat := 0) :
    InStep p agree ((items.zipIdx start).forM visit) ((others.zipIdx start).forM other)
      fun _ _ _ => True := by
  induction items generalizing p others start with
  | nil =>
      cases hitems
      exact pure trivial
  | cons item items ih =>
      cases hitems with
      | cons hhead htail =>
          rw [List.zipIdx_cons, List.zipIdx_cons]
          apply bind (hstep p le_rfl item _ start hhead)
          intro q hle _ _ _
          apply ih (htail.imp fun _ _ hitem => hitem.mono hle)
          intro r hmore
          exact hstep r (le_trans hle hmore)

theorem store : InStep p agree Walk.store Walk.store fun q s t => s.Pairs q t := by
  intro s t world memory hstore hworld
  exact ⟨p, .refl hstore, hworld, hstore⟩

theorem get : InStep p agree MonadState.get MonadState.get fun q first second =>
    first.store.Pairs q second.store ∧ agree first.world second.world := by
  intro s t world memory hstore hworld
  exact ⟨p, .refl hstore, hworld, hstore, hworld⟩

theorem modifyWorld {change other : σ → σ}
    (h : ∀ world memory, agree world memory → agree (change world) (other memory)) :
    InStep p agree (Walk.modifyWorld change) (Walk.modifyWorld other) fun _ _ _ => True := by
  intro s t world memory hstore hworld
  exact ⟨p, .refl hstore, h world memory hworld, trivial⟩

theorem change {change other : Store → α × Store}
    (h : ∀ s t, s.Pairs p t → ∃ q, p.Leads s t q (change s).2 (other t).2 ∧
      post q (change s).1 (other t).1) :
    InStep p agree (Walk.change change) (Walk.change other) post := by
  intro s t world memory hstore hworld
  obtain ⟨q, hleads, hpost⟩ := h s t hstore
  exact ⟨q, hleads, hworld, hpost⟩

theorem load (tree : Tree) :
    InStep p agree (Walk.load tree) (Walk.load tree) fun q value other => value.Pairs q other :=
  change fun _ _ hstore => hstore.load tree

theorem write {place partner : Place} (hplace : place.Pairs p partner) {value other : Value}
    (hvalue : value.Pairs p other) :
    InStep p agree (Walk.write place value) (Walk.write partner other) fun _ _ _ => True := by
  intro s t world memory hstore hworld
  rw [Walk.write, Walk.write, hstore.has_eq hplace]
  cases t.has partner with
  | true => exact ⟨p, hstore.write hplace hvalue, hworld, trivial⟩
  | false => exact ⟨rfl, p, .refl hstore, hworld⟩

theorem classify {value other : Value} (hvalue : value.Pairs p other) :
    InStep p agree (Walk.classify value) (Walk.classify other) fun _ kind same => kind = same := by
  intro s t world memory hstore hworld
  rw [classify_apply, classify_apply, hstore.classify_eq hvalue]
  cases t.classify other with
  | ok kind => exact ⟨p, .refl hstore, hworld, rfl⟩
  | error cause => exact ⟨rfl, p, .refl hstore, hworld⟩

theorem box {value other : Value} (hvalue : value.Pairs p other) :
    InStep p agree (Walk.box value) (Walk.box other) fun q box partner =>
      q (.array box) (.array partner) := by
  apply change
  intro s t hstore
  obtain ⟨q, hleads, hbox⟩ := hstore.newArray (.cons hvalue .nil)
  cases hbox with
  | array hp => exact ⟨q, hleads, hp⟩

theorem unbox {box partner : ArrayRef} (hp : p (.array box) (.array partner)) :
    InStep p agree (Walk.unbox box) (Walk.unbox partner) fun q value other =>
      value.Pairs q other := by
  apply bind store
  intro q hle s t hstore
  exact pure (hstore.headD_items (hle _ _ hp))

theorem zoom (beside : τ → τ → Prop) (h : InStep p agree walk other post) :
    InStep p (fun world memory => beside world.1 memory.1 ∧ agree world.2 memory.2)
      (Walk.zoom Lens.snd walk) (Walk.zoom Lens.snd other) post := by
  rintro s t ⟨first, world⟩ ⟨second, memory⟩ hstore ⟨hbeside, hworld⟩
  have hboth := h s t world memory hstore hworld
  simp only [Walk.zoom, Lens.snd]
  split at hboth
  · next hwalk hother =>
      obtain ⟨q, hleads, hafter, hresult⟩ := hboth
      rw [hwalk, hother]
      exact ⟨q, hleads, ⟨hbeside, hafter⟩, hresult⟩
  · next hwalk hother =>
      obtain ⟨heq, q, hleads, hafter⟩ := hboth
      rw [hwalk, hother]
      exact ⟨heq, q, hleads, hbeside, hafter⟩
  · exact hboth.elim

end InStep

end Walk

namespace Tour

open Walk (InStep)

/-- A tour does the same at paired slots. -/
structure Impartial (agree : σ → σ → Prop) (tour : Tour σ) : Prop where
  prune : ∀ {p : Pairing} {value other : Value} {ctx partner : Context}, value.Pairs p other →
    ctx.Pairs p partner → InStep p agree (tour.prune value ctx) (tour.prune other partner)
      fun q asked answer => asked.1 = answer.1 ∧ asked.2.Pairs q answer.2
  arrive : ∀ {p : Pairing} {slot later : Slot} {ctx partner : Context} (kind : Kind),
    slot.Pairs p later → ctx.Pairs p partner →
    InStep p agree (tour.arrive kind slot ctx) (tour.arrive kind later partner)
      fun q => Option.Rel (Context.Pairs q)
  leave : ∀ {p : Pairing} {slot later : Slot} {ctx partner : Context} (kind : Kind),
    slot.Pairs p later → ctx.Pairs p partner →
    InStep p agree (tour.leave kind slot ctx) (tour.leave kind later partner) fun _ _ _ => True

variable {p : Pairing} {agree : σ → σ → Prop} {tour : Tour σ}

theorem descend_inStep (h : tour.Impartial agree) (kind : Kind) {value other : Value}
    (hvalue : value.Pairs p other) {ctx partner : Context} (hctx : ctx.Pairs p partner) :
    InStep p agree (tour.descend kind value ctx) (tour.descend kind other partner)
      fun q found seen => List.Forall₂ (Slot.Pairs q) found.1 seen.1 ∧ found.2.Pairs q seen.2 := by
  unfold descend
  rw [hctx.skipping]
  apply InStep.ite
  · apply (h.prune hvalue hctx).bind
    rintro q hle ⟨cut, next⟩ ⟨same, last⟩ ⟨hcut, hnext⟩
    simp only at hcut hnext
    subst hcut
    simp only [hnext.skipping]
    apply InStep.ite
    · exact .pure ⟨.nil, hnext.skipChildren⟩
    · apply InStep.store.bind
      intro r hmore s t hstore
      exact .pure ⟨hstore.childSlots_pairs ((hvalue.mono hle).mono hmore), hnext.mono hmore⟩
  · exact .pure ⟨.nil, hctx⟩

theorem forM_slots_inStep {visit : Slot → Walk σ PUnit}
    (hvisit : ∀ q slot later, Slot.Pairs q slot later →
      InStep q agree (visit slot) (visit later) fun _ _ _ => True)
    {slots others : List Slot} (hslots : List.Forall₂ (Slot.Pairs p) slots others) :
    InStep p agree (slots.forM visit) (others.forM visit) fun _ _ _ => True :=
  .forM (fun _ _ _ _ hle hslot => hslot.mono hle) hvisit hslots

theorem depthFirst_inStep (h : tour.Impartial agree) (fuel : Nat) :
    ∀ {p : Pairing} {slot later : Slot} (depth : Nat), slot.Pairs p later →
      InStep p agree (tour.depthFirst fuel slot depth) (tour.depthFirst fuel later depth)
        fun _ _ _ => True := by
  induction fuel with
  | zero =>
      intro p slot later depth _
      exact .throw .exhausted
  | succ fuel ih =>
      intro p slot later depth hslot
      rw [depthFirst, depthFirst]
      apply (InStep.classify hslot.node).bind
      rintro q hle kind _ rfl
      replace hslot := hslot.mono hle
      apply (h.arrive kind hslot (hslot.context depth)).bind
      intro q hle next last hnext
      replace hslot := hslot.mono hle
      cases hnext with
      | none => exact .pure trivial
      | some hctx =>
          apply (descend_inStep h kind hslot.node hctx).bind
          rintro q hle ⟨children, ctx⟩ ⟨others, partner⟩ ⟨hchildren, hctx⟩
          replace hslot := hslot.mono hle
          apply (forM_slots_inStep (fun _ _ _ hchild => ih (depth + 1) hchild) hchildren).bind
          intro q hle _ _ _
          exact h.leave kind (hslot.mono hle) (hctx.mono hle)

theorem breadthFirst_inStep (h : tour.Impartial agree) (fuel : Nat) :
    ∀ {p : Pairing} {queue others : List (Slot × Nat)},
      List.Forall₂ (fun entry partner => entry.1.Pairs p partner.1 ∧ entry.2 = partner.2)
        queue others →
      InStep p agree (tour.breadthFirst fuel queue) (tour.breadthFirst fuel others)
        fun _ _ _ => True := by
  induction fuel with
  | zero =>
      intro p queue others hqueue
      cases hqueue with
      | nil => exact .pure trivial
      | cons _ _ => exact .throw .exhausted
  | succ fuel ih =>
      intro p queue others hqueue
      cases hqueue with
      | nil => exact .pure trivial
      | @cons entry partner queue others hhead hqueue =>
          obtain ⟨slot, depth⟩ := entry
          obtain ⟨later, same⟩ := partner
          obtain ⟨hslot, hdepth⟩ := hhead
          simp only at hslot hdepth
          subst hdepth
          rw [breadthFirst, breadthFirst]
          have hmono : ∀ {q r : Pairing} {queue others : List (Slot × Nat)}, q ≤ r →
              List.Forall₂ (fun entry partner => entry.1.Pairs q partner.1 ∧ entry.2 = partner.2)
                queue others →
              List.Forall₂ (fun entry partner => entry.1.Pairs r partner.1 ∧ entry.2 = partner.2)
                queue others := by
            intro q r queue others hle hqueue
            exact hqueue.imp fun _ _ hentry => ⟨hentry.1.mono hle, hentry.2⟩
          apply (InStep.classify hslot.node).bind
          rintro q hle kind _ rfl
          replace hslot := hslot.mono hle
          replace hqueue := hmono hle hqueue
          apply (h.arrive kind hslot (hslot.context depth)).bind
          intro q hle next last hnext
          replace hslot := hslot.mono hle
          replace hqueue := hmono hle hqueue
          cases hnext with
          | none => exact ih hqueue
          | some hctx =>
              apply (descend_inStep h kind hslot.node hctx).bind
              rintro q hle ⟨children, ctx⟩ ⟨listed, partner⟩ ⟨hchildren, -⟩
              apply ih
              apply List.rel_append (hmono hle hqueue)
              rw [List.forall₂_map_left_iff, List.forall₂_map_right_iff]
              exact hchildren.imp fun _ _ hchild => ⟨hchild, rfl⟩

theorem run_inStep (h : tour.Impartial agree) (order : Order) (fuel : Nat) {roots others : List Slot}
    (hroots : List.Forall₂ (Slot.Pairs p) roots others) :
    InStep p agree (tour.run order fuel roots) (tour.run order fuel others) fun _ _ _ => True := by
  apply forM_slots_inStep _ hroots
  intro q root later hroot
  cases order with
  | preOrder => exact depthFirst_inStep h fuel 0 hroot
  | postOrder => exact depthFirst_inStep h fuel 0 hroot
  | breadthFirst => exact breadthFirst_inStep h fuel (.cons ⟨hroot, rfl⟩ .nil)

end Tour

end ViewTree
