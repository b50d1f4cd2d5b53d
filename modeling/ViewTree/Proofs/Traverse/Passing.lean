import ViewTree.Proofs.Traverse.Showing

namespace ViewTree

open Store (Cell)
open Tour (Joining)
open Traverse (Item)

namespace Store

variable {s : Store} {node : Value}

theorem type_of_structured (h : s.classify node = .ok .structured) :
    ∃ ref name, node = .object ref ∧ s.nodeType? node = some name ∧
      (s.members ref).lookup "type" = some (.atom (.text name)) := by
  cases node with
  | object ref =>
      rw [classify] at h
      split at h
      · next name htype =>
          refine ⟨ref, name, rfl, htype, ?_⟩
          obtain ⟨value, hvalue, htext⟩ := Option.bind_eq_some_iff.mp
            (Option.mem_filter_iff.mp htype).1
          obtain rfl : value = .atom (.text name) := by
            cases value with
            | atom a => cases a <;> cases htext; rfl
            | _ => cases htext
          exact hvalue
      · cases h
  | atom a =>
      rw [Store.classify, Atom.classify] at h
      split at h <;> cases h
  | _ => cases h

theorem nodeType?_of_ne_structured {kind : Kind}
    (h : s.classify node = .ok kind) (hkind : kind ≠ .structured) : s.nodeType? node = none := by
  cases node with
  | object ref =>
      rw [classify] at h
      split at h
      · cases h
        exact absurd rfl hkind
      · cases h
  | _ => rfl

theorem childSlots_of_ne_structured {kind : Kind}
    (h : s.classify node = .ok kind) (hkind : kind ≠ .structured) : s.childSlots node = [] := by
  cases node with
  | object ref =>
      rw [childSlots, nodeType?_of_ne_structured h hkind]
      rfl
  | _ => rfl

end Store

namespace TypeFilter

theorem countsAs_text_iff (t : Tree) (name : String) :
    t.countsAs (.text name) = true ↔ t = .text name := by
  cases t with
  | atom a => cases a <;> simp [Tree.countsAs, Tree.isSameAtom, Tree.agrees, Tree.text,
      Atom.agrees, Atom.integer?]
  | _ => simp [Tree.countsAs, Tree.isSameAtom, Tree.agrees, Tree.text]

theorem contains_among (chosen : List Tree) (name : String) :
    ∃ found, (among chosen).contains (.text name) = .ok found ∧
      (found = true ↔ Tree.text name ∈ chosen) := by
  refine ⟨_, rfl, ?_⟩
  simp only [List.any_eq_true, countsAs_text_iff, exists_eq_right]

theorem admits_ofTypes (types : Option (List Tree)) {s : Store} {node : Value} {kind : Kind}
    (h : s.classify node = .ok kind) :
    ∃ shown, (shown = true ↔ Passes types s node) ∧
      ∀ world : σ, (ofTypes types).admits kind node ⟨s, world⟩ = .ok shown ⟨s, world⟩ := by
  cases types with
  | none => exact ⟨true, by simp [Passes], fun _ => rfl⟩
  | some chosen =>
      by_cases hkind : kind = .structured
      · subst hkind
        obtain ⟨ref, name, rfl, htype, hmember⟩ := Store.type_of_structured h
        obtain ⟨found, hcontains, hfound⟩ := contains_among chosen name
        refine ⟨found, by simp [Passes, htype, hfound], fun world => ?_⟩
        have hread : s.read (.atom (.text name)) = .text name := (Store.Shows.atom _).read_eq
        have hstore : (Walk.store : Walk σ Store) ⟨s, world⟩ = .ok s ⟨s, world⟩ := rfl
        rw [ofTypes, admits, Walk.bind_apply, hstore]
        · simp only [hmember, hread, hcontains]
          rfl
        · intro hall
          cases hall
      · have htype := Store.nodeType?_of_ne_structured h hkind
        refine ⟨false, by simp [Passes, htype], fun world => ?_⟩
        cases kind with
        | structured => exact absurd rfl hkind
        | _ => rfl

end TypeFilter

variable {order : Order} {types : Option (List Tree)} {skips : List Item → Item → Bool} {s : Store}
  {bound : Nat} {slot : Slot}

namespace Traverse

def showing (skips : List Item → Item → Bool) (before : List Item) (stand : Stand) (shown : Bool) :
    Showing :=
  ⟨stand, shown, shown && skips before stand.item⟩

variable (types skips) in
theorem offer_apply {kind : Kind} (h : s.classify slot.node = .ok kind) :
    ∃ shown, (shown = true ↔ TypeFilter.Passes types s slot.node) ∧ ∀ world depth, ∃ ctx,
      offer (.ofTypes types) (keeper skips) kind slot (slot.context depth) ⟨s, world⟩ =
        .ok ctx ⟨s, world ++ Showing.yielded [showing skips world (slot.stand depth) shown]⟩ ∧
      ctx.skipping = (showing skips world (slot.stand depth) shown).skipped := by
  obtain ⟨shown, hshown, hadmits⟩ := TypeFilter.admits_ofTypes (σ := List Item) types h
  refine ⟨shown, hshown, fun world depth => ?_⟩
  rw [offer, Walk.bind_apply, hadmits]
  cases shown with
  | false => exact ⟨_, by rw [Showing.yielded]; simp [showing]; rfl, rfl⟩
  | true =>
      refine ⟨_, rfl, ?_⟩
      show (if skips world (slot.stand depth).item then _ else _ : Context).skipping = _
      split
      · next hskip => exact hskip.symm
      · next hskip => exact (Bool.eq_false_iff.mpr hskip).symm

variable (types skips) in
/-- In pre-order and breadth-first the children of a node are listed unless it was shown and the latch
was set. -/
theorem step_apply (horder : order ≠ .postOrder) {kind : Kind}
    (hkind : s.classify slot.node = .ok kind) :
    ∃ shown, (shown = true ↔ TypeFilter.Passes types s slot.node) ∧ ∀ world depth,
      (tour (.ofTypes types) (keeper skips) order).step slot depth ⟨s, world⟩ =
        .ok (if (showing skips world (slot.stand depth) shown).skipped then []
            else (s.childSlots slot.node).map fun child => (child, depth + 1))
          ⟨s, world ++ Showing.yielded [showing skips world (slot.stand depth) shown]⟩ := by
  obtain ⟨shown, hshown, hoffer⟩ := offer_apply types skips hkind
  refine ⟨shown, hshown, fun world depth => ?_⟩
  obtain ⟨ctx, hctx, hskipping⟩ := hoffer world depth
  have harrive : (tour (.ofTypes types) (keeper skips) order).arrive kind slot
      (slot.context depth) ⟨s, world⟩ = .ok (some ctx)
        ⟨s, world ++ Showing.yielded [showing skips world (slot.stand depth) shown]⟩ := by
    cases order with
    | postOrder => exact absurd rfl horder
    | _ =>
        show (some <$> offer (.ofTypes types) (keeper skips) kind slot (slot.context depth)) _ = _
        rw [map_eq_pure_bind, Walk.bind_apply, hctx]
        rfl
  have hprune : (tour (.ofTypes types) (keeper skips) order).prune =
      fun _ ctx => pure (false, ctx) := by
    cases order <;> rfl
  simp only [Tour.step, Tour.turn, Walk.bind_apply, Walk.classify_apply, hkind, harrive,
    Sight.descend_of_no_prune _ hprune, hskipping]
  cases (showing skips world (slot.stand depth) shown).skipped with
  | true =>
      simp only [Bool.true_eq_false, and_false, if_false, List.map_nil, if_true]
      rfl
  | false =>
      by_cases hopen : kind = .structured
      · simp only [hopen, and_self, if_true, Bool.false_eq_true, if_false]
        rfl
      · simp only [hopen, false_and, Store.childSlots_of_ne_structured hkind hopen,
          List.map_nil, ite_self]
        rfl

end Traverse

/-- A position on the way of a walk, and whether the walk is to reach it. -/
structure Prospect where
  slot : Slot
  depth : Nat
  reached : Bool

namespace Prospect

def outline (s : Store) (bound : Nat) (prospect : Prospect) : Rose Stand :=
  s.outlineTo bound (prospect.slot.stand prospect.depth)

def waiting (prospects : List Prospect) : List (Slot × Nat) :=
  (prospects.filter (·.reached)).map fun prospect => (prospect.slot, prospect.depth)

def children (s : Store) (reached : Bool) (prospect : Prospect) : List Prospect :=
  (s.childSlots prospect.slot.node).map fun child => ⟨child, prospect.depth + 1, reached⟩

theorem waiting_join (joining : Joining) (prospects others : List Prospect) :
    waiting (joining.join prospects others) = joining.join (waiting prospects) (waiting others) := by
  cases joining <;> simp only [Joining.join, waiting, List.filter_append, List.map_append]

theorem waiting_children (s : Store) (reached : Bool) (prospect : Prospect) :
    waiting (prospect.children s reached) =
      if reached then (s.childSlots prospect.slot.node).map fun child => (child, prospect.depth + 1)
      else [] := by
  cases reached <;> simp [waiting, children, List.filter_map, Function.comp_def]

theorem outline_mk {prospect : Prospect} (h : s.Fits bound prospect.slot) (reached : Bool) :
    prospect.outline s bound = .mk (prospect.slot.stand prospect.depth)
      ((prospect.children s reached).map (outline s bound)) := by
  rw [outline, h.outlineTo_mk, children, List.map_map]
  rfl

end Prospect

/-- What is recorded of a position and of all below it. -/
structure Records (order : Order) (types : Option (List Tree)) (skips : List Item → Item → Bool)
    (s : Store) (bound : Nat) (prospect : Prospect) (record : Rose Showing) : Prop where
  outline : record.map Showing.stand = prospect.outline s bound
  selected : record.Selected order types skips s (prospect.reached = true)

theorem Records.mk_of {prospect : Prospect} (h : s.Fits bound prospect.slot) {reached : Bool}
    {below : List (Rose Showing)}
    (hbelow : List.Forall₂ (Records order types skips s bound) (prospect.children s reached) below)
    {showing : Showing} (hstand : showing.stand = prospect.slot.stand prospect.depth)
    (hshown : showing.shown = true ↔
      prospect.reached = true ∧ TypeFilter.Passes types s prospect.slot.node)
    (hskipped : showing.skipped = true → ∃ before, skips before showing.stand.item = true)
    (hreached : reached = true ↔ prospect.reached = true ∧ ¬ showing.Bars order) :
    Records order types skips s bound prospect (.mk showing below) := by
  constructor
  · have hroses := map_eq_of_forall₂ hbelow fun _ _ hrecord => hrecord.outline.symm
    rw [Rose.map_mk, prospect.outline_mk h reached, hstand, hroses]
  · refine .mk (hstand ▸ hshown) hskipped fun rose hrose => ?_
    obtain ⟨child, hchild, hrecord⟩ := exists_of_forall₂ hbelow.flip rose hrose
    obtain ⟨slot, -, rfl⟩ := List.mem_map.mp hchild
    exact propext hreached ▸ hrecord.selected

theorem forall₂_join_left {R : α → β → Prop} {joining : Joining} {xs ys : List α} {zs : List β}
    (h : List.Forall₂ R (joining.join xs ys) zs) :
    ∃ us vs, zs = joining.join us vs ∧ List.Forall₂ R xs us ∧ List.Forall₂ R ys vs := by
  cases joining with
  | behind => exact forall₂_append_left h
  | before =>
      obtain ⟨us, vs, hsplit, hys, hxs⟩ := forall₂_append_left h
      exact ⟨vs, us, hsplit, hxs, hys⟩

def SweepsAll (order : Order) (types : Option (List Tree)) (skips : List Item → Item → Bool)
    (s : Store) (bound : Nat) (joining : Joining) (visits : Nat) : Prop :=
  ∀ (prospects : List Prospect) (world : List Item),
    (∀ prospect ∈ prospects, s.Fits bound prospect.slot) →
    Rose.sizes (prospects.map (Prospect.outline s bound)) ≤ visits →
    ∃ records, List.Forall₂ (Records order types skips s bound) prospects records ∧
      Showing.Heeds skips world (Rose.sweep joining records) ∧
      (Traverse.tour (.ofTypes types) (Traverse.keeper skips) order).Sweeps joining visits
        (Prospect.waiting prospects) ⟨s, world⟩
        (.ok () ⟨s, world ++ Showing.yielded (Rose.sweep joining records)⟩)

section

variable {joining : Joining} {visits : Nat}

theorem sweepsAll_nil (world : List Item) :
    ∃ records, List.Forall₂ (Records order types skips s bound) [] records ∧
      Showing.Heeds skips world (Rose.sweep joining records) ∧
      (Traverse.tour (.ofTypes types) (Traverse.keeper skips) order).Sweeps joining visits
        (Prospect.waiting []) ⟨s, world⟩
        (.ok () ⟨s, world ++ Showing.yielded (Rose.sweep joining records)⟩) := by
  refine ⟨[], .nil, ?_, ?_⟩
  · rw [Rose.sweep]
    exact Showing.heeds_nil skips world
  · rw [Rose.sweep, Showing.yielded, List.filter_nil, List.map_nil, List.append_nil]
    exact .done visits _

theorem SweepsAll.join (h : SweepsAll order types skips s bound joining visits)
    {prospect : Prospect} {prospects : List Prospect}
    (hfits : ∀ other ∈ prospect :: prospects, s.Fits bound other.slot)
    (hsize : Rose.sizes ((prospect :: prospects).map (Prospect.outline s bound)) ≤ visits + 1)
    (reached : Bool) (world : List Item) :
    ∃ others below, List.Forall₂ (Records order types skips s bound) prospects others ∧
      List.Forall₂ (Records order types skips s bound) (prospect.children s reached) below ∧
      Showing.Heeds skips world (Rose.sweep joining (joining.join others below)) ∧
      (Traverse.tour (.ofTypes types) (Traverse.keeper skips) order).Sweeps joining visits
        (joining.join (Prospect.waiting prospects)
          (Prospect.waiting (prospect.children s reached))) ⟨s, world⟩
        (.ok () ⟨s, world ++ Showing.yielded (Rose.sweep joining (joining.join others below))⟩) := by
  obtain ⟨hfit, hrest⟩ := List.forall_mem_cons.mp hfits
  have hjoined : ∀ other ∈ joining.join prospects (prospect.children s reached),
      s.Fits bound other.slot := by
    intro other hother
    rcases List.mem_append.mp ((joining.join_perm _ _).mem_iff.mp hother) with hother | hother
    · exact hrest other hother
    · obtain ⟨child, hchild, rfl⟩ := List.mem_map.mp hother
      exact hfit.child child hchild
  rw [List.map_cons, prospect.outline_mk hfit reached, Rose.sizes, Rose.size] at hsize
  have hroom : Rose.sizes ((joining.join prospects (prospect.children s reached)).map
      (Prospect.outline s bound)) ≤ visits := by
    rw [joining.map_join, Rose.sizes_join]
    omega
  obtain ⟨records, hrecords, hheeds, hsweeps⟩ := h _ world hjoined hroom
  obtain ⟨others, below, rfl, hothers, hbelow⟩ := forall₂_join_left hrecords
  rw [Prospect.waiting_join] at hsweeps
  exact ⟨others, below, hothers, hbelow, hheeds, hsweeps⟩

end

/-- The walk over all positions goes beside the sweep over those that are reached. -/
theorem sweepsAll (horder : order ≠ .postOrder) (joining : Joining) (visits : Nat) :
    SweepsAll order types skips s bound joining visits := by
  induction visits with
  | zero =>
      intro prospects world hfits hsize
      cases prospects with
      | nil => exact sweepsAll_nil world
      | cons prospect prospects =>
          have hfit := hfits prospect List.mem_cons_self
          rw [List.map_cons, prospect.outline_mk hfit true, Rose.sizes, Rose.size] at hsize
          omega
  | succ visits ih =>
      intro prospects world hfits hsize
      cases prospects with
      | nil => exact sweepsAll_nil world
      | cons prospect prospects =>
          have hfit := hfits prospect List.mem_cons_self
          obtain ⟨slot, depth, reached⟩ := prospect
          cases reached with
          | false =>
              -- the sweep stands still while the walk passes a position it does not reach
              let showing : Showing := ⟨slot.stand depth, false, false⟩
              obtain ⟨others, below, hothers, hbelow, hheeds, hsweeps⟩ :=
                ih.join hfits hsize false world
              have hrecord : Records order types skips s bound ⟨slot, depth, false⟩
                  (.mk showing below) :=
                .mk_of hfit hbelow rfl (by simp [showing]) (by simp [showing]) (by simp)
              have hnothing : Showing.yielded [showing] = [] := rfl
              refine ⟨.mk showing below :: others, .cons hrecord hothers, ?_, ?_⟩
              · rw [Rose.sweep]
                refine Showing.heeds_cons (fun hshown => absurd hshown Bool.false_ne_true) ?_
                rwa [hnothing, List.append_nil]
              · rw [Rose.sweep, Showing.yielded_cons, hnothing, List.nil_append]
                rw [Prospect.waiting_children, if_neg Bool.false_ne_true] at hsweeps
                cases joining with
                | behind =>
                    rw [Joining.join, List.append_nil] at hsweeps
                    exact hsweeps.mono (Nat.le_succ visits)
                | before => exact hsweeps.mono (Nat.le_succ visits)
          | true =>
              obtain ⟨kind, hkind⟩ := hfit.classify
              obtain ⟨shown, hshown, hstep⟩ := Traverse.step_apply types skips horder
                hkind
              let showing := Traverse.showing skips world (slot.stand depth) shown
              obtain ⟨others, below, hothers, hbelow, hheeds, hsweeps⟩ :=
                ih.join hfits hsize (!showing.skipped) (world ++ Showing.yielded [showing])
              have hrecord : Records order types skips s bound ⟨slot, depth, true⟩
                  (.mk showing below) := by
                refine .mk_of hfit hbelow rfl (hshown.trans (by simp)) (fun hskipped => ?_) ?_
                · exact ⟨world, (Bool.and_eq_true_iff.mp hskipped).2⟩
                · have himplies : showing.skipped = true → showing.shown = true :=
                    fun hskipped => (Bool.and_eq_true_iff.mp hskipped).1
                  cases hvalue : showing.skipped with
                  | true => simp [Showing.Bars, horder, hvalue, himplies hvalue]
                  | false => simp [Showing.Bars, hvalue]
              refine ⟨.mk showing below :: others, .cons hrecord hothers, ?_, ?_⟩
              · rw [Rose.sweep]
                refine Showing.heeds_cons (fun hshow => ?_) hheeds
                have hshow : shown = true := hshow
                show (shown && skips world (slot.stand depth).item) = _
                rw [hshow, Bool.true_and]
                rfl
              · rw [Rose.sweep, Showing.yielded_cons, ← List.append_assoc]
                have hlisted : Prospect.waiting (Prospect.children s (!showing.skipped)
                    ⟨slot, depth, true⟩) = if showing.skipped then [] else
                      (s.childSlots slot.node).map fun child => (child, depth + 1) := by
                  rw [Prospect.waiting_children]
                  cases showing.skipped <;> rfl
                rw [hlisted] at hsweeps
                exact .next (hstep world depth) hsweeps

end ViewTree
