import ViewTree.Proofs.Transform.Roots

namespace ViewTree

open Store (Cell)

theorem Tour.run_append (tour : Tour σ) (order : Order) (fuel : Nat) (slots others : List Slot) :
    tour.run order fuel (slots ++ others) =
      tour.run order fuel slots >>= fun _ => tour.run order fuel others :=
  forM_append_eq slots others _

theorem Tour.run_flatMap (tour : Tour σ) (order : Order) (fuel : Nat) (xs : List α)
    (f : α → List Slot) :
    tour.run order fuel (xs.flatMap f) = xs.forM fun x => tour.run order fuel (f x) := by
  induction xs with
  | nil => rfl
  | cons x xs ih =>
      rw [List.flatMap_cons, Tour.run_append, ih]
      rfl

namespace Store

variable {s t : Store} {p : Pairing}

theorem rootSlots_newArray (node : Value) (s : Store) :
    (newArray [node] s).2.rootSlots ⟨s.arrays.size⟩ =
      ((newArray [node] s).2.expand ⟨node, none, 0, .element ⟨s.arrays.size⟩ 0⟩).map
        fun slot => { slot with index := 0 } := by
  rw [rootSlots, items_newArray_self, List.headD_cons]

theorem rootSlots_of_array {box ref : ArrayRef} (hbox : s.items box = [.array ref]) {level : Nat}
    (hlevel : s.arrays.size = level + 1) :
    s.rootSlots box = (s.items ref).zipIdx.flatMap fun entry =>
      (s.expandTo level [ref] ⟨entry.1, none, entry.2, .element ref entry.2⟩).map
        fun slot => { slot with index := 0 } := by
  rw [rootSlots, hbox, List.headD_cons, expand, hlevel, expandTo_array s level (by simp),
    List.map_flatMap]

theorem expandTo_add {path : List ArrayRef} (hpath : s.IsArrayPath path) {level : Nat}
    (hlevel : s.arrays.size ≤ path.length + level) (more : Nat) (slot : Slot) :
    s.expandTo (level + more) path slot = s.expandTo level path slot := by
  induction more with
  | zero => rfl
  | succ more ih => rw [← Nat.add_assoc, expandTo_succ _ hpath (by omega), ih]

theorem Pairs.expand_below (h : s.Pairs p t) {slot later : Slot} {ref : ArrayRef}
    (hnode : slot.node.Pairs p later.node) (hparent : p.Parents slot.parent later.parent)
    (harray : slot.node = .array ref) {path : List ArrayRef} (hpath : t.IsArrayPath path)
    (hapart : ∀ ref ∈ path, ¬ p.right (.array ref)) {level : Nat}
    (hlevel : t.arrays.size ≤ path.length + level) :
    List.Forall₂ (Slot.Pairs p) (s.expand slot) (t.expandTo level path later) := by
  rw [← expandTo_add hpath hlevel s.arrays.size,
    ← expandTo_eq_expand (Nat.le_add_left s.arrays.size level)]
  apply h.expandTo_pairs _ _ hnode hparent (.inl ⟨ref, harray⟩)
  intro first partner hp
  constructor
  · intro hmem
    simp at hmem
  · intro hmem
    exact absurd ⟨_, hp⟩ (hapart partner hmem)

end Store

namespace Lot

variable {lot : Lot} {t : Store}

def box (lot : Lot) : ArrayRef := ⟨(Store.load lot.tree {}).2.arrays.size⟩

def boxed (lot : Lot) : Store :=
  (Store.newArray [(Store.load lot.tree {}).1] (Store.load lot.tree {}).2).2

theorem boxed_contains (lot : Lot) : lot.boxed.Contains (.array lot.box) :=
  Store.newArray_contains _ _

theorem items_boxed (lot : Lot) : lot.boxed.items lot.box = [(Store.load lot.tree {}).1] :=
  Store.items_newArray_self _ _

theorem Stands.boxed_pairs (h : lot.Stands t) : lot.boxed.Pairs lot.pairing t := by
  have hextends := Store.newArray_extends [(Store.load lot.tree {}).1] (Store.load lot.tree {}).2
  exact h.pairs.frame hextends.grows (hextends.agrees.mono h.pairs.left) (.refl t) (.refl _ t)

theorem Stands.box_free (h : lot.Stands t) : ¬ lot.pairing.left (.array lot.box) := fun hcell =>
  Nat.lt_irrefl _ (h.pairs.left _ hcell)

/-- What a box still holds when the walk that was handed it has ended. -/
theorem boxed_apply_of_ended (lot : Lot) (failure? : Option Failure) {visitors : List (Visitor σ)}
    {prune : Prune σ} {fuel : Nat} {order : Order} {world : σ} {after : Session σ} {value : Value}
    (h : (Transform.tour visitors prune order).run order fuel (lot.boxed.rootSlots lot.box)
      ⟨lot.boxed, world⟩ = Walk.ended failure? PUnit.unit after)
    (hbox : after.store.items lot.box = [value]) :
    Transform.boxed fuel order visitors prune (Store.load lot.tree {}).1
      ⟨(Store.load lot.tree {}).2, world⟩ = Walk.ended failure? value after := by
  show ((Transform.tour visitors prune order).run order fuel (lot.boxed.rootSlots lot.box) >>=
    fun _ => Walk.unbox lot.box) ⟨lot.boxed, world⟩ = _
  cases failure? with
  | some failure => exact Walk.bind_of_ended_some h
  | none =>
      rw [Walk.bind_of_ended_none h]
      show EStateM.Result.ok ((after.store.items lot.box).headD .null) after = _
      rw [hbox]
      rfl

variable {visitors : List (Visitor (Traced Unit))} {prune : Prune (Traced Unit)}
  (hvisitors : ∀ before, ∀ visitor ∈ visitors, visitor.Impartial (Traced.Continues before Eq))
  (hprune : ∀ before, prune.Impartial (Traced.Continues before Eq))
  {fuel : Nat} {order : Order} {array : ArrayRef} {position : Nat}

include hvisitors hprune

theorem dealt_slots {slots : List Slot}
    (hslots : List.Forall₂ (Slot.Pairs lot.pairing) (lot.boxed.rootSlots lot.box) slots) :
    lot.Dealt array position
      (Account.ofWalk (Transform.boxed fuel order visitors prune) lot.tree)
      ((Transform.tour visitors prune order).run order fuel slots) := by
  intro t before hstands has hout hposition
  have hboth := Tour.run_inStep (Transform.tour_impartial (hvisitors before) (hprune before) order)
    order fuel hslots lot.boxed t ([], ()) (before, ()) hstands.boxed_pairs
    ⟨(List.append_nil before).symm, rfl⟩
  split at hboth
  · next result after value later hown hend =>
      obtain ⟨later, world⟩ := later
      obtain ⟨q, hleads, htrace, -⟩ := hboth
      have hbox := (hleads.left.agrees.items lot.box ⟨lot.boxed_contains, hstands.box_free⟩).trans
        lot.items_boxed
      rw [Account.ofWalk_of_ok (boxed_apply_of_ended lot none hown hbox)]
      refine ⟨later, ?_, .of_leads_same hleads has hout hposition
        (hstands.value.mono hleads.keeps), nofun⟩
      rw [hend, ← htrace.1]
      rfl
  · next failure after cause later hown hend =>
      obtain ⟨later, world⟩ := later
      obtain ⟨rfl, q, hleads, htrace⟩ := hboth
      have hbox := (hleads.left.agrees.items lot.box ⟨lot.boxed_contains, hstands.box_free⟩).trans
        lot.items_boxed
      rw [Account.ofWalk_of_error (boxed_apply_of_ended lot (some failure) hown hbox)]
      refine ⟨later, ?_, .of_leads_same hleads has hout hposition
        (hstands.value.mono hleads.keeps), ?_⟩
      · rw [hend, ← htrace.1]
        rfl
      · intro _ _
        exact hleads.right.agrees.items array ⟨has, hout⟩
  · exact hboth.elim

theorem survey_uniform (order : Order) (fuel : Nat) :
    Walk.Uniform (Transform.survey order visitors prune fuel) := by
  intro before p value other hvalue
  exact Transform.survey_inStep (hvisitors before) (hprune before) order fuel hvalue

theorem ofWalk_boxed_of_node {t : Tree} (hnode : ∀ ref, (Store.load t {}).1 ≠ .array ref) :
    Account.ofWalk (Transform.boxed fuel order visitors prune) t =
      Account.ofWalk (Walk.answer (Transform.survey order visitors prune fuel)) t := by
  obtain ⟨lot, rfl, hvalue, hstands, -⟩ := exists_of_load t {}
  have hextends : (Store.load lot.tree {}).2.Extends lot.boxed := Store.newArray_extends _ _
  have hlater : lot.Stands lot.boxed := hstands.frame hextends.grows
    (hextends.agrees.mono fun _ hcell => hstands.contains hcell)
  have hout : ¬ lot.cells (.array lot.box) := fun hcell =>
    Nat.lt_irrefl _ (hstands.contains hcell)
  have hposition : (lot.boxed.items lot.box)[0]? = some lot.value := by
    rw [items_boxed, hvalue]
    rfl
  have hroots : lot.boxed.rootSlots lot.box = [⟨lot.value, none, 0, .element lot.box 0⟩] := by
    rw [Store.rootSlots, items_boxed, List.headD_cons, Store.expand_of_ne_array hnode, hvalue]
    rfl
  obtain ⟨later, hwalk, ⟨-, -, value, hset, hshown⟩, hkept⟩ :=
    lot.dealt_settle (survey_uniform hvisitors hprune order fuel) lot.box 0 lot.boxed [] hlater
      lot.boxed_contains hout hposition
  have hrun := hwalk
  rw [← Transform.run_singleton order fuel, ← hroots] at hrun
  have hread : later.read value =
      (Account.ofWalk (Walk.answer (Transform.survey order visitors prune fuel)) lot.tree).tree := by
    obtain ⟨s, own, p, hpairs, hpair, hread, -⟩ := hshown
    rw [← hread, hpairs.read_eq hpair]
  rw [items_boxed, List.set_cons_zero] at hset
  have hboxed := lot.boxed_apply_of_ended _ hrun hset
  cases hfailure : (Account.ofWalk (Walk.answer (Transform.survey order visitors prune fuel))
      lot.tree).failure? with
  | none =>
      rw [hfailure] at hboxed
      rw [Account.ofWalk_of_ok hboxed, hread, ← hfailure]
      rfl
  | some failure =>
      -- the box holds what it held
      rw [hfailure] at hboxed
      have hsame : value = (Store.load lot.tree {}).1 := by
        rw [hkept failure hfailure, items_boxed] at hset
        exact (List.cons.inj hset).1.symm
      rw [Account.ofWalk_of_error hboxed, ← hsame, hread, ← hfailure]
      rfl

/-- The roots that a lot in an array is expanded to are visited as the tree is in a box of its own. -/
theorem dealt_expanded {before : Store} (hstands : lot.Stands before)
    (has : before.Contains (.array array)) (hout : ¬ lot.cells (.array array)) {level : Nat}
    (hlevel : before.arrays.size ≤ level + 1) (position : Nat) :
    lot.Dealt array position
      (Account.ofWalk (Transform.boxed fuel order visitors prune) lot.tree)
      ((Transform.tour visitors prune order).run order fuel
        ((before.expandTo level [array]
          ⟨lot.value, none, position, .element array position⟩).map
            fun slot => { slot with index := 0 })) := by
  by_cases harray : ∃ ref, (Store.load lot.tree {}).1 = .array ref
  · obtain ⟨ref, harray⟩ := harray
    apply dealt_slots hvisitors hprune
    have hpath : before.IsArrayPath [array] := (Store.IsArrayPath.nil before).cons has (by simp)
    have hexpand : List.Forall₂ (Slot.Pairs lot.pairing)
        (lot.boxed.expand ⟨(Store.load lot.tree {}).1, none, 0, .element lot.box 0⟩)
        (before.expandTo level [array]
          ⟨lot.value, none, position, .element array position⟩) := by
      refine hstands.boxed_pairs.expand_below ?_ ?_ harray hpath ?_ ?_
      · exact hstands.value
      · exact .none
      · intro other hother
        rw [List.mem_singleton.mp hother]
        exact hout
      · rw [List.length_singleton]
        omega
    have hroots := Store.rootSlots_newArray (Store.load lot.tree {}).1 (Store.load lot.tree {}).2
    exact hroots ▸ Store.Pairs.forall₂_index hexpand
  · have hnode : ∀ ref, (Store.load lot.tree {}).1 ≠ .array ref := fun ref heq => harray ⟨ref, heq⟩
    have hvalue : ∀ ref, lot.value ≠ .array ref := by
      intro ref heq
      have hpairs := hstands.value
      rw [heq] at hpairs
      generalize (Store.load lot.tree {}).1 = own at hpairs hnode
      cases hpairs
      exact hnode _ rfl
    have hdealt := lot.dealt_settle (survey_uniform hvisitors hprune order fuel) array position
    rw [← ofWalk_boxed_of_node hvisitors hprune hnode, ← Transform.run_singleton] at hdealt
    rw [Store.expandTo_of_ne_array hvalue]
    exact hdealt

end Lot

section

variable {visitors : List (Visitor (Traced Unit))} {prune : Prune (Traced Unit)}
  (hvisitors : ∀ before, ∀ visitor ∈ visitors, visitor.Impartial (Traced.Continues before Eq))
  (hprune : ∀ before, prune.Impartial (Traced.Continues before Eq))

include hvisitors hprune

/-- A walk that is handed an array in a box does with the items in turn what it does with each of
them in a box of its own. -/
theorem Transform.ofWalk_boxed_array (order : Order) (fuel : Nat) (items : List Tree) :
    Account.ofWalk (Transform.boxed fuel order visitors prune) (.array items) =
      Account.ofArray (Account.ofWalk (Transform.boxed fuel order visitors prune)) items := by
  obtain ⟨lots, ref, rfl, hroot, hitems, has, hstands, hout, hapart⟩ :=
    Lot.exists_of_load_array items
  let whole : Lot := ⟨.array (lots.map Lot.tree), .array ref, fun _ _ => False⟩
  have hextends : (Store.load whole.tree {}).2.Extends whole.boxed := Store.newArray_extends _ _
  have hnew : ¬ (Store.load whole.tree {}).2.Contains (.array whole.box) := Nat.lt_irrefl _
  have hlater : ∀ lot ∈ lots, lot.Stands whole.boxed := by
    intro lot hlot
    exact (hstands lot hlot).frame hextends.grows
      (hextends.agrees.mono fun _ hcell => (hstands lot hlot).contains hcell)
  have hmidway : whole.boxed.Midway ref lots [] [] :=
    ⟨hextends.grows.contains has, (hextends.agrees.items ref has).trans hitems, hlater, hout, hapart,
      .nil⟩
  obtain ⟨level, hlevel⟩ : ∃ level, whole.boxed.arrays.size = level + 1 :=
    ⟨(Store.load whole.tree {}).2.arrays.size, by simp [Lot.boxed, Store.newArray]⟩
  have hroots : whole.boxed.rootSlots whole.box = lots.zipIdx.flatMap fun entry =>
      (whole.boxed.expandTo level [ref]
        ⟨entry.1.value, none, entry.2, .element ref entry.2⟩).map
          fun slot => { slot with index := 0 } := by
    have hbox : whole.boxed.items whole.box = [.array ref] := by
      rw [whole.items_boxed]
      exact congrArg ([·]) hroot
    rw [Store.rootSlots_of_array hbox hlevel, hmidway.items, List.nil_append, List.zipIdx_map,
      List.flatMap_map]
    rfl
  obtain ⟨later, hloop, hread, hkept⟩ := forM_dealt_all (fun entry =>
    (Transform.tour visitors prune order).run order fuel
      ((whole.boxed.expandTo level [ref]
        ⟨entry.1.value, none, entry.2, .element ref entry.2⟩).map
          fun slot => { slot with index := 0 }))
    (fun lot hlot position => Lot.dealt_expanded hvisitors hprune (hlater lot hlot)
      hmidway.has (hout lot hlot) hlevel.le position) hmidway
  rw [← Tour.run_flatMap, ← hroots] at hloop
  have hbox : later.items whole.box = [.array ref] := by
    rw [hkept.items whole.box ⟨whole.boxed_contains, ?_, ?_⟩, whole.items_boxed]
    · exact congrArg ([·]) hroot
    · rintro heq
      exact hnew (heq ▸ has)
    · intro lot hlot hcell
      exact hnew ((hstands lot hlot).contains hcell)
  have hwalk := whole.boxed_apply_of_ended _ hloop hbox
  rw [Account.ofWalk_of_ended hroot (hroot ▸ hwalk), hread]

end

end ViewTree
