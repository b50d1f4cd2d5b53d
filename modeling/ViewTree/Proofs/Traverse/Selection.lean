import ViewTree.Proofs.Traverse.Passing

namespace ViewTree

open Store (Cell)
open Traverse (Item)

/-- A walk that leaves the store alone and yields the items of a listing of this kind. -/
def Walk.Selects (skips : List Item → Item → Bool) (s : Store) (walk : Walk (List Item) Unit)
    (lists : List Showing → Prop) : Prop :=
  ∀ world, ∃ listing, lists listing ∧ Showing.Heeds skips world listing ∧
    walk ⟨s, world⟩ = .ok () ⟨s, world ++ Showing.yielded listing⟩

namespace Walk.Selects

variable {skips : List Item → Item → Bool} {s : Store} {walk next : Walk (List Item) Unit}
  {lists more : List Showing → Prop}

theorem mono {weaker : List Showing → Prop} (h : Selects skips s walk lists)
    (hweaker : ∀ listing, lists listing → weaker listing) : Selects skips s walk weaker := by
  intro world
  obtain ⟨listing, hlists, hrest⟩ := h world
  exact ⟨listing, hweaker listing hlists, hrest⟩

theorem bind (h : Selects skips s walk lists) (hnext : Selects skips s next more) :
    Selects skips s (walk >>= fun _ => next) fun listing =>
      ∃ first rest, listing = first ++ rest ∧ lists first ∧ more rest := by
  intro world
  obtain ⟨first, hfirst, hheeds, hwalk⟩ := h world
  obtain ⟨rest, hrest, hlater, hnext⟩ := hnext (world ++ Showing.yielded first)
  refine ⟨first ++ rest, ⟨first, rest, rfl, hfirst, hrest⟩, hheeds.append hlater, ?_⟩
  rw [Walk.bind_apply, hwalk, Showing.yielded_append, ← List.append_assoc]
  exact hnext

theorem forM {xs : List α} {visit : α → Walk (List Item) Unit} {R : α → Rose Showing → Prop}
    {list : Rose Showing → List Showing}
    (h : ∀ x ∈ xs, Selects skips s (visit x) fun listing =>
      ∃ record, R x record ∧ listing = list record) :
    Selects skips s (xs.forM visit) fun listing =>
      ∃ records, List.Forall₂ R xs records ∧ listing = records.flatMap list := by
  induction xs with
  | nil =>
      exact fun world => ⟨[], ⟨[], .nil, rfl⟩, Showing.heeds_nil skips world, by
        rw [Showing.yielded, List.filter_nil, List.map_nil, List.append_nil]; rfl⟩
  | cons x xs ih =>
      obtain ⟨hhead, htail⟩ := List.forall_mem_cons.mp h
      refine (hhead.bind (ih htail)).mono fun listing hlisting => ?_
      obtain ⟨first, rest, rfl, ⟨record, hrecord, rfl⟩, records, hrecords, rfl⟩ := hlisting
      exact ⟨record :: records, .cons hrecord hrecords, rfl⟩

end Walk.Selects

variable {order : Order} {types : Option (List Tree)} {skips : List Item → Item → Bool} {s : Store}
  {bound fuel : Nat} {slot : Slot}

theorem Records.mono {prospect : Prospect} {record : Rose Showing}
    (h : Records order types skips s bound prospect record) (hfits : s.Fits bound prospect.slot)
    {more : Nat} (hmore : bound ≤ more) : Records order types skips s more prospect record :=
  ⟨h.outline.trans (hfits.outlineTo_eq hmore prospect.depth).symm, h.selected⟩

theorem postOrder_selects (fuel : Nat) : ∀ {slot : Slot} (depth : Nat), s.Fits fuel slot →
    Walk.Selects skips s
      ((Traverse.tour (.ofTypes types) (Traverse.keeper skips) .postOrder).depthFirst fuel slot
        depth)
      fun listing => ∃ record,
        Records .postOrder types skips s fuel ⟨slot, depth, true⟩ record ∧
          listing = record.postOrder := by
  induction fuel with
  | zero => exact fun _ hfits => absurd hfits.pos (Nat.lt_irrefl 0)
  | succ fuel ih =>
      intro slot depth hfits world
      obtain ⟨kind, hkind⟩ := hfits.classify
      obtain ⟨shown, hshown, hoffer⟩ := Traverse.offer_apply types skips hkind
      have hchildren : Walk.Selects skips s ((s.childSlots slot.node).forM fun child =>
          (Traverse.tour (.ofTypes types) (Traverse.keeper skips) .postOrder).depthFirst fuel child
            (depth + 1))
          fun listing => ∃ records, List.Forall₂ (fun child record =>
              Records .postOrder types skips s (fuel + 1) ⟨child, depth + 1, true⟩ record)
            (s.childSlots slot.node) records ∧ listing = records.flatMap Rose.postOrder := by
        refine .forM fun child hchild => ?_
        have hfit := hfits.below child hchild
        refine (ih (depth + 1) hfit).mono fun listing hlisting => ?_
        obtain ⟨record, hrecord, rfl⟩ := hlisting
        exact ⟨record, hrecord.mono hfit (Nat.le_succ fuel), rfl⟩
      obtain ⟨listing, ⟨below, hbelow, rfl⟩, hheeds, hforM⟩ := hchildren world
      let before := world ++ Showing.yielded (below.flatMap Rose.postOrder)
      let showing := Traverse.showing skips before (slot.stand depth) shown
      obtain ⟨ctx, hctx, -⟩ := hoffer before depth
      have hrecord : Records .postOrder types skips s (fuel + 1) ⟨slot, depth, true⟩
          (.mk showing below) :=
        .mk_of hfits (List.forall₂_map_left_iff.mpr hbelow) rfl (hshown.trans (by simp))
          (fun hskipped => ⟨before, (Bool.and_eq_true_iff.mp hskipped).2⟩) (by simp [Showing.Bars])
      refine ⟨_, ⟨.mk showing below, hrecord, rfl⟩, ?_, ?_⟩
      · rw [Rose.postOrder, Rose.postOrders_eq]
        refine hheeds.append (Showing.heeds_cons (fun hshow => ?_) (Showing.heeds_nil _ _))
        have hshow : shown = true := hshow
        show (shown && skips before (slot.stand depth).item) = _
        rw [hshow, Bool.true_and]
        rfl
      · have hleave : (Traverse.tour (.ofTypes types) (Traverse.keeper skips) .postOrder).leave kind
            slot (slot.context depth) ⟨s, before⟩ =
              .ok () ⟨s, before ++ Showing.yielded [showing]⟩ := by
          show ((fun _ => ()) <$> Traverse.offer (.ofTypes types) (Traverse.keeper skips) kind slot
            (slot.context depth)) _ = _
          rw [map_eq_pure_bind, Walk.bind_apply, hctx]
          rfl
        have hdescend := Sight.descend_of_no_prune
          (Traverse.tour (.ofTypes types) (Traverse.keeper skips) .postOrder) rfl kind slot.node
          (slot.context depth) ⟨s, world⟩
        have hlisted : (if kind = .structured ∧ (slot.context depth).skipping = false then
            s.childSlots slot.node else []) = s.childSlots slot.node := by
          by_cases hopen : kind = .structured
          · rw [if_pos ⟨hopen, rfl⟩]
          · rw [if_neg fun hboth => hopen hboth.1,
              Store.childSlots_of_ne_structured hkind hopen]
        rw [hlisted] at hdescend
        have harrive : (Traverse.tour (.ofTypes types) (Traverse.keeper skips) .postOrder).arrive
            kind slot (slot.context depth) ⟨s, world⟩ = .ok (some (slot.context depth)) ⟨s, world⟩ :=
          rfl
        rw [Tour.depthFirst, Walk.bind_apply, Walk.classify_apply, hkind]
        simp only [Walk.bind_apply, harrive, hdescend, hforM]
        rw [Rose.postOrder, Rose.postOrders_eq, Showing.yielded_append, ← List.append_assoc]
        exact hleave

variable (types) in
theorem sweep_selects (horder : order ≠ .postOrder) (joining : Tour.Joining)
    (hfits : s.Fits fuel slot) (world : List Item) :
    ∃ record, Records order types skips s fuel ⟨slot, 0, true⟩ record ∧
      Showing.Heeds skips world (Rose.sweep joining [record]) ∧
      (Traverse.tour (.ofTypes types) (Traverse.keeper skips) order).Sweeps joining fuel [(slot, 0)]
        ⟨s, world⟩ (.ok () ⟨s, world ++ Showing.yielded (Rose.sweep joining [record])⟩) := by
  have hsize : Rose.sizes ([⟨slot, 0, true⟩].map (Prospect.outline s fuel)) ≤ fuel := by
    obtain ⟨tree, cells, hshows, -, -, hsize⟩ := hfits
    exact (hshows.size_outlineTo_le fuel 0).trans hsize
  obtain ⟨records, hrecords, hheeds, hsweeps⟩ := sweepsAll horder joining fuel [⟨slot, 0, true⟩]
    world (List.forall_mem_singleton.mpr hfits) hsize
  cases hrecords with
  | cons hrecord hnone =>
      cases hnone
      exact ⟨_, hrecord, hheeds, hsweeps⟩

theorem visit_selects (order : Order) (hfits : s.Fits fuel slot) :
    Walk.Selects skips s
      (match order with
        | .preOrder | .postOrder =>
          (Traverse.tour (.ofTypes types) (Traverse.keeper skips) order).depthFirst fuel slot 0
        | .breadthFirst => (Traverse.tour (.ofTypes types) (Traverse.keeper skips) order).breadthFirst
            fuel [(slot, 0)])
      fun listing => ∃ record, Records order types skips s fuel ⟨slot, 0, true⟩ record ∧
        listing = record.listing order := by
  cases order with
  | preOrder =>
      intro world
      obtain ⟨record, hrecord, hheeds, hsweeps⟩ :=
        sweep_selects types (show Order.preOrder ≠ .postOrder by decide) .before hfits world
      rw [Rose.sweep_before, List.flatMap_singleton] at hheeds hsweeps
      exact ⟨_, ⟨record, hrecord, rfl⟩, hheeds, hsweeps.depthFirst fun _ _ _ => rfl⟩
  | postOrder => exact postOrder_selects fuel 0 hfits
  | breadthFirst =>
      intro world
      obtain ⟨record, hrecord, hheeds, hsweeps⟩ :=
        sweep_selects types (show Order.breadthFirst ≠ .postOrder by decide) .behind hfits world
      exact ⟨_, ⟨record, hrecord, rfl⟩, hheeds, hsweeps.breadthFirst⟩

variable {t : Tree} {root : Value} {cells : List Cell}

theorem items_recorded (h : s.Shows t root cells) (hvalid : t.isValid = true)
    (hfuel : t.size ≤ fuel) (order : Order) (types : Option (List Tree))
    (skips : List Item → Item → Bool) :
    ∃ records : List (Rose Showing),
      records.map (Rose.map Showing.stand) = s.outlinesTo t.size root ∧
      (∀ record ∈ records, record.Selected order types skips s True) ∧
      Showing.Heeds skips [] (records.flatMap (Rose.listing order)) ∧
      Traverse.items fuel order (.ofTypes types) skips root s =
        (Showing.yielded (records.flatMap (Rose.listing order)), none) := by
  have hextends := Store.newArray_extends [root] s
  have hvisits : Walk.Selects skips (Store.newArray [root] s).2
      ((Traverse.tour (.ofTypes types) (Traverse.keeper skips) order).run order fuel
        (s.topSlots root))
      fun listing => ∃ records, List.Forall₂ (fun slot record =>
            record.map Showing.stand = s.outlineTo t.size (slot.stand 0) ∧
            record.Selected order types skips s True) (s.topSlots root) records ∧
        listing = records.flatMap (Rose.listing order) := by
    refine .forM fun slot hslot => ?_
    have hfits := Store.topSlots_fits h hvalid slot hslot
    refine (visit_selects order ((hfits.mono hfuel).extended hextends)).mono
      fun listing hlisting => ?_
    obtain ⟨record, hrecord, rfl⟩ := hlisting
    exact ⟨record, ⟨hrecord.outline.trans (hfits.outlineTo_frame hextends hfuel 0),
      hrecord.selected.congr (by simp) fun _ => .rfl⟩, rfl⟩
  obtain ⟨listing, ⟨records, hrecords, rfl⟩, hheeds, hrun⟩ := hvisits []
  refine ⟨records, ?_, fun record hrecord => ?_, hheeds, ?_⟩
  · rw [← Store.map_topSlots_outlineTo h hvalid]
    exact (map_eq_of_forall₂ hrecords fun _ _ hrecord => hrecord.1.symm).symm
  · obtain ⟨slot, -, hselected⟩ := exists_of_forall₂ hrecords.flip record hrecord
    exact hselected.2
  · have htraverse : traverse fuel order (.ofTypes types) (Traverse.keeper skips) root ⟨s, []⟩ =
        (Traverse.tour (.ofTypes types) (Traverse.keeper skips) order).run order fuel
          (s.topSlots root) ⟨(Store.newArray [root] s).2, []⟩ := rfl
    rw [Traverse.items, htraverse, hrun]
    rfl

theorem map_flatMap_listing (order : Order) (f : α → β) (roses : List (Rose α)) :
    (roses.flatMap (Rose.listing order)).map f =
      (roses.map (Rose.map f)).flatMap (Rose.listing order) := by
  rw [List.map_flatMap, List.flatMap_map]
  exact List.flatMap_congr fun rose _ => rose.map_listing order f

open Classical in
/-- Where nothing keeps the walk away, the items are those that pass the filter. -/
theorem yielded_of_free {records : List (Rose Showing)}
    (h : ∀ record ∈ records, record.Selected order types skips s True)
    (hfree : order = .postOrder ∨ ∀ before item, skips before item = false) :
    Showing.yielded (records.flatMap (Rose.listing order)) =
      (((records.map (Rose.map Showing.stand)).flatMap (Rose.listing order)).filter fun stand =>
        TypeFilter.Passes types s stand.node).map Stand.item := by
  have hpairs : records.map (Rose.map fun showing => (showing.stand, showing.shown = true)) =
      (records.map (Rose.map Showing.stand)).map
        (Rose.map fun stand => (stand, TypeFilter.Passes types s stand.node)) := by
    rw [List.map_map]
    exact List.map_congr_left fun record hrecord => (h record hrecord).map_shown hfree
  have hlisted := congrArg (List.flatMap (Rose.listing order)) hpairs
  rw [← map_flatMap_listing, ← map_flatMap_listing] at hlisted
  have hkept := congrArg (fun pairs => (pairs.filter fun pair => pair.2).map fun pair =>
    pair.1.item) hlisted
  simp only [List.filter_map, List.map_map, Function.comp_def, Bool.decide_eq_true] at hkept
  exact hkept

theorem items_all (h : s.Shows t root cells) (hvalid : t.isValid = true) (hfuel : t.size ≤ fuel)
    (order : Order) :
    Traverse.items fuel order .all (fun _ _ => false) root s =
      (((s.outlinesTo t.size root).flatMap (Rose.listing order)).map Stand.item, none) := by
  obtain ⟨records, houtlines, hselected, -, hitems⟩ :=
    items_recorded h hvalid hfuel order none fun _ _ => false
  rw [yielded_of_free hselected (.inr fun _ _ => rfl), houtlines] at hitems
  simpa [TypeFilter.Passes, TypeFilter.ofTypes] using hitems

/-- The items of a traversal are those of the traversal that shows all, in the same order, at the
positions that pass the filter and have no node above them that was shown and skipped. -/
theorem traverse_selects (h : s.Shows t root cells) (hvalid : t.isValid = true)
    (hfuel : t.size ≤ fuel) (order : Order) (types : Option (List Tree))
    (skips : List Item → Item → Bool) :
    (∃ records : List (Rose Showing),
      records.map (Rose.map Showing.stand) = s.outlinesTo t.size root ∧
      Traverse.items fuel order .all (fun _ _ => false) root s =
        ((records.flatMap (Rose.listing order)).map fun showing => showing.stand.item, none) ∧
      Traverse.items fuel order (.ofTypes types) skips root s =
        (((records.flatMap (Rose.listing order)).filter (·.shown)).map fun showing =>
          showing.stand.item, none) ∧
      (∀ record ∈ records, ∀ above showing, record.Holds above showing →
        (showing.shown = true ↔ TypeFilter.Passes types s showing.stand.node ∧
          (order = .postOrder ∨
            ∀ other ∈ above, ¬ (other.shown = true ∧ other.skipped = true)))) ∧
      Showing.Heeds skips [] (records.flatMap (Rose.listing order))) ∧
    (order = .postOrder → ∀ others, Traverse.items fuel order (.ofTypes types) skips root s =
      Traverse.items fuel order (.ofTypes types) others root s) := by
  obtain ⟨records, houtlines, hselected, hheeds, hitems⟩ :=
    items_recorded h hvalid hfuel order types skips
  refine ⟨⟨records, houtlines, ?_, hitems, ?_, hheeds⟩, ?_⟩
  · rw [items_all h hvalid hfuel, ← houtlines, ← map_flatMap_listing, List.map_map]
    rfl
  · intro record hrecord above showing hholds
    rw [(hselected record hrecord).holds hholds, true_and, and_comm]
    refine and_congr_right' ?_
    by_cases horder : order = .postOrder
    · simp [Showing.Bars, horder]
    · simp [Showing.Bars, horder]
  · intro horder others
    obtain ⟨later, hlater, hall, -, hlaterItems⟩ :=
      items_recorded h hvalid hfuel order types others
    rw [hitems, hlaterItems, yielded_of_free hselected (.inl horder),
      yielded_of_free hall (.inl horder), houtlines, hlater]

def nursery : Tree :=
  .object [("type", .text "bed"), ("children", .array [
    .object [("type", .text "rose"), ("children", .object [("type", .text "thorn")])],
    .array [.object [("type", .text "thorn"), ("children", .object [("type", .text "rose")])]],
    .int 7])]

theorem traverse_selects_nursery :
    let laid := Store.load nursery {}
    let types := some [Tree.text "thorn", .text "rose"]
    let skips := fun (before : List Item) (_ : Item) => before.isEmpty
    (∃ cells, laid.2.Shows nursery laid.1 cells) ∧ nursery.isValid = true ∧ nursery.size ≤ 30 ∧
      (Traverse.items 30 .breadthFirst (.ofTypes types) skips laid.1 laid.2).1.length = 3 ∧
      (Traverse.items 30 .postOrder (.ofTypes types) skips laid.1 laid.2).1.length = 4 ∧
      (∃ records : List (Rose Showing),
        records.map (Rose.map Showing.stand) = laid.2.outlinesTo nursery.size laid.1 ∧
        Traverse.items 30 .breadthFirst (.ofTypes types) skips laid.1 laid.2 =
          (Showing.yielded (records.flatMap (Rose.listing .breadthFirst)), none)) := by
  intro laid types skips
  obtain ⟨-, cells, hshows, -⟩ := Store.load_shows nursery {}
  have hvalid : nursery.isValid = true := by decide
  have hsize : nursery.size ≤ 30 := by decide
  obtain ⟨⟨records, houtlines, -, hitems, -⟩, -⟩ :=
    traverse_selects hshows hvalid hsize .breadthFirst types skips
  exact ⟨⟨cells, hshows⟩, hvalid, hsize, by decide +kernel, by decide +kernel, records, houtlines,
    hitems⟩

end ViewTree
