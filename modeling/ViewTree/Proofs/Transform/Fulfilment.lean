import ViewTree.Proofs.Transform.Bearing

namespace ViewTree

open Store (Cell Plot)
open Errand (ground places)

namespace Store

/-- All of some visits have been made, and nothing else has changed. -/
structure Fulfils (s : Store) (rules : Rules) (errands : List Errand) (after : Store) : Prop where
  rewrites : s.Rewrites (places errands) (ground errands) after
  became : ∀ errand ∈ errands, s.Became rules errand.type errand.depth errand.cells after
    errand.slot.place errand.tree errand.slot.index

variable {s middle after : Store} {rules : Rules} {errand : Errand}
  {errands others rest below : List Errand}

theorem Became.earlier {type : Option String} {depth index : Nat} {cells : List Cell}
    {place : Place} {t : Tree} (h : middle.Became rules type depth cells after place t index)
    (hgrows : s.Grows middle) : s.Became rules type depth cells after place t index := by
  obtain ⟨value, result, hresult, hat, hmade⟩ := h
  exact ⟨value, result, hresult, hat, hmade.earlier hgrows⟩

namespace Fulfils

theorem nil (s : Store) (rules : Rules) : s.Fulfils rules [] s :=
  ⟨(ChangesOnly.refl s []).rewrites [], by simp⟩

theorem perm (h : s.Fulfils rules errands after) (hperm : errands.Perm others) :
    s.Fulfils rules others after where
  rewrites := h.rewrites.mono (fun _ => (hperm.map _).mem_iff.mp)
    fun _ => (hperm.flatMap_right _).mem_iff.mp
  became := fun errand herrand => h.became errand (hperm.mem_iff.mpr herrand)

theorem earlier (h : middle.Fulfils rules errands after) (hextends : s.Extends middle) :
    s.Fulfils rules errands after where
  rewrites := ((hextends.changesOnly (ground errands)).rewrites (places errands)).trans h.rewrites
    (fun _ => Or.inl) fun _ => Or.inl
  became := fun errand herrand => (h.became errand herrand).earlier hextends.grows

end Fulfils

theorem Placed.rewrites {place : Place} {cells : List Cell} {result : Tree}
    (h : s.Placed place cells result after) (hchild : place.IsChild) :
    s.Rewrites [place] cells after := by
  obtain ⟨value, hchanges, -⟩ := h
  have hwrite : s.Rewrites [place] cells (s.write place value) :=
    (write_rewrites hchild s value).mono (fun _ => id) (by simp)
  exact hwrite.trans (hchanges.rewrites []) (by simp) fun _ => Or.inl

theorem Placed.at? {place : Place} {cells : List Cell} {result : Tree} {old : Value}
    (h : s.Placed place cells result after) (hat : s.at? place = some old)
    (hapart : place.cell ∉ cells) :
    ∃ value, after.at? place = some value ∧ s.MadeOf cells after value result := by
  obtain ⟨value, hchanges, hmade⟩ := h
  have hwritten := at?_write_self hat value
  exact ⟨value, (hchanges.at? (contains_of_at? hwritten) hapart).trans hwritten, hmade⟩

theorem Fulfils.cons (hposted : s.Posted (errand :: rest)) {result : Tree}
    (hplaced : s.Placed errand.slot.place errand.cells result middle)
    (hresult : errand.revision rules = .ok result) (hrest : middle.Fulfils rules rest after) :
    s.Fulfils rules (errand :: rest) after := by
  have hheld := hposted.held List.mem_cons_self
  have hchild := hposted.child errand List.mem_cons_self
  have hself := hposted.apart errand List.mem_cons_self
  have hnodup := hposted.nodup
  rw [Errand.ground_cons] at hself hnodup
  have hdisjoint := (List.nodup_append.mp hnodup).2.2
  have hrewrites := hplaced.rewrites hchild
  have hothers := hposted.sublist (List.sublist_cons_self errand rest)
  refine ⟨?_, List.forall_mem_cons.mpr ⟨?_, fun other hother => ?_⟩⟩
  · have hfirst : s.Rewrites (places (errand :: rest)) (ground (errand :: rest)) middle :=
      hrewrites.mono (by simp [places]) (Errand.mem_ground List.mem_cons_self)
    exact hfirst.trans hrest.rewrites (fun _ hplace => .inl (List.mem_cons_of_mem _ hplace))
      fun _ hcell => .inl (List.mem_append_right _ hcell)
  · obtain ⟨value, hat, parts, hshows, hparts⟩ := hplaced.at? hheld.place hheld.apart
    refine ⟨value, result, hresult, ?_, parts, ?_, hparts⟩
    · refine (hrest.rewrites.at? hchild (contains_of_at? hat) ?_ ?_).trans hat
      · exact fun hmem => hself (List.mem_append_right _ hmem)
      · exact (List.nodup_cons.mp hposted.distinct).1
    · refine hrest.rewrites.shows hshows (fun cell hcell hmem => ?_) fun place hplace hcell => ?_
      · obtain ⟨other, hother, hcells⟩ := List.mem_flatMap.mp hmem
        exact (hparts cell hcell).elim (fun hmine => hdisjoint cell hmine cell hmem rfl)
          fun hnew => hnew ((hothers.shows other hother).contains cell hcells)
      · obtain ⟨other, hother, rfl⟩ := List.mem_map.mp hplace
        refine (hparts _ hcell).elim (fun hmine => ?_)
          fun hnew => hnew (contains_of_at? (hothers.holds other hother))
        exact hposted.apart other (List.mem_cons_of_mem _ hother) (List.mem_append_left _ hmine)
  · exact (hrest.became other hother).earlier hrewrites.grows

/-- The visits that a node bears are made with the others; so its own is. -/
theorem Bears.fulfils (h : s.Bears errand below) (hposted : s.Posted (errand :: rest))
    (hrevision : errand.revision rules =
      (errand.tree.reviseBelow rules.visit errand.depth).outcome ())
    (hdone : s.Fulfils rules (rest ++ below) after) : s.Fulfils rules (errand :: rest) after := by
  have hheld := hposted.held List.mem_cons_self
  have hchild := hposted.child errand List.mem_cons_self
  have hself := hposted.apart errand List.mem_cons_self
  have hnodup := hposted.nodup
  rw [Errand.ground_cons] at hself hnodup
  obtain ⟨hcells, -, hdisjoint⟩ := List.nodup_append.mp hnodup
  have hplaces : ∀ child ∈ below, child.slot.place.cell ∈ errand.cells := fun child hmem =>
    (h.place_mem hmem hcells).1
  have hwritten : ∀ place ∈ places (rest ++ below), place ∈ places rest ∨ place ∈ places below := by
    intro place hplace
    rw [places, List.map_append] at hplace
    exact List.mem_append.mp hplace
  have hchanged : ∀ cell ∈ ground (rest ++ below), cell ∈ ground rest ∨ cell ∈ ground below := by
    intro cell hcell
    rw [Errand.ground_append] at hcell
    exact List.mem_append.mp hcell
  refine ⟨?_, List.forall_mem_cons.mpr ⟨?_, fun other hother => ?_⟩⟩
  · have hsame := ((ChangesOnly.refl s (ground (errand :: rest))).rewrites (places (errand :: rest)))
    refine hsame.trans hdone.rewrites (fun place hplace => ?_) fun cell hcell => .inl ?_
    · rcases hwritten place hplace with hmem | hmem
      · exact .inl (List.mem_cons_of_mem _ hmem)
      · obtain ⟨child, hchild, rfl⟩ := List.mem_map.mp hmem
        exact .inr (.inl (List.mem_append_left _ (hplaces child hchild)))
    · exact (hchanged cell hcell).elim (List.mem_append_right _)
        fun hmem => List.mem_append_left _ (h.ground_sublist.subset hmem)
  · obtain ⟨result, hresult, hmade⟩ := h.rebuilt hcells hdone.rewrites
      (fun place hplace hcell => (hwritten place hplace).resolve_left fun hmem => by
        obtain ⟨other, hother, rfl⟩ := List.mem_map.mp hmem
        exact hposted.apart other (List.mem_cons_of_mem _ hother) (List.mem_append_left _ hcell))
      (fun cell hcell hmine => (hchanged cell hcell).resolve_left fun hmem =>
        hdisjoint cell hmine cell hmem rfl)
      fun child hmem => hdone.became child (List.mem_append_right _ hmem)
    refine ⟨errand.slot.node, result, hrevision.trans hresult, ?_, hmade⟩
    refine (hdone.rewrites.at? hchild (contains_of_at? hheld.place) (fun hcell => ?_)
      fun hplace => ?_).trans hheld.place
    · refine hself ((hchanged _ hcell).elim (List.mem_append_right _) fun hmem => ?_)
      exact List.mem_append_left _ (h.ground_sublist.subset hmem)
    · rcases hwritten _ hplace with hmem | hmem
      · exact (List.nodup_cons.mp hposted.distinct).1 hmem
      · obtain ⟨child, hchild, heq⟩ := List.mem_map.mp hmem
        exact hheld.apart (heq ▸ hplaces child hchild)
  · exact hdone.became other (List.mem_append_left _ hother)

end Store

def Errand.reach (rules : Rules) (s : Store) (errand : Errand) : List Stand :=
  rules.reachTo s errand.cells.length errand.stand

section

variable {s middle after : Store} {rules : Rules} {errand : Errand}
  {errands others rest below : List Errand} {notices : List Notice}
  {result : EStateM.Result Failure (Session (Watched σ)) PUnit}

theorem Errand.view_eq (h : s.Posted errands) (herrand : errand ∈ errands) :
    errand.stand.view s = errand.tree.atFirst errand.type errand.depth errand.slot.index := by
  have hshows : s.Shows errand.tree errand.stand.node errand.cells := h.shows errand herrand
  exact Stand.view_eq hshows (h.named errand herrand)

theorem Errand.view_eq_of_posted (h : s.Posted errands) (hafter : after.Posted errands)
    (herrand : errand ∈ errands) : errand.stand.view after = errand.stand.view s :=
  (view_eq hafter herrand).trans (view_eq h herrand).symm

theorem Errand.revision_eq (rules : Rules) (harray : errand.tree.isArray = false) :
    errand.revision rules =
      match rules.verdict (errand.tree.atFirst errand.type errand.depth errand.slot.index) with
      | .error failure => .error failure
      | .ok (.replace result) => .ok result
      | .ok .keep => .ok errand.tree
      | .ok .descend => (errand.tree.reviseBelow rules.visit errand.depth).outcome () :=
  Rules.revision_eq harray

theorem Errand.reach_of_ne_descend (h : rules.verdict (errand.stand.view s) ≠ .ok .descend) :
    errand.reach rules s = [errand.stand] := by
  rw [reach]
  cases errand.cells.length with
  | zero => rfl
  | succ level =>
      rw [Rules.reachTo]
      split
      · next hdescend => exact absurd hdescend h
      · rfl

theorem Store.Posted.reach_frame (h : s.Posted errands) (hafter : after.Posted errands)
    (hgrows : s.Grows after) (hagrees : Store.AgreesOn (· ∈ ground errands) s after) :
    errands.flatMap (Errand.reach rules after) = errands.flatMap (Errand.reach rules s) := by
  refine List.flatMap_congr fun errand herrand => ?_
  have hshows : s.Shows errand.tree errand.stand.node errand.cells := h.shows errand herrand
  exact Rules.reachTo_frame hshows (h.named errand herrand) (hafter.named errand herrand) hgrows
    (hagrees.mono (Errand.mem_ground herrand)) (Nat.le_refl _) (Nat.le_refl _)

theorem Store.Bears.reach (h : s.Bears errand below) (hnodup : errand.cells.Nodup)
    (hverdict : rules.verdict (errand.stand.view s) = .ok .descend) :
    errand.reach rules s = errand.stand :: below.flatMap (Errand.reach rules s) := by
  have hposted := h.each_posted hnodup
  cases h with
  | @node slot type depth trees ref rest parts name plots node has members named slots children laid
      member within =>
      show Rules.reachTo rules s (rest.length + 1) (slot.stand depth) = _
      have hview : rules.verdict ((slot.stand depth).view s) = .ok .descend := hverdict
      have hslots : s.childSlots (slot.stand depth).node = plots.map Plot.slot := by
        rw [Slot.stand, node, slots]
      rw [Rules.reachTo, hview]
      simp only [hslots, Errand.each, List.flatMap_map]
      refine congrArg _ (List.flatMap_congr fun plot hplot => ?_)
      have hchild := List.mem_map_of_mem
        (f := fun plot : Plot => (⟨plot, some name, depth + 1⟩ : Errand)) hplot
      have hlength := ((Store.sublist_area hplot).trans (laid.within.trans within)).length_le
      have hnamed := hposted.named _ hchild
      exact Rules.reachTo_frame (hposted.shows _ hchild) hnamed hnamed (.refl s) (.refl _ s)
        (Nat.le_refl _) hlength

/-- A sweep ends with all visits made and each node in reach noted once, or it fails over a node that
comes to nothing by the rules. -/
def Store.Ended (s : Store) (rules : Rules) (errands : List Errand) (notices : List Notice) :
    EStateM.Result Failure (Session (Watched σ)) PUnit → Prop
  | .ok _ after => s.Fulfils rules errands after.store ∧
    (entries after.world.1).Perm (entries notices ++ errands.flatMap (Errand.reach rules s))
  | .error _ _ => ∃ errand ∈ errands, ∃ failure, errand.revision rules = .error failure

theorem Store.Ended.perm (h : s.Ended rules errands notices result)
    (hperm : errands.Perm others) : s.Ended rules others notices result := by
  cases result with
  | ok _ after => exact ⟨h.1.perm hperm, h.2.trans ((hperm.flatMap_right _).append_left _)⟩
  | error failure after =>
      obtain ⟨errand, herrand, hfailure⟩ := h
      exact ⟨errand, hperm.mem_iff.mp herrand, hfailure⟩

theorem Store.Ended.cons (hposted : s.Posted (errand :: rest)) {tree : Tree}
    (hplaced : s.Placed errand.slot.place errand.cells tree middle)
    (hrevision : errand.revision rules = .ok tree)
    (hreach : errand.reach rules s = [errand.stand]) {noted : List Notice}
    (hnoted : entries noted = entries notices ++ [errand.stand])
    (h : middle.Ended rules rest noted result) : s.Ended rules (errand :: rest) notices result := by
  cases result with
  | error failure after =>
      obtain ⟨other, hother, hfailure⟩ := h
      exact ⟨other, List.mem_cons_of_mem _ hother, hfailure⟩
  | ok _ after =>
      obtain ⟨hdone, hlog⟩ := h
      have hrewrites := hplaced.rewrites (hposted.child errand List.mem_cons_self)
      have hmiddle := hposted.rewritten (by simp) hrewrites
      have hrest := hposted.sublist (List.sublist_cons_self errand rest)
      have hself := hposted.apart errand List.mem_cons_self
      have hnodup := hposted.nodup
      rw [Errand.ground_cons] at hself hnodup
      have hagrees : AgreesOn (· ∈ ground rest) s middle := by
        refine hrewrites.agreesOn (fun cell hcell => ?_) (fun cell hcell hmem => ?_) ?_
        · obtain ⟨other, hother, hcell⟩ := List.mem_flatMap.mp hcell
          exact (hrest.shows other hother).contains cell hcell
        · exact (List.nodup_append.mp hnodup).2.2 cell hmem cell hcell rfl
        · exact List.forall_mem_singleton.mpr fun hmem => hself (List.mem_append_right _ hmem)
      refine ⟨.cons hposted hplaced hrevision hdone, ?_⟩
      rw [hnoted, hrest.reach_frame hmiddle hrewrites.grows hagrees] at hlog
      rw [List.flatMap_cons, hreach, ← List.append_assoc]
      exact hlog

theorem Store.Ended.borne (hposted : s.Posted (errand :: rest)) (hextends : s.Extends middle)
    (h : middle.Bears errand below) (hverdict : rules.verdict (errand.stand.view s) = .ok .descend)
    (hrevision : errand.revision rules =
      (errand.tree.reviseBelow rules.visit errand.depth).outcome ()) {noted : List Notice}
    (hnoted : entries noted = entries notices ++ [errand.stand])
    (hended : middle.Ended rules (rest ++ below) noted result) :
    s.Ended rules (errand :: rest) notices result := by
  have hmiddle := hposted.extended hextends
  cases result with
  | error failure after =>
      obtain ⟨other, hother, failure, hfailure⟩ := hended
      rcases List.mem_append.mp hother with hmem | hmem
      · exact ⟨other, List.mem_cons_of_mem _ hmem, failure, hfailure⟩
      · obtain ⟨cause, hcause⟩ := h.reviseBelow_error hmem hfailure
        exact ⟨errand, List.mem_cons_self, cause, hrevision.trans hcause⟩
  | ok _ after =>
      obtain ⟨hdone, hlog⟩ := hended
      have hself := List.mem_cons_self (a := errand) (l := rest)
      refine ⟨(h.fulfils hmiddle hrevision hdone).earlier hextends, ?_⟩
      have hnodup := hmiddle.nodup
      rw [Errand.ground_cons] at hnodup
      rw [← Errand.view_eq_of_posted hposted hmiddle hself] at hverdict
      have hreach := h.reach (List.nodup_append.mp hnodup).1 hverdict
      have hagrees : AgreesOn (· ∈ ground (errand :: rest)) s middle := by
        refine hextends.agrees.mono fun cell hcell => ?_
        obtain ⟨other, hother, hcell⟩ := List.mem_flatMap.mp hcell
        exact (hposted.shows other hother).contains cell hcell
      rw [← hposted.reach_frame hmiddle hextends.grows hagrees, List.flatMap_cons, hreach]
      rw [hnoted, List.flatMap_append] at hlog
      refine hlog.trans ?_
      rw [List.append_assoc, List.singleton_append]
      exact (List.perm_append_comm.cons errand.stand).append_left _

end

/-- A sweep over nodes that are to be visited ends with all visits made, or fails by the rules. -/
def SweepsTo (rules : Rules) (visitors : List (Visitor (Watched σ))) (prune : Prune (Watched σ))
    (joining : Tour.Joining) (visits : Nat) (s : Store) (errands : List Errand)
    (session : Session (Watched σ)) : Prop :=
  ∃ result, (Transform.tour visitors prune .preOrder).Sweeps joining visits
      (errands.map Errand.entry) session result ∧
    s.Ended rules errands session.world.1 result

theorem Errand.sizes_join (joining : Tour.Joining) (errands others : List Errand) :
    Tree.sizes ((joining.join errands others).map fun errand => errand.tree) =
      Tree.sizes (errands.map fun errand => errand.tree) +
        Tree.sizes (others.map fun errand => errand.tree) := by
  cases joining with
  | behind => rw [Tour.Joining.join, List.map_append, Tree.sizes_append]
  | before => rw [Tour.Joining.join, List.map_append, Tree.sizes_append, Nat.add_comm]

section

variable {rules : Rules} {visitors : List (Visitor (Watched σ))} {prune : Prune (Watched σ)}
  {joining : Tour.Joining} {visits : Nat} {session middle : Session (Watched σ)} {errand : Errand}
  {rest below : List Errand}

theorem SweepsTo.settled (hposted : session.store.Posted (errand :: rest))
    (hstep : (Transform.tour visitors prune .preOrder).step errand.slot errand.depth session =
      .ok [] middle)
    (hnoted : entries middle.world.1 = entries session.world.1 ++ [errand.stand]) {tree : Tree}
    (hplaced : session.store.Placed errand.slot.place errand.cells tree middle.store)
    (hrevision : errand.revision rules = .ok tree)
    (hverdict : rules.verdict (errand.stand.view session.store) ≠ .ok .descend)
    (h : SweepsTo rules visitors prune joining visits middle.store rest middle) :
    SweepsTo rules visitors prune joining (visits + 1) session.store (errand :: rest) session := by
  obtain ⟨result, hsweeps, hended⟩ := h
  have hreach := Errand.reach_of_ne_descend hverdict
  refine ⟨result, .next hstep ?_, .cons hposted hplaced hrevision hreach hnoted hended⟩
  cases joining with
  | behind => rwa [Tour.Joining.join, List.append_nil]
  | before => exact hsweeps

theorem SweepsTo.borne (hposted : session.store.Posted (errand :: rest))
    (hextends : session.store.Extends middle.store)
    (hstep : (Transform.tour visitors prune .preOrder).step errand.slot errand.depth session =
      .ok (below.map Errand.entry) middle)
    (hnoted : entries middle.world.1 = entries session.world.1 ++ [errand.stand])
    (hbears : middle.store.Bears errand below)
    (hrevision : errand.revision rules =
      (errand.tree.reviseBelow rules.visit errand.depth).outcome ())
    (hverdict : rules.verdict (errand.stand.view session.store) = .ok .descend)
    (h : SweepsTo rules visitors prune joining visits middle.store (joining.join rest below) middle) :
    SweepsTo rules visitors prune joining (visits + 1) session.store (errand :: rest) session := by
  obtain ⟨result, hsweeps, hended⟩ := h
  rw [joining.map_join] at hsweeps
  exact ⟨result, .next hstep hsweeps, .borne hposted hextends hbears hverdict hrevision hnoted
    (hended.perm (joining.join_perm rest below))⟩

end

/-- Wherever the slots that are listed join those that wait, a sweep ends alike. -/
theorem sweeps {rules : Rules} {visitors : List (Visitor (Watched σ))} {prune : Prune (Watched σ)}
    (hgoverns : rules.Governs visitors prune) (joining : Tour.Joining) {visits : Nat} {s : Store}
    {errands : List Errand} (hposted : s.Posted errands)
    (hvisits : Tree.sizes (errands.map fun errand => errand.tree) ≤ visits)
    (notices : List Notice) (world : σ) :
    SweepsTo rules visitors prune joining visits s errands ⟨s, notices, world⟩ := by
  induction visits generalizing s errands notices world with
  | zero =>
      obtain rfl : errands = [] := by
        cases errands with
        | nil => rfl
        | cons errand rest =>
            have := errand.tree.size_pos
            simp only [List.map_cons, Tree.sizes] at hvisits
            omega
      exact ⟨_, .done 0 _, .nil s rules, by simp⟩
  | succ visits ih =>
      cases errands with
      | nil => exact ⟨_, .done _ _, .nil s rules, by simp⟩
      | cons errand rest =>
          have hself := List.mem_cons_self (a := errand) (l := rest)
          have hheld := hposted.held hself
          have hview := Errand.view_eq hposted hself
          have hsize := errand.tree.size_pos
          simp only [List.map_cons, Tree.sizes] at hvisits
          have hrevision := errand.revision_eq rules (hposted.isArray hself)
          have hstep := Rules.step_yields hgoverns hheld errand.depth notices world
          unfold Walk.Yields at hstep
          split at hstep
          · next listed middle verdict hvisit hverdict =>
              obtain ⟨hvisited, hnoted⟩ := hstep
              rw [hverdict] at hrevision
              rw [← hview] at hverdict
              have hgoes : ∀ tree, s.Placed errand.slot.place errand.cells tree middle.store →
                  errand.revision rules = .ok tree → verdict ≠ .descend → listed = [] →
                  SweepsTo rules visitors prune joining (visits + 1) s (errand :: rest)
                    ⟨s, notices, world⟩ := by
                rintro tree hplaced hresult hother rfl
                have hrest := hposted.rewritten (by simp)
                  (hplaced.rewrites (hposted.child errand hself))
                refine .settled hposted hvisit hnoted hplaced hresult ?_
                  (ih hrest (by omega) middle.world.1 middle.world.2)
                rw [hverdict]
                exact fun heq => hother (Except.ok.inj heq)
              cases verdict with
              | replace tree => exact hgoes tree hvisited.2 hrevision (by simp) hvisited.1
              | keep =>
                  exact hgoes _ (hheld.placed_same hvisited.2) hrevision (by simp) hvisited.1
              | descend =>
                  obtain ⟨rfl, hextends⟩ := hvisited
                  have hmiddle := hposted.extended hextends
                  have hkind := Rules.structured_of_descend hverdict
                  rw [hview] at hkind
                  obtain ⟨below, hbears⟩ := hmiddle.bears hkind
                  have hlisted := hbears.listed
                  rw [hheld.shows.childSlots_extended hextends] at hlisted
                  rw [← hlisted] at hvisit
                  have hjoined := (hbears.posted hmiddle).perm (joining.join_perm rest below).symm
                  have hfewer := hbears.sizes_lt
                  have hroom : Tree.sizes ((joining.join rest below).map fun errand => errand.tree) ≤
                      visits := by
                    rw [Errand.sizes_join]
                    omega
                  exact .borne hposted hextends hvisit hnoted hbears hrevision hverdict
                    (ih hjoined hroom middle.world.1 middle.world.2)
          · next hvisit hverdict =>
              rw [hverdict] at hrevision
              exact ⟨_, .failed hvisit, errand, hself, _, hrevision⟩
          · exact hstep.elim

end ViewTree
