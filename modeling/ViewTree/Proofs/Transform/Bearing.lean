import ViewTree.Proofs.Store.Spreading
import ViewTree.Proofs.Transform.Errands

namespace ViewTree

open Store (Cell Plot)
open Errand (ground places)

namespace Rules

variable (rules : Rules)

theorem outcome_reviseBelow {trees : List (String × Tree)} {name : String}
    (hname : (Tree.object trees).nodeType? = some name) (depth : Nat) :
    ((Tree.object trees).reviseBelow rules.visit depth).outcome () =
      if (Tree.object trees).hasChildren then
        (fun children => .object (Members.put "children" children trees)) <$>
          rules.revision (some name) (depth + 1) ((Tree.object trees).member "children") 0
      else .ok (.object trees) := by
  have hstructured : (Tree.object trees).isStructured = true := by
    rw [Tree.isStructured, hname]
    rfl
  rw [Tree.reviseBelow_object, Tree.hasChildren, hstructured, Bool.true_and, hname, Tree.member]
  cases hlookup : trees.lookup "children" with
  | none => rfl
  | some item =>
      cases hnull : item.isNull with
      | true =>
          simp only [Option.getD_some, hnull]
          rfl
      | false =>
          simp only [Option.getD_some, hnull, Bool.not_false, Bool.false_eq_true, if_true, if_false]
          rw [Course.outcome_bind_unit, revision]
          rfl

end Rules

namespace Store

section

variable {s after : Store} {rules : Rules} {parent : Option ObjectRef} {lists : ArrayRef → Prop}
  {home : Cell} {parts inside changed : List Cell} {plots : List Plot} {written : List Place}
  (hrewrites : s.Rewrites written changed after)
  (hwritten : ∀ place ∈ written, place.cell ∈ inside → place ∈ (plots.map Plot.slot).map Slot.place)
  (hchanged : ∀ cell ∈ changed, cell ∈ inside → cell ∈ area plots)

include hrewrites hwritten hchanged

theorem Laid.at?_array (h : s.Laid parent lists home parts plots) (place : Place)
    (hchild : place.IsChild) (hinside : place.cell ∈ inside) (hapart : place.cell ∉ area plots)
    {ref : ArrayRef} (hat : s.at? place = some (.array ref)) :
    after.at? place = some (.array ref) := by
  have hcell : place.cell ∉ changed := fun hmem => hapart (hchanged _ hmem hinside)
  have hplace : place ∉ written := by
    intro hmem
    obtain ⟨slot, hslot, rfl⟩ := List.mem_map.mp (hwritten _ hmem hinside)
    obtain ⟨plot, hplot, rfl⟩ := List.mem_map.mp hslot
    have hnode := Option.some.inj ((h.holds plot hplot).symm.trans hat)
    exact h.nodes plot hplot ref hnode
  exact (hrewrites.at? hchild (contains_of_at? hat) hcell hplace).trans hat

/-- A value has become what it is to become once all plots that it expands to have. -/
theorem Laid.became {t : Tree} {value : Value} {index : Nat} {place : Place}
    (h : s.Laid parent (s.Lists value) home parts plots) (hshows : s.Shows t value parts)
    (hnodup : parts.Nodup) (hslots : s.expand ⟨value, parent, index, place⟩ = plots.map Plot.slot)
    (htrees : plots.map (fun plot => (plot.tree, plot.slot.index)) = t.spread index)
    (hat : s.at? place = some value) (hchild : place.IsChild) (hhome : place.cell ∈ inside)
    (hapart : place.cell ∉ area plots) (hparts : ∀ cell ∈ parts, cell ∈ inside)
    {type : Option String} {depth : Nat}
    (hbecame : ∀ plot ∈ plots, s.Became rules type depth plot.cells after plot.slot.place plot.tree
      plot.slot.index) : s.Became rules type depth parts after place t index := by
  have hlists : ∀ ref, s.Lists value ref → .array ref ∈ parts ∧ s.KeepsArrays after ref := by
    intro ref hlist
    have hmem := h.listed ref hlist
    have hfree := h.apart hnodup ref hlist
    have has := hshows.contains _ hmem
    refine ⟨hmem, hrewrites.grows.contains has, ?_, fun position other hitem => ?_⟩
    · exact hrewrites.lengths ref has fun hcell => hfree (hchanged _ hcell (hparts _ hmem))
    · exact h.at?_array hrewrites hwritten hchanged (.element ref position) trivial
        (hparts _ hmem) hfree hitem
  have hkept : ∀ ref, value = .array ref → after.at? place = some value := by
    intro ref href
    rw [href] at hat ⊢
    exact h.at?_array hrewrites hwritten hchanged place hchild hhome hapart hat
  have hpairs : ∀ pair ∈ (s.expand ⟨value, parent, index, place⟩).zip (t.spread index),
      s.Became rules type depth parts after pair.1.place pair.2.1 pair.2.2 := by
    intro pair hpair
    rw [hslots, ← htrees, List.zip_map'] at hpair
    obtain ⟨plot, hplot, rfl⟩ := List.mem_map.mp hpair
    obtain ⟨next, result, hresult, hnext, made, hmade, hcells⟩ := hbecame plot hplot
    have hwithin : ∀ cell ∈ plot.cells, cell ∈ parts := fun cell hcell =>
      h.within.subset (cells_subset_area hplot cell hcell)
    exact ⟨next, result, hresult, hnext, made, hmade, fun cell hcell =>
      (hcells cell hcell).imp_left (hwithin cell)⟩
  exact hshows.refill hlists hat hkept hpairs

end

/-- A structured node bears a visit to each of its children. -/
inductive Bears (s : Store) : Errand → List Errand → Prop
  | node {slot : Slot} {type : Option String} {depth : Nat} {trees : List (String × Tree)}
      {ref : ObjectRef} {rest parts : List Cell} {name : String} {plots : List Plot}
      (node : slot.node = .object ref) (has : s.Contains (.object ref))
      (members : s.ShowsMembers trees (s.members ref) rest)
      (named : (Tree.object trees).nodeType? = some name)
      (slots : s.childSlots (.object ref) = plots.map Plot.slot)
      (children : plots.map (fun plot => (plot.tree, plot.slot.index)) =
        (Tree.object trees).children)
      (laid : s.Laid (some ref) (s.Lists (s.member ref "children")) (.object ref) parts plots)
      (member : s.Shows ((Tree.object trees).member "children") (s.member ref "children") parts)
      (within : parts.Sublist rest) :
      Bears s ⟨⟨slot, .object trees, .object ref :: rest⟩, type, depth⟩
        (Errand.each (some name) (depth + 1) plots)

variable {s after : Store} {rules : Rules} {errand : Errand} {rest below : List Errand}

theorem Posted.bears (h : s.Posted (errand :: rest))
    (hkind : errand.tree.classify = .ok .structured) : ∃ below, s.Bears errand below := by
  obtain ⟨⟨slot, tree, cells⟩, type, depth⟩ := errand
  obtain ⟨trees, name, rfl, hname⟩ := Tree.eq_object_of_classify hkind
  have hshows := h.shows _ List.mem_cons_self
  obtain ⟨value, parent, index, place⟩ := slot
  cases hshows with
  | @object _ ref cells has members =>
      obtain ⟨plots, parts, hslots, htrees, hlaid, hmember, hparts⟩ := members.childPlots
      exact ⟨_, .node rfl has members hname hslots htrees hlaid hmember hparts⟩

namespace Bears

variable (h : s.Bears errand below)

include h

theorem listed : below.map Errand.entry =
    (s.childSlots errand.slot.node).map fun child => (child, errand.depth + 1) := by
  cases h with
  | node node has members named slots =>
      rw [node, slots, Errand.each, List.map_map, List.map_map]
      rfl

theorem sizes_lt : Tree.sizes (below.map fun errand => errand.tree) < errand.tree.size := by
  cases h with
  | @node _ _ _ trees _ _ _ _ plots node has members named slots children =>
      have htrees : (plots.map Plot.tree) = (Tree.object trees).children.map Prod.fst := by
        rw [← children, List.map_map]
        rfl
      rw [Errand.each, List.map_map]
      exact htrees ▸ (Tree.object trees).sizes_children_lt

theorem ground_sublist : (ground below).Sublist errand.cells := by
  cases h with
  | node _ _ _ _ _ _ laid _ within =>
      rw [Errand.ground_each]
      exact (laid.within.trans within).cons _

/-- The places to be written to lie in cells of the node, but not in those of its children. -/
theorem place_mem {child : Errand} (hchild : child ∈ below) (hnodup : errand.cells.Nodup) :
    child.slot.place.cell ∈ errand.cells ∧ child.slot.place.cell ∉ ground below := by
  cases h with
  | node _ _ _ _ _ _ laid _ within =>
      obtain ⟨hself, hrest⟩ := List.nodup_cons.mp hnodup
      obtain ⟨plot, hplot, rfl⟩ := List.mem_map.mp hchild
      rw [Errand.ground_each]
      rcases laid.places plot hplot with hcell | ⟨array, hlist, hcell⟩
      · rw [hcell]
        exact ⟨List.mem_cons_self, fun hmem =>
          hself (within.subset (laid.within.subset hmem))⟩
      · rw [hcell]
        exact ⟨List.mem_cons_of_mem _ (within.subset (laid.listed array hlist)),
          laid.apart (within.nodup hrest) array hlist⟩

theorem parent_mem {child : Errand} (hchild : child ∈ below) (hnodup : errand.cells.Nodup)
    {ref : ObjectRef} (href : child.slot.parent = some ref) :
    .object ref ∈ errand.cells ∧ .object ref ∉ ground below := by
  cases h with
  | node _ _ _ _ _ _ laid _ within =>
      obtain ⟨plot, hplot, rfl⟩ := List.mem_map.mp hchild
      obtain rfl := Option.some.inj ((laid.parents plot hplot).symm.trans href)
      rw [Errand.ground_each]
      exact ⟨List.mem_cons_self, fun hmem =>
        (List.nodup_cons.mp hnodup).1 (within.subset (laid.within.subset hmem))⟩

theorem distinct (hnodup : errand.cells.Nodup) : (places below).Nodup := by
  cases h with
  | @node _ _ _ _ ref _ _ _ _ _ _ members _ slots _ _ member within =>
      rw [Errand.places_each, ← slots, members.childSlots]
      split
      · obtain ⟨listed, refs, hspreads, hrefs⟩ := member.spreads (some ref) 0 (.member ref "children")
        have hparts := within.nodup (List.nodup_cons.mp hnodup).2
        rw [hspreads.expand_eq]
        exact (hspreads.places (hrefs.nodup hparts).of_map).1
      · exact List.nodup_nil

theorem each_posted (hnodup : errand.cells.Nodup) : s.Posted below := by
  have hdistinct := h.distinct hnodup
  have hplace : ∀ child ∈ below, child.slot.place.cell ∉ ground below := fun _ hchild =>
    (h.place_mem hchild hnodup).2
  have habove : ∀ child ∈ below, ∀ ref, child.slot.parent = some ref → .object ref ∉ ground below :=
    fun _ hchild _ href => (h.parent_mem hchild hnodup href).2
  have hground := hnodup.sublist h.ground_sublist
  cases h with
  | @node _ _ _ _ ref _ _ _ plots _ _ members named _ _ laid _ within =>
      refine ⟨?_, ?_, ?_, ?_, ?_, hplace, habove, hdistinct, hground⟩
      · exact List.forall_mem_map.mpr laid.shows
      · exact List.forall_mem_map.mpr laid.nodes
      · exact List.forall_mem_map.mpr laid.holds
      · exact List.forall_mem_map.mpr laid.child
      · refine List.forall_mem_map.mpr fun plot hplot => ?_
        rw [laid.parents plot hplot]
        exact members.named named

theorem posted (hposted : s.Posted (errand :: rest)) : s.Posted (rest ++ below) := by
  have hcells := hposted.nodup
  rw [Errand.ground_cons] at hcells
  obtain ⟨hself, -, hdisjoint⟩ := List.nodup_append.mp hcells
  have hrest := hposted.sublist (List.sublist_cons_self errand rest)
  have hbelow := h.each_posted hself
  have hground := h.ground_sublist
  have hwithin : ∀ cell ∈ ground (rest ++ below), cell ∈ ground (errand :: rest) := by
    intro cell hcell
    rw [Errand.ground_append] at hcell
    exact (List.mem_append.mp hcell).elim (fun hmem => List.mem_append_right _ hmem)
      fun hmem => List.mem_append_left _ (hground.subset hmem)
  have hapart : ∀ cell, cell ∈ errand.cells ∧ cell ∉ ground below →
      cell ∉ ground (rest ++ below) := by
    rintro cell ⟨hmine, hnot⟩ hmem
    rw [Errand.ground_append] at hmem
    exact (List.mem_append.mp hmem).elim (fun hother => hdisjoint cell hmine cell hother rfl) hnot
  refine ⟨?_, ?_, ?_, ?_, ?_, ?_, ?_, ?_, ?_⟩
  · exact List.forall_mem_append.mpr ⟨hrest.shows, hbelow.shows⟩
  · exact List.forall_mem_append.mpr ⟨hrest.nodes, hbelow.nodes⟩
  · exact List.forall_mem_append.mpr ⟨hrest.holds, hbelow.holds⟩
  · exact List.forall_mem_append.mpr ⟨hrest.child, hbelow.child⟩
  · exact List.forall_mem_append.mpr ⟨hrest.named, hbelow.named⟩
  · refine List.forall_mem_append.mpr ⟨fun other hother hmem => ?_, fun child hchild => ?_⟩
    · exact hposted.apart other (List.mem_cons_of_mem _ hother) (hwithin _ hmem)
    · exact hapart _ (h.place_mem hchild hself)
  · refine List.forall_mem_append.mpr ⟨fun other hother ref href hmem => ?_,
      fun child hchild ref href => ?_⟩
    · exact hposted.above other (List.mem_cons_of_mem _ hother) ref href (hwithin _ hmem)
    · exact hapart _ (h.parent_mem hchild hself href)
  · rw [places, List.map_append]
    refine List.nodup_append.mpr ⟨hrest.distinct, hbelow.distinct, ?_⟩
    rintro place hplace other hother rfl
    obtain ⟨child, hchild, rfl⟩ := List.mem_map.mp hother
    obtain ⟨waiting, hwaiting, heq⟩ := List.mem_map.mp hplace
    refine hposted.apart waiting (List.mem_cons_of_mem _ hwaiting) (List.mem_append_left _ ?_)
    rw [heq]
    exact (h.place_mem hchild hself).1
  · rw [Errand.ground_append]
    refine List.nodup_append.mpr ⟨hrest.nodup, hbelow.nodup, ?_⟩
    intro cell hcell other hother heq
    exact hdisjoint other (hground.subset hother) cell hcell heq.symm

theorem reviseBelow_error {child : Errand} (hchild : child ∈ below) {failure : Failure}
    (hrevision : child.revision rules = .error failure) :
    ∃ cause, (errand.tree.reviseBelow rules.visit errand.depth).outcome () = .error cause := by
  cases h with
  | @node _ _ depth trees _ _ _ name plots _ _ _ named _ children =>
      obtain ⟨plot, hplot, rfl⟩ := List.mem_map.mp hchild
      have hentry : (plot.tree, plot.slot.index) ∈ (Tree.object trees).children :=
        children ▸ List.mem_map_of_mem (f := fun plot : Plot => (plot.tree, plot.slot.index)) hplot
      rw [rules.outcome_reviseBelow named]
      rw [Tree.children] at hentry
      split at hentry
      · next hhas =>
          obtain ⟨cause, hcause⟩ := rules.revision_error (some name) (depth + 1) hentry hrevision
          exact ⟨cause, by rw [if_pos hhas, hcause]; rfl⟩
      · cases hentry

theorem rebuilt (hnodup : errand.cells.Nodup) {written : List Place} {changed : List Cell}
    (hrewrites : s.Rewrites written changed after)
    (hwritten : ∀ place ∈ written, place.cell ∈ errand.cells → place ∈ places below)
    (hchanged : ∀ cell ∈ changed, cell ∈ errand.cells → cell ∈ ground below)
    (hbecame : ∀ child ∈ below, s.Became rules child.type child.depth child.cells after
      child.slot.place child.tree child.slot.index) :
    ∃ result, (errand.tree.reviseBelow rules.visit errand.depth).outcome () = .ok result ∧
      s.MadeOf errand.cells after errand.slot.node result := by
  cases h with
  | @node slot _ depth trees ref rest parts name plots node has members named slots children laid
      member within =>
      obtain ⟨hself, hrest⟩ := List.nodup_cons.mp hnodup
      rw [Errand.places_each] at hwritten
      rw [Errand.ground_each] at hchanged
      have hparts : ∀ cell ∈ parts, cell ∈ Cell.object ref :: rest := fun cell hcell =>
        List.mem_cons_of_mem _ (within.subset hcell)
      have harea : ∀ cell ∈ area plots, cell ∈ parts := fun cell => (laid.within.subset ·)
      have hobject : Cell.object ref ∉ area plots := fun hmem =>
        hself (within.subset (harea _ hmem))
      rw [rules.outcome_reviseBelow named, node]
      cases hhas : (Tree.object trees).hasChildren with
      | false =>
          have hnone : plots = [] := by
            rw [members.childSlots, hhas] at slots
            exact List.map_eq_nil_iff.mp slots.symm
          subst hnone
          refine ⟨.object trees, rfl, .object ref :: rest, ?_, fun _ => Or.inl⟩
          refine hrewrites.shows (.object has members) (fun cell hcell hmem => ?_)
            fun place hplace hmem => ?_
          · exact List.not_mem_nil (hchanged cell hmem hcell)
          · exact List.not_mem_nil (hwritten place hplace hmem)
      | true =>
          obtain ⟨item, htree⟩ : ∃ item, trees.lookup "children" = some item := by
            refine Option.ne_none_iff_exists'.mp fun hnone => ?_
            rw [Tree.hasChildren, Tree.member, hnone] at hhas
            simp at hhas
          have hitem : (Tree.object trees).member "children" = item := by
            rw [Tree.member, htree, Option.getD_some]
          have hplace : s.at? (.member ref "children") = some (s.member ref "children") := by
            rcases members.lookup "children" with ⟨hnone, -⟩ | ⟨_, value, _, -, hvalue, -⟩
            · rw [hnone] at htree
              cases htree
            · rw [Store.at?, Store.member, hvalue, Option.getD_some]
          rw [members.childSlots, if_pos hhas] at slots
          rw [Tree.children, if_pos hhas] at children
          have hplots : ∀ plot ∈ plots, s.Became rules (some name) (depth + 1) plot.cells after
              plot.slot.place plot.tree plot.slot.index := fun plot hplot =>
            hbecame ⟨plot, some name, depth + 1⟩ (List.mem_map_of_mem hplot)
          obtain ⟨next, result, hresult, hnext, made, hshows, hmade⟩ :=
            laid.became hrewrites hwritten hchanged member (within.nodup hrest) slots children hplace
              rfl List.mem_cons_self hobject hparts hplots
          have hplaces : ∀ place ∈ written, place.cell ∈ rest → place.cell ∈ parts := by
            intro place hplace hcell
            obtain ⟨slot, hslot, rfl⟩ :=
              List.mem_map.mp (hwritten place hplace (List.mem_cons_of_mem _ hcell))
            obtain ⟨plot, hplot, rfl⟩ := List.mem_map.mp hslot
            rcases laid.places plot hplot with hhome | ⟨array, hlist, harray⟩
            · exact absurd (hhome ▸ hcell) hself
            · exact harray ▸ laid.listed array hlist
          obtain ⟨all, hall, hallCells⟩ := hrewrites.object has members hrest htree hplace
            (hitem ▸ member) (fun hmem => hobject (hchanged _ hmem List.mem_cons_self))
            (fun cell hcell hmem => harea _ (hchanged cell hmem (List.mem_cons_of_mem _ hcell)))
            hplaces hnext hshows
          refine ⟨_, ?_, _, hall, fun cell hcell => ?_⟩
          · rw [if_pos rfl, hresult]
            rfl
          · rcases List.mem_cons.mp hcell with rfl | hcell
            · exact .inl List.mem_cons_self
            · rcases hallCells cell hcell with hcell | hcell
              · exact .inl (List.mem_cons_of_mem _ hcell)
              · exact (hmade cell hcell).imp_left (hparts cell)

end Bears

end Store

end ViewTree
