import ViewTree.Proofs.Store.Nearness

namespace ViewTree

namespace Store

/-- A slot waits for its visit with all it holds, out of reach of what is going on at its parent. -/
structure Awaits (s : Store) (kept : Cell → Prop) (slot : Slot) (t : Tree) (cells : List Cell) :
    Prop where
  shows : s.Shows t slot.node cells
  nodup : cells.Nodup
  node : ∀ ref, slot.node ≠ .array ref
  child : slot.place.IsChild
  place : ¬ kept slot.place.cell
  apart : ∀ cell ∈ cells, ¬ kept cell
  secures : s.Secures (fun cell => kept cell ∨ cell ∈ cells) .null slot.parent

/-- Plots wait, each out of reach of what is going on at the others and at the parent. -/
structure AwaitsAll (s : Store) (kept : Cell → Prop) (parent : Option ObjectRef)
    (plots : List Plot) : Prop where
  shows : ∀ plot ∈ plots, s.Shows plot.tree plot.slot.node plot.cells
  nodup : (area plots).Nodup
  nodes : ∀ plot ∈ plots, ∀ ref, plot.slot.node ≠ .array ref
  child : ∀ plot ∈ plots, plot.slot.place.IsChild
  parents : ∀ plot ∈ plots, plot.slot.parent = parent
  places : ∀ plot ∈ plots, ¬ kept plot.slot.place.cell ∧ plot.slot.place.cell ∉ area plots
  apart : ∀ cell ∈ area plots, ¬ kept cell
  secures : s.Secures (fun cell => kept cell ∨ cell ∈ area plots) .null parent

variable {s after : Store} {kept : Cell → Prop} {parent : Option ObjectRef} {plot : Plot}
  {plots : List Plot}

theorem AwaitsAll.head (h : s.AwaitsAll kept parent (plot :: plots)) :
    s.Awaits (fun cell => kept cell ∨ cell ∈ area plots) plot.slot plot.tree plot.cells := by
  have hnodup := h.nodup
  have hapart := h.apart
  have hsecures := h.secures
  rw [area_cons] at hnodup hapart hsecures
  obtain ⟨hhead, -, hdisjoint⟩ := List.nodup_append.mp hnodup
  refine ⟨h.shows plot List.mem_cons_self, hhead, h.nodes plot List.mem_cons_self,
    h.child plot List.mem_cons_self, ?_, ?_, ?_⟩
  · obtain ⟨hkept, harea⟩ := h.places plot List.mem_cons_self
    intro hmem
    rcases hmem with hmem | hmem
    · exact hkept hmem
    · exact harea (List.mem_append_right _ hmem)
  · intro cell hcell hmem
    rcases hmem with hmem | hmem
    · exact hapart cell (List.mem_append_left _ hcell) hmem
    · exact hdisjoint cell hcell cell hmem rfl
  · rw [h.parents plot List.mem_cons_self]
    refine hsecures.mono fun cell hcell => ?_
    rcases hcell with (hcell | hcell) | hcell
    · exact .inl hcell
    · exact .inr (List.mem_append_right _ hcell)
    · exact .inr (List.mem_append_left _ hcell)

theorem AwaitsAll.tail (h : s.AwaitsAll kept parent (plot :: plots))
    (hkeeps : s.Keeps (fun cell => kept cell ∨ cell ∈ area plots) .null parent after) :
    after.AwaitsAll kept parent plots where
  shows := fun other hother => (h.shows other (List.mem_cons_of_mem _ hother)).frame hkeeps.grows
    (hkeeps.agrees.mono fun cell hcell => .inr (cells_subset_area hother cell hcell))
  nodup := (List.nodup_append.mp h.nodup).2.1
  nodes := fun other hother => h.nodes other (List.mem_cons_of_mem _ hother)
  child := fun other hother => h.child other (List.mem_cons_of_mem _ hother)
  parents := fun other hother => h.parents other (List.mem_cons_of_mem _ hother)
  places := fun other hother => (h.places other (List.mem_cons_of_mem _ hother)).imp_right
    fun harea hmem => harea (List.mem_append_right _ hmem)
  apart := fun cell hcell => h.apart cell (List.mem_append_right _ hcell)
  secures := hkeeps.secures

/-- The children of a node that waits are plots that wait, while the cells near its parent are kept
as well. -/
theorem Awaits.children {trees : List (String × Tree)} {ref : ObjectRef} {cells : List Cell}
    {slot : Slot} (h : s.Awaits kept slot (.object trees) (.object ref :: cells))
    (hmembers : s.ShowsMembers trees (s.members ref) cells) {plots : List Plot}
    {parts : List Cell} (hlaid : s.Laid (some ref) (s.Lists (s.member ref "children"))
      (.object ref) parts plots)
    (hshows : s.Shows ((Tree.object trees).member "children") (s.member ref "children") parts)
    (hparts : parts.Sublist cells) :
    s.AwaitsAll (fun cell => kept cell ∨ s.Reach .null slot.parent cell) (some ref) plots := by
  have hwithin : ∀ cell ∈ area plots, cell ∈ Cell.object ref :: cells := fun cell hcell =>
    List.mem_cons_of_mem _ (hparts.subset (hlaid.within.subset hcell))
  -- the cells of the node are not kept, nor are they near its parent
  have hfree : ∀ cell ∈ Cell.object ref :: cells,
      ¬ (kept cell ∨ s.Reach .null slot.parent cell) := by
    intro cell hcell hmem
    rcases hmem with hmem | hmem
    · exact h.apart cell hcell hmem
    · exact (h.secures.reach cell hmem).2 (.inr hcell)
  have hcells := (List.nodup_cons.mp h.nodup).2
  have hnear : ∀ cell, s.Near ref cell → cell ∈ Cell.object ref :: cells ∧ cell ∉ area plots :=
    fun cell hcell => hmembers.near h.nodup hlaid hshows hparts hcell
  have hplace : ∀ plot ∈ plots, s.Near ref plot.slot.place.cell := by
    intro plot hplot
    rcases hlaid.places plot hplot with hself | ⟨array, hlist, harray⟩
    · rw [hself]
      exact .self
    · rw [harray]
      exact .list hlist
  refine ⟨hlaid.shows, (hcells.sublist hparts).sublist hlaid.within, hlaid.nodes, hlaid.child,
    hlaid.parents, fun plot hplot => ?_, fun cell hcell => hfree cell (hwithin cell hcell), ?_⟩
  · obtain ⟨hmem, harea⟩ := hnear _ (hplace plot hplot)
    exact ⟨hfree _ hmem, harea⟩
  · refine ⟨fun cell hcell => ?_, fun cell hcell => ?_⟩
    · rcases hcell with (hcell | hcell) | hcell
      · exact h.secures.contains cell (.inl hcell)
      · exact (h.secures.reach cell hcell).1
      · exact h.secures.contains cell (.inr (hwithin cell hcell))
    · rcases hcell with ⟨_, hnull, _⟩ | ⟨other, hother, hcell⟩
      · cases hnull
      · obtain rfl := Option.some.inj hother
        obtain ⟨hmem, harea⟩ := hnear cell hcell
        exact ⟨h.secures.contains cell (.inr hmem), fun hkept =>
          hkept.elim (hfree cell hmem) harea⟩

theorem Awaits.secures_node {t : Tree} {cells : List Cell} {slot : Slot}
    (h : s.Awaits kept slot t cells) {ref : ObjectRef} (hnode : slot.node = .object ref)
    (hkeeps : s.Keeps (fun cell => kept cell ∨ s.Reach .null slot.parent cell) .null (some ref)
      after) : after.Secures kept slot.node slot.parent where
  contains := fun cell hcell => hkeeps.grows.contains (h.secures.contains cell (.inl hcell))
  reach := by
    intro cell hcell
    rcases hcell with ⟨other, hother, hcell⟩ | ⟨other, hother, hcell⟩
    · obtain rfl : ref = other := Value.object.inj (hnode.symm.trans hother)
      exact (hkeeps.secures.reach cell (.inr ⟨ref, rfl, hcell⟩)).imp_right
        fun hfree hkept => hfree (.inl hkept)
    · have hold : s.Reach .null slot.parent cell := .inr ⟨other, hother, hcell.frame
        (hkeeps.agrees.mono fun cell hcell => .inr (.inr ⟨other, hother, hcell⟩))⟩
      obtain ⟨hcontains, hfree⟩ := h.secures.reach cell hold
      exact ⟨hkeeps.grows.contains hcontains, fun hkept => hfree (.inl hkept)⟩

theorem Awaits.secures_leaf {t : Tree} {cells : List Cell} {slot : Slot}
    (h : s.Awaits kept slot t cells) (hnode : ∀ ref, slot.node ≠ .object ref) :
    s.Secures kept slot.node slot.parent where
  contains := fun cell hcell => h.secures.contains cell (.inl hcell)
  reach := by
    intro cell hcell
    rcases hcell with ⟨ref, href, _⟩ | hcell
    · exact absurd href (hnode ref)
    · exact (h.secures.reach cell (.inr hcell)).imp_right fun hfree hkept => hfree (.inl hkept)

end Store

end ViewTree
