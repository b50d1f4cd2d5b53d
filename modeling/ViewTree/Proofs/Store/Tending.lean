import Mathlib.Data.List.Flatten
import ViewTree.Proofs.Store.Outline
import ViewTree.Proofs.Tree.Validity

namespace ViewTree

namespace Store

/-- A later store has kept some cells and the lengths of all arrays. -/
structure Tends (s : Store) (kept : Cell → Prop) (after : Store) : Prop where
  grows : s.Grows after
  agrees : AgreesOn kept s after
  lengths : ∀ ref, s.Contains (.array ref) → (after.items ref).length = (s.items ref).length

/-- Plots are ready for a visit: they lie apart from each other, from their places and from the
cells that are kept meanwhile. -/
structure Ready (s : Store) (kept : Cell → Prop) (plots : List Plot) : Prop where
  shows : ∀ plot ∈ plots, s.Shows plot.tree plot.slot.node plot.cells
  nodes : ∀ plot ∈ plots, ∀ ref, plot.slot.node ≠ .array ref
  has : ∀ plot ∈ plots, s.has plot.slot.place = true
  places : ∀ plot ∈ plots, ¬ kept plot.slot.place.cell ∧ plot.slot.place.cell ∉ area plots
  nodup : (area plots).Nodup
  apart : ∀ cell ∈ area plots, ¬ kept cell
  contains : ∀ cell, kept cell → s.Contains cell

variable {s middle after : Store} {kept fewer : Cell → Prop} {plot : Plot}
  {plots below : List Plot}

theorem Tends.refl (s : Store) (kept : Cell → Prop) : s.Tends kept s :=
  ⟨.refl s, .refl kept s, fun _ _ => rfl⟩

theorem Tends.trans (h : s.Tends kept middle) (hnext : middle.Tends kept after) :
    s.Tends kept after where
  grows := h.grows.trans hnext.grows
  agrees := h.agrees.trans hnext.agrees
  lengths := fun ref href =>
    (hnext.lengths ref (h.grows.contains href)).trans (h.lengths ref href)

theorem Tends.mono (h : s.Tends kept after) (hkept : ∀ cell, fewer cell → kept cell) :
    s.Tends fewer after :=
  ⟨h.grows, h.agrees.mono hkept, h.lengths⟩

theorem Extends.tends (h : s.Extends after) (hkept : ∀ cell, kept cell → s.Contains cell) :
    s.Tends kept after :=
  ⟨h.grows, h.agrees.mono hkept, fun ref href => congrArg List.length (h.agrees.items ref href)⟩

theorem write_tends {place : Place} (hplace : ¬ kept place.cell) (s : Store) (value : Value) :
    s.Tends kept (s.write place value) where
  grows := write_grows s place value
  agrees := (write_agreesOn s place value).mono fun _ hcell heq => hplace (heq ▸ hcell)
  lengths := by
    intro ref href
    cases place with
    | member object name => rfl
    | element array position =>
        by_cases heq : ref = array
        · subst heq
          rw [write, items_setItems_self _ _ _ href, List.length_set]
        · rw [write, items_setItems_of_ne s heq]

theorem Tends.has (h : s.Tends kept after) {place : Place} (has : s.has place = true) :
    after.has place = true := by
  cases place with
  | member object name => rfl
  | element array position =>
      have hposition : position < (s.items array).length := by simpa [Store.has] using has
      have hcontains : s.Contains (.array array) := by
        by_contra hcell
        rw [items_of_not_contains hcell] at hposition
        cases hposition
      rw [Store.has, h.lengths array hcontains]
      exact has

theorem Ready.reserved (h : s.Ready kept plots) :
    ∀ cell, kept cell ∨ cell ∈ area plots → s.Contains cell := by
  intro cell hcell
  refine hcell.elim (h.contains cell) fun hmem => ?_
  obtain ⟨plot, hplot, hcell⟩ := List.mem_flatMap.mp hmem
  exact (h.shows plot hplot).contains cell hcell

theorem Ready.sublist {some : List Plot} (h : s.Ready kept plots) (hsub : some.Sublist plots) :
    s.Ready kept some := by
  have harea : (area some).Sublist (area plots) := hsub.flatMap Plot.cells
  refine ⟨fun plot hplot => h.shows plot (hsub.subset hplot),
    fun plot hplot => h.nodes plot (hsub.subset hplot),
    fun plot hplot => h.has plot (hsub.subset hplot), fun plot hplot => ?_, h.nodup.sublist harea,
    fun cell hcell => h.apart cell (harea.subset hcell), h.contains⟩
  exact (h.places plot (hsub.subset hplot)).imp_right fun hnot hmem => hnot (harea.subset hmem)

theorem Ready.mono (h : s.Ready kept plots) (hfewer : ∀ cell, fewer cell → kept cell) :
    s.Ready fewer plots where
  shows := h.shows
  nodes := h.nodes
  has := h.has
  places := fun plot hplot => (h.places plot hplot).imp_left fun hkept => hkept ∘ hfewer _
  nodup := h.nodup
  apart := fun cell hcell => h.apart cell hcell ∘ hfewer cell
  contains := fun cell hcell => h.contains cell (hfewer cell hcell)

theorem Shows.ready_boxed {t : Tree} {node : Value} {cells : List Cell} (h : s.Shows t node cells)
    (hnodup : cells.Nodup) (hkept : ∀ cell, kept cell → s.Contains cell)
    (hapart : ∀ cell ∈ cells, ¬ kept cell) (hnode : ∀ ref, node ≠ .array ref) :
    (newArray [node] s).2.Ready kept
      [⟨⟨node, none, 0, .element ⟨s.arrays.size⟩ 0⟩, t, cells⟩] := by
  have hextends : s.Extends (newArray [node] s).2 := newArray_extends [node] s
  have hnew : ∀ cell, s.Contains cell → Cell.array ⟨s.arrays.size⟩ ≠ cell := by
    intro cell hcell heq
    rw [← heq] at hcell
    exact Nat.lt_irrefl _ hcell
  have harea : ∀ slot, area [⟨slot, t, cells⟩] = cells := fun _ => List.append_nil cells
  refine ⟨?_, ?_, ?_, ?_, ?_, ?_, fun cell hcell => hextends.grows.contains (hkept cell hcell)⟩
  · exact List.forall_mem_singleton.mpr (hextends.shows h)
  · exact List.forall_mem_singleton.mpr hnode
  · exact List.forall_mem_singleton.mpr (by simp [Store.has])
  · rw [harea]
    refine List.forall_mem_singleton.mpr ⟨fun hcell => ?_, fun hcell => ?_⟩
    · exact hnew _ (hkept _ hcell) rfl
    · exact hnew _ (h.contains _ hcell) rfl
  · rwa [harea]
  · rwa [harea]

theorem Ready.tail (h : s.Ready kept (plot :: plots)) : s.Ready kept plots :=
  h.sublist (List.sublist_cons_self plot plots)

theorem Ready.head (h : s.Ready kept (plot :: plots)) :
    s.Ready (fun cell => kept cell ∨ cell ∈ area plots) [plot] := by
  have hself := List.mem_cons_self (a := plot) (l := plots)
  have hnodup := h.nodup
  rw [area_cons] at hnodup
  obtain ⟨hhead, -, hdisjoint⟩ := List.nodup_append.mp hnodup
  obtain ⟨hkept, harea⟩ := h.places plot hself
  rw [area_cons, List.mem_append, not_or] at harea
  have hsingle : area [plot] = plot.cells := List.append_nil _
  refine ⟨?_, ?_, ?_, ?_, ?_, ?_, ?_⟩
  · exact List.forall_mem_singleton.mpr (h.shows plot hself)
  · exact List.forall_mem_singleton.mpr (h.nodes plot hself)
  · exact List.forall_mem_singleton.mpr (h.has plot hself)
  · rw [hsingle]
    exact List.forall_mem_singleton.mpr ⟨not_or.mpr ⟨hkept, harea.2⟩, harea.1⟩
  · rwa [hsingle]
  · rw [hsingle]
    intro cell hcell
    refine not_or.mpr ⟨h.apart cell (List.mem_append_left _ hcell), fun hmem => ?_⟩
    exact hdisjoint cell hcell cell hmem rfl
  · exact h.tail.reserved

theorem Ready.tended (h : s.Ready kept plots)
    (htends : s.Tends (fun cell => kept cell ∨ cell ∈ area plots) after) :
    after.Ready kept plots where
  shows := fun plot hplot => (h.shows plot hplot).frame htends.grows <|
    htends.agrees.mono fun cell hcell => .inr (cells_subset_area hplot cell hcell)
  nodes := h.nodes
  has := fun plot hplot => htends.has (h.has plot hplot)
  places := h.places
  nodup := h.nodup
  apart := h.apart
  contains := fun cell hcell => htends.grows.contains (h.contains cell hcell)

theorem Ready.extended (h : s.Ready kept plots) (hextends : s.Extends after) :
    after.Ready kept plots :=
  h.tended (hextends.tends h.reserved)

theorem Ready.children {trees : List (String × Tree)} {ref : ObjectRef} {slot : Slot}
    {cells parts : List Cell}
    (h : s.Ready kept (⟨slot, .object trees, .object ref :: cells⟩ :: plots))
    (hlaid : s.Laid (some ref) (s.Lists (s.member ref "children")) (.object ref) parts below)
    (hparts : parts.Sublist cells) : s.Ready kept (plots ++ below) := by
  have hnodup := h.nodup
  rw [area_cons] at hnodup
  obtain ⟨hcells, hplots, hdisjoint⟩ := List.nodup_append.mp hnodup
  have hpartsNodup := (List.nodup_cons.mp hcells).2.sublist hparts
  have hwithin : ∀ cell ∈ area below, cell ∈ Cell.object ref :: cells := fun cell hcell =>
    List.mem_cons_of_mem _ (hparts.subset (hlaid.within.subset hcell))
  -- a child is listed among the cells of the node, but not in those of a child
  have hplace : ∀ child ∈ below, child.slot.place.cell ∈ Cell.object ref :: cells ∧
      child.slot.place.cell ∉ area below := by
    intro child hchild
    rcases hlaid.places child hchild with hself | ⟨array, hlist, harray⟩
    · rw [hself]
      exact ⟨List.mem_cons_self, fun hmem => (List.nodup_cons.mp hcells).1
        (hparts.subset (hlaid.within.subset hmem))⟩
    · rw [harray]
      exact ⟨List.mem_cons_of_mem _ (hparts.subset (hlaid.listed array hlist)),
        hlaid.apart hpartsNodup array hlist⟩
  refine ⟨?_, ?_, ?_, ?_, ?_, ?_, h.contains⟩
  · exact List.forall_mem_append.mpr ⟨h.tail.shows, hlaid.shows⟩
  · exact List.forall_mem_append.mpr ⟨h.tail.nodes, hlaid.nodes⟩
  · exact List.forall_mem_append.mpr
      ⟨h.tail.has, fun child hchild => has_of_at? (hlaid.holds child hchild)⟩
  · rw [area_append]
    refine List.forall_mem_append.mpr ⟨fun other hother => ?_, fun child hchild => ?_⟩
    · obtain ⟨hkept, harea⟩ := h.places other (List.mem_cons_of_mem _ hother)
      rw [area_cons, List.mem_append, not_or] at harea
      refine ⟨hkept, fun hmem => ?_⟩
      exact (List.mem_append.mp hmem).elim harea.2 fun hmem => harea.1 (hwithin _ hmem)
    · obtain ⟨hmem, harea⟩ := hplace child hchild
      refine ⟨h.apart _ (List.mem_append_left _ hmem), fun hother => ?_⟩
      exact (List.mem_append.mp hother).elim (fun hother => hdisjoint _ hmem _ hother rfl) harea
  · rw [area_append]
    refine List.nodup_append.mpr ⟨hplots, hpartsNodup.sublist hlaid.within, ?_⟩
    intro cell hcell other hother heq
    exact hdisjoint other (hwithin other hother) cell hcell heq.symm
  · rw [area_append]
    intro cell hcell
    rcases List.mem_append.mp hcell with hcell | hcell
    · exact h.apart cell (List.mem_append_right _ hcell)
    · exact h.apart cell (List.mem_append_left _ (hwithin cell hcell))

/-- What is listed below a plot is ready once the plot has been visited, and what holds of every
node of the plot holds of every node below. -/
theorem Ready.listed (h : s.Ready kept (plot :: plots)) {test : Tree → Bool}
    (htest : plot.tree.everyNode test = true) :
    ∃ below, s.childSlots plot.slot.node = below.map Plot.slot ∧ s.Ready kept (plots ++ below) ∧
      (∀ child ∈ below, child.tree.everyNode test = true) ∧
      Tree.sizes (below.map Plot.tree) < plot.tree.size ∧ (area below).Sublist plot.cells ∧
      ∀ ref, plot.slot.node = .object ref → ∃ tree parts,
        s.Shows tree (s.member ref "children") parts ∧
        s.Laid (some ref) (s.Lists (s.member ref "children")) (.object ref) parts below := by
  obtain ⟨⟨node, parent, index, place⟩, tree, cells⟩ := plot
  have hshows := h.shows _ List.mem_cons_self
  cases hshows with
  | @object trees ref rest has members =>
      obtain ⟨below, parts, hslots, htrees, hlaid, hmember, hparts⟩ := members.childPlots
      have htree : below.map Plot.tree = (Tree.object trees).children.map Prod.fst := by
        rw [← htrees, List.map_map]
        rfl
      refine ⟨below, hslots, h.children hlaid hparts, fun child hchild => ?_, ?_,
        (hlaid.within.trans hparts).cons _, fun other hother => ?_⟩
      · have hmem := List.mem_map_of_mem (f := Plot.tree) hchild
        rw [htree] at hmem
        obtain ⟨item, hitem, hvalue⟩ := List.mem_map.mp hmem
        rw [← hvalue]
        exact Tree.everyNode_children htest item hitem
      · rw [htree]
        exact (Tree.object trees).sizes_children_lt
      · obtain rfl := Value.object.inj hother
        exact ⟨_, parts, hmember, hlaid⟩
  | _ =>
      refine ⟨[], rfl, ?_, by simp, Tree.size_pos _, List.nil_sublist _, by simp⟩
      rw [List.append_nil]
      exact h.tail

theorem Ready.keep {more : Cell → Prop} (h : s.Ready kept plots)
    (hmore : ∀ cell, more cell → s.Contains cell ∧ cell ∉ area plots ∧
      ∀ plot ∈ plots, plot.slot.place.cell ≠ cell) :
    s.Ready (fun cell => kept cell ∨ more cell) plots where
  shows := h.shows
  nodes := h.nodes
  has := h.has
  places := by
    intro plot hplot
    obtain ⟨hkept, harea⟩ := h.places plot hplot
    refine ⟨fun hmem => ?_, harea⟩
    exact hmem.elim hkept fun hcell => (hmore _ hcell).2.2 plot hplot rfl
  nodup := h.nodup
  apart := fun cell hcell hmem =>
    hmem.elim (h.apart cell hcell) fun hmem => (hmore cell hmem).2.1 hcell
  contains := fun cell hcell => hcell.elim (h.contains cell) fun hmem => (hmore cell hmem).1

theorem Ready.childSlots_extended (h : s.Ready kept (plot :: plots)) (hextends : s.Extends after) :
    after.childSlots plot.slot.node = s.childSlots plot.slot.node :=
  (h.shows plot List.mem_cons_self).childSlots_extended hextends

theorem Ready.classify (h : s.Ready kept (plot :: plots)) (hvalid : plot.tree.isValid = true) :
    ∃ kind, s.classify plot.slot.node = .ok kind ∧
      (kind = .structured ↔ ∃ ref, plot.slot.node = .object ref) := by
  have hshows := h.shows plot List.mem_cons_self
  have harray : plot.tree.isArray = false := by
    obtain ⟨⟨node, parent, index, place⟩, tree, cells⟩ := plot
    cases hshows with
    | @array trees ref rest has items => exact absurd rfl (h.nodes _ List.mem_cons_self ref)
    | _ => rfl
  rw [hshows.classify]
  obtain ⟨⟨node, parent, index, place⟩, tree, cells⟩ := plot
  rcases Tree.classify_of_isValid hvalid harray with ⟨a, rfl, hkind⟩ | ⟨members, rfl, hkind⟩
  · cases hshows
    exact ⟨.primitive, hkind, by simp⟩
  · cases hshows
    exact ⟨.structured, hkind, by simp⟩

theorem Ready.outlineTo_tended (h : s.Ready kept plots)
    (htends : s.Tends (fun cell => kept cell ∨ cell ∈ area plots) after) {level : Nat}
    (hlevel : (area plots).length ≤ level) (hplot : plot ∈ plots) (depth : Nat) :
    after.outlineTo level (plot.slot.stand depth) = s.outlineTo level (plot.slot.stand depth) := by
  have hcells := (sublist_area hplot).length_le.trans hlevel
  have hshows : s.Shows plot.tree (plot.slot.stand depth).node plot.cells := h.shows plot hplot
  exact hshows.outlineTo_frame htends.grows
    (htends.agrees.mono fun cell hcell => .inr (cells_subset_area hplot cell hcell)) hcells hcells

def enqueue (queue : List (Plot × Nat)) (below : List Plot) (depth : Nat) : List (Plot × Nat) :=
  queue ++ below.map fun child => (child, depth)

section

variable (queue : List (Plot × Nat)) (below : List Plot) (depth : Nat)

theorem plots_enqueue :
    (enqueue queue below depth).map Prod.fst = queue.map Prod.fst ++ below := by
  simp [enqueue, Function.comp_def]

theorem slots_enqueue :
    (enqueue queue below depth).map (fun entry => (entry.1.slot, entry.2)) =
      queue.map (fun entry => (entry.1.slot, entry.2)) ++
        (below.map Plot.slot).map fun child => (child, depth) := by
  simp [enqueue, Function.comp_def]

theorem sizes_enqueue :
    Tree.sizes ((enqueue queue below depth).map fun entry => entry.1.tree) =
      Tree.sizes (queue.map fun entry => entry.1.tree) + Tree.sizes (below.map Plot.tree) := by
  simp [enqueue, Tree.sizes_append, Function.comp_def]

theorem flatMap_enqueue (gather : Tree → List α) :
    (enqueue queue below depth).flatMap (fun entry => gather entry.1.tree) =
      queue.flatMap (fun entry => gather entry.1.tree) ++
        below.flatMap fun child => gather child.tree := by
  simp [enqueue, List.flatMap_append, List.flatMap_map]

end

theorem forall_enqueue {queue : List (Plot × Nat)} {test : Tree → Bool}
    (hqueue : ∀ entry ∈ queue, entry.1.tree.everyNode test = true)
    (hbelow : ∀ child ∈ below, child.tree.everyNode test = true) (depth : Nat) :
    ∀ entry ∈ enqueue queue below depth, entry.1.tree.everyNode test = true := by
  refine List.forall_mem_append.mpr ⟨hqueue, fun entry hentry => ?_⟩
  obtain ⟨child, hchild, rfl⟩ := List.mem_map.mp hentry
  exact hbelow child hchild

end Store

end ViewTree
