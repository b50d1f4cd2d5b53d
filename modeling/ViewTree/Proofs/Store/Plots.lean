import ViewTree.Proofs.Store.Placing

/-!
Plots.  The slots a value expands to hold nodes that lie apart from each other and from the arrays
they are listed in; a plot is such a slot with the tree at it and the cells this takes.
-/

namespace ViewTree

/-- A place that can hold a child. -/
def Place.IsChild : Place → Prop
  | .element _ _ => True
  | .member _ name => name = "children"

namespace Store

/-- The arrays among which a value is spread: itself, if it is an array, and those in it. -/
inductive Lists (s : Store) : Value → ArrayRef → Prop
  | self (ref : ArrayRef) : Lists s (.array ref) ref
  | item {ref other : ArrayRef} {value : Value} (hitem : value ∈ s.items ref)
      (h : Lists s value other) : Lists s (.array ref) other

structure Plot where
  slot : Slot
  tree : Tree
  cells : List Cell

def area (plots : List Plot) : List Cell :=
  plots.flatMap Plot.cells

/-- Plots lie within some cells, their slots have this parent, and the arrays that list them lie
within those cells too, but apart from the plots. -/
structure Laid (s : Store) (parent : Option ObjectRef) (lists : ArrayRef → Prop)
    (home : Cell) (cells : List Cell) (plots : List Plot) : Prop where
  shows : ∀ plot ∈ plots, s.Shows plot.tree plot.slot.node plot.cells
  parents : ∀ plot ∈ plots, plot.slot.parent = parent
  holds : ∀ plot ∈ plots, s.at? plot.slot.place = some plot.slot.node
  places : ∀ plot ∈ plots, plot.slot.place.cell = home ∨
    ∃ ref, lists ref ∧ plot.slot.place.cell = .array ref
  child : ∀ plot ∈ plots, plot.slot.place.IsChild
  nodes : ∀ plot ∈ plots, ∀ ref, plot.slot.node ≠ .array ref
  within : (area plots).Sublist cells
  listed : ∀ ref, lists ref → .array ref ∈ cells
  apart : cells.Nodup → ∀ ref, lists ref → .array ref ∉ area plots

@[simp] theorem area_nil : area [] = [] := rfl

@[simp] theorem area_cons (plot : Plot) (plots : List Plot) :
    area (plot :: plots) = plot.cells ++ area plots := rfl

@[simp] theorem area_append (plots others : List Plot) :
    area (plots ++ others) = area plots ++ area others := by
  simp [area]

theorem cells_subset_area {plot : Plot} {plots : List Plot} (h : plot ∈ plots) :
    ∀ cell ∈ plot.cells, cell ∈ area plots :=
  fun _ hcell => List.mem_flatMap.mpr ⟨plot, h, hcell⟩

variable {s : Store} {parent : Option ObjectRef} {home : Cell}

theorem lists_array {ref other : ArrayRef} :
    s.Lists (.array ref) other ↔ other = ref ∨ ∃ value ∈ s.items ref, s.Lists value other := by
  constructor
  · intro h
    cases h with
    | self => exact .inl rfl
    | item hitem h => exact .inr ⟨_, hitem, h⟩
  · intro h
    rcases h with rfl | ⟨value, hitem, h⟩
    · exact .self other
    · exact .item hitem h

theorem Laid.single {t : Tree} {slot : Slot} {cells : List Cell}
    (h : s.Shows t slot.node cells) (hat : s.at? slot.place = some slot.node)
    (hplace : slot.place.IsChild) (hnode : ∀ ref, slot.node ≠ .array ref) :
    s.Laid slot.parent (s.Lists slot.node) slot.place.cell cells [⟨slot, t, cells⟩] := by
  have hlists : ∀ ref, ¬ s.Lists slot.node ref := by
    intro ref href
    cases hvalue : slot.node with
    | array other => exact hnode other hvalue
    | _ => rw [hvalue] at href; cases href
  refine ⟨?_, ?_, ?_, ?_, ?_, ?_, ?_, fun ref href => absurd href (hlists ref),
    fun _ ref href => absurd href (hlists ref)⟩
  · simpa using h
  · simp
  · simpa using hat
  · simp
  · simpa using hplace
  · simpa using hnode
  · simp

theorem Laid.append {lists others : ArrayRef → Prop} {cells rest : List Cell}
    {plots more : List Plot} (h : s.Laid parent lists home cells plots)
    (hmore : s.Laid parent others home rest more) :
    s.Laid parent (fun ref => lists ref ∨ others ref) home (cells ++ rest) (plots ++ more) where
  shows := by
    intro plot hplot
    rcases List.mem_append.mp hplot with hplot | hplot
    · exact h.shows plot hplot
    · exact hmore.shows plot hplot
  parents := by
    intro plot hplot
    rcases List.mem_append.mp hplot with hplot | hplot
    · exact h.parents plot hplot
    · exact hmore.parents plot hplot
  holds := by
    intro plot hplot
    rcases List.mem_append.mp hplot with hplot | hplot
    · exact h.holds plot hplot
    · exact hmore.holds plot hplot
  places := by
    intro plot hplot
    rcases List.mem_append.mp hplot with hplot | hplot
    · exact (h.places plot hplot).imp_right fun ⟨ref, href, hcell⟩ => ⟨ref, .inl href, hcell⟩
    · exact (hmore.places plot hplot).imp_right fun ⟨ref, href, hcell⟩ => ⟨ref, .inr href, hcell⟩
  child := by
    intro plot hplot
    rcases List.mem_append.mp hplot with hplot | hplot
    · exact h.child plot hplot
    · exact hmore.child plot hplot
  nodes := by
    intro plot hplot
    rcases List.mem_append.mp hplot with hplot | hplot
    · exact h.nodes plot hplot
    · exact hmore.nodes plot hplot
  within := by
    rw [area_append]
    exact h.within.append hmore.within
  listed := by
    intro ref href
    rcases href with href | href
    · exact List.mem_append_left _ (h.listed ref href)
    · exact List.mem_append_right _ (hmore.listed ref href)
  apart := by
    intro hnodup ref href hmem
    obtain ⟨hcells, hrest, hdisjoint⟩ := List.nodup_append.mp hnodup
    rw [area_append] at hmem
    rcases href with href | href
    · rcases List.mem_append.mp hmem with hmem | hmem
      · exact h.apart hcells ref href hmem
      · exact hdisjoint _ (h.listed ref href) _ (hmore.within.subset hmem) rfl
    · rcases List.mem_append.mp hmem with hmem | hmem
      · exact hdisjoint _ (h.within.subset hmem) _ (hmore.listed ref href) rfl
      · exact hmore.apart hrest ref href hmem

theorem Laid.array {ref : ArrayRef} {cells : List Cell} {plots : List Plot}
    (h : s.Laid parent (fun other => ∃ value ∈ s.items ref, s.Lists value other) (.array ref) cells
      plots) (hself : .array ref ∉ cells) :
    s.Laid parent (s.Lists (.array ref)) home (.array ref :: cells) plots where
  shows := h.shows
  parents := h.parents
  holds := h.holds
  places := by
    intro plot hplot
    rcases h.places plot hplot with hcell | ⟨other, hother, hcell⟩
    · exact .inr ⟨ref, .self ref, hcell⟩
    · exact .inr ⟨other, lists_array.mpr (.inr hother), hcell⟩
  child := h.child
  nodes := h.nodes
  within := h.within.cons _
  listed := by
    intro other hother
    rcases lists_array.mp hother with rfl | hother
    · exact List.mem_cons_self
    · exact List.mem_cons_of_mem _ (h.listed other hother)
  apart := by
    intro hnodup other hother hmem
    rcases lists_array.mp hother with rfl | hother
    · exact hself (h.within.subset hmem)
    · exact h.apart (List.nodup_cons.mp hnodup).2 other hother hmem

mutual
theorem Shows.plots {t : Tree} {slot : Slot} {cells : List Cell}
    (h : s.Shows t slot.node cells) (hat : s.at? slot.place = some slot.node)
    (hplace : slot.place.IsChild) :
    ∃ plots, s.expand slot = plots.map Plot.slot ∧
      plots.map (fun plot => (plot.tree, plot.slot.index)) = t.spread slot.index ∧
      s.Laid slot.parent (s.Lists slot.node) slot.place.cell cells plots := by
  obtain ⟨node, parent, index, place⟩ := slot
  cases h with
  | @array trees ref rest has items =>
      have hself : Cell.array ref ∉ rest :=
        Shows.head_notMem (.array has items) items.part_of_mem
      obtain ⟨plots, hslots, htrees, hlaid⟩ := items.plots parent (List.drop_zero)
      refine ⟨plots, ?_, htrees, hlaid.array hself⟩
      rw [items.expand_eq has]
      exact hslots
  | atom a =>
      exact ⟨_, expand_of_ne_array (by simp), rfl, .single (.atom a) hat hplace (by simp)⟩
  | tuple items =>
      exact ⟨_, expand_of_ne_array (by simp), rfl, .single (.tuple items) hat hplace (by simp)⟩
  | object has members =>
      exact ⟨_, expand_of_ne_array (by simp), rfl, .single (.object has members) hat hplace (by simp)⟩

theorem ShowsItems.plots {trees : List Tree} {values : List Value} {cells : List Cell}
    (h : s.ShowsItems trees values cells) (parent : Option ObjectRef) {ref : ArrayRef}
    {start : Nat} (hitems : (s.items ref).drop start = values) :
    ∃ plots, ((values.zipIdx start).flatMap fun (value, position) =>
          s.expand ⟨value, parent, position, .element ref position⟩) = plots.map Plot.slot ∧
      plots.map (fun plot => (plot.tree, plot.slot.index)) = Tree.spreadItems trees start ∧
      s.Laid parent (fun other => ∃ value ∈ values, s.Lists value other) (.array ref) cells
        plots := by
  cases h with
  | nil => exact ⟨[], rfl, rfl, by constructor <;> simp⟩
  | @cons tree trees value values cells rest head tail =>
      have hat : s.at? (.element ref start) = some value := by
        rw [Store.at?, ← List.head?_drop, hitems]
        rfl
      have hrest : (s.items ref).drop (start + 1) = values := by
        rw [← List.tail_drop, hitems, List.tail_cons]
      let slot : Slot := ⟨value, parent, start, .element ref start⟩
      have hslot : s.Shows tree slot.node cells := head
      obtain ⟨plots, hslots, htrees, hlaid⟩ := hslot.plots hat trivial
      obtain ⟨more, hmore, hmoreTrees, hmoreLaid⟩ := tail.plots parent hrest
      refine ⟨plots ++ more, ?_, ?_, ?_⟩
      · rw [List.zipIdx_cons, List.flatMap_cons, List.map_append, ← hmore, ← hslots]
      · rw [List.map_append, htrees, hmoreTrees, Tree.spreadItems]
      · simp only [List.exists_mem_cons_iff]
        exact hlaid.append hmoreLaid
end

theorem ShowsMembers.cells_of_lookup {trees : List (String × Tree)} {values : Members Value}
    {cells : List Cell} (h : s.ShowsMembers trees values cells) {name : String} {value : Value}
    (hvalue : values.lookup name = some value) {tree : Tree} {parts : List Cell}
    (hshows : s.Shows tree value parts) : parts.Sublist cells := by
  rcases h.lookup name with ⟨-, hnone⟩ | ⟨_, held, _, -, hheld, hother, hsub⟩
  · rw [hnone] at hvalue
    cases hvalue
  · obtain rfl : held = value := Option.some.inj (hheld.symm.trans hvalue)
    obtain ⟨-, rfl⟩ := hshows.unique hother
    exact hsub

theorem ShowsMembers.members_apart {trees : List (String × Tree)} {values : Members Value}
    {cells : List Cell} (h : s.ShowsMembers trees values cells) (hnodup : cells.Nodup)
    {first second : String} (hne : first ≠ second) {value other : Value}
    (hvalue : values.lookup first = some value) (hother : values.lookup second = some other)
    {tree otherTree : Tree} {parts others : List Cell} (hshows : s.Shows tree value parts)
    (hotherShows : s.Shows otherTree other others) : ∀ cell ∈ parts, cell ∉ others := by
  induction trees generalizing values cells with
  | nil =>
      cases h
      cases hvalue
  | cons member trees ih =>
      cases h with
      | @cons name _ _ held values headCells rest head tail =>
          obtain ⟨-, hrest, hdisjoint⟩ := List.nodup_append.mp hnodup
          rw [List.lookup_cons] at hvalue hother
          by_cases hfirst : first = name
          · subst hfirst
            rw [beq_self_eq_true] at hvalue
            rw [beq_eq_false_iff_ne.mpr hne.symm] at hother
            obtain rfl : held = value := Option.some.inj hvalue
            obtain ⟨-, rfl⟩ := head.unique hshows
            intro cell hcell hmem
            exact hdisjoint cell hcell cell
              ((tail.cells_of_lookup hother hotherShows).subset hmem) rfl
          · rw [beq_eq_false_iff_ne.mpr hfirst] at hvalue
            by_cases hsecond : second = name
            · subst hsecond
              rw [beq_self_eq_true] at hother
              obtain rfl : held = other := Option.some.inj hother
              obtain ⟨-, rfl⟩ := head.unique hotherShows
              intro cell hcell hmem
              exact hdisjoint cell hmem cell
                ((tail.cells_of_lookup hvalue hshows).subset hcell) rfl
            · rw [beq_eq_false_iff_ne.mpr hsecond] at hother
              exact ih tail hrest hvalue hother

theorem Laid.none {lists : ArrayRef → Prop} {cells : List Cell} {plots : List Plot}
    (h : s.Laid parent lists home cells plots) : s.Laid parent lists home cells [] := by
  refine ⟨?_, ?_, ?_, ?_, ?_, ?_, List.nil_sublist _, h.listed, fun _ _ _ => List.not_mem_nil⟩ <;> simp

theorem ShowsMembers.childPlots {trees : List (String × Tree)} {ref : ObjectRef}
    {cells : List Cell} (h : s.ShowsMembers trees (s.members ref) cells) :
    ∃ plots parts, s.childSlots (.object ref) = plots.map Plot.slot ∧
      plots.map (fun plot => (plot.tree, plot.slot.index)) = (Tree.object trees).children ∧
      s.Laid (some ref) (s.Lists (s.member ref "children")) (.object ref) parts plots ∧
      s.Shows ((Tree.object trees).member "children") (s.member ref "children") parts ∧
      parts.Sublist cells := by
  obtain ⟨parts, hmember, hparts⟩ := h.member "children"
  rw [h.childSlots, Tree.children]
  by_cases hlookup : (s.members ref).lookup "children" = none
  · have hnull : s.member ref "children" = .null := by
      rw [Store.member, hlookup, Option.getD_none]
    have hempty : s.Laid (some ref) (s.Lists (.null : Value)) (.object ref) parts [] := by
      refine ⟨by simp, by simp, by simp, by simp, by simp, by simp, List.nil_sublist _, ?_, by simp⟩
      intro other hother
      cases hother
    have hnot : (Tree.object trees).hasChildren = false := by
      rw [Tree.hasChildren, ← hmember.isNull, hnull]
      exact Bool.and_false _
    refine ⟨[], parts, ?_, ?_, hnull ▸ hempty, hmember, hparts⟩
    · rw [hnot]
      rfl
    · rw [hnot]
      rfl
  · obtain ⟨value, hvalue⟩ := Option.ne_none_iff_exists'.mp hlookup
    have hat : s.at? (.member ref "children") = some (s.member ref "children") := by
      rw [Store.at?, Store.member, hvalue, Option.getD_some]
    let slot : Slot := ⟨s.member ref "children", some ref, 0, .member ref "children"⟩
    have hslot : s.Shows ((Tree.object trees).member "children") slot.node parts := hmember
    obtain ⟨plots, hslots, htrees, hlaid⟩ := hslot.plots hat rfl
    cases hkind : (Tree.object trees).hasChildren with
    | true => exact ⟨plots, parts, hslots, htrees, hlaid, hmember, hparts⟩
    | false => exact ⟨[], parts, rfl, rfl, hlaid.none, hmember, hparts⟩

end Store

end ViewTree
