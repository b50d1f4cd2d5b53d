import Mathlib.Data.Finset.Card
import ViewTree.Slot

/-!
What a value in a store unfolds to.  `Shows` unfolds cells by following references and lists the
cells on the way.  A value that unfolds to a tree at all lies on no cycle, so no path has more cells
than the store, and the bounded `Store.read` gives the whole tree.
-/

namespace ViewTree

namespace Store

def Contains (s : Store) : Cell → Prop
  | .array ref => ref.index < s.arrays.size
  | .object ref => ref.index < s.objects.size

def Cell.value : Cell → Value
  | .array ref => .array ref
  | .object ref => .object ref

structure Grows (s next : Store) : Prop where
  arrays : s.arrays.size ≤ next.arrays.size
  objects : s.objects.size ≤ next.objects.size

/-- Two stores hold the same in some cells. -/
structure AgreesOn (kept : Cell → Prop) (s next : Store) : Prop where
  items : ∀ ref, kept (.array ref) → next.items ref = s.items ref
  members : ∀ ref, kept (.object ref) → next.members ref = s.members ref

structure Extends (s next : Store) : Prop where
  grows : s.Grows next
  agrees : AgreesOn s.Contains s next

mutual
/-- A value unfolds to a tree; the cells on the way are listed in order. -/
inductive Shows (s : Store) : Tree → Value → List Cell → Prop
  | atom (a : Atom) : Shows s (.atom a) (.atom a) []
  | tuple (items : List Tree) : Shows s (.tuple items) (.tuple items) []
  | array {trees : List Tree} {ref : ArrayRef} {cells : List Cell}
      (has : s.Contains (.array ref))
      (items : ShowsItems s trees (s.items ref) cells) :
      Shows s (.array trees) (.array ref) (.array ref :: cells)
  | object {trees : List (String × Tree)} {ref : ObjectRef} {cells : List Cell}
      (has : s.Contains (.object ref))
      (members : ShowsMembers s trees (s.members ref) cells) :
      Shows s (.object trees) (.object ref) (.object ref :: cells)

inductive ShowsItems (s : Store) : List Tree → List Value → List Cell → Prop
  | nil : ShowsItems s [] [] []
  | cons {tree : Tree} {trees : List Tree} {value : Value} {values : List Value}
      {cells rest : List Cell}
      (head : Shows s tree value cells) (tail : ShowsItems s trees values rest) :
      ShowsItems s (tree :: trees) (value :: values) (cells ++ rest)

inductive ShowsMembers (s : Store) :
    List (String × Tree) → Members Value → List Cell → Prop
  | nil : ShowsMembers s [] [] []
  | cons {name : String} {tree : Tree} {trees : List (String × Tree)} {value : Value}
      {values : Members Value} {cells rest : List Cell}
      (head : Shows s tree value cells) (tail : ShowsMembers s trees values rest) :
      ShowsMembers s ((name, tree) :: trees) ((name, value) :: values) (cells ++ rest)
end

theorem Grows.refl (s : Store) : s.Grows s :=
  ⟨Nat.le_refl _, Nat.le_refl _⟩

theorem Grows.trans {first second third : Store} (h : first.Grows second)
    (hnext : second.Grows third) : first.Grows third :=
  ⟨Nat.le_trans h.arrays hnext.arrays, Nat.le_trans h.objects hnext.objects⟩

theorem Grows.contains {s next : Store} (h : s.Grows next) {cell : Cell}
    (hcell : s.Contains cell) : next.Contains cell := by
  cases cell with
  | array ref => exact Nat.lt_of_lt_of_le hcell h.arrays
  | object ref => exact Nat.lt_of_lt_of_le hcell h.objects

theorem AgreesOn.refl (kept : Cell → Prop) (s : Store) : AgreesOn kept s s :=
  ⟨fun _ _ => rfl, fun _ _ => rfl⟩

theorem AgreesOn.trans {kept : Cell → Prop} {first second third : Store}
    (h : AgreesOn kept first second) (hnext : AgreesOn kept second third) :
    AgreesOn kept first third :=
  ⟨fun ref hkept => (hnext.items ref hkept).trans (h.items ref hkept),
    fun ref hkept => (hnext.members ref hkept).trans (h.members ref hkept)⟩

theorem AgreesOn.mono {kept fewer : Cell → Prop} {s next : Store} (h : AgreesOn kept s next)
    (hfewer : ∀ cell, fewer cell → kept cell) : AgreesOn fewer s next :=
  ⟨fun ref hcell => h.items ref (hfewer _ hcell),
    fun ref hcell => h.members ref (hfewer _ hcell)⟩

theorem Extends.refl (s : Store) : s.Extends s :=
  ⟨Grows.refl s, AgreesOn.refl _ s⟩

theorem Extends.trans {first second third : Store} (h : first.Extends second)
    (hnext : second.Extends third) : first.Extends third :=
  ⟨h.grows.trans hnext.grows,
    h.agrees.trans (hnext.agrees.mono fun _ hcell => h.grows.contains hcell)⟩

mutual
theorem Shows.unique {s : Store} {value : Value} {first second : Tree}
    {cells others : List Cell} (h : s.Shows first value cells)
    (hother : s.Shows second value others) : first = second ∧ cells = others := by
  cases h with
  | atom a => cases hother; exact ⟨rfl, rfl⟩
  | tuple items => cases hother; exact ⟨rfl, rfl⟩
  | array has items =>
      cases hother with
      | array _ otherItems =>
          obtain ⟨rfl, rfl⟩ := items.unique otherItems
          exact ⟨rfl, rfl⟩
  | object has members =>
      cases hother with
      | object _ otherMembers =>
          obtain ⟨rfl, rfl⟩ := members.unique otherMembers
          exact ⟨rfl, rfl⟩

theorem ShowsItems.unique {s : Store} {values : List Value} {first second : List Tree}
    {cells others : List Cell} (h : s.ShowsItems first values cells)
    (hother : s.ShowsItems second values others) : first = second ∧ cells = others := by
  cases h with
  | nil => cases hother; exact ⟨rfl, rfl⟩
  | cons head tail =>
      cases hother with
      | cons otherHead otherTail =>
          obtain ⟨rfl, rfl⟩ := head.unique otherHead
          obtain ⟨rfl, rfl⟩ := tail.unique otherTail
          exact ⟨rfl, rfl⟩

theorem ShowsMembers.unique {s : Store} {values : Members Value}
    {first second : List (String × Tree)} {cells others : List Cell}
    (h : s.ShowsMembers first values cells)
    (hother : s.ShowsMembers second values others) : first = second ∧ cells = others := by
  cases h with
  | nil => cases hother; exact ⟨rfl, rfl⟩
  | cons head tail =>
      cases hother with
      | cons otherHead otherTail =>
          obtain ⟨rfl, rfl⟩ := head.unique otherHead
          obtain ⟨rfl, rfl⟩ := tail.unique otherTail
          exact ⟨rfl, rfl⟩
end

mutual
theorem Shows.frame {s next : Store} {tree : Tree} {value : Value} {cells : List Cell}
    (h : s.Shows tree value cells) (hgrows : s.Grows next)
    (hagrees : AgreesOn (· ∈ cells) s next) : next.Shows tree value cells := by
  cases h with
  | atom a => exact .atom a
  | tuple items => exact .tuple items
  | @array trees ref rest has items =>
      have htail := items.frame hgrows (hagrees.mono fun _ => List.mem_cons_of_mem _)
      rw [← hagrees.items ref (by simp)] at htail
      exact .array (hgrows.contains has) htail
  | @object trees ref rest has members =>
      have htail := members.frame hgrows (hagrees.mono fun _ => List.mem_cons_of_mem _)
      rw [← hagrees.members ref (by simp)] at htail
      exact .object (hgrows.contains has) htail

theorem ShowsItems.frame {s next : Store} {trees : List Tree} {values : List Value}
    {cells : List Cell} (h : s.ShowsItems trees values cells) (hgrows : s.Grows next)
    (hagrees : AgreesOn (· ∈ cells) s next) : next.ShowsItems trees values cells := by
  cases h with
  | nil => exact .nil
  | cons head tail =>
      exact .cons
        (head.frame hgrows (hagrees.mono fun _ => List.mem_append_left _))
        (tail.frame hgrows (hagrees.mono fun _ => List.mem_append_right _))

theorem ShowsMembers.frame {s next : Store} {trees : List (String × Tree)}
    {values : Members Value} {cells : List Cell} (h : s.ShowsMembers trees values cells)
    (hgrows : s.Grows next) (hagrees : AgreesOn (· ∈ cells) s next) :
    next.ShowsMembers trees values cells := by
  cases h with
  | nil => exact .nil
  | cons head tail =>
      exact .cons
        (head.frame hgrows (hagrees.mono fun _ => List.mem_append_left _))
        (tail.frame hgrows (hagrees.mono fun _ => List.mem_append_right _))
end

mutual
theorem Shows.contains {s : Store} {tree : Tree} {value : Value} {cells : List Cell}
    (h : s.Shows tree value cells) : ∀ cell ∈ cells, s.Contains cell := by
  cases h with
  | atom a => simp
  | tuple items => simp
  | array has items => simpa using ⟨has, items.contains⟩
  | object has members => simpa using ⟨has, members.contains⟩

theorem ShowsItems.contains {s : Store} {trees : List Tree} {values : List Value}
    {cells : List Cell} (h : s.ShowsItems trees values cells) :
    ∀ cell ∈ cells, s.Contains cell := by
  cases h with
  | nil => simp
  | cons head tail =>
      intro cell hcell
      rcases List.mem_append.mp hcell with hcell | hcell
      · exact head.contains cell hcell
      · exact tail.contains cell hcell

theorem ShowsMembers.contains {s : Store} {trees : List (String × Tree)}
    {values : Members Value} {cells : List Cell} (h : s.ShowsMembers trees values cells) :
    ∀ cell ∈ cells, s.Contains cell := by
  cases h with
  | nil => simp
  | cons head tail =>
      intro cell hcell
      rcases List.mem_append.mp hcell with hcell | hcell
      · exact head.contains cell hcell
      · exact tail.contains cell hcell
end

mutual
theorem Shows.part_of_mem {s : Store} {tree : Tree} {value : Value} {cells : List Cell}
    (h : s.Shows tree value cells) :
    ∀ cell ∈ cells, ∃ part parts, s.Shows part cell.value parts ∧
      parts.length ≤ cells.length := by
  cases h with
  | atom a => simp
  | tuple items => simp
  | @array trees ref rest has items =>
      intro cell hcell
      rcases List.mem_cons.mp hcell with rfl | hcell
      · exact ⟨_, _, .array has items, Nat.le_refl _⟩
      · obtain ⟨part, parts, hpart, hlength⟩ := items.part_of_mem cell hcell
        exact ⟨part, parts, hpart, Nat.le_succ_of_le hlength⟩
  | @object trees ref rest has members =>
      intro cell hcell
      rcases List.mem_cons.mp hcell with rfl | hcell
      · exact ⟨_, _, .object has members, Nat.le_refl _⟩
      · obtain ⟨part, parts, hpart, hlength⟩ := members.part_of_mem cell hcell
        exact ⟨part, parts, hpart, Nat.le_succ_of_le hlength⟩

theorem ShowsItems.part_of_mem {s : Store} {trees : List Tree} {values : List Value}
    {cells : List Cell} (h : s.ShowsItems trees values cells) :
    ∀ cell ∈ cells, ∃ part parts, s.Shows part cell.value parts ∧
      parts.length ≤ cells.length := by
  cases h with
  | nil => simp
  | cons head tail =>
      intro cell hcell
      rw [List.length_append]
      rcases List.mem_append.mp hcell with hcell | hcell
      · obtain ⟨part, parts, hpart, hlength⟩ := head.part_of_mem cell hcell
        exact ⟨part, parts, hpart, by omega⟩
      · obtain ⟨part, parts, hpart, hlength⟩ := tail.part_of_mem cell hcell
        exact ⟨part, parts, hpart, by omega⟩

theorem ShowsMembers.part_of_mem {s : Store} {trees : List (String × Tree)}
    {values : Members Value} {cells : List Cell} (h : s.ShowsMembers trees values cells) :
    ∀ cell ∈ cells, ∃ part parts, s.Shows part cell.value parts ∧
      parts.length ≤ cells.length := by
  cases h with
  | nil => simp
  | cons head tail =>
      intro cell hcell
      rw [List.length_append]
      rcases List.mem_append.mp hcell with hcell | hcell
      · obtain ⟨part, parts, hpart, hlength⟩ := head.part_of_mem cell hcell
        exact ⟨part, parts, hpart, by omega⟩
      · obtain ⟨part, parts, hpart, hlength⟩ := tail.part_of_mem cell hcell
        exact ⟨part, parts, hpart, by omega⟩
end

/-- No cell lies below itself: its own unfolding would be a part of itself. -/
theorem Shows.head_notMem {s : Store} {tree : Tree} {cell : Cell} {rest : List Cell}
    (h : s.Shows tree cell.value (cell :: rest))
    (hparts : ∀ other ∈ rest, ∃ part parts, s.Shows part other.value parts ∧
      parts.length ≤ rest.length) : cell ∉ rest := by
  intro hmem
  obtain ⟨part, parts, hpart, hlength⟩ := hparts cell hmem
  obtain ⟨-, rfl⟩ := h.unique hpart
  exact Nat.not_succ_le_self _ hlength

structure IsPath (s : Store) (path : List Cell) : Prop where
  nodup : path.Nodup
  contains : ∀ cell ∈ path, s.Contains cell

theorem IsPath.nil (s : Store) : s.IsPath [] :=
  ⟨List.nodup_nil, by simp⟩

theorem IsPath.cons {s : Store} {path : List Cell} (h : s.IsPath path) {cell : Cell}
    (has : s.Contains cell) (hnew : cell ∉ path) : s.IsPath (cell :: path) := by
  refine ⟨List.nodup_cons.mpr ⟨hnew, h.nodup⟩, ?_⟩
  simpa using ⟨has, h.contains⟩

theorem IsPath.length_le {s : Store} {path : List Cell} (h : s.IsPath path) :
    path.length ≤ s.cellCount := by
  let arrays := (Finset.range s.arrays.size).image fun index => Cell.array ⟨index⟩
  let objects := (Finset.range s.objects.size).image fun index => Cell.object ⟨index⟩
  have hsub : path.toFinset ⊆ arrays ∪ objects := by
    intro cell hcell
    have hhas := h.contains cell (List.mem_toFinset.mp hcell)
    cases cell with
    | array ref =>
        exact Finset.mem_union_left _
          (Finset.mem_image.mpr ⟨ref.index, Finset.mem_range.mpr hhas, rfl⟩)
    | object ref =>
        exact Finset.mem_union_right _
          (Finset.mem_image.mpr ⟨ref.index, Finset.mem_range.mpr hhas, rfl⟩)
  have harrays : arrays.card ≤ s.arrays.size := by
    simpa using Finset.card_image_le (s := Finset.range s.arrays.size)
      (f := fun index => Cell.array ⟨index⟩)
  have hobjects : objects.card ≤ s.objects.size := by
    simpa using Finset.card_image_le (s := Finset.range s.objects.size)
      (f := fun index => Cell.object ⟨index⟩)
  calc path.length = path.toFinset.card := (List.toFinset_card_of_nodup h.nodup).symm
    _ ≤ (arrays ∪ objects).card := Finset.card_le_card hsub
    _ ≤ arrays.card + objects.card := Finset.card_union_le _ _
    _ ≤ s.cellCount := Nat.add_le_add harrays hobjects

mutual
theorem Shows.readTo_eq {s : Store} {tree : Tree} {value : Value} {cells : List Cell}
    (h : s.Shows tree value cells) {path : List Cell} {level : Nat} (hpath : s.IsPath path)
    (hapart : ∀ cell ∈ cells, cell ∉ path) (hlevel : s.cellCount < path.length + level) :
    s.readTo level path value = tree := by
  cases h with
  | atom a => cases level <;> rfl
  | tuple items => cases level <;> rfl
  | @array trees ref rest has items =>
      have hnew : Cell.array ref ∉ path := hapart _ List.mem_cons_self
      have hself : Cell.array ref ∉ rest :=
        Shows.head_notMem (.array has items) items.part_of_mem
      have hlength := hpath.length_le
      obtain ⟨level, rfl⟩ : ∃ fewer, level = fewer + 1 := ⟨level - 1, by omega⟩
      have hbelow : ∀ cell ∈ rest, cell ∉ Cell.array ref :: path := by
        intro cell hcell hmem
        rcases List.mem_cons.mp hmem with rfl | hmem
        · exact hself hcell
        · exact hapart cell (List.mem_cons_of_mem _ hcell) hmem
      have hitems := items.map_readTo_eq (hpath.cons has hnew) hbelow
        (by rw [List.length_cons]; omega : s.cellCount < (Cell.array ref :: path).length + level)
      simp only [readTo, hnew, if_false, hitems]
  | @object trees ref rest has members =>
      have hnew : Cell.object ref ∉ path := hapart _ List.mem_cons_self
      have hself : Cell.object ref ∉ rest :=
        Shows.head_notMem (.object has members) members.part_of_mem
      have hlength := hpath.length_le
      obtain ⟨level, rfl⟩ : ∃ fewer, level = fewer + 1 := ⟨level - 1, by omega⟩
      have hbelow : ∀ cell ∈ rest, cell ∉ Cell.object ref :: path := by
        intro cell hcell hmem
        rcases List.mem_cons.mp hmem with rfl | hmem
        · exact hself hcell
        · exact hapart cell (List.mem_cons_of_mem _ hcell) hmem
      have hmembers := members.map_readTo_eq (hpath.cons has hnew) hbelow
        (by rw [List.length_cons]; omega : s.cellCount < (Cell.object ref :: path).length + level)
      simp only [readTo, hnew, if_false, hmembers]

theorem ShowsItems.map_readTo_eq {s : Store} {trees : List Tree} {values : List Value}
    {cells : List Cell} (h : s.ShowsItems trees values cells) {path : List Cell} {level : Nat}
    (hpath : s.IsPath path) (hapart : ∀ cell ∈ cells, cell ∉ path)
    (hlevel : s.cellCount < path.length + level) : values.map (s.readTo level path) = trees := by
  cases h with
  | nil => rfl
  | cons head tail =>
      rw [List.map_cons,
        head.readTo_eq hpath (fun cell hcell => hapart cell (by simp [hcell])) hlevel,
        tail.map_readTo_eq hpath (fun cell hcell => hapart cell (by simp [hcell])) hlevel]

theorem ShowsMembers.map_readTo_eq {s : Store} {trees : List (String × Tree)}
    {values : Members Value} {cells : List Cell} (h : s.ShowsMembers trees values cells)
    {path : List Cell} {level : Nat} (hpath : s.IsPath path)
    (hapart : ∀ cell ∈ cells, cell ∉ path) (hlevel : s.cellCount < path.length + level) :
    (values.map fun member => (member.1, s.readTo level path member.2)) = trees := by
  cases h with
  | nil => rfl
  | cons head tail =>
      rw [List.map_cons,
        head.readTo_eq hpath (fun cell hcell => hapart cell (by simp [hcell])) hlevel,
        tail.map_readTo_eq hpath (fun cell hcell => hapart cell (by simp [hcell])) hlevel]
end

theorem Shows.read_eq {s : Store} {tree : Tree} {value : Value} {cells : List Cell}
    (h : s.Shows tree value cells) : s.read value = tree := by
  exact h.readTo_eq (.nil s) (by simp) (by simp)

end Store

end ViewTree
