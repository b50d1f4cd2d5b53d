import ViewTree.Proofs.Store.Unfolding

namespace ViewTree

namespace Store

theorem newArray_extends (items : List Value) (s : Store) : s.Extends (newArray items s).2 where
  grows := ⟨by simp [newArray], Nat.le_refl _⟩
  agrees := ⟨fun _ hcell => items_newArray_of_lt s items hcell, fun _ _ => rfl⟩

theorem newObject_extends (members : Members Value) (s : Store) :
    s.Extends (newObject members s).2 where
  grows := ⟨Nat.le_refl _, by simp [newObject]⟩
  agrees := ⟨fun _ _ => rfl, fun _ hcell => members_newObject_of_lt s members hcell⟩

@[simp] theorem items_newArray_self (items : List Value) (s : Store) :
    (newArray items s).2.items ⟨s.arrays.size⟩ = items := by
  simp [newArray, Store.items]

@[simp] theorem members_newObject_self (members : Members Value) (s : Store) :
    (newObject members s).2.members ⟨s.objects.size⟩ = members := by
  simp [newObject, Store.members]

theorem newArray_contains (items : List Value) (s : Store) :
    (newArray items s).2.Contains (.array ⟨s.arrays.size⟩) := by
  simp [newArray, Contains]

theorem newObject_contains (members : Members Value) (s : Store) :
    (newObject members s).2.Contains (.object ⟨s.objects.size⟩) := by
  simp [newObject, Contains]

theorem Extends.shows {s next : Store} (h : s.Extends next) {tree : Tree} {value : Value}
    {cells : List Cell} (hshows : s.Shows tree value cells) : next.Shows tree value cells :=
  hshows.frame h.grows (h.agrees.mono hshows.contains)

theorem Extends.showsItems {s next : Store} (h : s.Extends next) {trees : List Tree}
    {values : List Value} {cells : List Cell} (hshows : s.ShowsItems trees values cells) :
    next.ShowsItems trees values cells :=
  hshows.frame h.grows (h.agrees.mono hshows.contains)

theorem Extends.showsMembers {s next : Store} (h : s.Extends next)
    {trees : List (String × Tree)} {values : Members Value} {cells : List Cell}
    (hshows : s.ShowsMembers trees values cells) : next.ShowsMembers trees values cells :=
  hshows.frame h.grows (h.agrees.mono hshows.contains)

theorem load_array (trees : List Tree) (s : Store) :
    load (.array trees) s = newArray (loadItems trees s).1 (loadItems trees s).2 := rfl

theorem load_object (trees : List (String × Tree)) (s : Store) :
    load (.object trees) s = newObject (loadMembers trees s).1 (loadMembers trees s).2 := rfl

/-- Cells that a store does not have, each listed once. -/
structure Fresh (s : Store) (cells : List Cell) : Prop where
  nodup : cells.Nodup
  new : ∀ cell ∈ cells, ¬ s.Contains cell

theorem Fresh.nil (s : Store) : s.Fresh [] :=
  ⟨List.nodup_nil, by simp⟩

theorem Fresh.append {s middle : Store} {cells rest : List Cell} (h : s.Fresh cells)
    (hcells : ∀ cell ∈ cells, middle.Contains cell) (hgrows : s.Grows middle)
    (hrest : middle.Fresh rest) : s.Fresh (cells ++ rest) where
  nodup := h.nodup.append hrest.nodup fun cell hfirst hsecond =>
    hrest.new cell hsecond (hcells cell hfirst)
  new := by
    intro cell hcell hhas
    rcases List.mem_append.mp hcell with hcell | hcell
    · exact h.new cell hcell hhas
    · exact hrest.new cell hcell (hgrows.contains hhas)

theorem Fresh.cons {s middle : Store} {cell : Cell} {rest : List Cell} (h : s.Fresh rest)
    (hrest : ∀ other ∈ rest, middle.Contains other) (hgrows : s.Grows middle)
    (hcell : ¬ middle.Contains cell) : s.Fresh (cell :: rest) where
  nodup := List.nodup_cons.mpr ⟨fun hmem => hcell (hrest cell hmem), h.nodup⟩
  new := by
    intro other hother hhas
    rcases List.mem_cons.mp hother with rfl | hother
    · exact hcell (hgrows.contains hhas)
    · exact h.new other hother hhas

mutual
theorem load_shows (tree : Tree) (s : Store) :
    s.Extends (load tree s).2 ∧
      ∃ cells, (load tree s).2.Shows tree (load tree s).1 cells ∧ s.Fresh cells := by
  cases tree with
  | atom a => exact ⟨.refl s, [], .atom a, .nil s⟩
  | tuple items => exact ⟨.refl s, [], .tuple items, .nil s⟩
  | array trees =>
      obtain ⟨hextends, cells, hshows, hfresh⟩ := loadItems_shows trees s
      have hnew := newArray_extends (loadItems trees s).1 (loadItems trees s).2
      refine ⟨hextends.trans hnew, _, .array (newArray_contains _ _) ?_, hfresh.cons
        (fun cell hcell => hshows.contains cell hcell) hextends.grows (Nat.lt_irrefl _)⟩
      rw [load_array, items_newArray_self]
      exact hnew.showsItems hshows
  | object trees =>
      obtain ⟨hextends, cells, hshows, hfresh⟩ := loadMembers_shows trees s
      have hnew := newObject_extends (loadMembers trees s).1 (loadMembers trees s).2
      refine ⟨hextends.trans hnew, _, .object (newObject_contains _ _) ?_, hfresh.cons
        (fun cell hcell => hshows.contains cell hcell) hextends.grows (Nat.lt_irrefl _)⟩
      rw [load_object, members_newObject_self]
      exact hnew.showsMembers hshows

theorem loadItems_shows (trees : List Tree) (s : Store) :
    s.Extends (loadItems trees s).2 ∧
      ∃ cells, (loadItems trees s).2.ShowsItems trees (loadItems trees s).1 cells ∧
        s.Fresh cells := by
  cases trees with
  | nil => exact ⟨.refl s, [], .nil, .nil s⟩
  | cons tree trees =>
      obtain ⟨hhead, cells, hshows, hfresh⟩ := load_shows tree s
      obtain ⟨htail, rest, hrest, hrestFresh⟩ := loadItems_shows trees (load tree s).2
      exact ⟨hhead.trans htail, cells ++ rest, .cons (htail.shows hshows) hrest,
        hfresh.append hshows.contains hhead.grows hrestFresh⟩

theorem loadMembers_shows (trees : List (String × Tree)) (s : Store) :
    s.Extends (loadMembers trees s).2 ∧
      ∃ cells, (loadMembers trees s).2.ShowsMembers trees (loadMembers trees s).1 cells ∧
        s.Fresh cells := by
  cases trees with
  | nil => exact ⟨.refl s, [], .nil, .nil s⟩
  | cons member trees =>
      obtain ⟨name, tree⟩ := member
      obtain ⟨hhead, cells, hshows, hfresh⟩ := load_shows tree s
      obtain ⟨htail, rest, hrest, hrestFresh⟩ := loadMembers_shows trees (load tree s).2
      exact ⟨hhead.trans htail, cells ++ rest, .cons (htail.shows hshows) hrest,
        hfresh.append hshows.contains hhead.grows hrestFresh⟩
end

theorem Shows.clone {s : Store} {tree : Tree} {value : Value} {cells : List Cell}
    (h : s.Shows tree value cells) :
    s.Extends (Store.clone value s).2 ∧
      ∃ copied, (Store.clone value s).2.Shows tree (Store.clone value s).1 copied ∧
        s.Fresh copied := by
  rw [Store.clone, h.read_eq]
  exact load_shows tree s

end Store

end ViewTree
