import ViewTree.Proofs.Store.Guarding

namespace ViewTree

open Store (Cell)

namespace Value

/-- A value that is no reference out of a store. -/
def IsIn (s : Store) : Value → Prop
  | .array ref => s.Contains (.array ref)
  | .object ref => s.Contains (.object ref)
  | .atom _ | .tuple _ => True

theorem IsIn.grows {s next : Store} {value : Value} (h : value.IsIn s) (hgrows : s.Grows next) :
    value.IsIn next := by
  cases value with
  | array ref =>
      have has : s.Contains (.array ref) := h
      exact hgrows.contains has
  | object ref =>
      have has : s.Contains (.object ref) := h
      exact hgrows.contains has
  | _ => exact trivial

theorem IsIn.avoids {s : Store} {value : Value} (h : value.IsIn s) {cell : Cell}
    (hnew : ¬ s.Contains cell) : value.Avoids (· = cell) := by
  cases value with
  | array ref =>
      rintro rfl
      exact hnew h
  | object ref =>
      rintro rfl
      exact hnew h
  | _ => exact trivial

end Value

namespace Store

structure Closed (s : Store) : Prop where
  items : ∀ ref, ∀ value ∈ s.items ref, value.IsIn s
  members : ∀ ref, ∀ member ∈ s.members ref, member.2.IsIn s

theorem Closed.empty : ({} : Store).Closed := by
  refine ⟨?_, ?_⟩
  · intro ref value hvalue
    simp [Store.items] at hvalue
  · intro ref member hmember
    simp [Store.members] at hmember

theorem Closed.newArray {s : Store} (h : s.Closed) {items : List Value}
    (hitems : ∀ value ∈ items, value.IsIn s) :
    (newArray items s).2.Closed ∧ (Store.newArray items s).1.IsIn (Store.newArray items s).2 := by
  have hextends := newArray_extends items s
  refine ⟨⟨?_, ?_⟩, newArray_contains items s⟩
  · intro ref value hvalue
    by_cases has : (Store.newArray items s).2.Contains (.array ref)
    · rcases contains_newArray has with hold | rfl
      · rw [hextends.agrees.items ref hold] at hvalue
        exact (h.items ref value hvalue).grows hextends.grows
      · rw [items_newArray_self] at hvalue
        exact (hitems value hvalue).grows hextends.grows
    · rw [items_of_not_contains has] at hvalue
      cases hvalue
  · intro ref member hmember
    exact (h.members ref member hmember).grows hextends.grows

theorem Closed.newObject {s : Store} (h : s.Closed) {members : Members Value}
    (hmembers : ∀ member ∈ members, member.2.IsIn s) :
    (newObject members s).2.Closed ∧
      (Store.newObject members s).1.IsIn (Store.newObject members s).2 := by
  have hextends := newObject_extends members s
  refine ⟨⟨?_, ?_⟩, newObject_contains members s⟩
  · intro ref value hvalue
    exact (h.items ref value hvalue).grows hextends.grows
  · intro ref member hmember
    by_cases has : (Store.newObject members s).2.Contains (.object ref)
    · rcases contains_newObject has with hold | rfl
      · rw [hextends.agrees.members ref hold] at hmember
        exact (h.members ref member hmember).grows hextends.grows
      · rw [members_newObject_self] at hmember
        exact (hmembers member hmember).grows hextends.grows
    · rw [members_of_not_contains has] at hmember
      cases hmember

mutual
theorem load_closed (tree : Tree) {s : Store} (h : s.Closed) :
    (load tree s).2.Closed ∧ (load tree s).1.IsIn (load tree s).2 := by
  cases tree with
  | atom a => exact ⟨h, trivial⟩
  | tuple items => exact ⟨h, trivial⟩
  | array trees =>
      obtain ⟨hclosed, hvalues⟩ := loadItems_closed trees h
      exact hclosed.newArray hvalues
  | object trees =>
      obtain ⟨hclosed, hvalues⟩ := loadMembers_closed trees h
      exact hclosed.newObject hvalues

theorem loadItems_closed (trees : List Tree) {s : Store} (h : s.Closed) :
    (loadItems trees s).2.Closed ∧
      ∀ value ∈ (loadItems trees s).1, value.IsIn (loadItems trees s).2 := by
  cases trees with
  | nil => exact ⟨h, by simp [loadItems]⟩
  | cons tree trees =>
      obtain ⟨hhead, hvalue⟩ := load_closed tree h
      obtain ⟨htail, hvalues⟩ := loadItems_closed trees hhead
      refine ⟨htail, ?_⟩
      intro value hmem
      rcases List.mem_cons.mp hmem with rfl | hmem
      · exact hvalue.grows (loadItems_shows trees _).1.grows
      · exact hvalues value hmem

theorem loadMembers_closed (trees : List (String × Tree)) {s : Store} (h : s.Closed) :
    (loadMembers trees s).2.Closed ∧
      ∀ member ∈ (loadMembers trees s).1, member.2.IsIn (loadMembers trees s).2 := by
  cases trees with
  | nil => exact ⟨h, by simp [loadMembers]⟩
  | cons member trees =>
      obtain ⟨name, tree⟩ := member
      obtain ⟨hhead, hvalue⟩ := load_closed tree h
      obtain ⟨htail, hvalues⟩ := loadMembers_closed trees hhead
      refine ⟨htail, ?_⟩
      intro member hmem
      rcases List.mem_cons.mp hmem with rfl | hmem
      · exact hvalue.grows (loadMembers_shows trees _).1.grows
      · exact hvalues member hmem
end

theorem Closed.guards_newArray {s : Store} (h : s.Closed) (items : List Value) :
    (Store.newArray items s).2.Guards (· = .array ⟨s.arrays.size⟩) := by
  have hnew : ¬ s.Contains (.array ⟨s.arrays.size⟩) := Nat.lt_irrefl _
  have hextends := newArray_extends items s
  refine ⟨?_, ?_, ?_⟩
  · rintro cell rfl
    exact newArray_contains items s
  · intro ref href value hvalue
    by_cases has : (Store.newArray items s).2.Contains (.array ref)
    · rcases contains_newArray has with hold | rfl
      · rw [hextends.agrees.items ref hold] at hvalue
        exact (h.items ref value hvalue).avoids hnew
      · exact absurd rfl href
    · rw [items_of_not_contains has] at hvalue
      cases hvalue
  · intro ref _ member hmember
    exact (h.members ref member hmember).avoids hnew

end Store

end ViewTree
