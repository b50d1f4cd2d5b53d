import ViewTree.Proofs.Store.Placing

/-!
Guarded cells.  As long as nothing outside refers to guarded cells, no walk that starts outside gets
at them: what it reads, lays out or writes lies outside, and the guarded cells stay as they are.
-/

namespace ViewTree

open Store (Cell)

namespace Members

theorem mem_put {name : String} {value : α} {members : Members α} {member : String × α}
    (h : member ∈ put name value members) : member ∈ members ∨ member.2 = value := by
  induction members with
  | nil =>
      right
      rw [List.mem_singleton.mp h]
  | cons first rest ih =>
      obtain ⟨other, old⟩ := first
      unfold put at h
      split at h
      · rcases List.mem_cons.mp h with rfl | h
        · exact .inr rfl
        · exact .inl (List.mem_cons_of_mem _ h)
      · rcases List.mem_cons.mp h with rfl | h
        · exact .inl List.mem_cons_self
        · exact (ih h).imp_left (List.mem_cons_of_mem _)

theorem mem_of_lookup {name : String} {value : α} {members : Members α}
    (h : members.lookup name = some value) : (name, value) ∈ members := by
  obtain ⟨before, rest, rfl, -⟩ := List.lookup_eq_some_iff.mp h
  exact List.mem_append_right _ List.mem_cons_self

end Members

namespace Value

/-- A value that is no guarded cell itself. -/
def Avoids (guarded : Cell → Prop) : Value → Prop
  | .array ref => ¬ guarded (.array ref)
  | .object ref => ¬ guarded (.object ref)
  | .atom _ | .tuple _ => True

end Value

structure Slot.Avoids (guarded : Cell → Prop) (slot : Slot) : Prop where
  node : slot.node.Avoids guarded
  parent : ∀ ref ∈ slot.parent, ¬ guarded (.object ref)
  place : ¬ guarded slot.place.cell

namespace Store

/-- Guarded cells exist, and nothing outside refers to them. -/
structure Guards (guarded : Cell → Prop) (s : Store) : Prop where
  contains : ∀ cell, guarded cell → s.Contains cell
  items : ∀ ref, ¬ guarded (.array ref) → ∀ value ∈ s.items ref, value.Avoids guarded
  members : ∀ ref, ¬ guarded (.object ref) → ∀ member ∈ s.members ref, member.2.Avoids guarded

/-- The guarded cells are as they were, and still guarded. -/
structure Spares (guarded : Cell → Prop) (s after : Store) : Prop where
  agrees : AgreesOn guarded s after
  guards : after.Guards guarded

variable {guarded : Cell → Prop} {s middle after : Store}

theorem Guards.spares (h : s.Guards guarded) : s.Spares guarded s :=
  ⟨.refl guarded s, h⟩

theorem Spares.trans (h : s.Spares guarded middle) (hnext : middle.Spares guarded after) :
    s.Spares guarded after :=
  ⟨h.agrees.trans hnext.agrees, hnext.guards⟩

/-- All there is can be guarded: references that lead nowhere hold nothing. -/
theorem guards_contains (s : Store) : s.Guards s.Contains := by
  refine ⟨fun _ h => h, ?_, ?_⟩
  · intro ref href value hvalue
    rw [items_of_not_contains href] at hvalue
    cases hvalue
  · intro ref href member hmember
    rw [members_of_not_contains href] at hmember
    cases hmember

theorem Guards.new (h : s.Guards guarded) {cell : Cell} (hnew : ¬ s.Contains cell) :
    ¬ guarded cell := by
  intro hcell
  exact hnew (h.contains cell hcell)

theorem contains_newArray {items : List Value} {ref : ArrayRef}
    (h : (newArray items s).2.Contains (.array ref)) :
    s.Contains (.array ref) ∨ ref = ⟨s.arrays.size⟩ := by
  have hindex : ref.index < s.arrays.size + 1 := by
    simpa [Contains, newArray] using h
  rcases Nat.lt_succ_iff_lt_or_eq.mp hindex with hindex | hindex
  · exact .inl hindex
  · right
    cases ref
    exact congrArg ArrayRef.mk hindex

theorem contains_newObject {members : Members Value} {ref : ObjectRef}
    (h : (newObject members s).2.Contains (.object ref)) :
    s.Contains (.object ref) ∨ ref = ⟨s.objects.size⟩ := by
  have hindex : ref.index < s.objects.size + 1 := by
    simpa [Contains, newObject] using h
  rcases Nat.lt_succ_iff_lt_or_eq.mp hindex with hindex | hindex
  · exact .inl hindex
  · right
    cases ref
    exact congrArg ObjectRef.mk hindex

namespace Guards

theorem setItems (h : s.Guards guarded) {ref : ArrayRef} (href : ¬ guarded (.array ref))
    {items : List Value} (hitems : ∀ value ∈ items, value.Avoids guarded) :
    s.Spares guarded (s.setItems ref items) := by
  refine ⟨⟨?_, fun _ _ => rfl⟩, ?_, ?_, ?_⟩
  · intro other hother
    apply items_setItems_of_ne
    rintro rfl
    exact href hother
  · intro cell hcell
    have has := h.contains cell hcell
    cases cell with
    | array other => simpa [Contains, Store.setItems] using has
    | object other => exact has
  · intro other hother value hvalue
    by_cases heq : other = ref
    · subst heq
      by_cases has : s.Contains (.array other)
      · rw [items_setItems has, if_pos rfl] at hvalue
        exact hitems value hvalue
      · have hnone : ¬ (s.setItems other items).Contains (.array other) := by
          simpa [Contains, Store.setItems] using has
        rw [items_of_not_contains hnone] at hvalue
        cases hvalue
    · rw [items_setItems_of_ne s heq] at hvalue
      exact h.items other hother value hvalue
  · exact h.members

theorem setMembers (h : s.Guards guarded) {ref : ObjectRef} (href : ¬ guarded (.object ref))
    {members : Members Value} (hmembers : ∀ member ∈ members, member.2.Avoids guarded) :
    s.Spares guarded (s.setMembers ref members) := by
  refine ⟨⟨fun _ _ => rfl, ?_⟩, ?_, ?_, ?_⟩
  · intro other hother
    apply members_setMembers_of_ne
    rintro rfl
    exact href hother
  · intro cell hcell
    have has := h.contains cell hcell
    cases cell with
    | array other => exact has
    | object other => simpa [Contains, Store.setMembers] using has
  · exact h.items
  · intro other hother member hmember
    by_cases heq : other = ref
    · subst heq
      by_cases has : s.Contains (.object other)
      · rw [members_setMembers has, if_pos rfl] at hmember
        exact hmembers member hmember
      · have hnone : ¬ (s.setMembers other members).Contains (.object other) := by
          simpa [Contains, Store.setMembers] using has
        rw [members_of_not_contains hnone] at hmember
        cases hmember
    · rw [members_setMembers_of_ne s heq] at hmember
      exact h.members other hother member hmember

theorem newArray (h : s.Guards guarded) {items : List Value}
    (hitems : ∀ value ∈ items, value.Avoids guarded) :
    s.Spares guarded (newArray items s).2 ∧ (Store.newArray items s).1.Avoids guarded := by
  have hextends := newArray_extends items s
  refine ⟨⟨hextends.agrees.mono h.contains, ?_, ?_, fun ref href => h.members ref href⟩,
    h.new (Nat.lt_irrefl _)⟩
  · intro cell hcell
    exact hextends.grows.contains (h.contains cell hcell)
  · intro ref href value hvalue
    by_cases has : (Store.newArray items s).2.Contains (.array ref)
    · rcases contains_newArray has with hold | rfl
      · rw [hextends.agrees.items ref hold] at hvalue
        exact h.items ref href value hvalue
      · rw [items_newArray_self] at hvalue
        exact hitems value hvalue
    · rw [items_of_not_contains has] at hvalue
      cases hvalue

theorem newObject (h : s.Guards guarded) {members : Members Value}
    (hmembers : ∀ member ∈ members, member.2.Avoids guarded) :
    s.Spares guarded (newObject members s).2 ∧
      (Store.newObject members s).1.Avoids guarded := by
  have hextends := newObject_extends members s
  refine ⟨⟨hextends.agrees.mono h.contains, ?_, fun ref href => h.items ref href, ?_⟩,
    h.new (Nat.lt_irrefl _)⟩
  · intro cell hcell
    exact hextends.grows.contains (h.contains cell hcell)
  · intro ref href member hmember
    by_cases has : (Store.newObject members s).2.Contains (.object ref)
    · rcases contains_newObject has with hold | rfl
      · rw [hextends.agrees.members ref hold] at hmember
        exact h.members ref href member hmember
      · rw [members_newObject_self] at hmember
        exact hmembers member hmember
    · rw [members_of_not_contains has] at hmember
      cases hmember

theorem write (h : s.Guards guarded) {place : Place} (hplace : ¬ guarded place.cell)
    {value : Value} (hvalue : value.Avoids guarded) : s.Spares guarded (s.write place value) := by
  cases place with
  | element array position =>
      apply h.setItems hplace
      intro item hitem
      rcases List.mem_or_eq_of_mem_set hitem with hitem | rfl
      · exact h.items array hplace item hitem
      · exact hvalue
  | member object name =>
      apply h.setMembers hplace
      intro member hmember
      rcases Members.mem_put hmember with hmember | heq
      · exact h.members object hplace member hmember
      · exact heq ▸ hvalue

theorem write_guards (h : s.Guards guarded) (place : Place) {value : Value}
    (hvalue : value.Avoids guarded) : (s.write place value).Guards guarded := by
  by_cases hplace : guarded place.cell
  · refine ⟨?_, ?_, ?_⟩
    · intro cell hcell
      exact contains_write.mpr (h.contains cell hcell)
    · intro ref href
      have hother : (s.write place value).items ref = s.items ref := by
        cases place with
        | element array position =>
            apply items_setItems_of_ne
            rintro rfl
            exact href hplace
        | member object name => rfl
      rw [hother]
      exact h.items ref href
    · intro ref href
      have hother : (s.write place value).members ref = s.members ref := by
        cases place with
        | element array position => rfl
        | member object name =>
            apply members_setMembers_of_ne
            rintro rfl
            exact href hplace
      rw [hother]
      exact h.members ref href
  · exact (h.write hplace hvalue).guards

theorem member (h : s.Guards guarded) {ref : ObjectRef} (href : ¬ guarded (.object ref))
    (name : String) : (s.member ref name).Avoids guarded := by
  rw [Store.member]
  cases hlookup : (s.members ref).lookup name with
  | none => exact trivial
  | some value => exact h.members ref href (name, value) (Members.mem_of_lookup hlookup)

end Guards

mutual
theorem load_spares (tree : Tree) {s : Store} (h : s.Guards guarded) :
    s.Spares guarded (load tree s).2 ∧ (load tree s).1.Avoids guarded := by
  cases tree with
  | atom a => exact ⟨h.spares, trivial⟩
  | tuple items => exact ⟨h.spares, trivial⟩
  | array trees =>
      obtain ⟨hspares, hvalues⟩ := loadItems_spares trees h
      obtain ⟨hnew, hvalue⟩ := hspares.guards.newArray hvalues
      exact ⟨hspares.trans hnew, hvalue⟩
  | object trees =>
      obtain ⟨hspares, hvalues⟩ := loadMembers_spares trees h
      obtain ⟨hnew, hvalue⟩ := hspares.guards.newObject hvalues
      exact ⟨hspares.trans hnew, hvalue⟩

theorem loadItems_spares (trees : List Tree) {s : Store} (h : s.Guards guarded) :
    s.Spares guarded (loadItems trees s).2 ∧
      ∀ value ∈ (loadItems trees s).1, value.Avoids guarded := by
  cases trees with
  | nil => exact ⟨h.spares, by simp [loadItems]⟩
  | cons tree trees =>
      obtain ⟨hhead, hvalue⟩ := load_spares tree h
      obtain ⟨htail, hvalues⟩ := loadItems_spares trees hhead.guards
      refine ⟨hhead.trans htail, ?_⟩
      intro value hmem
      rcases List.mem_cons.mp hmem with rfl | hmem
      · exact hvalue
      · exact hvalues value hmem

theorem loadMembers_spares (trees : List (String × Tree)) {s : Store} (h : s.Guards guarded) :
    s.Spares guarded (loadMembers trees s).2 ∧
      ∀ member ∈ (loadMembers trees s).1, member.2.Avoids guarded := by
  cases trees with
  | nil => exact ⟨h.spares, by simp [loadMembers]⟩
  | cons member trees =>
      obtain ⟨name, tree⟩ := member
      obtain ⟨hhead, hvalue⟩ := load_spares tree h
      obtain ⟨htail, hvalues⟩ := loadMembers_spares trees hhead.guards
      refine ⟨hhead.trans htail, ?_⟩
      intro member hmem
      rcases List.mem_cons.mp hmem with rfl | hmem
      · exact hvalue
      · exact hvalues member hmem
end

theorem expandTo_avoids (h : s.Guards guarded) (level : Nat) :
    ∀ {path : List ArrayRef} {slot : Slot}, slot.Avoids guarded →
      ∀ child ∈ s.expandTo level path slot, child.Avoids guarded := by
  induction level with
  | zero =>
      intro path slot hslot child hchild
      unfold expandTo at hchild
      split at hchild
      · cases hchild
      · rw [List.mem_singleton.mp hchild]
        exact hslot
  | succ level ih =>
      intro path slot hslot child hchild
      unfold expandTo at hchild
      split at hchild
      · next ref hnode =>
          have href : ¬ guarded (.array ref) := by
            have hvalue := hslot.node
            rw [hnode] at hvalue
            exact hvalue
          simp only at hchild
          split at hchild
          · cases hchild
          · obtain ⟨entry, hentry, hchild⟩ := List.mem_flatMap.mp hchild
            obtain ⟨value, position⟩ := entry
            have hvalue := h.items ref href value (List.fst_mem_of_mem_zipIdx hentry)
            have hitem : Slot.Avoids guarded
                ⟨value, slot.parent, position, .element ref position⟩ :=
              ⟨hvalue, hslot.parent, href⟩
            exact ih hitem child hchild
      · rw [List.mem_singleton.mp hchild]
        exact hslot

theorem childSlots_avoids (h : s.Guards guarded) {node : Value} (hnode : node.Avoids guarded) :
    ∀ child ∈ s.childSlots node, child.Avoids guarded := by
  intro child hchild
  cases node with
  | object ref =>
      unfold childSlots at hchild
      simp only at hchild
      split at hchild
      · have hslot : Slot.Avoids guarded
            ⟨s.member ref "children", some ref, 0, .member ref "children"⟩ := by
          refine ⟨h.member hnode "children", ?_, hnode⟩
          rintro other hother
          cases hother
          exact hnode
        exact expandTo_avoids h _ hslot child hchild
      · cases hchild
  | _ => cases hchild

theorem rootSlots_avoids (h : s.Guards guarded) {box : ArrayRef} (hbox : ¬ guarded (.array box)) :
    ∀ root ∈ s.rootSlots box, root.Avoids guarded := by
  intro root hroot
  obtain ⟨slot, hslot, rfl⟩ := List.mem_map.mp hroot
  have hvalue : ((s.items box).headD .null).Avoids guarded := by
    cases hitems : s.items box with
    | nil => exact trivial
    | cons value rest =>
        apply h.items box hbox
        rw [hitems]
        exact List.mem_cons_self
  have hstart : Slot.Avoids guarded
      ⟨(s.items box).headD .null, none, 0, .element box 0⟩ := by
    refine ⟨hvalue, ?_, hbox⟩
    intro ref href
    cases href
  have havoids := expandTo_avoids h _ hstart slot hslot
  exact ⟨havoids.node, havoids.parent, havoids.place⟩

theorem cellsTo_avoids (h : s.Guards guarded) (level : Nat) :
    ∀ {value : Value}, value.Avoids guarded → ∀ cell ∈ s.cellsTo level value, ¬ guarded cell := by
  induction level with
  | zero =>
      intro value hvalue cell hcell
      cases value with
      | array ref => rw [List.mem_singleton.mp hcell]; exact hvalue
      | object ref => rw [List.mem_singleton.mp hcell]; exact hvalue
      | _ => cases hcell
  | succ level ih =>
      intro value hvalue cell hcell
      cases value with
      | array ref =>
          rcases List.mem_cons.mp hcell with rfl | hcell
          · exact hvalue
          · obtain ⟨item, hitem, hcell⟩ := List.mem_flatMap.mp hcell
            exact ih (h.items ref hvalue item hitem) cell hcell
      | object ref =>
          rcases List.mem_cons.mp hcell with rfl | hcell
          · exact hvalue
          · obtain ⟨member, hmember, hcell⟩ := List.mem_flatMap.mp hcell
            exact ih (h.members ref hvalue member hmember) cell hcell
      | _ => cases hcell

end Store

end ViewTree
