import ViewTree.Proofs.Store.Loading
import ViewTree.Visit.Walk

namespace ViewTree

def Place.cell : Place → Store.Cell
  | .element array _ => .array array
  | .member object _ => .object object

theorem Members.put_of_lookup {name : String} {value : α} {members : Members α}
    (h : members.lookup name = some value) : members.put name value = members := by
  induction members with
  | nil => simp at h
  | cons member rest ih =>
      obtain ⟨first, old⟩ := member
      by_cases hname : first = name
      · subst hname
        obtain rfl : old = value := by simpa using h
        simp [put]
      · have hne : (name == first) = false := by simpa using Ne.symm hname
        rw [List.lookup_cons, hne] at h
        simp [put, hname, ih h]

namespace Store

def at? (s : Store) : Place → Option Value
  | .element array position => (s.items array)[position]?
  | .member object name => (s.members object).lookup name

theorem items_of_not_contains {s : Store} {ref : ArrayRef} (h : ¬ s.Contains (.array ref)) :
    s.items ref = [] := by
  have hsize : s.arrays.size ≤ ref.index := Nat.le_of_not_lt h
  simp [Store.items, hsize]

theorem members_of_not_contains {s : Store} {ref : ObjectRef}
    (h : ¬ s.Contains (.object ref)) : s.members ref = [] := by
  have hsize : s.objects.size ≤ ref.index := Nat.le_of_not_lt h
  simp [Store.members, hsize]

theorem contains_of_at? {s : Store} {place : Place} {value : Value}
    (h : s.at? place = some value) : s.Contains place.cell := by
  cases place with
  | element array position =>
      by_contra hcell
      simp [at?, items_of_not_contains hcell] at h
  | member object name =>
      by_contra hcell
      simp [at?, members_of_not_contains hcell] at h

theorem has_of_at? {s : Store} {place : Place} {value : Value} (h : s.at? place = some value) :
    s.has place = true := by
  cases place with
  | element array position => simpa [has] using (List.getElem?_eq_some_iff.mp h).1
  | member object name => rfl

theorem setIfInBounds_getD {α : Type u} (cells : Array α) (index : Nat) (other : α) :
    cells.setIfInBounds index (cells[index]?.getD other) = cells := by
  apply Array.ext
  · exact Array.size_setIfInBounds
  · intro position _ hposition
    by_cases heq : index = position
    · subst heq
      rw [Array.getElem_setIfInBounds_self, Array.getElem?_eq_getElem hposition,
        Option.getD_some]
    · rw [Array.getElem_setIfInBounds_ne]
      exact heq

theorem setItems_items (s : Store) (ref : ArrayRef) : s.setItems ref (s.items ref) = s := by
  simp only [setItems, Store.items, setIfInBounds_getD]

theorem setMembers_members (s : Store) (ref : ObjectRef) :
    s.setMembers ref (s.members ref) = s := by
  simp only [setMembers, Store.members, setIfInBounds_getD]

@[simp] theorem setItems_setItems (s : Store) (ref : ArrayRef) (items later : List Value) :
    (s.setItems ref items).setItems ref later = s.setItems ref later := by
  simp [setItems]

@[simp] theorem setMembers_setMembers (s : Store) (ref : ObjectRef)
    (members later : Members Value) :
    (s.setMembers ref members).setMembers ref later = s.setMembers ref later := by
  simp [setMembers]

theorem write_of_at? {s : Store} {place : Place} {value : Value}
    (h : s.at? place = some value) : s.write place value = s := by
  cases place with
  | element array position =>
      obtain ⟨hposition, rfl⟩ := List.getElem?_eq_some_iff.mp h
      rw [write, List.set_getElem_self, setItems_items]
  | member object name =>
      rw [write, Members.put_of_lookup h, setMembers_members]

@[simp] theorem size_arrays_write (s : Store) (place : Place) (value : Value) :
    (s.write place value).arrays.size = s.arrays.size := by
  cases place <;> simp [write, setItems, setMembers]

@[simp] theorem size_objects_write (s : Store) (place : Place) (value : Value) :
    (s.write place value).objects.size = s.objects.size := by
  cases place <;> simp [write, setItems, setMembers]

theorem write_grows (s : Store) (place : Place) (value : Value) :
    s.Grows (s.write place value) :=
  ⟨by simp, by simp⟩

theorem contains_write {s : Store} {place : Place} {value : Value} {cell : Cell} :
    (s.write place value).Contains cell ↔ s.Contains cell := by
  cases cell <;> simp [Contains]

theorem write_agreesOn (s : Store) (place : Place) (value : Value) :
    AgreesOn (· ≠ place.cell) s (s.write place value) := by
  cases place with
  | element array position =>
      exact ⟨fun ref href => items_setItems_of_ne s (fun heq => href (congrArg _ heq)) _,
        fun _ _ => rfl⟩
  | member object name =>
      exact ⟨fun _ _ => rfl,
        fun ref href => members_setMembers_of_ne s (fun heq => href (congrArg _ heq)) _⟩

theorem write_apply {place : Place} {value : Value} {s : Store} (h : s.has place = true)
    (world : σ) : Walk.write place value ⟨s, world⟩ = .ok () ⟨s.write place value, world⟩ := by
  simp [Walk.write, h]

theorem write_apply_of_vanished {place : Place} {s : Store} (h : s.has place = false)
    (value : Value) (world : σ) :
    Walk.write place value ⟨s, world⟩ = .error .vanishedPosition ⟨s, world⟩ := by
  simp [Walk.write, h]

theorem write_same_apply {s : Store} {place : Place} {value : Value}
    (h : s.at? place = some value) (world : σ) :
    Walk.write place value ⟨s, world⟩ = .ok () ⟨s, world⟩ := by
  rw [write_apply (has_of_at? h), write_of_at? h]

end Store

end ViewTree
