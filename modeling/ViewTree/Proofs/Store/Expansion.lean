import ViewTree.Proofs.Store.Loading
import ViewTree.Proofs.Tree.Children

namespace ViewTree

namespace Store

/-- The arrays a path has passed. -/
structure IsArrayPath (s : Store) (path : List ArrayRef) : Prop where
  nodup : path.Nodup
  contains : ∀ ref ∈ path, s.Contains (.array ref)

theorem IsArrayPath.nil (s : Store) : s.IsArrayPath [] :=
  ⟨List.nodup_nil, by simp⟩

theorem IsArrayPath.cons {s : Store} {path : List ArrayRef} (h : s.IsArrayPath path)
    {ref : ArrayRef} (has : s.Contains (.array ref)) (hnew : ref ∉ path) :
    s.IsArrayPath (ref :: path) := by
  refine ⟨List.nodup_cons.mpr ⟨hnew, h.nodup⟩, ?_⟩
  simpa using ⟨has, h.contains⟩

theorem IsArrayPath.length_le {s : Store} {path : List ArrayRef} (h : s.IsArrayPath path) :
    path.length ≤ s.arrays.size := by
  have hsub : path.toFinset ⊆ (Finset.range s.arrays.size).image ArrayRef.mk := by
    intro ref href
    have hhas := h.contains ref (List.mem_toFinset.mp href)
    exact Finset.mem_image.mpr ⟨ref.index, Finset.mem_range.mpr hhas, rfl⟩
  calc path.length = path.toFinset.card := (List.toFinset_card_of_nodup h.nodup).symm
    _ ≤ ((Finset.range s.arrays.size).image ArrayRef.mk).card := Finset.card_le_card hsub
    _ ≤ (Finset.range s.arrays.size).card := Finset.card_image_le
    _ = s.arrays.size := Finset.card_range _

theorem expandTo_of_ne_array {s : Store} {level : Nat} {path : List ArrayRef} {slot : Slot}
    (h : ∀ ref, slot.node ≠ .array ref) : s.expandTo level path slot = [slot] := by
  unfold expandTo
  split
  · next ref hnode => exact absurd hnode (h ref)
  · rfl

theorem expandTo_array (s : Store) (level : Nat) {path : List ArrayRef} {ref : ArrayRef}
    (hnew : ref ∉ path) (parent : Option ObjectRef) (index : Nat) (place : Place) :
    s.expandTo (level + 1) path ⟨.array ref, parent, index, place⟩ =
      (s.items ref).zipIdx.flatMap fun (value, position) =>
        s.expandTo level (ref :: path) ⟨value, parent, position, .element ref position⟩ :=
  if_neg hnew

theorem expand_of_ne_array {s : Store} {slot : Slot} (h : ∀ ref, slot.node ≠ .array ref) :
    s.expand slot = [slot] :=
  expandTo_of_ne_array h

theorem Shows.ne_array {s : Store} {tree : Tree} {value : Value} {cells : List Cell}
    (h : s.Shows tree value cells) (harray : tree.isArray = false) (ref : ArrayRef) :
    value ≠ .array ref := by
  rintro rfl
  cases h
  cases harray

theorem rootSlots_box {node : Value} (hnode : ∀ ref, node ≠ .array ref) (s : Store) :
    (newArray [node] s).2.rootSlots ⟨s.arrays.size⟩ =
      [⟨node, none, 0, .element ⟨s.arrays.size⟩ 0⟩] := by
  rw [rootSlots, items_newArray_self, List.headD_cons, expand_of_ne_array hnode]
  rfl

mutual
/-- A value that unfolds lies apart from any path above it, so the levels left are enough, in any store
that holds the same in the cells of the value. -/
theorem Shows.expandTo_eq {s next : Store} {tree : Tree} {value : Value} {cells : List Cell}
    (h : s.Shows tree value cells) (hagrees : AgreesOn (· ∈ cells) s next)
    {path other : List ArrayRef} {level later : Nat} (hpath : s.IsArrayPath path)
    (hapart : ∀ ref, Cell.array ref ∈ cells → ref ∉ path) (hother : s.IsArrayPath other)
    (hapartOther : ∀ ref, Cell.array ref ∈ cells → ref ∉ other)
    (hlevel : s.arrays.size ≤ path.length + level)
    (hlater : s.arrays.size ≤ other.length + later)
    (parent : Option ObjectRef) (index : Nat) (place : Place) :
    next.expandTo later other ⟨value, parent, index, place⟩ =
      s.expandTo level path ⟨value, parent, index, place⟩ := by
  cases h with
  | atom a => rw [expandTo_of_ne_array (by simp), expandTo_of_ne_array (by simp)]
  | tuple items => rw [expandTo_of_ne_array (by simp), expandTo_of_ne_array (by simp)]
  | object has members =>
      rw [expandTo_of_ne_array (by simp), expandTo_of_ne_array (by simp)]
  | @array trees ref rest has items =>
      have hnew : ref ∉ path := hapart ref List.mem_cons_self
      have hnewOther : ref ∉ other := hapartOther ref List.mem_cons_self
      have hlonger := hpath.cons has hnew
      have hlongerOther := hother.cons has hnewOther
      have hroom := hlonger.length_le
      have hroomOther := hlongerOther.length_le
      rw [List.length_cons] at hroom hroomOther
      have hself : Cell.array ref ∉ rest :=
        Shows.head_notMem (.array has items) items.part_of_mem
      have hbelow : ∀ passed : List ArrayRef, (∀ below, Cell.array below ∈ rest → below ∉ passed) →
          ∀ below, Cell.array below ∈ rest → below ∉ ref :: passed := by
        intro passed hpassed below hbelow hmem
        rcases List.mem_cons.mp hmem with rfl | hmem
        · exact hself hbelow
        · exact hpassed below hbelow hmem
      obtain ⟨level, rfl⟩ : ∃ fewer, level = fewer + 1 := ⟨level - 1, by omega⟩
      obtain ⟨later, rfl⟩ : ∃ fewer, later = fewer + 1 := ⟨later - 1, by omega⟩
      rw [expandTo_array _ _ hnewOther, expandTo_array _ _ hnew,
        hagrees.items ref List.mem_cons_self]
      refine items.flatMap_expandTo_eq (hagrees.mono fun _ => List.mem_cons_of_mem _) hlonger
        (hbelow path fun below hmem => hapart below (List.mem_cons_of_mem _ hmem)) hlongerOther
        (hbelow other fun below hmem => hapartOther below (List.mem_cons_of_mem _ hmem)) ?_ ?_
        parent ref 0
      · rw [List.length_cons]
        omega
      · rw [List.length_cons]
        omega

theorem ShowsItems.flatMap_expandTo_eq {s next : Store} {trees : List Tree}
    {values : List Value} {cells : List Cell} (h : s.ShowsItems trees values cells)
    (hagrees : AgreesOn (· ∈ cells) s next)
    {path other : List ArrayRef} {level later : Nat} (hpath : s.IsArrayPath path)
    (hapart : ∀ ref, Cell.array ref ∈ cells → ref ∉ path) (hother : s.IsArrayPath other)
    (hapartOther : ∀ ref, Cell.array ref ∈ cells → ref ∉ other)
    (hlevel : s.arrays.size ≤ path.length + level)
    (hlater : s.arrays.size ≤ other.length + later)
    (parent : Option ObjectRef) (ref : ArrayRef) (start : Nat) :
    ((values.zipIdx start).flatMap fun (value, position) =>
        next.expandTo later other ⟨value, parent, position, .element ref position⟩) =
      (values.zipIdx start).flatMap fun (value, position) =>
        s.expandTo level path ⟨value, parent, position, .element ref position⟩ := by
  cases h with
  | nil => rfl
  | cons head tail =>
      simp only [List.zipIdx_cons, List.flatMap_cons]
      rw [head.expandTo_eq (hagrees.mono fun _ => List.mem_append_left _) hpath
          (fun below hmem => hapart below (List.mem_append_left _ hmem)) hother
          (fun below hmem => hapartOther below (List.mem_append_left _ hmem)) hlevel hlater,
        tail.flatMap_expandTo_eq (hagrees.mono fun _ => List.mem_append_right _) hpath
          (fun below hmem => hapart below (List.mem_append_right _ hmem)) hother
          (fun below hmem => hapartOther below (List.mem_append_right _ hmem)) hlevel hlater]
end

theorem Shows.expand_frame {s next : Store} {tree : Tree} {cells : List Cell} {slot : Slot}
    (h : s.Shows tree slot.node cells) (hgrows : s.Grows next)
    (hagrees : AgreesOn (· ∈ cells) s next) : next.expand slot = s.expand slot := by
  exact h.expandTo_eq hagrees (.nil s) (by simp) (.nil s) (by simp) (by simp)
    (by simpa using hgrows.arrays) slot.parent slot.index slot.place

theorem ShowsItems.expand_frame {s next : Store} {trees : List Tree} {values : List Value}
    {cells : List Cell} (h : s.ShowsItems trees values cells) (hgrows : s.Grows next)
    (hagrees : AgreesOn (· ∈ cells) s next) (parent : Option ObjectRef) (ref : ArrayRef)
    (start : Nat) :
    ((values.zipIdx start).flatMap fun (value, position) =>
        next.expand ⟨value, parent, position, .element ref position⟩) =
      (values.zipIdx start).flatMap fun (value, position) =>
        s.expand ⟨value, parent, position, .element ref position⟩ := by
  have hlevel : s.arrays.size ≤ ([] : List ArrayRef).length + s.arrays.size := by simp
  have hlater : s.arrays.size ≤ ([] : List ArrayRef).length + next.arrays.size := by
    simpa using hgrows.arrays
  exact h.flatMap_expandTo_eq hagrees (.nil s) (by simp) (.nil s) (by simp) hlevel hlater parent
    ref start

theorem ShowsItems.expand_eq {s : Store} {trees : List Tree} {ref : ArrayRef}
    {cells : List Cell} (has : s.Contains (.array ref))
    (h : s.ShowsItems trees (s.items ref) cells) (parent : Option ObjectRef) (index : Nat)
    (place : Place) :
    s.expand ⟨.array ref, parent, index, place⟩ =
      (s.items ref).zipIdx.flatMap fun (value, position) =>
        s.expand ⟨value, parent, position, .element ref position⟩ := by
  have hself : Cell.array ref ∉ cells := Shows.head_notMem (.array has h) h.part_of_mem
  obtain ⟨size, hsize⟩ : ∃ fewer, s.arrays.size = fewer + 1 :=
    ⟨s.arrays.size - 1, by have : ref.index < s.arrays.size := has; omega⟩
  have hone : s.IsArrayPath [ref] := (IsArrayPath.nil s).cons has (by simp)
  have hapart : ∀ below, Cell.array below ∈ cells → below ∉ [ref] :=
    fun below hbelow hmem => hself (List.mem_singleton.mp hmem ▸ hbelow)
  have hlevel : s.arrays.size ≤ ([] : List ArrayRef).length + s.arrays.size := by simp
  have hlater : s.arrays.size ≤ [ref].length + size := by
    rw [List.length_singleton]
    omega
  calc s.expand ⟨.array ref, parent, index, place⟩
      = s.expandTo (size + 1) [] ⟨.array ref, parent, index, place⟩ := by rw [expand, hsize]
    _ = (s.items ref).zipIdx.flatMap fun (value, position) =>
          s.expandTo size [ref] ⟨value, parent, position, .element ref position⟩ :=
        expandTo_array s size (by simp) parent index place
    _ = _ := h.flatMap_expandTo_eq (AgreesOn.refl _ s) (.nil s) (by simp) hone hapart hlevel hlater
        parent ref 0

theorem Shows.text? {s : Store} {tree : Tree} {value : Value} {cells : List Cell}
    (h : s.Shows tree value cells) : value.text? = tree.text? := by
  cases h <;> rfl

theorem Shows.isNull {s : Store} {tree : Tree} {value : Value} {cells : List Cell}
    (h : s.Shows tree value cells) : value.isNull = tree.isNull := by
  cases h with
  | atom a => cases a <;> rfl
  | _ => rfl

theorem ShowsMembers.lookup {s : Store} {trees : List (String × Tree)} {values : Members Value}
    {cells : List Cell} (h : s.ShowsMembers trees values cells) (name : String) :
    (trees.lookup name = none ∧ values.lookup name = none) ∨
      ∃ tree value parts, trees.lookup name = some tree ∧ values.lookup name = some value ∧
        s.Shows tree value parts ∧ parts.Sublist cells := by
  induction trees generalizing values cells with
  | nil => cases h; exact .inl ⟨rfl, rfl⟩
  | cons member trees ih =>
      cases h with
      | @cons first tree _ value values cells rest head tail =>
          by_cases hname : name = first
          · subst hname
            exact .inr ⟨tree, value, cells, by simp, by simp, head,
              List.sublist_append_left _ _⟩
          · have hne : (name == first) = false := by simpa using hname
            simp only [List.lookup_cons, hne]
            rcases ih tail with hnone | ⟨tree, value, parts, htree, hvalue, hshows, hparts⟩
            · exact .inl hnone
            · exact .inr ⟨tree, value, parts, htree, hvalue, hshows,
                hparts.trans (List.sublist_append_right _ _)⟩

theorem ShowsMembers.member {s : Store} {trees : List (String × Tree)} {ref : ObjectRef}
    {cells : List Cell} (h : s.ShowsMembers trees (s.members ref) cells) (name : String) :
    ∃ parts, s.Shows ((Tree.object trees).member name) (s.member ref name) parts ∧
      parts.Sublist cells := by
  rcases h.lookup name with ⟨htree, hvalue⟩ | ⟨tree, value, parts, htree, hvalue, hshows, hparts⟩
  · simp only [Tree.member, Store.member, htree, hvalue, Option.getD_none]
    exact ⟨[], .atom .null, List.nil_sublist _⟩
  · simp only [Tree.member, Store.member, htree, hvalue, Option.getD_some]
    exact ⟨parts, hshows, hparts⟩

theorem ShowsMembers.nodeType? {s : Store} {trees : List (String × Tree)}
    {values : Members Value} {cells : List Cell} (h : s.ShowsMembers trees values cells) :
    Members.nodeType? Value.text? values = Members.nodeType? Tree.text? trees := by
  unfold Members.nodeType?
  rcases h.lookup "type" with ⟨htree, hvalue⟩ | ⟨tree, value, parts, htree, hvalue, hshows, -⟩
  · rw [htree, hvalue]; rfl
  · rw [htree, hvalue, Option.bind_some, Option.bind_some, hshows.text?]

theorem Shows.classify {s : Store} {tree : Tree} {value : Value} {cells : List Cell}
    (h : s.Shows tree value cells) : s.classify value = tree.classify := by
  have hread := h.read_eq
  cases h with
  | atom a => rfl
  | tuple items => rfl
  | array has items => rfl
  | @object trees ref cells has members =>
      have htype := members.nodeType?
      cases hkind : Members.nodeType? Tree.text? trees with
      | none => simp only [Store.classify, Tree.classify, htype, hkind, hread]
      | some name => simp only [Store.classify, Tree.classify, htype, hkind]

theorem Shows.nodeType? {s : Store} {tree : Tree} {value : Value} {cells : List Cell}
    (h : s.Shows tree value cells) : s.nodeType? value = tree.nodeType? := by
  cases h with
  | object has members => exact members.nodeType?
  | _ => rfl

theorem ShowsMembers.childSlots {s : Store} {trees : List (String × Tree)} {ref : ObjectRef}
    {cells : List Cell} (h : s.ShowsMembers trees (s.members ref) cells) :
    s.childSlots (.object ref) =
      if (Tree.object trees).hasChildren then
        s.expand ⟨s.member ref "children", some ref, 0, .member ref "children"⟩
      else [] := by
  obtain ⟨parts, hmember, -⟩ := h.member "children"
  have htype : s.nodeType? (.object ref) = (Tree.object trees).nodeType? := h.nodeType?
  rw [Store.childSlots, htype, hmember.isNull]
  rfl

end Store

end ViewTree
