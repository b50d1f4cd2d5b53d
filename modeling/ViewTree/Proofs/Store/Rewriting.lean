import ViewTree.Proofs.Store.Plots
import ViewTree.Proofs.Store.Relisting

namespace ViewTree

namespace Store

/-- Some places have been written to, and some cells may be different; all else is as it was. -/
structure Rewrites (s : Store) (places : List Place) (cells : List Cell) (after : Store) : Prop where
  grows : s.Grows after
  lengths : ∀ ref, s.Contains (.array ref) → .array ref ∉ cells →
    (after.items ref).length = (s.items ref).length
  items : ∀ ref position, s.Contains (.array ref) → .array ref ∉ cells →
    .element ref position ∉ places → (after.items ref)[position]? = (s.items ref)[position]?
  members : ∀ ref, s.Contains (.object ref) → .object ref ∉ cells →
    after.members ref = s.members ref ∨ .member ref "children" ∈ places ∧
      ∃ value, after.members ref = (s.members ref).put "children" value

variable {s middle after : Store} {places others : List Place} {cells more : List Cell}

theorem ChangesOnly.rewrites (h : s.ChangesOnly cells after) (places : List Place) :
    s.Rewrites places cells after where
  grows := h.grows
  lengths := fun _ has hapart => congrArg List.length (h.items has hapart)
  items := fun _ position has hapart _ => congrArg (·[position]?) (h.items has hapart)
  members := fun _ has hapart => .inl (h.members has hapart)

theorem write_rewrites {place : Place} (hchild : place.IsChild) (s : Store) (value : Value) :
    s.Rewrites [place] [] (s.write place value) where
  grows := write_grows s place value
  lengths := by
    intro ref has _
    cases place with
    | member object name => rfl
    | element array position =>
        by_cases harray : s.Contains (.array array)
        · rw [write, items_setItems harray]
          split
          · next heq => rw [heq, List.length_set]
          · rfl
        · rw [write_of_not_contains harray]
  items := by
    intro ref position _ _ hplace
    have hne : Place.element ref position ≠ place := by simpa using hplace
    exact at?_write_of_ne hne value
  members := by
    intro ref _ _
    cases place with
    | element array position => exact .inl rfl
    | member object name =>
        obtain rfl : name = "children" := hchild
        by_cases hobject : s.Contains (.object object)
        · rw [write, members_setMembers hobject]
          split
          · next heq =>
              subst heq
              exact .inr ⟨List.mem_cons_self, value, rfl⟩
          · exact .inl rfl
        · rw [write_of_not_contains hobject]
          exact .inl rfl

namespace Rewrites

theorem mono (h : s.Rewrites places cells after) (hplaces : ∀ place ∈ places, place ∈ others)
    (hcells : ∀ cell ∈ cells, cell ∈ more) : s.Rewrites others more after where
  grows := h.grows
  lengths := fun ref has hapart => h.lengths ref has fun hmem => hapart (hcells _ hmem)
  items := fun ref position has hapart hplace =>
    h.items ref position has (fun hmem => hapart (hcells _ hmem)) fun hmem => hplace (hplaces _ hmem)
  members := fun ref has hapart =>
    (h.members ref has fun hmem => hapart (hcells _ hmem)).imp_right
      fun ⟨hplace, hput⟩ => ⟨hplaces _ hplace, hput⟩

theorem trans (h : s.Rewrites places cells middle) (hnext : middle.Rewrites others more after)
    (hothers : ∀ place ∈ others, place ∈ places ∨ place.cell ∈ cells ∨ ¬ s.Contains place.cell)
    (hmore : ∀ cell ∈ more, cell ∈ cells ∨ ¬ s.Contains cell) : s.Rewrites places cells after := by
  have hapart : ∀ cell, s.Contains cell → cell ∉ cells → cell ∉ more := fun cell has hcell hmem =>
    (hmore cell hmem).elim hcell fun hnew => hnew has
  have hplace : ∀ place, s.Contains place.cell → place.cell ∉ cells → place ∉ places →
      place ∉ others := fun place has hcell hnot hmem =>
    (hothers place hmem).elim hnot fun hmem => hmem.elim hcell fun hnew => hnew has
  refine ⟨h.grows.trans hnext.grows, ?_, ?_, ?_⟩
  · intro ref has hcell
    exact (hnext.lengths ref (h.grows.contains has) (hapart _ has hcell)).trans
      (h.lengths ref has hcell)
  · intro ref position has hcell hnot
    exact (hnext.items ref position (h.grows.contains has) (hapart _ has hcell)
      (hplace (.element ref position) has hcell hnot)).trans (h.items ref position has hcell hnot)
  · intro ref has hcell
    rcases hnext.members ref (h.grows.contains has) (hapart _ has hcell) with
      hsame | ⟨hmem, value, hafter⟩
    · rw [hsame]
      exact h.members ref has hcell
    · have hlisted : Place.member ref "children" ∈ places := by
        by_contra hnot
        exact hplace (.member ref "children") has hcell hnot hmem
      refine .inr ⟨hlisted, value, ?_⟩
      rcases h.members ref has hcell with hsame | ⟨-, old, hold⟩
      · rw [hafter, hsame]
      · rw [hafter, hold, Members.put_put]

theorem at? (h : s.Rewrites places cells after) {place : Place} (hchild : place.IsChild)
    (has : s.Contains place.cell) (hcell : place.cell ∉ cells) (hplace : place ∉ places) :
    after.at? place = s.at? place := by
  cases place with
  | element array position => exact h.items array position has hcell hplace
  | member object name =>
      obtain rfl : name = "children" := hchild
      rcases h.members object has hcell with hsame | ⟨hmem, -⟩
      · rw [Store.at?, Store.at?, hsame]
      · exact absurd hmem hplace

theorem agreesOn (h : s.Rewrites places cells after) {kept : Cell → Prop}
    (hkept : ∀ cell, kept cell → s.Contains cell) (hcells : ∀ cell, kept cell → cell ∉ cells)
    (hplaces : ∀ place ∈ places, ¬ kept place.cell) : AgreesOn kept s after where
  items := by
    intro ref href
    refine List.ext_getElem? fun position => ?_
    exact h.items ref position (hkept _ href) (hcells _ href) fun hplace => hplaces _ hplace href
  members := by
    intro ref href
    rcases h.members ref (hkept _ href) (hcells _ href) with hsame | ⟨hplace, -⟩
    · exact hsame
    · exact absurd href (hplaces _ hplace)

theorem changesOnly (h : s.Rewrites places cells after) :
    s.ChangesOnly (places.map Place.cell ++ cells) after where
  grows := h.grows
  agrees := h.agreesOn (fun _ => And.left)
    (fun _ hcell hmem => hcell.2 (List.mem_append_right _ hmem))
    fun _ hplace hcell => hcell.2 (List.mem_append_left _ (List.mem_map_of_mem hplace))

theorem shows (h : s.Rewrites places cells after) {t : Tree} {value : Value} {parts : List Cell}
    (hshows : s.Shows t value parts) (hcells : ∀ cell ∈ parts, cell ∉ cells)
    (hplaces : ∀ place ∈ places, place.cell ∉ parts) : after.Shows t value parts :=
  hshows.frame h.grows (h.agreesOn hshows.contains hcells hplaces)

theorem lookup (h : s.Rewrites places cells after) {ref : ObjectRef} (has : s.Contains (.object ref))
    (hcell : .object ref ∉ cells) {name : String} (hname : name ≠ "children") :
    (after.members ref).lookup name = (s.members ref).lookup name := by
  rcases h.members ref has hcell with hsame | ⟨-, value, hput⟩
  · rw [hsame]
  · rw [hput, Members.lookup_put_of_ne hname]

/-- An object has come to hold another value as its `children`, and all else has been rewritten in
the old value only. -/
theorem object (h : s.Rewrites places cells after) {trees : List (String × Tree)} {ref : ObjectRef}
    {rest parts : List Cell} (has : s.Contains (.object ref))
    (hmembers : s.ShowsMembers trees (s.members ref) rest) (hnodup : rest.Nodup) {item : Tree}
    {value next : Value} (htree : trees.lookup "children" = some item)
    (hvalue : s.at? (.member ref "children") = some value) (hold : s.Shows item value parts)
    (hself : .object ref ∉ cells) (hcells : ∀ cell ∈ rest, cell ∈ cells → cell ∈ parts)
    (hplaces : ∀ place ∈ places, place.cell ∈ rest → place.cell ∈ parts)
    (hnext : after.at? (.member ref "children") = some next) {result : Tree} {made : List Cell}
    (hshows : after.Shows result next made) :
    ∃ all, after.Shows (.object (Members.put "children" result trees)) (.object ref)
        (.object ref :: all) ∧ ∀ cell ∈ all, cell ∈ rest ∨ cell ∈ made := by
  have hput : after.members ref = (s.members ref).put "children" next := by
    rcases h.members ref has hself with hsame | ⟨-, other, hother⟩
    · rw [Store.at?, hsame] at hnext
      rw [hsame, Members.put_of_lookup hnext]
    · rw [Store.at?, hother, Members.lookup_put_self] at hnext
      rw [hother, Option.some.inj hnext]
  have hagrees : AgreesOn (fun cell => cell ∈ rest ∧ cell ∉ parts) s after :=
    h.agreesOn (fun cell hcell => hmembers.contains cell hcell.1)
      (fun cell hcell hmem => hcell.2 (hcells cell hcell.1 hmem))
      fun place hplace hcell => hcell.2 (hplaces place hplace hcell.1)
  obtain ⟨all, hall, hallCells⟩ :=
    hmembers.put hnodup htree hvalue hold h.grows hagrees hshows
  exact ⟨all, .object (h.grows.contains has) (hput ▸ hall), hallCells⟩

end Rewrites

end Store

end ViewTree
