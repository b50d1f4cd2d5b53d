import ViewTree.Proofs.Store.Expansion
import ViewTree.Proofs.Store.Writing

namespace ViewTree

namespace Store

/-- Of the cells of a store only the given ones may be different later. -/
structure ChangesOnly (s : Store) (cells : List Cell) (after : Store) : Prop where
  grows : s.Grows after
  agrees : AgreesOn (fun cell => s.Contains cell ∧ cell ∉ cells) s after

theorem Extends.changesOnly {s after : Store} (h : s.Extends after) (cells : List Cell) :
    s.ChangesOnly cells after :=
  ⟨h.grows, h.agrees.mono fun _ => And.left⟩

namespace ChangesOnly

variable {s middle after : Store} {cells others : List Cell}

theorem refl (s : Store) (cells : List Cell) : s.ChangesOnly cells s :=
  (Extends.refl s).changesOnly cells

theorem trans (h : s.ChangesOnly cells middle) (hnext : middle.ChangesOnly others after)
    (hothers : ∀ cell ∈ others, cell ∈ cells ∨ ¬ s.Contains cell) : s.ChangesOnly cells after where
  grows := h.grows.trans hnext.grows
  agrees := h.agrees.trans <| hnext.agrees.mono fun cell hcell =>
    ⟨h.grows.contains hcell.1, fun hmem =>
      (hothers cell hmem).elim hcell.2 fun hnew => hnew hcell.1⟩

theorem mono (h : s.ChangesOnly cells after) (hcells : ∀ cell ∈ cells, cell ∈ others) :
    s.ChangesOnly others after :=
  ⟨h.grows, h.agrees.mono fun _ hcell => ⟨hcell.1, fun hmem => hcell.2 (hcells _ hmem)⟩⟩

/-- Changes are told from an earlier store on when the cells it lacks may change. -/
theorem earlier (h : middle.ChangesOnly others after) (hextends : s.Extends middle)
    (hothers : ∀ cell ∈ others, cell ∈ cells ∨ ¬ s.Contains cell) : s.ChangesOnly cells after :=
  (hextends.changesOnly cells).trans h hothers

theorem items (h : s.ChangesOnly cells after) {ref : ArrayRef} (has : s.Contains (.array ref))
    (hapart : .array ref ∉ cells) : after.items ref = s.items ref :=
  h.agrees.items ref ⟨has, hapart⟩

theorem members (h : s.ChangesOnly cells after) {ref : ObjectRef}
    (has : s.Contains (.object ref)) (hapart : .object ref ∉ cells) :
    after.members ref = s.members ref :=
  h.agrees.members ref ⟨has, hapart⟩

theorem agreesOn (h : s.ChangesOnly cells after) {parts : List Cell}
    (hparts : ∀ cell ∈ parts, s.Contains cell) (hapart : ∀ cell ∈ parts, cell ∉ cells) :
    AgreesOn (· ∈ parts) s after :=
  h.agrees.mono fun cell hcell => ⟨hparts cell hcell, hapart cell hcell⟩

theorem shows (h : s.ChangesOnly cells after) {tree : Tree} {value : Value} {parts : List Cell}
    (hshows : s.Shows tree value parts) (hapart : ∀ cell ∈ parts, cell ∉ cells) :
    after.Shows tree value parts :=
  hshows.frame h.grows (h.agreesOn hshows.contains hapart)

theorem showsItems (h : s.ChangesOnly cells after) {trees : List Tree} {values : List Value}
    {parts : List Cell} (hshows : s.ShowsItems trees values parts)
    (hapart : ∀ cell ∈ parts, cell ∉ cells) : after.ShowsItems trees values parts :=
  hshows.frame h.grows (h.agreesOn hshows.contains hapart)

theorem at? (h : s.ChangesOnly cells after) {place : Place} (has : s.Contains place.cell)
    (hapart : place.cell ∉ cells) : after.at? place = s.at? place := by
  cases place with
  | element array position => rw [Store.at?, Store.at?, h.items has hapart]
  | member object name => rw [Store.at?, Store.at?, h.members has hapart]

end ChangesOnly

theorem items_setItems {s : Store} {ref : ArrayRef} (has : s.Contains (.array ref))
    (items : List Value) (other : ArrayRef) :
    (s.setItems ref items).items other = if other = ref then items else s.items other := by
  split
  · next h => rw [h, items_setItems_self s ref items has]
  · next h => rw [items_setItems_of_ne s h]

theorem members_setMembers {s : Store} {ref : ObjectRef} (has : s.Contains (.object ref))
    (members : Members Value) (other : ObjectRef) :
    (s.setMembers ref members).members other =
      if other = ref then members else s.members other := by
  split
  · next h => rw [h, members_setMembers_self s ref members has]
  · next h => rw [members_setMembers_of_ne s h]

theorem ChangesOnly.write {s after : Store} {cells : List Cell} (h : s.ChangesOnly cells after)
    {place : Place} (has : s.Contains place.cell) (hapart : place.cell ∉ cells) (value : Value) :
    (s.write place value).ChangesOnly cells (after.write place value) := by
  refine ⟨⟨by simpa using h.grows.arrays, by simpa using h.grows.objects⟩, ?_, ?_⟩
  · rintro ref ⟨hcell, hmem⟩
    have hsame := h.items (contains_write.mp hcell) hmem
    cases place with
    | element array position =>
        simp only [Store.write, items_setItems has, items_setItems (h.grows.contains has),
          h.items has hapart, hsame]
    | member object name => exact hsame
  · rintro ref ⟨hcell, hmem⟩
    have hsame := h.members (contains_write.mp hcell) hmem
    cases place with
    | element array position => exact hsame
    | member object name =>
        simp only [Store.write, members_setMembers has, members_setMembers (h.grows.contains has),
          h.members has hapart, hsame]

/-- An object whose member gives way to another value shows the tree with that member changed.  The
cells of the old member may change, those of the others may not. -/
theorem ShowsMembers.put {s after : Store} {trees : List (String × Tree)} {values : Members Value}
    {cells : List Cell} (h : s.ShowsMembers trees values cells) (hnodup : cells.Nodup)
    {name : String} {tree : Tree} {value : Value} {old : List Cell}
    (htree : trees.lookup name = some tree) (hvalue : values.lookup name = some value)
    (hold : s.Shows tree value old) (hgrows : s.Grows after)
    (hagrees : AgreesOn (fun cell => cell ∈ cells ∧ cell ∉ old) s after) {next : Value}
    {result : Tree} {parts : List Cell} (hnext : after.Shows result next parts) :
    ∃ all, after.ShowsMembers (Members.put name result trees) (values.put name next) all ∧
      ∀ cell ∈ all, cell ∈ cells ∨ cell ∈ parts := by
  induction trees generalizing values cells with
  | nil => cases htree
  | cons member trees ih =>
      cases h with
      | @cons first item _ held values headCells rest head tail =>
          have hparts := List.nodup_append.mp hnodup
          by_cases hname : first = name
          · subst hname
            obtain rfl : item = tree := by simpa using htree
            obtain rfl : held = value := by simpa using hvalue
            obtain ⟨-, rfl⟩ := head.unique hold
            have hrest : after.ShowsMembers trees values rest :=
              tail.frame hgrows <| hagrees.mono fun cell hcell =>
                ⟨List.mem_append_right _ hcell, fun hmem => hparts.2.2 cell hmem cell hcell rfl⟩
            refine ⟨parts ++ rest, ?_, fun cell hcell => ?_⟩
            · simpa [Members.put] using ShowsMembers.cons hnext hrest
            · rcases List.mem_append.mp hcell with hcell | hcell
              · exact .inr hcell
              · exact .inl (List.mem_append_right _ hcell)
          · have hne : (name == first) = false := by simpa using Ne.symm hname
            rw [List.lookup_cons, hne] at htree hvalue
            obtain ⟨all, hall, hallCells⟩ := ih tail hparts.2.1 htree hvalue <|
              hagrees.mono fun cell hcell => ⟨List.mem_append_right _ hcell.1, hcell.2⟩
            have hbelow : ∀ cell ∈ old, cell ∈ rest := by
              rcases tail.lookup name with ⟨hnone, -⟩ | ⟨_, _, _, hitem, hheld, hshows, hsub⟩
              · rw [hnone] at htree
                cases htree
              · obtain rfl := Option.some.inj (hitem.symm.trans htree)
                obtain rfl := Option.some.inj (hheld.symm.trans hvalue)
                obtain ⟨-, rfl⟩ := hshows.unique hold
                exact fun cell hcell => hsub.subset hcell
            have hhead := head.frame hgrows <| hagrees.mono fun cell hcell =>
              ⟨List.mem_append_left _ hcell, fun hmem =>
                hparts.2.2 cell hcell cell (hbelow cell hmem) rfl⟩
            refine ⟨headCells ++ all, ?_, fun cell hcell => ?_⟩
            · simpa [Members.put, hname] using ShowsMembers.cons hhead hall
            · rcases List.mem_append.mp hcell with hcell | hcell
              · exact .inl (List.mem_append_left _ hcell)
              · exact (hallCells cell hcell).imp_left (List.mem_append_right _)

end Store

end ViewTree
