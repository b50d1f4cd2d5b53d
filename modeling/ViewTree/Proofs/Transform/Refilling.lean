import ViewTree.Proofs.Store.Rewriting
import ViewTree.Proofs.Transform.Ruling

namespace ViewTree

open Store (Cell)

namespace Rules

variable (rules : Rules) (type : Option String) (depth : Nat)

def revisions (items : List Tree) (start : Nat) : Except Failure (List Tree) :=
  (Tree.reviseItems rules.visit type depth items start).outcome ()

theorem revision_array (items : List Tree) (index : Nat) :
    rules.revision type depth (.array items) index =
      Tree.array <$> rules.revisions type depth items 0 := by
  rw [revision, Tree.revise, Course.outcome_bind_unit]
  rfl

theorem revisions_cons (item : Tree) (items : List Tree) (start : Nat) :
    rules.revisions type depth (item :: items) start = (do
      let first ← rules.revision type depth item start
      let others ← rules.revisions type depth items (start + 1)
      return first :: others) := by
  simp only [revisions, revision, Tree.reviseItems, Course.outcome_bind_unit, Course.outcome_pure]
  rfl

mutual
theorem revision_error {t : Tree} {index : Nat} {entry : Tree × Nat} (h : entry ∈ t.spread index)
    {failure : Failure} (hentry : rules.revision type depth entry.1 entry.2 = .error failure) :
    ∃ cause, rules.revision type depth t index = .error cause := by
  cases t with
  | array items =>
      obtain ⟨cause, hcause⟩ := revisions_error h hentry
      exact ⟨cause, by rw [revision_array, hcause]; rfl⟩
  | _ =>
      obtain rfl := List.mem_singleton.mp h
      exact ⟨failure, hentry⟩

theorem revisions_error {items : List Tree} {start : Nat} {entry : Tree × Nat}
    (h : entry ∈ Tree.spreadItems items start) {failure : Failure}
    (hentry : rules.revision type depth entry.1 entry.2 = .error failure) :
    ∃ cause, rules.revisions type depth items start = .error cause := by
  cases items with
  | nil => cases h
  | cons item rest =>
      rw [revisions_cons]
      rcases List.mem_append.mp h with hmem | hmem
      · obtain ⟨cause, hcause⟩ := revision_error hmem hentry
        exact ⟨cause, by rw [hcause]; rfl⟩
      · obtain ⟨cause, hcause⟩ := revisions_error hmem hentry
        cases hfirst : rules.revision type depth item start with
        | error other => exact ⟨other, rfl⟩
        | ok first => exact ⟨cause, by rw [hcause]; rfl⟩
end

end Rules

namespace Store

/-- A place has come to hold what a tree becomes by the rules, made out of some cells and new ones. -/
def Became (s : Store) (rules : Rules) (type : Option String) (depth : Nat) (cells : List Cell)
    (after : Store) (place : Place) (t : Tree) (index : Nat) : Prop :=
  ∃ value result, rules.revision type depth t index = .ok result ∧
    after.at? place = some value ∧ s.MadeOf cells after value result

structure KeepsArrays (s after : Store) (ref : ArrayRef) : Prop where
  has : after.Contains (.array ref)
  length : (after.items ref).length = (s.items ref).length
  arrays : ∀ (position : Nat) (other : ArrayRef), s.at? (.element ref position) = some (.array other) →
    after.at? (.element ref position) = some (.array other)

variable {s after : Store} {rules : Rules} {type : Option String} {depth : Nat} {all : List Cell}

mutual
theorem Shows.refill {t : Tree} {value : Value} {cells : List Cell} (h : s.Shows t value cells)
    (hlists : ∀ ref, s.Lists value ref → .array ref ∈ all ∧ s.KeepsArrays after ref)
    {parent : Option ObjectRef} {index : Nat} {place : Place} (hat : s.at? place = some value)
    (hkept : ∀ ref, value = .array ref → after.at? place = some value)
    (hslots : ∀ pair ∈ (s.expand ⟨value, parent, index, place⟩).zip (t.spread index),
      s.Became rules type depth all after pair.1.place pair.2.1 pair.2.2) :
    s.Became rules type depth all after place t index := by
  cases h with
  | @array trees ref rest has items =>
      have hself := hlists ref (.self ref)
      rw [items.expand_eq has] at hslots
      have hbelow : ∀ value ∈ s.items ref, ∀ other, s.Lists value other →
          .array other ∈ all ∧ s.KeepsArrays after other := fun value hvalue other hother =>
        hlists other (.item hvalue hother)
      obtain ⟨results, parts, hresults, hshows, hparts⟩ :=
        items.refill hself.2 hbelow List.drop_zero hslots
      refine ⟨.array ref, .array results, ?_, hkept ref rfl, .array ref :: parts,
        .array hself.2.has hshows, fun cell hcell => ?_⟩
      · rw [Rules.revision_array, hresults]
        rfl
      · rcases List.mem_cons.mp hcell with rfl | hcell
        · exact .inl hself.1
        · exact hparts cell hcell
  | _ =>
      rw [expand_of_ne_array (by simp)] at hslots
      exact hslots _ List.mem_cons_self

theorem ShowsItems.refill {trees : List Tree} {values : List Value} {cells : List Cell}
    (h : s.ShowsItems trees values cells) {ref : ArrayRef} (hself : s.KeepsArrays after ref)
    (hlists : ∀ value ∈ values, ∀ other, s.Lists value other →
      .array other ∈ all ∧ s.KeepsArrays after other) {parent : Option ObjectRef} {start : Nat}
    (hitems : (s.items ref).drop start = values)
    (hslots : ∀ pair ∈ ((values.zipIdx start).flatMap fun (value, position) =>
        s.expand ⟨value, parent, position, .element ref position⟩).zip
          (Tree.spreadItems trees start),
      s.Became rules type depth all after pair.1.place pair.2.1 pair.2.2) :
    ∃ results parts, rules.revisions type depth trees start = .ok results ∧
      after.ShowsItems results ((after.items ref).drop start) parts ∧
      ∀ cell ∈ parts, cell ∈ all ∨ ¬ s.Contains cell := by
  cases h with
  | nil =>
      have hlength := List.drop_eq_nil_iff.mp hitems
      rw [List.drop_eq_nil_iff.mpr (hself.length.trans_le hlength)]
      exact ⟨[], [], rfl, .nil, by simp⟩
  | @cons tree trees value values headCells rest head tail =>
      have hat : s.at? (.element ref start) = some value := by
        rw [Store.at?, ← List.head?_drop, hitems]
        rfl
      have hrest : (s.items ref).drop (start + 1) = values := by
        rw [← List.tail_drop, hitems, List.tail_cons]
      let slot : Slot := ⟨value, parent, start, .element ref start⟩
      have hslot : s.Shows tree slot.node headCells := head
      obtain ⟨plots, hplots, htrees, -⟩ := hslot.plots hat trivial
      have hlength : (s.expand slot).length = (tree.spread start).length := by
        rw [hplots, ← htrees, List.length_map, List.length_map]
      rw [List.zipIdx_cons, List.flatMap_cons, Tree.spreadItems, List.zip_append hlength,
        List.forall_mem_append] at hslots
      have hkept : ∀ other, value = .array other → after.at? (.element ref start) = some value := by
        rintro other rfl
        exact hself.arrays start other hat
      obtain ⟨next, first, hfirst, hnext, parts, hshows, hparts⟩ :=
        head.refill (hlists value List.mem_cons_self) hat hkept hslots.1
      obtain ⟨others, more, hothers, hmore, hmoreParts⟩ :=
        tail.refill hself (fun value hvalue => hlists value (List.mem_cons_of_mem _ hvalue)) hrest
          hslots.2
      have hdrop : (after.items ref).drop start = next :: (after.items ref).drop (start + 1) :=
        (List.drop_eq_getElem?_toList_append ..).trans (by rw [← Store.at?, hnext]; rfl)
      refine ⟨first :: others, parts ++ more, ?_, hdrop ▸ .cons hshows hmore, fun cell hcell => ?_⟩
      · rw [Rules.revisions_cons, hfirst, hothers]
        rfl
      · exact (List.mem_append.mp hcell).elim (hparts cell) (hmoreParts cell)
end

end Store

end ViewTree
