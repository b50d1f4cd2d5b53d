import ViewTree.Proofs.Store.Joining

/-!
Lots.  Trees that are laid out side by side each have cells of their own.  What such a tree is in a
store of its own is paired with what it is in the larger store, and stays so while its cells are left
alone.
-/

namespace ViewTree

open Store (Cell)

/-- A tree that was laid out among others, and how to find it. -/
structure Lot where
  tree : Tree
  value : Value
  /-- Its cells in a store of its own, with its cells in the larger store. -/
  pairing : Pairing

namespace Lot

def cells (lot : Lot) : Cell → Prop := lot.pairing.right

structure Stands (lot : Lot) (t : Store) : Prop where
  pairs : (Store.load lot.tree {}).2.Pairs lot.pairing t
  value : (Store.load lot.tree {}).1.Pairs lot.pairing lot.value

def Apart (lot other : Lot) : Prop :=
  ∀ cell, lot.cells cell → ¬ other.cells cell

end Lot

namespace Store

/-- A value reads as a tree, and what is reached from it is within some cells of the store. -/
def Displays (t : Store) (region : Cell → Prop) (value : Value) (tree : Tree) : Prop :=
  ∃ (s : Store) (own : Value) (p : Pairing), s.Pairs p t ∧ own.Pairs p value ∧
    s.read own = tree ∧ ∀ cell, p.right cell → region cell

variable {s t later : Store} {p : Pairing}

theorem Pairs.empty (s t : Store) : s.Pairs (fun _ _ => False) t :=
  ⟨fun _ h => h.elim fun _ h => h.elim, fun _ h => h.elim fun _ h => h.elim,
    fun h => h.elim, fun h => h.elim, fun h => h.elim⟩

theorem Pairs.extend (h : s.Pairs p t) (hgrows : t.Grows later)
    (hagrees : AgreesOn p.right t later) : s.Pairs p later :=
  h.frame (.refl s) (.refl _ s) hgrows hagrees

namespace Displays

variable {region : Cell → Prop} {value : Value} {tree : Tree}

theorem frame (h : t.Displays region value tree) (hgrows : t.Grows later)
    (hagrees : AgreesOn region t later) : later.Displays region value tree := by
  obtain ⟨s, own, p, hpairs, hvalue, hread, hregion⟩ := h
  exact ⟨s, own, p, hpairs.extend hgrows (hagrees.mono hregion), hvalue, hread, hregion⟩

theorem mono {larger : Cell → Prop} (h : t.Displays region value tree)
    (hregion : ∀ cell, t.Contains cell → region cell → larger cell) :
    t.Displays larger value tree := by
  obtain ⟨s, own, p, hpairs, hvalue, hread, hcells⟩ := h
  exact ⟨s, own, p, hpairs, hvalue, hread,
    fun cell hcell => hregion cell (hpairs.right cell hcell) (hcells cell hcell)⟩

end Displays

theorem read_array_of_displays {ref : ArrayRef} (has : t.Contains (.array ref)) {trees : List Tree}
    (h : List.Forall₂ (t.Displays (· ≠ .array ref)) (t.items ref) trees) :
    t.read (.array ref) = .array trees := by
  have hpath : t.IsPath [.array ref] := (IsPath.nil t).cons has (by simp)
  have hread : ∀ value tree, t.Displays (· ≠ .array ref) value tree →
      t.readTo t.cellCount [.array ref] value = id tree := by
    rintro value tree ⟨s, own, p, hpairs, hvalue, hread, hregion⟩
    rw [id, ← hread]
    apply hpairs.readTo_path_eq hvalue hpath
    · intro cell hcell hright
      exact hregion cell hright (List.mem_singleton.mp hcell)
    · simp
  rw [Store.read, Store.readTo, if_neg (by simp), map_eq_of_forall₂ h hread, List.map_id]

end Store

namespace Lot

variable {lot : Lot} {t later : Store}

theorem Stands.contains (h : lot.Stands t) {cell : Cell} (hcell : lot.cells cell) :
    t.Contains cell :=
  h.pairs.right cell hcell

theorem Stands.frame (h : lot.Stands t) (hgrows : t.Grows later)
    (hagrees : Store.AgreesOn lot.cells t later) : lot.Stands later :=
  ⟨h.pairs.extend hgrows hagrees, h.value⟩

theorem Stands.displays (h : lot.Stands t) : t.Displays lot.cells lot.value lot.tree := by
  obtain ⟨-, cells, hshows, -⟩ := Store.load_shows lot.tree {}
  exact ⟨_, _, lot.pairing, h.pairs, h.value, hshows.read_eq, fun _ hcell => hcell⟩

theorem exists_of_load (tree : Tree) (s : Store) :
    ∃ lot : Lot, lot.tree = tree ∧ lot.value = (Store.load tree s).1 ∧
      lot.Stands (Store.load tree s).2 ∧ ∀ cell, lot.cells cell → ¬ s.Contains cell := by
  obtain ⟨p, hleads, hvalue⟩ := (Store.Pairs.empty {} s).load tree
  refine ⟨⟨tree, (Store.load tree s).1, p⟩, rfl, rfl, ⟨hleads.pairs, hvalue⟩, ?_⟩
  intro cell hcell
  rcases hleads.right.fresh cell hcell with ⟨_, hnone⟩ | hnew
  · exact hnone.elim
  · exact hnew

theorem exists_of_loadItems (items : List Tree) (s : Store) :
    ∃ lots : List Lot, lots.map Lot.tree = items ∧
      lots.map Lot.value = (Store.loadItems items s).1 ∧
      (∀ lot ∈ lots, lot.Stands (Store.loadItems items s).2) ∧
      (∀ lot ∈ lots, ∀ cell, lot.cells cell → ¬ s.Contains cell) ∧ lots.Pairwise Apart := by
  induction items generalizing s with
  | nil => exact ⟨[], rfl, rfl, by simp, by simp, .nil⟩
  | cons tree items ih =>
      obtain ⟨lot, htree, hvalue, hstands, hnew⟩ := exists_of_load tree s
      obtain ⟨lots, htrees, hvalues, hrest, hlater, hapart⟩ := ih (Store.load tree s).2
      have hextends := (Store.loadItems_shows items (Store.load tree s).2).1
      refine ⟨lot :: lots, ?_, ?_, ?_, ?_, .cons ?_ hapart⟩
      · rw [List.map_cons, htree, htrees]
      · rw [List.map_cons, hvalue, hvalues]
        rfl
      · intro other hother
        rcases List.mem_cons.mp hother with rfl | hother
        · exact hstands.frame hextends.grows
            (hextends.agrees.mono fun _ hcell => hstands.contains hcell)
        · exact hrest other hother
      · intro other hother cell hcell
        rcases List.mem_cons.mp hother with rfl | hother
        · exact hnew cell hcell
        · intro has
          exact hlater other hother cell hcell ((Store.load_shows tree s).1.grows.contains has)
      · intro other hother cell hcell hin
        exact hlater other hother cell hin (hstands.contains hcell)

theorem exists_of_load_array (items : List Tree) :
    ∃ (lots : List Lot) (ref : ArrayRef), lots.map Lot.tree = items ∧
      (Store.load (.array items) {}).1 = .array ref ∧
      (Store.load (.array items) {}).2.items ref = lots.map Lot.value ∧
      (Store.load (.array items) {}).2.Contains (.array ref) ∧
      (∀ lot ∈ lots, lot.Stands (Store.load (.array items) {}).2) ∧
      (∀ lot ∈ lots, ¬ lot.cells (.array ref)) ∧ lots.Pairwise Apart := by
  obtain ⟨lots, htrees, hvalues, hstands, -, hapart⟩ := exists_of_loadItems items {}
  have hextends := Store.newArray_extends (Store.loadItems items {}).1 (Store.loadItems items {}).2
  refine ⟨lots, ⟨(Store.loadItems items {}).2.arrays.size⟩, htrees, rfl, ?_, ?_, ?_, ?_, hapart⟩
  · rw [Store.load_array, Store.items_newArray_self, hvalues]
  · exact Store.newArray_contains _ _
  · intro lot hlot
    exact (hstands lot hlot).frame hextends.grows
      (hextends.agrees.mono fun _ hcell => (hstands lot hlot).contains hcell)
  · intro lot hlot hcell
    exact Nat.lt_irrefl _ ((hstands lot hlot).contains hcell)

end Lot

end ViewTree
