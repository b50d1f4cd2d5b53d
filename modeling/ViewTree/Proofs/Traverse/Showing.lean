import ViewTree.Proofs.Traverse.Levels
import ViewTree.Proofs.Traverse.Listing
import ViewTree.Proofs.Walk.Related

namespace ViewTree

open Store (Cell)
open Traverse (Item)
open Tour (Joining)

structure Showing where
  stand : Stand
  shown : Bool
  skipped : Bool

def Stand.item (stand : Stand) : Item :=
  ⟨stand.node, ⟨stand.depth, stand.parent, stand.index, false, []⟩⟩

def TypeFilter.Passes (types : Option (List Tree)) (s : Store) (node : Value) : Prop :=
  ∀ chosen, types = some chosen → ∃ name, s.nodeType? node = some name ∧ Tree.text name ∈ chosen

namespace Showing

def yielded (listing : List Showing) : List Item :=
  (listing.filter (·.shown)).map fun showing => showing.stand.item

/-- Whether the walk is kept from what lies below a node. -/
def Bars (order : Order) (showing : Showing) : Prop :=
  order ≠ .postOrder ∧ showing.shown = true ∧ showing.skipped = true

/-- The latch is set at those nodes shown that the consumer chooses in view of the items before. -/
def Heeds (skips : List Item → Item → Bool) (before : List Item) (listing : List Showing) : Prop :=
  ∀ earlier showing later, listing = earlier ++ showing :: later → showing.shown = true →
    showing.skipped = skips (before ++ yielded earlier) showing.stand.item

theorem yielded_append (listing more : List Showing) :
    yielded (listing ++ more) = yielded listing ++ yielded more := by
  rw [yielded, List.filter_append, List.map_append]
  rfl

theorem yielded_cons (showing : Showing) (listing : List Showing) :
    yielded (showing :: listing) = yielded [showing] ++ yielded listing :=
  yielded_append [showing] listing

theorem heeds_nil (skips : List Item → Item → Bool) (before : List Item) : Heeds skips before [] := by
  intro earlier showing later hsplit
  cases earlier <;> cases hsplit

theorem heeds_cons {skips : List Item → Item → Bool} {before : List Item} {showing : Showing}
    {rest : List Showing}
    (hfirst : showing.shown = true → showing.skipped = skips before showing.stand.item)
    (hrest : Heeds skips (before ++ yielded [showing]) rest) :
    Heeds skips before (showing :: rest) := by
  intro earlier other later hsplit hshown
  cases earlier with
  | nil =>
      cases hsplit
      rw [yielded, List.filter_nil, List.map_nil, List.append_nil]
      exact hfirst hshown
  | cons first earlier =>
      cases hsplit
      have hlater := hrest earlier other later rfl hshown
      rw [List.append_assoc, ← yielded_append] at hlater
      exact hlater

theorem Heeds.append {skips : List Item → Item → Bool} {before : List Item}
    {listing more : List Showing} (h : Heeds skips before listing)
    (hmore : Heeds skips (before ++ yielded listing) more) :
    Heeds skips before (listing ++ more) := by
  induction listing generalizing before with
  | nil =>
      rw [yielded, List.filter_nil, List.map_nil, List.append_nil] at hmore
      exact hmore
  | cons showing listing ih =>
      refine heeds_cons (fun hshown => ?_) (ih (fun earlier other later hsplit hshown => ?_) ?_)
      · have hfirst := h [] showing listing rfl hshown
        rwa [yielded, List.filter_nil, List.map_nil, List.append_nil] at hfirst
      · have hlater := h (showing :: earlier) other later (by rw [hsplit]; rfl) hshown
        rw [List.append_assoc, ← yielded_append]
        exact hlater
      · rwa [List.append_assoc, ← yielded_append]

end Showing

namespace Rose

/-- At each position the node is shown if it is reached and passes the filter; what lies below is
reached if the node is and does not bar it. -/
inductive Selected (order : Order) (types : Option (List Tree))
    (skips : List Item → Item → Bool) (s : Store) : Prop → Rose Showing → Prop
  | mk {reached : Prop} {showing : Showing} {below : List (Rose Showing)}
      (hshown : showing.shown = true ↔ reached ∧ TypeFilter.Passes types s showing.stand.node)
      (hskipped : showing.skipped = true → ∃ before, skips before showing.stand.item = true)
      (hbelow : ∀ rose ∈ below,
        Selected order types skips s (reached ∧ ¬ showing.Bars order) rose) :
      Selected order types skips s reached (.mk showing below)

variable {order : Order} {types : Option (List Tree)} {skips : List Item → Item → Bool} {s : Store}

theorem Selected.holds {reached : Prop} {rose : Rose Showing}
    (h : rose.Selected order types skips s reached) {above : List Showing} {showing : Showing}
    (hholds : rose.Holds above showing) :
    showing.shown = true ↔ (reached ∧ ∀ other ∈ above, ¬ other.Bars order) ∧
      TypeFilter.Passes types s showing.stand.node := by
  induction hholds generalizing reached with
  | top showing below =>
      cases h with
      | mk hshown _ hbelow => simpa using hshown
  | inner top hrose _ ih =>
      cases h with
      | mk hshown _ hbelow => simp only [ih (hbelow _ hrose), List.forall_mem_cons, and_assoc]

theorem Selected.congr {reached other : Prop} {rose : Rose Showing}
    (h : rose.Selected order types skips s reached) (hreached : reached ↔ other) {next : Store}
    (hpasses : ∀ node, TypeFilter.Passes types s node ↔ TypeFilter.Passes types next node) :
    rose.Selected order types skips next other := by
  obtain rfl : reached = other := propext hreached
  induction h with
  | mk hshown hskipped _ ih =>
      exact .mk (hshown.trans (and_congr_right' (hpasses _))) hskipped fun rose hrose =>
        ih rose hrose .rfl

theorem Selected.map_shown {rose : Rose Showing} (h : rose.Selected order types skips s True)
    (hfree : order = .postOrder ∨ ∀ before item, skips before item = false) :
    rose.map (fun showing => (showing.stand, showing.shown = true)) =
      (rose.map Showing.stand).map fun stand => (stand, TypeFilter.Passes types s stand.node) := by
  induction rose using induct with
  | mk showing below ih =>
      cases h with
      | mk hshown hskipped hbelow =>
          have hopen : ¬ showing.Bars order := by
            intro hbars
            rcases hfree with rfl | hfree
            · exact hbars.1 rfl
            · obtain ⟨before, hchosen⟩ := hskipped hbars.2.2
              rw [hfree] at hchosen
              cases hchosen
          have hrest : (True ∧ ¬ showing.Bars order) = True := by simp [hopen]
          rw [map_mk, map_mk, map_mk, List.map_map, hshown, true_and]
          exact congrArg _ (List.map_congr_left fun rose hrose =>
            ih rose hrose (hrest ▸ hbelow rose hrose))

end Rose

namespace Store

mutual
theorem Shows.length_le_size {s : Store} {tree : Tree} {value : Value} {cells : List Cell}
    (h : s.Shows tree value cells) : cells.length ≤ tree.size := by
  cases h with
  | array has items =>
      have := items.length_le_sizes
      rw [List.length_cons, Tree.size]
      omega
  | object has members =>
      have := members.length_le_memberSizes
      rw [List.length_cons, Tree.size]
      omega
  | _ => exact Nat.zero_le _

theorem ShowsItems.length_le_sizes {s : Store} {trees : List Tree} {values : List Value}
    {cells : List Cell} (h : s.ShowsItems trees values cells) :
    cells.length ≤ Tree.sizes trees := by
  cases h with
  | nil => exact Nat.zero_le _
  | cons head tail =>
      rw [List.length_append]
      exact Nat.add_le_add head.length_le_size tail.length_le_sizes

theorem ShowsMembers.length_le_memberSizes {s : Store} {trees : List (String × Tree)}
    {values : Members Value} {cells : List Cell} (h : s.ShowsMembers trees values cells) :
    cells.length ≤ Tree.memberSizes trees := by
  cases h with
  | nil => exact Nat.zero_le _
  | cons head tail =>
      rw [List.length_append]
      exact Nat.add_le_add head.length_le_size tail.length_le_memberSizes
end

/-- A slot holds a valid node of a tree of no more than so many values. -/
def Fits (s : Store) (bound : Nat) (slot : Slot) : Prop :=
  ∃ tree cells, s.Shows tree slot.node cells ∧ tree.isValid = true ∧ tree.isArray = false ∧
    tree.size ≤ bound

variable {s : Store} {bound : Nat} {slot : Slot}

theorem Fits.pos (h : s.Fits bound slot) : 0 < bound := by
  obtain ⟨tree, -, -, -, -, hsize⟩ := h
  exact Nat.lt_of_lt_of_le tree.size_pos hsize

theorem Fits.mono (h : s.Fits bound slot) {more : Nat} (hmore : bound ≤ more) :
    s.Fits more slot := by
  obtain ⟨tree, cells, hshows, hvalid, harray, hsize⟩ := h
  exact ⟨tree, cells, hshows, hvalid, harray, hsize.trans hmore⟩

theorem Fits.classify (h : s.Fits bound slot) : ∃ kind, s.classify slot.node = .ok kind := by
  obtain ⟨tree, cells, hshows, hvalid, harray, -⟩ := h
  rw [hshows.classify]
  rcases Tree.classify_of_isValid hvalid harray with ⟨-, -, hkind⟩ | ⟨-, -, hkind⟩
  · exact ⟨_, hkind⟩
  · exact ⟨_, hkind⟩

theorem Fits.extended (h : s.Fits bound slot) {next : Store} (hextends : s.Extends next) :
    next.Fits bound slot := by
  obtain ⟨tree, cells, hshows, hrest⟩ := h
  exact ⟨tree, cells, hextends.shows hshows, hrest⟩

theorem Shows.childSlots_trees {tree : Tree} {cells : List Cell}
    (h : s.Shows tree slot.node cells) :
    List.Forall₂ (fun child entry => entry ∈ tree.children ∧ ∃ parts, s.Shows entry.1 child.node parts)
      (s.childSlots slot.node) tree.children := by
  have hpresented : Sight.Presented s slot 0
      ⟨tree, 0, slot.index, slot.parent.map fun ref => s.read (.object ref)⟩ :=
    ⟨⟨cells, h⟩, rfl, rfl, rfl⟩
  have hshown := (List.forall₂_map_right_iff.mp hpresented.childSlots).imp
    fun _ _ hchild => hchild.node
  exact ((List.forall₂_and_left _ _).mpr ⟨fun _ hentry => hentry, hshown.flip⟩).flip

theorem Fits.below (h : s.Fits (bound + 1) slot) :
    ∀ child ∈ s.childSlots slot.node, s.Fits bound child := by
  intro child hchild
  obtain ⟨tree, cells, hshows, hvalid, -, hsize⟩ := h
  obtain ⟨entry, -, hentry, parts, hpart⟩ :=
    exists_of_forall₂ hshows.childSlots_trees child hchild
  have hless : entry.1.size ≤ Tree.sizes (tree.children.map Prod.fst) :=
    Tree.size_le_sizes (List.mem_map_of_mem hentry)
  have := tree.sizes_children_lt
  exact ⟨entry.1, parts, hpart, Tree.everyNode_children hvalid entry hentry,
    Tree.isArray_of_mem_children entry hentry, by omega⟩

theorem Fits.outlineTo_frame (h : s.Fits bound slot) {next : Store} (hextends : s.Extends next)
    {more : Nat} (hmore : bound ≤ more) (depth : Nat) :
    next.outlineTo more (slot.stand depth) = s.outlineTo bound (slot.stand depth) := by
  obtain ⟨tree, cells, hshows, -, -, hsize⟩ := h
  have hlength := hshows.length_le_size
  have hstand : s.Shows tree (slot.stand depth).node cells := hshows
  exact hstand.outlineTo_frame hextends.grows (hextends.agrees.mono hshows.contains)
    (hlength.trans hsize) ((hlength.trans hsize).trans hmore)

theorem Fits.outlineTo_eq (h : s.Fits bound slot) {more : Nat} (hmore : bound ≤ more) (depth : Nat) :
    s.outlineTo more (slot.stand depth) = s.outlineTo bound (slot.stand depth) :=
  h.outlineTo_frame (.refl s) hmore depth

theorem Fits.outlineTo_mk (h : s.Fits bound slot) (depth : Nat) :
    s.outlineTo bound (slot.stand depth) = .mk (slot.stand depth)
      ((s.childSlots slot.node).map fun child => s.outlineTo bound (child.stand (depth + 1))) := by
  obtain ⟨bound, rfl⟩ : ∃ fewer, bound = fewer + 1 := ⟨bound - 1, by have := h.pos; omega⟩
  rw [outlineTo]
  refine congrArg _ (List.map_congr_left fun child hchild => ?_)
  exact ((h.below child hchild).outlineTo_eq (Nat.le_succ bound) _).symm

theorem Fits.child (h : s.Fits bound slot) : ∀ child ∈ s.childSlots slot.node, s.Fits bound child := by
  obtain ⟨bound, rfl⟩ : ∃ fewer, bound = fewer + 1 := ⟨bound - 1, by have := h.pos; omega⟩
  exact fun child hchild => (h.below child hchild).mono (Nat.le_succ bound)

theorem sizes_map_le {f : α → Rose β} {xs : List α} {entries : List (Tree × Nat)}
    (h : List.Forall₂ (fun x entry => (f x).size ≤ entry.1.size) xs entries) :
    Rose.sizes (xs.map f) ≤ Tree.sizes (entries.map Prod.fst) := by
  induction h with
  | nil => exact Nat.le_refl 0
  | cons hhead _ ih => exact Nat.add_le_add hhead ih

theorem Shows.size_outlineTo_le {tree : Tree} {cells : List Cell}
    (h : s.Shows tree slot.node cells) (bound depth : Nat) :
    (s.outlineTo bound (slot.stand depth)).size ≤ tree.size := by
  induction bound generalizing slot tree cells depth with
  | zero => exact tree.size_pos
  | succ bound ih =>
      have hbelow : Rose.sizes ((s.childSlots slot.node).map fun child =>
          s.outlineTo bound (child.stand (depth + 1))) ≤ Tree.sizes (tree.children.map Prod.fst) :=
        sizes_map_le (h.childSlots_trees.imp fun _ _ hchild => hchild.2.elim fun _ hpart =>
          ih hpart (depth + 1))
      have hless := tree.sizes_children_lt
      rw [outlineTo, Rose.size]
      exact (Nat.add_le_add_left hbelow 1).trans (by omega)

mutual
theorem Shows.map_expand_outlineTo {tree : Tree} {value : Value} {cells : List Cell}
    (h : s.Shows tree value cells) (hvalid : tree.isValid = true) {level bound : Nat}
    (hlevel : tree.size ≤ level) (hbound : tree.size ≤ bound) (index : Nat) (place : Place) :
    (s.expand ⟨value, none, index, place⟩).map
        (fun slot => s.outlineTo bound (Context.alone.stand slot.node)) =
      s.outlinesTo level value := by
  by_cases harray : tree.isArray = true
  · cases h with
    | @array trees ref rest has items =>
        simp only [Tree.size] at hlevel hbound
        obtain ⟨level, rfl⟩ : ∃ fewer, level = fewer + 1 := ⟨level - 1, by omega⟩
        rw [items.expand_eq has, outlinesTo]
        exact items.map_expand_outlineTo hvalid (by omega) (by omega) ref 0
    | _ => cases harray
  · have hvalue : ∀ ref, value ≠ .array ref := by
      intro ref href
      subst href
      cases h
      exact harray rfl
    have hfits : s.Fits tree.size ⟨value, none, 0, place⟩ :=
      ⟨tree, cells, h, hvalid, Bool.eq_false_iff.mpr harray, Nat.le_refl _⟩
    rw [expand_of_ne_array hvalue, outlinesTo_of_ne_array hvalue, List.map_singleton]
    have hsame := (hfits.outlineTo_eq hbound 0).trans (hfits.outlineTo_eq hlevel 0).symm
    exact congrArg (fun outline => [outline]) hsame

theorem ShowsItems.map_expand_outlineTo {trees : List Tree} {values : List Value}
    {cells : List Cell} (h : s.ShowsItems trees values cells)
    (hvalid : Tree.everyItem Tree.isNode trees = true) {level bound : Nat}
    (hlevel : Tree.sizes trees ≤ level) (hbound : Tree.sizes trees ≤ bound) (ref : ArrayRef)
    (start : Nat) :
    ((values.zipIdx start).flatMap fun (value, position) =>
        s.expand ⟨value, none, position, .element ref position⟩).map
        (fun slot => s.outlineTo bound (Context.alone.stand slot.node)) =
      values.flatMap (s.outlinesTo level) := by
  cases h with
  | nil => rfl
  | cons head tail =>
      rw [Tree.sizes] at hlevel hbound
      rw [Tree.everyItem, Bool.and_eq_true] at hvalid
      rw [List.zipIdx_cons, List.flatMap_cons, List.map_append, List.flatMap_cons]
      exact congrArg₂ _ (head.map_expand_outlineTo hvalid.1 (by omega) (by omega) start _)
        (tail.map_expand_outlineTo hvalid.2 (by omega) (by omega) ref (start + 1))
end

def topSlots (s : Store) (root : Value) : List Slot :=
  (newArray [root] s).2.rootSlots ⟨s.arrays.size⟩

section

variable {tree : Tree} {root : Value} {cells : List Cell}

theorem topSlots_eq (h : s.Shows tree root cells) :
    s.topSlots root = (s.expand ⟨root, none, 0, .element ⟨s.arrays.size⟩ 0⟩).map fun slot =>
      { slot with index := 0 } := by
  have hextends := newArray_extends [root] s
  have hbox : ((newArray [root] s).2.items ⟨s.arrays.size⟩).headD .null = root := by simp
  have hroot : s.Shows tree (Slot.mk root none 0 (.element ⟨s.arrays.size⟩ 0)).node cells := h
  rw [topSlots, rootSlots, hbox,
    hroot.expand_frame hextends.grows (hextends.agrees.mono h.contains)]

theorem topSlots_presented (h : s.Shows tree root cells) :
    List.Forall₂ (fun slot node => Sight.Presented s slot 0 (.top node)) (s.topSlots root)
      tree.tops := by
  rw [topSlots_eq h]
  exact Sight.expand_tops h _

theorem stand_of_topSlots (h : s.Shows tree root cells) :
    ∀ slot ∈ s.topSlots root, slot.stand 0 = Context.alone.stand slot.node := by
  intro slot hslot
  obtain ⟨node, -, hpresented⟩ := exists_of_forall₂ (topSlots_presented h) slot hslot
  have hparent : slot.parent = none := Option.map_eq_none_iff.mp hpresented.parent
  rw [Slot.stand, hparent, hpresented.index]
  rfl

theorem topSlots_fits (h : s.Shows tree root cells) (hvalid : tree.isValid = true) :
    ∀ slot ∈ s.topSlots root, s.Fits tree.size slot := by
  intro slot hslot
  obtain ⟨node, hnode, hpresented⟩ := exists_of_forall₂ (topSlots_presented h) slot hslot
  obtain ⟨parts, hpart⟩ := hpresented.node
  obtain ⟨entry, hentry, rfl⟩ := List.mem_map.mp hnode
  exact ⟨entry.1, parts, hpart, Tree.everyNode_spread hvalid 0 entry hentry,
    Tree.isArray_of_mem_spread tree 0 entry hentry, Tree.size_le_of_mem_tops hnode⟩

theorem map_topSlots_outlineTo (h : s.Shows tree root cells) (hvalid : tree.isValid = true) :
    (s.topSlots root).map (fun slot => s.outlineTo tree.size (slot.stand 0)) =
      s.outlinesTo tree.size root := by
  rw [List.map_congr_left fun slot hslot => congrArg _ (stand_of_topSlots h slot hslot),
    topSlots_eq h, List.map_map]
  exact h.map_expand_outlineTo hvalid (Nat.le_refl _) (Nat.le_refl _) 0 _

end

end Store

end ViewTree
