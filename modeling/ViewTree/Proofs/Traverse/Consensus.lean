import ViewTree.Proofs.Traverse.Positions
import ViewTree.Proofs.Traverse.Selection
import ViewTree.Proofs.Tree.Breadth

namespace ViewTree

open Finset (range)
open Store (Cell mem_positionsTo nodup_positionsTo)
open Tour (Joining)

namespace Rose

theorem sweep_perm (joining : Joining) (roses : List (Rose α)) :
    (sweep joining roses).Perm (roses.flatMap preOrder) := by
  induction roses using sweep.induct joining with
  | case1 => rw [sweep, List.flatMap_nil]
  | case2 value below waiting ih =>
      rw [sweep, List.flatMap_cons, preOrder, preOrders_eq]
      have hjoined := (joining.join_perm waiting below).trans List.perm_append_comm
      have hbelow := ih.trans (hjoined.flatMap_right preOrder)
      rw [List.flatMap_append] at hbelow
      exact hbelow.cons value

theorem postOrder_perm (rose : Rose α) : rose.postOrder.Perm rose.preOrder := by
  induction rose using induct with
  | mk value below ih =>
      rw [postOrder, postOrders_eq, preOrder, preOrders_eq]
      exact (List.perm_append_singleton value _).trans ((List.Perm.flatMap_left below ih).cons value)

theorem listing_perm (order : Order) (rose : Rose α) : (rose.listing order).Perm rose.preOrder := by
  cases order with
  | preOrder => exact .refl _
  | postOrder => exact rose.postOrder_perm
  | breadthFirst =>
      have hone := sweep_perm .behind [rose]
      rwa [List.flatMap_singleton] at hone

end Rose

theorem exists_perm_of_perm_map {f : α → β} {xs : List α} {ys : List β} (h : ys.Perm (xs.map f)) :
    ∃ listed : List α, listed.Perm xs ∧ ys = listed.map f := by
  have himage : List.Forall₂ (fun y x => y = f x) (xs.map f) xs :=
    List.forall₂_map_left_iff.mpr (List.forall₂_same.mpr fun _ _ => rfl)
  obtain ⟨listed, hlisted, hperm⟩ := List.perm_comp_forall₂ h himage
  have hmap := map_eq_of_forall₂ hlisted (f := fun y => y) fun _ _ hsame => hsame
  exact ⟨listed, hperm, (List.map_id' ys).symm.trans hmap⟩

variable {s : Store} {t : Tree} {root : Value} {cells : List Cell} {fuel : Nat}

theorem Store.Shows.map_stand_positions (h : s.Shows t root cells) (hvalid : t.isValid = true) :
    (s.positionsTo t.size (.top root)).map Position.stand =
      (s.outlinesTo t.size root).flatMap Rose.preOrder := by
  have hexpand := h.map_expand_outlineTo hvalid (Nat.le_refl _) (Nat.le_refl _) 0
    (.element ⟨s.arrays.size⟩ 0)
  have htop : s.Shows t (Position.top root).node cells := h
  rw [htop.map_stand_positionsTo hvalid (Nat.le_refl _) (Nat.le_refl _) (.element ⟨s.arrays.size⟩ 0),
    ← hexpand, List.flatMap_map]
  rfl

theorem Store.outlines_perm (s : Store) (bound : Nat) (root : Value) (order : Order) :
    ((s.outlinesTo bound root).flatMap (Rose.listing order)).Perm
      ((s.outlinesTo bound root).flatMap Rose.preOrder) :=
  List.Perm.flatMap_left _ fun rose _ => rose.listing_perm order

open Classical in
/-- A traversal that skips nothing lists the outlines as far as they pass the filter. -/
theorem items_passing (h : s.Shows t root cells) (hvalid : t.isValid = true) (hfuel : t.size ≤ fuel)
    (order : Order) (types : Option (List Tree)) :
    Traverse.items fuel order (.ofTypes types) (fun _ _ => false) root s =
      ((((s.outlinesTo t.size root).flatMap (Rose.listing order)).filter fun stand =>
        TypeFilter.Passes types s stand.node).map Stand.item, none) := by
  obtain ⟨records, houtlines, hselected, -, hitems⟩ :=
    items_recorded h hvalid hfuel order types fun _ _ => false
  rw [hitems, yielded_of_free hselected (.inr fun _ _ => rfl), houtlines]

theorem collect_eq {order : Order} {types : Option (List Tree)} {setting given : Tree}
    (horder : Order.resolve setting = .ok order)
    (htypes : TraverseOptions.readTypes given = .ok types) :
    collect fuel setting given root s =
      match traverse fuel order (.ofTypes types) (Traverse.keeper fun _ _ => false) root ⟨s, []⟩ with
      | .ok _ session => .ok (session.world.map (·.node), session.store)
      | .error failure _ => .error failure := by
  have hprepare : Traverse.prepare ⟨setting, types, .bool false⟩ root =
      (pure (order, root) : Walk (List Traverse.Item) _) := by
    rw [Traverse.prepare, horder]
    rfl
  rw [collect, TraverseOptions.ofSettings, htypes]
  show (match (Traverse.prepare ⟨setting, types, .bool false⟩ root >>= fun found =>
      traverse fuel found.1 (.ofTypes types) (Traverse.keeper fun _ _ => false) found.2 :
        Walk (List Traverse.Item) Unit) ⟨s, []⟩ with
    | .ok _ session => Except.ok (session.world.map Traverse.Item.node, session.store)
    | .error failure _ => Except.error failure) = _
  rw [hprepare]
  rfl

theorem collect_of_items {order : Order} {types : Option (List Tree)} {setting given : Tree}
    {found : List Traverse.Item} (horder : Order.resolve setting = .ok order)
    (htypes : TraverseOptions.readTypes given = .ok types)
    (hitems : Traverse.items fuel order (.ofTypes types) (fun _ _ => false) root s = (found, none)) :
    ∃ next, collect fuel setting given root s = .ok (found.map (·.node), next) := by
  rw [Traverse.items] at hitems
  rw [collect_eq horder htypes]
  cases hwalk : traverse fuel order (.ofTypes types) (Traverse.keeper fun _ _ => false) root
      ⟨s, []⟩ with
  | ok value session =>
      rw [hwalk] at hitems
      cases hitems
      exact ⟨session.store, rfl⟩
  | error failure session =>
      rw [hwalk] at hitems
      cases hitems

theorem items_positions (h : s.Shows t root cells) (hvalid : t.isValid = true)
    (hfuel : t.size ≤ fuel) (order : Order) :
    ∃ listed : List Position, listed.Perm (s.positionsTo t.size (.top root)) ∧
      Traverse.items fuel order .all (fun _ _ => false) root s =
        (listed.map fun position => position.stand.item, none) := by
  have hperm := s.outlines_perm t.size root order
  rw [← h.map_stand_positions hvalid] at hperm
  obtain ⟨listed, hlisted, hstands⟩ := exists_perm_of_perm_map hperm
  refine ⟨listed, hlisted, (items_all h hvalid hfuel order).trans ?_⟩
  rw [hstands, List.map_map]
  rfl

theorem collect_perm (h : s.Shows t root cells) (hvalid : t.isValid = true)
    (hfuel : t.size ≤ fuel) {types : Option (List Tree)} {given : Tree}
    (htypes : TraverseOptions.readTypes given = .ok types) :
    ∃ matching : List Value, ∀ setting order, Order.resolve setting = .ok order →
      ∃ nodes next, collect fuel setting given root s = .ok (nodes, next) ∧
        nodes.Perm matching := by
  classical
  let passes := fun stand : Stand => TypeFilter.Passes types s stand.node
  refine ⟨(((s.outlinesTo t.size root).flatMap Rose.preOrder).filter passes).map Stand.node,
    fun setting order horder => ?_⟩
  obtain ⟨next, hcollect⟩ := collect_of_items horder htypes
    (items_passing h hvalid hfuel order types)
  refine ⟨_, next, hcollect, ?_⟩
  rw [List.map_map]
  exact ((s.outlines_perm t.size root order).filter _).map _

theorem Tree.wideOf_count {type : String} {leaf : Tree} (htype : type ≠ "")
    (hleaf : leaf.countStructured = 0) (depth breadth : Nat) :
    ∃ wide, Tree.wideOf (.int depth) (.int breadth) (.text type) leaf = .ok wide ∧
      wide.countStructured = ∑ level ∈ range (depth + 1), breadth ^ level ∧
      ((breadth : Int) - 1) * wide.countStructured = breadth ^ (depth + 1) - 1 := by
  obtain ⟨wide, hwide, hcount⟩ := Tree.wide_count htype hleaf breadth depth
  refine ⟨wide, ?_, hcount, ?_⟩
  · rw [Tree.wideOf, Tree.steps?_int]
    cases depth with
    | zero => exact hwide
    | succ depth => exact hwide
  · rw [hcount, Nat.cast_sum]
    simp only [Nat.cast_pow]
    exact mul_geom_sum (breadth : Int) (depth + 1)

/-- In every order a traversal lists each position that is reached from the root, arrays apart, once, as
it stands: so deep as there are structured nodes above it, under the nearest of them, with its index in
the innermost array.  Its structured items are as many as are counted in the tree, and the nodes of some
types are as many in every order.  Of a complete tree the count is a geometric sum. -/
theorem traversals_agree (h : s.Shows t root cells) (hvalid : t.isValid = true)
    (hfuel : t.size ≤ fuel) :
    let items := fun order => Traverse.items fuel order .all (fun _ _ => false) root s
    (∃ positions : List Position,
      (positions.map Position.path).Nodup ∧
      (∀ position, position ∈ positions ↔
        s.Reaches (.top root) position ∧ ∀ ref, position.node ≠ .array ref) ∧
      ∀ order, ∃ listed : List Position, listed.Perm positions ∧
        items order = (listed.map fun position => position.stand.item, none)) ∧
    (∀ order, ∀ item ∈ (items order).1, item.context.parent = none ↔ item.context.depth = 0) ∧
    (∀ order other, (items order).1.Perm (items other).1) ∧
    (∀ order, (items order).1.countP (fun item => (s.nodeType? item.node).isSome) =
      t.countStructured) ∧
    (∀ given types, TraverseOptions.readTypes given = .ok types →
      ∃ matching : List Value, ∀ setting order, Order.resolve setting = .ok order →
        ∃ nodes next, collect fuel setting given root s = .ok (nodes, next) ∧
          nodes.Perm matching) ∧
    ∀ (depth breadth : Nat) (type : String) (leaf : Tree), type ≠ "" → leaf.countStructured = 0 →
      ∃ wide, Tree.wideOf (.int depth) (.int breadth) (.text type) leaf = .ok wide ∧
        wide.countStructured = ∑ level ∈ range (depth + 1), breadth ^ level ∧
        ((breadth : Int) - 1) * wide.countStructured = breadth ^ (depth + 1) - 1 := by
  intro items
  have htop : s.Shows t (Position.top root).node cells := h
  have hlisted : ∀ order, ∃ listed : List Position,
      listed.Perm (s.positionsTo t.size (.top root)) ∧
        items order = (listed.map fun position => position.stand.item, none) :=
    items_positions h hvalid hfuel
  refine ⟨⟨s.positionsTo t.size (.top root), nodup_positionsTo _ _ _,
    fun position => mem_positionsTo htop (Nat.le_refl _), hlisted⟩, ?_, ?_, ?_, ?_, ?_⟩
  · intro order item hitem
    obtain ⟨listed, -, hitems⟩ := hlisted order
    rw [hitems] at hitem
    obtain ⟨position, -, rfl⟩ := List.mem_map.mp hitem
    exact List.head?_eq_none_iff.trans List.length_eq_zero_iff.symm
  · intro order other
    obtain ⟨listed, hperm, hitems⟩ := hlisted order
    obtain ⟨others, hotherPerm, hotherItems⟩ := hlisted other
    rw [hitems, hotherItems]
    exact (hperm.trans hotherPerm.symm).map _
  · intro order
    obtain ⟨listed, hperm, hitems⟩ := hlisted order
    rw [hitems, List.countP_map]
    exact (hperm.countP_eq _).trans (htop.countP_positionsTo (Nat.le_refl _))
  · exact fun given types htypes => collect_perm h hvalid hfuel htypes
  · intro depth breadth type leaf htype hleaf
    exact Tree.wideOf_count htype hleaf depth breadth

theorem traversals_agree_nursery :
    let laid := Store.load nursery {}
    let items := fun order => Traverse.items 30 order .all (fun _ _ => false) laid.1 laid.2
    (∃ cells, laid.2.Shows nursery laid.1 cells) ∧ nursery.isValid = true ∧ nursery.size ≤ 30 ∧
      (items .postOrder).1.Perm (items .breadthFirst).1 ∧
      (items .breadthFirst).1.countP (fun item => (laid.2.nodeType? item.node).isSome) = 5 ∧
      ∃ wide, Tree.wideOf (.int 3) (.int 2) (.text "bed") (.text "leaf") = .ok wide ∧
        wide.countStructured = 15 := by
  intro laid items
  obtain ⟨-, cells, hshows, -⟩ := Store.load_shows nursery {}
  have hvalid : nursery.isValid = true := by decide
  have hsize : nursery.size ≤ 30 := by decide
  obtain ⟨-, -, hperm, hcount, -, hwide⟩ := traversals_agree hshows hvalid hsize
  obtain ⟨wide, hwide, hsum, -⟩ := hwide 3 2 "bed" (.text "leaf") (by decide) rfl
  exact ⟨⟨cells, hshows⟩, hvalid, hsize, hperm .postOrder .breadthFirst,
    (hcount .breadthFirst).trans (by decide), wide, hwide, hsum.trans (by decide)⟩

end ViewTree
