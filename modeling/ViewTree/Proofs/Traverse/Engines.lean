import ViewTree.Proofs.Store.Writing
import ViewTree.Proofs.Transform.Entry
import ViewTree.Proofs.Traverse.Agreement

/-!
The two engines from end to end.  A transform takes an array at the top apart item by item, visits a
primitive on its own and writes every result back; a traversal lists all values at the top level
beforehand.  Both come to the sights of the tree.
-/

namespace ViewTree

open Store (Cell)

namespace Tree

theorem spread_of_ne_array {t : Tree} (h : t.isArray = false) (index : Nat) :
    t.spread index = [(t, index)] := by
  cases t with
  | array items => cases h
  | _ => rfl

theorem tops_of_ne_array {t : Tree} (h : t.isArray = false) : t.tops = [t] := by
  rw [tops, spread_of_ne_array h]
  rfl

theorem map_fst_spread (t : Tree) (index : Nat) : (t.spread index).map Prod.fst = t.tops := by
  cases t <;> rfl

theorem map_fst_spreadItems (items : List Tree) (position : Nat) :
    (spreadItems items position).map Prod.fst = items.flatMap tops := by
  induction items generalizing position with
  | nil => rfl
  | cons item rest ih =>
      rw [spreadItems, List.map_append, map_fst_spread, ih, List.flatMap_cons]

theorem tops_array (items : List Tree) : (array items).tops = items.flatMap tops :=
  map_fst_spreadItems items 0

theorem size_le_of_mem_tops {t node : Tree} (h : node ∈ t.tops) : node.size ≤ t.size :=
  Nat.le_trans (size_le_sizes h) (t.sizes_spread_le 0)

end Tree

namespace Sight

theorem expand_tops {s : Store} {t : Tree} {value : Value} {cells : List Cell}
    (h : s.Shows t value cells) (box : ArrayRef) :
    List.Forall₂ (fun slot node => Presented s slot 0 (top node))
      ((s.expand ⟨value, none, 0, .element box 0⟩).map fun slot => { slot with index := 0 })
      t.tops := by
  have hslots : List.Forall₂ (fun slot sight => Presented s slot 0 sight)
      (s.expand ⟨value, none, 0, .element box 0⟩)
      ((t.spread 0).map fun value => ⟨value.1, 0, value.2, none⟩) :=
    expand_presented h rfl 0 0 _
  rw [Tree.tops]
  refine List.forall₂_map_left_iff.mpr (List.forall₂_map_right_iff.mpr ?_)
  refine (List.forall₂_map_right_iff.mp hslots).imp fun slot entry hslot => ?_
  exact ⟨hslot.node, hslot.depth, rfl, hslot.parent⟩

theorem rootSlots_presented {s : Store} {t : Tree} {value : Value} {cells : List Cell}
    (h : s.Shows t value cells) {box : ArrayRef} (hbox : (s.items box).headD .null = value) :
    List.Forall₂ (fun slot node => Presented s slot 0 (top node)) (s.rootSlots box) t.tops := by
  rw [Store.rootSlots, hbox]
  exact expand_tops h box

theorem traverse_follows (order : Order) (skips : Choice) {s : Store} {t : Tree} {value : Value}
    {cells : List Cell} (h : s.Shows t value cells) {fuel : Nat} (hfuel : t.size ≤ fuel)
    (world : List Sight) :
    Walk.Follows (traverse fuel order .all (consumer skips) value) (t.sights order skips)
      ⟨s, world⟩ fun _ _ _ => True := by
  have hboxed := (Store.newArray_extends [value] s).shows h
  have hbox : ((Store.newArray [value] s).2.items ⟨s.arrays.size⟩).headD .null = value := by simp
  have hsizes : ∀ node ∈ t.tops, node.size ≤ fuel := fun node hnode =>
    Nat.le_trans (Tree.size_le_of_mem_tops hnode) hfuel
  have hrun := run_follows order skips (rootSlots_presented hboxed hbox) hsizes world
  exact .step rfl rfl (.step rfl rfl (hrun.mono fun _ _ _ _ => trivial))

theorem note_apply (skips : Choice) (sight : Sight) (world : List Sight) :
    sight.note skips world =
      .ok (skips sight.node sight.depth sight.index) (world ++ [sight]) := rfl

theorem fromTop_of_isPrimitive (order : Order) (skips : Choice) {node : Tree}
    (h : node.isPrimitive = true) (world : List Sight) :
    fromTop order skips node world = .ok () (world ++ [top node]) := by
  have hkind := node.isPrimitive_iff_classify.mp h
  have hleaf : (top node).children = [] := children_of_ne_structured hkind (by decide)
  have hclassify : Course.classify (σ := List Sight) (top node).node = pure .primitive := by
    show Course.classify node = _
    rw [Course.classify, hkind]
  cases order with
  | preOrder =>
      rw [fromTop, preOrder_eq, hclassify, hleaf, pure_bind, Walk.bind_apply, note_apply]
      simp only [List.forM_eq_forM, List.forM_nil, ite_self]
      rfl
  | postOrder =>
      rw [fromTop, postOrder_eq, hclassify, hleaf, pure_bind]
      rfl
  | breadthFirst =>
      rw [fromTop, breadthFirst, hclassify, hleaf, pure_bind, Walk.bind_apply, note_apply,
        List.append_nil, breadthFirst]
      simp only [ite_self]
      rfl

theorem primitive_visitor (skips : Choice) (node : Value) :
    Transform.primitive [visitor skips] node =
      (consumer skips node .alone >>= fun _ => pure node) := rfl

theorem primitive_apply (skips : Choice) (a : Atom) (s : Store) (world : List Sight) :
    Transform.primitive [visitor skips] (.atom a) ⟨s, world⟩ =
      .ok (.atom a) ⟨s, world ++ [top (.atom a)]⟩ := by
  have hread : s.read (.atom a) = .atom a := (Store.Shows.atom a).read_eq
  rw [primitive_visitor, Walk.bind_apply, consumer_apply, ofVisit, hread]
  rfl

theorem boxed_follows (order : Order) (skips : Choice) {s : Store} {t : Tree} {value : Value}
    {cells : List Cell} (h : s.Shows t value cells) {fuel : Nat} (hfuel : t.size ≤ fuel)
    (world : List Sight) :
    Walk.Follows (do
        let box ← Walk.box value
        Transform.run fuel order [visitor skips] (.setting .null) box
        Walk.unbox box) (t.sights order skips) ⟨s, world⟩
      fun result _ after => result = value ∧ s.Extends after := by
  have hextends := Store.newArray_extends [value] s
  have hbox : ((Store.newArray [value] s).2.items ⟨s.arrays.size⟩).headD .null = value := by simp
  have hsizes : ∀ node ∈ t.tops, node.size ≤ fuel := fun node hnode =>
    Nat.le_trans (Tree.size_le_of_mem_tops hnode) hfuel
  have hrun := run_follows order skips (rootSlots_presented (hextends.shows h) hbox) hsizes world
  rw [tour, ← tour_eq] at hrun
  refine .step rfl rfl (Walk.Follows.andThen (.step rfl rfl hrun) fun _ _ ⟨after, _⟩ hafter => ?_)
  obtain rfl : (Store.newArray [value] s).2 = after := hafter.symm
  exact .of_ok rfl rfl ⟨hbox, hextends⟩

mutual
theorem root_follows (order : Order) (skips : Choice) {s : Store} {t : Tree} {value : Value}
    {cells : List Cell} (h : s.Shows t value cells) {fuel : Nat} (hfuel : t.size < fuel)
    (world : List Sight) :
    Walk.Follows (Transform.root order [visitor skips] (.setting .null) fuel value)
      (t.sights order skips) ⟨s, world⟩
      fun result _ after => result = value ∧ s.Extends after := by
  obtain ⟨fuel, rfl⟩ : ∃ fewer, fuel = fewer + 1 := ⟨fuel - 1, by omega⟩
  have hroom : t.size ≤ fuel := Nat.le_of_lt_succ hfuel
  cases h with
  | atom a =>
      rw [Transform.root]
      split
      · next hprimitive =>
          rw [Tree.sights, Tree.tops_of_ne_array rfl]
          have htop : [Tree.atom a].forM (fromTop order skips) world =
              .ok () (world ++ [top (.atom a)]) := by
            have hnode : (Tree.atom a).isPrimitive = true := hprimitive
            show (fromTop order skips (.atom a) >>= fun _ => pure ()) world = _
            rw [Walk.bind_apply, fromTop_of_isPrimitive order skips hnode]
            rfl
          exact .of_ok (primitive_apply skips a s world) htop ⟨rfl, .refl s⟩
      · exact boxed_follows order skips (.atom a) hroom world
  | tuple items => exact boxed_follows order skips (.tuple items) hroom world
  | object has members => exact boxed_follows order skips (.object has members) hroom world
  | @array trees ref cells has items =>
      have hsizes : Tree.sizes trees < fuel := by simp only [Tree.size] at hroom; omega
      have hitems := rootItems_follows order skips has items hsizes 0 List.drop_zero (.refl s) world
      rw [Transform.root, Tree.sights, Tree.tops_array]
      exact .step rfl rfl (hitems.andThen fun _ _ _ hafter => .pure ⟨rfl, hafter⟩)

theorem rootItems_follows (order : Order) (skips : Choice) {s : Store} {trees : List Tree}
    {ref : ArrayRef} {values : List Value} {cells : List Cell} (has : s.Contains (.array ref))
    (h : s.ShowsItems trees values cells) {fuel : Nat} (hfuel : Tree.sizes trees < fuel)
    (start : Nat) (hstart : (s.items ref).drop start = values) {now : Store}
    (hnow : s.Extends now) (world : List Sight) :
    Walk.Follows ((values.zipIdx start).forM fun (item, position) => do
        let result ← Transform.root order [visitor skips] (.setting .null) fuel item
        Walk.write (.element ref position) result)
      ((trees.flatMap Tree.tops).forM (fromTop order skips)) ⟨now, world⟩
      fun _ _ after => s.Extends after := by
  cases h with
  | nil => exact .pure hnow
  | @cons tree trees value values cells rest head tail =>
      simp only [Tree.sizes] at hfuel
      have hplace : s.at? (.element ref start) = some value := by
        rw [Store.at?, ← List.head?_drop, hstart]
        rfl
      have hrest : (s.items ref).drop (start + 1) = values := by
        rw [← List.tail_drop, hstart]
        rfl
      have hsize : tree.size < fuel := by omega
      have hhead := root_follows order skips (hnow.shows head) hsize world
      have happend : ((tree :: trees).flatMap Tree.tops).forM (fromTop order skips) =
          (tree.sights order skips >>= fun _ =>
            (trees.flatMap Tree.tops).forM (fromTop order skips)) :=
        List.forM_append
      rw [List.zipIdx_cons, happend]
      refine .bind (hhead.andThen fun result _ ⟨after, world⟩ hafter => ?_)
        fun _ _ after hafter => rootItems_follows order skips has tail (by omega) (start + 1) hrest
          hafter after.world
      obtain ⟨rfl, hextends⟩ := hafter
      have hafter := hnow.trans hextends
      have hitems := hafter.agrees.items ref has
      have hsame : after.at? (.element ref start) = some result := by
        rw [Store.at?, hitems]
        exact hplace
      exact .of_ok (Store.write_same_apply hsame world) rfl hafter
end

/-- What was noted, and the failure that cut it short. -/
def account (s : Store) (walk : Walk (List Sight) α) : List Sight × Option Failure :=
  match walk ⟨s, []⟩ with
  | .ok _ session => (session.world, none)
  | .error failure session => (session.world, some failure)

def ofTransform (fuel : Nat) (order : Order) (skips : Choice) (clone : Tree) (root : Value)
    (s : Store) : List Sight × Option Failure :=
  account s <|
    transform fuel [visitor skips] { order := order.setting, clone := clone } root

def ofTraversal (fuel : Nat) (order : Order) (skips : Choice) (clone : Tree) (root : Value)
    (s : Store) : List Sight × Option Failure :=
  account s <| do
    let (order, tree) ← Traverse.prepare { order := order.setting, clone := clone } root
    traverse fuel order .all (consumer skips) tree

end Sight

/-- What there is to see in a tree, and the failure that cuts it short. -/
def Tree.seen (order : Order) (skips : Choice) (t : Tree) : List Sight × Option Failure :=
  match t.sights order skips [] with
  | .ok _ seen => (seen, none)
  | .error failure seen => (seen, some failure)

namespace Sight

theorem account_of_follows {s : Store} {walk : Walk (List Sight) α} {t : Tree} {order : Order}
    {skips : Choice} {post : α → Unit → Store → Prop}
    (h : Walk.Follows walk (t.sights order skips) ⟨s, []⟩ post) :
    account s walk = t.seen order skips := by
  unfold Walk.Follows at h
  unfold account Tree.seen
  split at h
  · next hwalk hcourse =>
      rw [hwalk, hcourse]
      exact Prod.ext h.1 rfl
  · next hwalk hcourse =>
      rw [hwalk, hcourse]
      exact Prod.ext h.2 (congrArg some h.1)
  · exact h.elim

variable {s : Store} {t : Tree} {root : Value} {cells : List Cell} {fuel : Nat}

theorem ofTransform_eq (h : s.Shows t root cells) (hfuel : t.size < fuel) (order : Order)
    (skips : Choice) (clone : Tree) :
    ofTransform fuel order skips clone root s = t.seen order skips := by
  obtain ⟨value, after, copied, hcopy, -, hshows, -⟩ := Walk.copy_shows h clone ([] : List Sight)
  have hroot := root_follows order skips hshows hfuel []
  rw [ofTransform, transform_eq]
  exact account_of_follows (.step rfl rfl (.step hcopy rfl hroot))

theorem ofTraversal_eq (h : s.Shows t root cells) (hfuel : t.size ≤ fuel) (order : Order)
    (skips : Choice) (clone : Tree) :
    ofTraversal fuel order skips clone root s = t.seen order skips := by
  obtain ⟨value, after, copied, hcopy, -, hshows, -⟩ := Walk.copy_shows h clone ([] : List Sight)
  have htraverse := traverse_follows order skips hshows hfuel []
  simp only [ofTraversal, Traverse.prepare_eq, bind_assoc, pure_bind]
  exact account_of_follows (.step rfl rfl (.step hcopy rfl htraverse))

/-- Both engines see the same and fail alike, at values that are no nodes only.  After the children
it is too late to stay away from them. -/
theorem ofTransform_eq_ofTraversal (h : s.Shows t root cells) (hfuel : t.size < fuel)
    (order : Order) (skips : Choice) (clone copy : Tree) :
    ofTransform fuel order skips clone root s = ofTraversal fuel order skips copy root s ∧
      (∀ failure, (ofTransform fuel order skips clone root s).2 = some failure →
        ∃ cause, failure = .invalidNode cause) ∧
      (order = .postOrder → ∀ others,
        ofTransform fuel order skips clone root s = ofTransform fuel order others clone root s ∧
          ofTraversal fuel order skips copy root s = ofTraversal fuel order others copy root s) := by
  have htraversal := ofTraversal_eq h (Nat.le_of_lt hfuel) order
  rw [ofTransform_eq h hfuel, htraversal]
  refine ⟨rfl, ?_, ?_⟩
  · intro failure hfailure
    unfold Tree.seen at hfailure
    split at hfailure
    · cases hfailure
    · next cause seen hcourse =>
        obtain rfl := Option.some.inj hfailure
        exact t.sights_failsAtMisfits order skips [] _ _ hcourse
  · rintro rfl others
    rw [ofTransform_eq h hfuel, htraversal]
    exact ⟨rfl, rfl⟩

def forest : Tree :=
  .array [
    .object [("type", .text "a"), ("children", .array [.object []])],
    .array [.object [("type", .text "b"), ("children", .array [.int 1, .object []])]]]

theorem ofTransform_eq_ofTraversal_forest :
    ∃ cells, (Store.load forest {}).2.Shows forest (Store.load forest {}).1 cells ∧
      forest.size < 20 ∧
      (let skips : Choice := fun node _ _ => node.nodeType? == some "a"
       let seen := ofTraversal 20 .preOrder skips .null (Store.load forest {}).1
         (Store.load forest {}).2
       ofTransform 20 .preOrder skips (.bool true) (Store.load forest {}).1
         (Store.load forest {}).2 = seen ∧ seen.1.length = 3 ∧ seen.2.isSome = true) := by
  obtain ⟨-, cells, hshows, -⟩ := Store.load_shows forest {}
  have hsize : forest.size < 20 := by decide
  exact ⟨cells, hshows, hsize,
    (ofTransform_eq_ofTraversal hshows hsize .preOrder _ (.bool true) .null).1, by decide, by decide⟩

end Sight

end ViewTree
