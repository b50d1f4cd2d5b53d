import ViewTree.Proofs.Traverse.Selection
import ViewTree.Proofs.Walk.Upholding

namespace ViewTree

open Store (Cell)
open Traverse (Item)

namespace Tree

mutual
def height : Tree → Nat
  | .atom _ | .tuple _ => 1
  | .array items => heightOf items
  | .object members => 1 + heightBelow members

def heightOf : List Tree → Nat
  | [] => 0
  | item :: rest => max item.height (heightOf rest)

def heightBelow : List (String × Tree) → Nat
  | [] => 0
  | (name, value) :: rest =>
    if name = "children" then (if value.isNull then 0 else value.height) else heightBelow rest
end

theorem heightOf_append (items others : List Tree) :
    heightOf (items ++ others) = max (heightOf items) (heightOf others) := by
  induction items with
  | nil => simp [heightOf]
  | cons item rest ih => rw [List.cons_append, heightOf, heightOf, ih, Nat.max_assoc]

mutual
theorem height_eq_tops (t : Tree) : t.height = heightOf t.tops := by
  cases t with
  | array items => rw [height, tops_array, heightOf_eq_tops]
  | _ => rw [tops_of_ne_array rfl, heightOf, heightOf, Nat.max_zero]

theorem heightOf_eq_tops (items : List Tree) : heightOf items = heightOf (items.flatMap tops) := by
  cases items with
  | nil => rfl
  | cons item rest =>
      rw [heightOf, List.flatMap_cons, heightOf_append, ← height_eq_tops item,
        ← heightOf_eq_tops rest]
end

theorem heightBelow_eq (members : List (String × Tree)) :
    heightBelow members =
      if ((object members).member "children").isNull then 0
      else ((object members).member "children").height := by
  induction members with
  | nil => rfl
  | cons member rest ih =>
      obtain ⟨name, value⟩ := member
      rw [heightBelow]
      by_cases hname : name = "children"
      · subst hname
        simp [member]
      · rw [if_neg hname, ih, member_cons_of_ne hname]

theorem height_eq_succ {t : Tree} (hvalid : t.isValid = true) (harray : t.isArray = false) :
    t.height = 1 + heightOf (t.children.map Prod.fst) := by
  cases t with
  | atom a => rfl
  | tuple items => cases hvalid
  | array items => cases harray
  | object members =>
      have hstructured : (object members).isStructured = true := (everyNode_object.mp hvalid).1
      rw [height, heightBelow_eq, children, hasChildren, hstructured, Bool.true_and]
      cases ((object members).member "children").isNull with
      | true => rfl
      | false =>
          simp only [Bool.not_false, if_true, Bool.false_eq_true, if_false, map_fst_spread]
          rw [height_eq_tops]

end Tree

variable {s : Store} {t : Tree} {root : Value} {cells : List Cell} {fuel bound : Nat} {slot : Slot}

theorem heights_map_eq {f : α → Rose β} {xs : List α} {entries : List (Tree × Nat)}
    (h : List.Forall₂ (fun x entry => (f x).height = entry.1.height) xs entries) :
    Rose.heights (xs.map f) = Tree.heightOf (entries.map Prod.fst) := by
  induction h with
  | nil => rfl
  | cons hhead _ ih => rw [List.map_cons, Rose.heights, hhead, ih]; rfl

theorem Store.Shows.height_outlineTo (h : s.Shows t slot.node cells) (hvalid : t.isValid = true)
    (harray : t.isArray = false) (hbound : t.size ≤ bound) (depth : Nat) :
    (s.outlineTo bound (slot.stand depth)).height = t.height := by
  induction bound generalizing slot t cells depth with
  | zero => exact absurd hbound (Nat.not_le_of_lt t.size_pos)
  | succ bound ih =>
      rw [Store.outlineTo, Rose.height, Tree.height_eq_succ hvalid harray]
      refine congrArg (1 + ·) (heights_map_eq (h.childSlots_trees.imp fun child entry hchild => ?_))
      obtain ⟨hentry, parts, hpart⟩ := hchild
      have hless : entry.1.size ≤ Tree.sizes (t.children.map Prod.fst) :=
        Tree.size_le_sizes (List.mem_map_of_mem hentry)
      have := t.sizes_children_lt
      exact ih hpart (Tree.everyNode_children hvalid entry hentry)
        (Tree.isArray_of_mem_children entry hentry) (by omega) (depth + 1)

theorem outlineTo_graded (s : Store) (bound : Nat) (stand : Stand) :
    (s.outlineTo bound stand).Graded Stand.depth := by
  induction bound generalizing stand with
  | zero => exact .mk (by simp) (by simp)
  | succ bound ih =>
      refine .mk (fun rose hrose => ?_) fun rose hrose => ?_
      · obtain ⟨child, -, rfl⟩ := List.mem_map.mp hrose
        cases bound <;> rfl
      · obtain ⟨child, -, rfl⟩ := List.mem_map.mp hrose
        exact ih _

/-- The items of a node in pre-order, taken depth by depth. -/
def Traverse.levels (fuel : Nat) (node : Value) (s : Store) : List Item :=
  (List.range (s.read node).height).flatMap fun depth =>
    (Traverse.items fuel .preOrder .all (fun _ _ => false) node s).1.filter
      (·.context.depth = depth)

theorem items_breadthFirst (h : s.Shows t root cells) (hvalid : t.isValid = true)
    (harray : t.isArray = false) (hfuel : t.size ≤ fuel) :
    Traverse.items fuel .breadthFirst .all (fun _ _ => false) root s =
      (Traverse.levels fuel root s, none) := by
  have hslot : s.Shows t (Slot.mk root none 0 (.element ⟨0⟩ 0)).node cells := h
  have hheight : (s.outlineTo t.size (Context.alone.stand root)).height = t.height :=
    hslot.height_outlineTo hvalid harray (Nat.le_refl t.size) 0
  have hdepth : (s.outlineTo t.size (Context.alone.stand root)).value.depth = 0 := by
    cases t.size <;> rfl
  rw [Traverse.levels, h.read_eq, items_all h hvalid hfuel, items_all h hvalid hfuel,
    Store.outlinesTo_of_ne_array (h.ne_array harray), List.flatMap_singleton, List.flatMap_singleton,
    Rose.listing_breadthFirst, hheight, List.map_flatMap, Rose.listing]
  refine congrArg (·, none) (List.flatMap_congr fun depth _ => ?_)
  have hlevel := (outlineTo_graded s t.size (Context.alone.stand root)).filter_preOrder depth
  rw [hdepth, if_pos (Nat.zero_le depth), Nat.sub_zero] at hlevel
  rw [← hlevel, List.filter_map]
  rfl

/-- What is shown of a tree is shown of its values at the top level, one after the other. -/
theorem items_topSlots (h : s.Shows t root cells) (hvalid : t.isValid = true)
    (hfuel : t.size ≤ fuel) (order : Order) :
    Traverse.items fuel order .all (fun _ _ => false) root s =
      ((s.topSlots root).flatMap fun slot =>
        (Traverse.items fuel order .all (fun _ _ => false) slot.node s).1, none) := by
  rw [items_all h hvalid hfuel, ← Store.map_topSlots_outlineTo h hvalid, List.flatMap_map,
    List.map_flatMap]
  refine congrArg (·, none) (List.flatMap_congr fun slot hslot => ?_)
  have hstand := Store.stand_of_topSlots h slot hslot
  obtain ⟨tree, parts, hpart, hpartValid, harray, hsize⟩ := Store.topSlots_fits h hvalid slot hslot
  have hfits : s.Fits tree.size slot := ⟨tree, parts, hpart, hpartValid, harray, Nat.le_refl _⟩
  have hnode := hpart.ne_array harray
  rw [items_all hpart hpartValid (hsize.trans hfuel), Store.outlinesTo_of_ne_array hnode,
    List.flatMap_singleton, ← hstand, hfits.outlineTo_eq hsize 0]

theorem depths_levels (fuel : Nat) (node : Value) (s : Store) :
    ((Traverse.levels fuel node s).map (·.context.depth)).Pairwise (· ≤ ·) := by
  have hdepth : ∀ depth, ∀ item ∈ (Traverse.items fuel .preOrder .all (fun _ _ => false) node
      s).1.filter (·.context.depth = depth), item.context.depth = depth :=
    fun depth item hitem => of_decide_eq_true (List.mem_filter.mp hitem).2
  rw [Traverse.levels, List.pairwise_map, List.pairwise_flatMap]
  constructor
  · intro depth _
    refine List.pairwise_of_forall_mem_list fun item hitem other hother => ?_
    rw [hdepth depth item hitem, hdepth depth other hother]
  · refine List.pairwise_lt_range.imp fun hless item hitem other hother => ?_
    rw [hdepth _ item hitem, hdepth _ other hother]
    exact Nat.le_of_lt hless

abbrev Walk.Finishes (s : Store) (walk : Walk σ α) (post : α → Prop := fun _ => True) : Prop :=
  Upholds (fun session => session.store = s) (fun failure _ => ∃ cause, failure = .invalidNode cause)
    walk post

section

variable {types : Option (List Tree)} {skips : List Item → Item → Bool}

variable (s types skips) in
theorem step_finishes (slot : Slot) (depth : Nat) :
    Walk.Finishes s ((Traverse.tour (.ofTypes types) (Traverse.keeper skips) .breadthFirst).step slot
        depth) fun below =>
      below = [] ∨ below = (s.childSlots slot.node).map fun child => (child, depth + 1) := by
  rintro ⟨now, world⟩ hsession
  obtain rfl : s = now := hsession.symm
  rw [Walk.Ends]
  cases hkind : s.classify slot.node with
  | error cause =>
      rw [Tour.step, Tour.turn, bind_assoc, Walk.bind_apply, Walk.classify_apply, hkind]
      exact ⟨cause, rfl⟩
  | ok kind =>
      obtain ⟨shown, -, hstep⟩ := Traverse.step_apply types skips
        (show Order.breadthFirst ≠ .postOrder by decide) hkind
      rw [hstep world depth]
      refine ⟨rfl, ?_⟩
      split
      · exact .inl rfl
      · exact .inr rfl

/-- The values below all that waits grow fewer with each visit. -/
theorem breadthFirst_finishes (fuel : Nat) : ∀ {waiting : List (Slot × Nat)} {trees : List Tree},
    List.Forall₂ (fun entry tree => ∃ cells, s.Shows tree entry.1.node cells) waiting trees →
    Tree.sizes trees ≤ fuel →
    Walk.Finishes s ((Traverse.tour (.ofTypes types) (Traverse.keeper skips)
      .breadthFirst).breadthFirst fuel waiting) := by
  induction fuel with
  | zero =>
      intro waiting trees h hsize
      cases h with
      | nil =>
          rw [Tour.breadthFirst_nil]
          exact .pure trivial
      | @cons _ tree =>
          have := tree.size_pos
          rw [Tree.sizes] at hsize
          omega
  | succ fuel ih =>
      intro waiting trees h hsize
      cases h with
      | nil =>
          rw [Tour.breadthFirst_nil]
          exact .pure trivial
      | @cons entry tree waiting trees hhead htail =>
          obtain ⟨slot, depth⟩ := entry
          obtain ⟨cells, hshows⟩ := hhead
          have hless := tree.sizes_children_lt
          rw [Tree.sizes] at hsize
          rw [Tour.breadthFirst_step]
          apply (step_finishes s types skips slot depth).bind
          rintro below (rfl | rfl)
          · rw [List.append_nil]
            exact ih htail (by omega)
          · have hbelow : List.Forall₂ (fun entry tree => ∃ cells, s.Shows tree entry.1.node cells)
                ((s.childSlots slot.node).map fun child => (child, depth + 1))
                (tree.children.map Prod.fst) :=
              List.forall₂_map_left_iff.mpr (List.forall₂_map_right_iff.mpr
                (hshows.childSlots_trees.imp fun _ _ hchild => hchild.2))
            apply ih (List.rel_append htail hbelow)
            rw [Tree.sizes_append]
            omega

theorem items_breadthFirst_finishes (h : s.Shows t root cells) (hfuel : t.size ≤ fuel)
    {failure : Failure}
    (hfailure : (Traverse.items fuel .breadthFirst (.ofTypes types) skips root s).2 = some failure) :
    ∃ cause, failure = .invalidNode cause := by
  have hextends := Store.newArray_extends [root] s
  have hrun : Walk.Finishes (Store.newArray [root] s).2
      ((Traverse.tour (.ofTypes types) (Traverse.keeper skips) .breadthFirst).run .breadthFirst fuel
        (s.topSlots root)) := by
    refine .forM fun slot hslot => ?_
    obtain ⟨tree, htree, hpresented⟩ :=
      exists_of_forall₂ (Store.topSlots_presented h) slot hslot
    obtain ⟨parts, hpart⟩ := hpresented.node
    refine breadthFirst_finishes fuel (.cons ⟨parts, hextends.shows hpart⟩ .nil) ?_
    exact (Tree.size_le_of_mem_tops htree).trans hfuel
  have htraverse : traverse fuel .breadthFirst (.ofTypes types) (Traverse.keeper skips) root
      ⟨s, []⟩ = (Traverse.tour (.ofTypes types) (Traverse.keeper skips) .breadthFirst).run
        .breadthFirst fuel (s.topSlots root) ⟨(Store.newArray [root] s).2, []⟩ := rfl
  rw [Traverse.items, htraverse] at hfailure
  have hends := hrun ⟨(Store.newArray [root] s).2, []⟩ rfl
  unfold Walk.Ends at hends
  split at hends
  · next hok =>
      rw [hok] at hfailure
      cases hfailure
  · next herror =>
      rw [herror] at hfailure
      exact Option.some.inj hfailure ▸ hends

end

/-- Breadth first a traversal shows, below each value at the top level, the items of the pre-order depth
by depth.  It ends on every tree, or at a value that is no node. -/
theorem traverse_breadthFirst_levels (h : s.Shows t root cells) (hfuel : t.size ≤ fuel) :
    (t.isValid = true →
      (t.isArray = false →
        Traverse.items fuel .breadthFirst .all (fun _ _ => false) root s =
          (Traverse.levels fuel root s, none) ∧
        ((Traverse.levels fuel root s).map (·.context.depth)).Pairwise (· ≤ ·)) ∧
      Traverse.items fuel .breadthFirst .all (fun _ _ => false) root s =
        ((s.topSlots root).flatMap fun slot => Traverse.levels fuel slot.node s, none)) ∧
    ∀ types skips failure,
      (Traverse.items fuel .breadthFirst (.ofTypes types) skips root s).2 = some failure →
      ∃ cause, failure = .invalidNode cause := by
  refine ⟨fun hvalid => ⟨fun harray => ?_, ?_⟩, fun _ _ _ => items_breadthFirst_finishes h hfuel⟩
  · exact ⟨items_breadthFirst h hvalid harray hfuel, depths_levels fuel root s⟩
  · rw [items_topSlots h hvalid hfuel]
    refine congrArg (·, none) (List.flatMap_congr fun slot hslot => ?_)
    obtain ⟨tree, parts, hpart, hpartValid, harray, hsize⟩ :=
      Store.topSlots_fits h hvalid slot hslot
    rw [items_breadthFirst hpart hpartValid harray (hsize.trans hfuel)]

theorem traverse_breadthFirst_levels_nursery :
    let laid := Store.load nursery {}
    (∃ cells, laid.2.Shows nursery laid.1 cells) ∧ nursery.size ≤ 30 ∧ nursery.isValid = true ∧
      nursery.isArray = false ∧ nursery.height = 3 ∧
      Traverse.items 30 .breadthFirst .all (fun _ _ => false) laid.1 laid.2 =
        (Traverse.levels 30 laid.1 laid.2, none) ∧
      (Traverse.levels 30 laid.1 laid.2).map (·.context.depth) = [0, 1, 1, 1, 2, 2] := by
  intro laid
  obtain ⟨-, cells, hshows, -⟩ := Store.load_shows nursery {}
  have hsize : nursery.size ≤ 30 := by decide
  have hvalid : nursery.isValid = true := by decide
  have harray : nursery.isArray = false := rfl
  have hlevels := ((traverse_breadthFirst_levels hshows hsize).1 hvalid).1 harray
  exact ⟨⟨cells, hshows⟩, hsize, hvalid, harray, by decide, hlevels.1, by decide +kernel⟩

end ViewTree
