import ViewTree.Proofs.Traverse.Engines
import ViewTree.Proofs.Tree.Validity

namespace ViewTree

namespace Tree

mutual
/-- The nodes of a tree, each before those below it. -/
def nodes : Tree → List Tree
  | .atom a => [.atom a]
  | .tuple items => [.tuple items]
  | .array items => nodesOf items
  | .object members => .object members :: nodesBelow members

def nodesOf : List Tree → List Tree
  | [] => []
  | item :: rest => item.nodes ++ nodesOf rest

def nodesBelow : List (String × Tree) → List Tree
  | [] => []
  | (name, value) :: rest =>
    if name = "children" then (if value.isNull then [] else value.nodes) else nodesBelow rest
end

mutual
theorem nodes_eq_flatMap_tops (t : Tree) : t.nodes = t.tops.flatMap nodes := by
  cases t with
  | array items => rw [nodes, tops_array, nodesOf_eq_flatMap_tops]
  | _ => rw [tops_of_ne_array rfl, List.flatMap_singleton]

theorem nodesOf_eq_flatMap_tops (items : List Tree) :
    nodesOf items = (items.flatMap tops).flatMap nodes := by
  cases items with
  | nil => rfl
  | cons item rest =>
      rw [nodesOf, List.flatMap_cons, List.flatMap_append, ← nodes_eq_flatMap_tops item,
        ← nodesOf_eq_flatMap_tops rest]
end

theorem nodesBelow_eq (members : List (String × Tree)) :
    nodesBelow members =
      if ((object members).member "children").isNull then []
      else ((object members).member "children").nodes := by
  induction members with
  | nil => rfl
  | cons member rest ih =>
      obtain ⟨name, value⟩ := member
      rw [nodesBelow]
      by_cases hname : name = "children"
      · subst hname
        simp [member]
      · rw [if_neg hname, ih, member_cons_of_ne hname]

theorem nodesBelow_eq_flatMap_children {members : List (String × Tree)}
    (h : (object members).isStructured = true) :
    nodesBelow members = ((object members).children.map Prod.fst).flatMap nodes := by
  rw [nodesBelow_eq, children, hasChildren, h, Bool.true_and]
  cases ((object members).member "children").isNull with
  | true => rfl
  | false =>
      simp only [Bool.not_false, if_true, Bool.false_eq_true, if_false, map_fst_spread]
      exact nodes_eq_flatMap_tops _

mutual
theorem isArray_of_mem_spread (t : Tree) (index : Nat) :
    ∀ item ∈ t.spread index, item.1.isArray = false := by
  cases t with
  | array items => exact isArray_of_mem_spreadItems items 0
  | _ => simp [spread, isArray]

theorem isArray_of_mem_spreadItems (items : List Tree) (position : Nat) :
    ∀ item ∈ spreadItems items position, item.1.isArray = false := by
  cases items with
  | nil => simp [spreadItems]
  | cons item rest =>
      rw [spreadItems, List.forall_mem_append]
      exact ⟨isArray_of_mem_spread item position, isArray_of_mem_spreadItems rest (position + 1)⟩
end

theorem isArray_of_mem_children {t : Tree} :
    ∀ item ∈ t.children, item.1.isArray = false := by
  unfold children
  split
  · exact isArray_of_mem_spread _ 0
  · simp

theorem nodes_eq_cons {t : Tree} (hvalid : t.isValid = true) (harray : t.isArray = false) :
    t.nodes = t :: (t.children.map Prod.fst).flatMap nodes := by
  cases t with
  | atom a => rfl
  | tuple items => cases hvalid
  | array items => cases harray
  | object members =>
      rw [nodes, nodesBelow_eq_flatMap_children (everyNode_object.mp hvalid).1]

end Tree

def Course.Lists (course : Course (List Sight) Unit) (nodes : List Tree) : Prop :=
  ∀ world, ∃ seen, course world = .ok () (world ++ seen) ∧ seen.map Sight.node = nodes

namespace Course.Lists

variable {course next : Course (List Sight) Unit} {nodes more : List Tree}

theorem nil : Lists (pure ()) [] :=
  fun world => ⟨[], by rw [List.append_nil]; rfl, rfl⟩

theorem bind (h : course.Lists nodes) (hnext : next.Lists more) :
    Lists (course >>= fun _ => next) (nodes ++ more) := by
  intro world
  obtain ⟨seen, hcourse, hseen⟩ := h world
  obtain ⟨later, hlater, hmore⟩ := hnext (world ++ seen)
  refine ⟨seen ++ later, ?_, ?_⟩
  · rw [Walk.bind_apply, hcourse, ← List.append_assoc]
    exact hlater
  · rw [List.map_append, hseen, hmore]

theorem forM {xs : List α} {visit : α → Course (List Sight) Unit} {nodesAt : α → List Tree}
    (h : ∀ x ∈ xs, (visit x).Lists (nodesAt x)) : Lists (xs.forM visit) (xs.flatMap nodesAt) := by
  induction xs with
  | nil => exact nil
  | cons x xs ih =>
      obtain ⟨hhead, htail⟩ := List.forall_mem_cons.mp h
      exact hhead.bind (ih htail)

end Course.Lists

namespace Sight

def everywhere : Choice := fun _ _ _ => false

theorem preOrder_lists (sight : Sight) (hvalid : sight.node.isValid = true)
    (harray : sight.node.isArray = false) :
    (sight.preOrder everywhere).Lists sight.node.nodes := by
  induction hsize : sight.node.size using Nat.strongRecOn generalizing sight with
  | _ size ih =>
      obtain ⟨kind, hkind⟩ : ∃ kind, sight.node.classify = .ok kind := by
        rcases Tree.classify_of_isValid hvalid harray with ⟨-, -, hkind⟩ | ⟨-, -, hkind⟩
        · exact ⟨_, hkind⟩
        · exact ⟨_, hkind⟩
      have hclassify : (Course.classify sight.node : Course (List Sight) Kind) = pure kind := by
        rw [Course.classify, hkind]
      have hself : Course.Lists (sight.note everywhere >>= fun _ => pure ()) [sight.node] :=
        fun world => ⟨[sight], rfl, rfl⟩
      have hbelow : (sight.children.forM (preOrder everywhere)).Lists
          (sight.children.flatMap fun child => child.node.nodes) := by
        apply Course.Lists.forM
        intro child hchild
        obtain ⟨item, hitem, rfl⟩ := List.mem_map.mp hchild
        exact ih _ (hsize ▸ size_lt_of_mem_children hchild) _
          (Tree.everyNode_children hvalid item hitem) (Tree.isArray_of_mem_children item hitem) rfl
      have hnodes : sight.node.nodes =
          [sight.node] ++ sight.children.flatMap fun child => child.node.nodes := by
        rw [Tree.nodes_eq_cons hvalid harray, children, List.flatMap_map, List.flatMap_map]
        rfl
      have hwhole := hself.bind hbelow
      rw [preOrder_eq, hclassify, pure_bind, hnodes]
      exact hwhole

end Sight

theorem Tree.seen_preOrder {t : Tree} (hvalid : t.isValid = true) :
    ∃ seen, t.seen .preOrder Sight.everywhere = (seen, none) ∧ seen.map Sight.node = t.nodes := by
  have hlists : (t.sights .preOrder Sight.everywhere).Lists t.nodes := by
    rw [nodes_eq_flatMap_tops]
    apply Course.Lists.forM
    intro node hnode
    obtain ⟨item, hitem, rfl⟩ := List.mem_map.mp hnode
    exact Sight.preOrder_lists (.top item.1) (everyNode_spread hvalid 0 item hitem)
      (isArray_of_mem_spread t 0 item hitem)
  obtain ⟨seen, hsights, hseen⟩ := hlists []
  refine ⟨seen, ?_, hseen⟩
  rw [Tree.seen, hsights]
  rfl

end ViewTree
