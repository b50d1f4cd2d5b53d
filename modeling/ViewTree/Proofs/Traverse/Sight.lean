import ViewTree.Order
import ViewTree.Proofs.Tree.Children
import ViewTree.Proofs.Walk.Course

/-!
Sights: what is seen of a tree, node by node, without a store.  `Tree.sights` is the course of a walk
that notes every node with its depth, index and parent and stays away from the children of a node
where it so chooses.
-/

namespace ViewTree

/-- What is seen of a node at a visit. -/
structure Sight where
  node : Tree
  depth : Nat
  index : Nat
  parent : Option Tree

/-- Where a walk stays away from the children, by node, depth and index. -/
abbrev Choice := Tree → Nat → Nat → Bool

namespace Sight

def top (node : Tree) : Sight := ⟨node, 0, 0, none⟩

def children (sight : Sight) : List Sight :=
  sight.node.children.map fun child => ⟨child.1, sight.depth + 1, child.2, some sight.node⟩

def totalSize (sights : List Sight) : Nat :=
  Tree.sizes (sights.map Sight.node)

theorem totalSize_cons (sight : Sight) (sights : List Sight) :
    totalSize (sight :: sights) = sight.node.size + totalSize sights := rfl

theorem totalSize_append (sights others : List Sight) :
    totalSize (sights ++ others) = totalSize sights + totalSize others := by
  rw [totalSize, List.map_append, Tree.sizes_append]
  rfl

theorem totalSize_children_lt (sight : Sight) :
    totalSize sight.children < sight.node.size := by
  have := sight.node.sizes_children_lt
  simpa [totalSize, children, Function.comp_def] using this

theorem size_lt_of_mem_children {sight child : Sight} (h : child ∈ sight.children) :
    child.node.size < sight.node.size := by
  have hle : child.node.size ≤ totalSize sight.children :=
    Tree.size_le_sizes (List.mem_map.mpr ⟨child, h, rfl⟩)
  exact Nat.lt_of_le_of_lt hle sight.totalSize_children_lt

def note (skips : Choice) (sight : Sight) : Course (List Sight) Bool := do
  modify (· ++ [sight])
  return skips sight.node sight.depth sight.index

def preOrder (skips : Choice) (sight : Sight) : Course (List Sight) Unit := do
  let _ ← Course.classify sight.node
  if ← sight.note skips then return ()
  else sight.children.attach.forM fun child => preOrder skips child.val
termination_by sight.node.size
decreasing_by exact size_lt_of_mem_children child.property

def postOrder (sight : Sight) : Course (List Sight) Unit := do
  let _ ← Course.classify sight.node
  sight.children.attach.forM fun child => postOrder child.val
  modify (· ++ [sight])
termination_by sight.node.size
decreasing_by exact size_lt_of_mem_children child.property

def breadthFirst (skips : Choice) : List Sight → Course (List Sight) Unit
  | [] => return ()
  | sight :: queue => do
    let _ ← Course.classify sight.node
    if ← sight.note skips then breadthFirst skips queue
    else breadthFirst skips (queue ++ sight.children)
termination_by queue => totalSize queue
decreasing_by
  · have := sight.node.size_pos
    rw [totalSize_cons]
    omega
  · have := sight.totalSize_children_lt
    rw [totalSize_cons, totalSize_append]
    omega

theorem forM_attach [Monad m] [LawfulMonad m] (xs : List α) (visit : α → m PUnit) :
    (xs.attach.forM fun x => visit x.val) = xs.forM visit := by
  calc (xs.attach.forM fun x => visit x.val)
      = (xs.attach.map Subtype.val).forM visit := List.forM_map.symm
    _ = xs.forM visit := by rw [List.attach_map_subtype_val]

theorem preOrder_eq (skips : Choice) (sight : Sight) :
    sight.preOrder skips = (do
      let _ ← Course.classify sight.node
      if ← sight.note skips then return ()
      else sight.children.forM (preOrder skips)) := by
  rw [preOrder]
  simp only [forM_attach]

theorem postOrder_eq (sight : Sight) :
    sight.postOrder = (do
      let _ ← Course.classify sight.node
      sight.children.forM postOrder
      modify (· ++ [sight])) := by
  rw [postOrder]
  simp only [forM_attach]

/-- What is seen from a value at the top level.  After the children it is too late to stay away from
them. -/
def fromTop (order : Order) (skips : Choice) (node : Tree) : Course (List Sight) Unit :=
  match order with
  | .preOrder => (top node).preOrder skips
  | .postOrder => (top node).postOrder
  | .breadthFirst => breadthFirst skips [top node]

end Sight

/-- The sights of a tree, one top-level value after the other. -/
def Tree.sights (order : Order) (skips : Choice) (t : Tree) : Course (List Sight) Unit :=
  t.tops.forM (Sight.fromTop order skips)

def Course.FailsAtMisfits (course : Course σ α) : Prop :=
  ∀ world failure after, course world = .error failure after → ∃ cause, failure = .invalidNode cause

namespace Course.FailsAtMisfits

theorem of_ok {course : Course σ α} (h : ∀ world, ∃ value after, course world = .ok value after) :
    FailsAtMisfits course := by
  intro world failure after hfail
  obtain ⟨value, later, hok⟩ := h world
  rw [hok] at hfail
  cases hfail

theorem bind {course : Course σ α} {next : α → Course σ β} (h : FailsAtMisfits course)
    (hnext : ∀ value, FailsAtMisfits (next value)) : FailsAtMisfits (course >>= next) := by
  intro world failure after hfail
  rw [Walk.bind_apply] at hfail
  cases hcourse : course world with
  | ok value later =>
      rw [hcourse] at hfail
      exact hnext value later failure after hfail
  | error cause later =>
      rw [hcourse] at hfail
      cases hfail
      exact h world failure after hcourse

theorem classify (node : Tree) : FailsAtMisfits (Course.classify node : Course σ Kind) := by
  intro world failure after hfail
  rw [Course.classify] at hfail
  cases hkind : node.classify with
  | ok kind =>
      rw [hkind] at hfail
      cases hfail
  | error cause =>
      rw [hkind] at hfail
      cases hfail
      exact ⟨cause, rfl⟩

theorem forM {xs : List α} {step : α → Course σ PUnit}
    (h : ∀ x ∈ xs, FailsAtMisfits (step x)) : FailsAtMisfits (xs.forM step) := by
  induction xs with
  | nil => exact of_ok fun world => ⟨_, _, rfl⟩
  | cons x xs ih =>
      exact (h x (by simp)).bind fun _ => ih fun y hy => h y (List.mem_cons_of_mem _ hy)

end Course.FailsAtMisfits

namespace Sight

open Course.FailsAtMisfits

theorem preOrder_failsAtMisfits (skips : Choice) (sight : Sight) :
    (sight.preOrder skips).FailsAtMisfits := by
  induction hsize : sight.node.size using Nat.strongRecOn generalizing sight with
  | _ size ih =>
      rw [preOrder_eq]
      refine (classify _).bind fun _ => (of_ok fun _ => ⟨_, _, rfl⟩).bind fun skipped => ?_
      split
      · exact of_ok fun _ => ⟨_, _, rfl⟩
      · exact forM fun child hchild =>
          ih _ (hsize ▸ size_lt_of_mem_children hchild) child rfl

theorem postOrder_failsAtMisfits (sight : Sight) : sight.postOrder.FailsAtMisfits := by
  induction hsize : sight.node.size using Nat.strongRecOn generalizing sight with
  | _ size ih =>
      rw [postOrder_eq]
      refine (classify _).bind fun _ => bind ?_ fun _ => of_ok fun _ => ⟨_, _, rfl⟩
      exact forM fun child hchild => ih _ (hsize ▸ size_lt_of_mem_children hchild) child rfl

theorem breadthFirst_failsAtMisfits (skips : Choice) (queue : List Sight) :
    (breadthFirst skips queue).FailsAtMisfits := by
  induction queue using breadthFirst.induct with
  | case1 =>
      rw [breadthFirst]
      exact of_ok fun _ => ⟨_, _, rfl⟩
  | case2 sight queue ihskip ihopen =>
      rw [breadthFirst]
      refine (classify _).bind fun _ => (of_ok fun _ => ⟨_, _, rfl⟩).bind fun skipped => ?_
      split
      · exact ihskip
      · exact ihopen

end Sight

theorem Tree.sights_failsAtMisfits (order : Order) (skips : Choice) (t : Tree) :
    (t.sights order skips).FailsAtMisfits := by
  refine Course.FailsAtMisfits.forM fun node _ => ?_
  cases order with
  | preOrder => exact Sight.preOrder_failsAtMisfits skips _
  | postOrder => exact Sight.postOrder_failsAtMisfits _
  | breadthFirst => exact Sight.breadthFirst_failsAtMisfits skips _

end ViewTree
