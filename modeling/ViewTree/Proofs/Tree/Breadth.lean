import Mathlib.Algebra.Ring.GeomSum
import ViewTree.Proofs.Tree.Children
import ViewTree.Sample

namespace ViewTree

open Finset (range)

namespace Tree

theorem countAll_replicate (breadth : Nat) (t : Tree) :
    countAll (List.replicate breadth t) = breadth * t.countStructured := by
  induction breadth with
  | zero => rw [List.replicate_zero, countAll, Nat.zero_mul]
  | succ breadth ih => rw [List.replicate_succ, countAll, ih, Nat.succ_mul, Nat.add_comm]

theorem node_count {type : String} (htype : type ≠ "") (children : Option Tree) :
    ∃ t, node (text type) null children = .ok t ∧
      t.countStructured = 1 + (children.map countStructured).getD 0 := by
  have hname : (text type).text?.filter (· ≠ "") = some type := by
    rw [text, text?, Atom.text?, Option.filter_some, if_pos (decide_eq_true htype)]
  have hstructured : ∀ members, (object (("type", text type) :: members)).isStructured = true := by
    intro members
    rw [isStructured, nodeType?, Members.nodeType?, List.lookup_cons_self, Option.bind_some, hname]
    rfl
  rw [node, hname]
  refine ⟨_, rfl, ?_⟩
  cases children with
  | none => exact if_pos (hstructured [])
  | some value => exact if_pos (hstructured [("children", value)])

theorem wide_count {type : String} (htype : type ≠ "") {leaf : Tree}
    (hleaf : leaf.countStructured = 0) (breadth depth : Nat) :
    ∃ t, wide breadth (text type) leaf depth = .ok t ∧
      t.countStructured = ∑ level ∈ range (depth + 1), breadth ^ level := by
  induction depth with
  | zero =>
      obtain ⟨t, ht, hcount⟩ := node_count htype (if leaf.isNull then none else some leaf)
      have hheld : ((if leaf.isNull then none else some leaf).map countStructured).getD 0 = 0 := by
        split
        · rfl
        · exact hleaf
      rw [hheld] at hcount
      exact ⟨t, ht, hcount.trans (geom_sum_one breadth).symm⟩
  | succ depth ih =>
      obtain ⟨child, hchild, hchildCount⟩ := ih
      obtain ⟨t, ht, hcount⟩ := node_count htype (some (.array (List.replicate breadth child)))
      refine ⟨t, ?_, ?_⟩
      · rw [wide]
        split
        · next hnone =>
            subst hnone
            exact ht
        · rw [hchild]
          exact ht
      · rw [hcount, Option.map_some, Option.getD_some, countStructured, countAll_replicate,
          hchildCount, geom_sum_succ (n := depth + 1), Nat.add_comm]

end Tree

end ViewTree
