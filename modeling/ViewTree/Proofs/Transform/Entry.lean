import ViewTree.Proofs.Store.Loading
import ViewTree.Transform
import ViewTree.Traverse

namespace ViewTree

open Store (Cell)

/-- The tree to work on: a copy, or the very tree. -/
def Walk.copy (clone : Tree) (root : Value) : Walk σ Value :=
  if clone.isTruthy then Walk.clone root else pure root

/-- What is left to do when order and tree are settled. -/
def Transform.engage (fuel : Nat) (visitors : List (Visitor σ)) (prune : Prune σ) (order : Order)
    (tree : Value) : Walk σ Value :=
  if visitors.isEmpty then return tree else Transform.root order visitors prune fuel tree

section

variable (primitive : Value → Walk σ Value) (walk : Nat → ArrayRef → Walk σ Unit)

def Transform.boxedBy (fuel : Nat) (node : Value) : Walk σ Value := do
  let box ← Walk.box node
  walk fuel box
  Walk.unbox box

/-- How a root is taken apart into primitives and boxed trees, whatever is done to these. -/
def Transform.rootBy : Nat → Value → Walk σ Value
  | 0, _ => throw .exhausted
  | fuel + 1, .array ref => do
    ((← Walk.store).items ref).zipIdx.forM fun (item, position) => do
      let result ← rootBy fuel item
      Walk.write (.element ref position) result
    return .array ref
  | fuel + 1, .atom a =>
    if a.isPrimitive then primitive (.atom a) else boxedBy walk fuel (.atom a)
  | fuel + 1, node => boxedBy walk fuel node

end

def Transform.boxed (fuel : Nat) (order : Order) (visitors : List (Visitor σ)) (prune : Prune σ)
    (node : Value) : Walk σ Value :=
  boxedBy (fun fuel => run fuel order visitors prune) fuel node

theorem Transform.root_eq_rootBy (order : Order) (visitors : List (Visitor σ)) (prune : Prune σ)
    (fuel : Nat) :
    Transform.root order visitors prune fuel =
      rootBy (primitive visitors) (fun fuel => run fuel order visitors prune) fuel := by
  induction fuel with
  | zero => rfl
  | succ fuel ih =>
      funext node
      cases node with
      | array ref => rw [Transform.root, rootBy, ih]
      | _ => rfl

theorem Transform.engage_eq_root {visitors : List (Visitor σ)} (h : visitors ≠ []) (fuel : Nat)
    (prune : Prune σ) (order : Order) (tree : Value) :
    engage fuel visitors prune order tree = Transform.root order visitors prune fuel tree := by
  cases visitors with
  | nil => exact absurd rfl h
  | cons visitor visitors => rfl

theorem transform_eq (fuel : Nat) (visitors : List (Visitor σ)) (options : TransformOptions σ)
    (root : Value) :
    transform fuel visitors options root = (do
      let order ← Walk.ofExcept (Order.resolve options.order)
      let tree ← Walk.copy options.clone root
      Transform.engage fuel visitors options.prune order tree) := by
  unfold transform Walk.copy Transform.engage
  cases options.clone.isTruthy with
  | true => rfl
  | false => rfl

theorem Traverse.prepare_eq (options : TraverseOptions) (root : Value) :
    (Traverse.prepare options root : Walk σ _) = (do
      let order ← Walk.ofExcept (Order.resolve options.order)
      let tree ← Walk.copy options.clone root
      return (order, tree)) := by
  unfold Traverse.prepare Walk.copy
  cases options.clone.isTruthy with
  | true => rfl
  | false => rfl

theorem Walk.copy_shows {s : Store} {t : Tree} {root : Value} {cells : List Cell}
    (h : s.Shows t root cells) (clone : Tree) (world : σ) :
    ∃ value after copied, Walk.copy clone root ⟨s, world⟩ = .ok value ⟨after, world⟩ ∧
      s.Extends after ∧ after.Shows t value copied ∧ (cells.Nodup → copied.Nodup) := by
  unfold Walk.copy
  split
  · obtain ⟨hextends, copied, hshows, hfresh⟩ := h.clone
    exact ⟨_, _, copied, rfl, hextends, hshows, fun _ => hfresh.nodup⟩
  · exact ⟨root, s, cells, rfl, .refl s, h, id⟩

theorem Walk.copy_world {clone : Tree} {root value : Value} {s after : Store} {world : σ}
    (h : Walk.copy clone root ⟨s, world⟩ = .ok value ⟨after, world⟩) (other : τ) :
    Walk.copy clone root ⟨s, other⟩ = .ok value ⟨after, other⟩ := by
  unfold Walk.copy at h ⊢
  split
  · next hclone =>
      rw [if_pos hclone] at h
      cases h
      rfl
  · next hclone =>
      rw [if_neg hclone] at h
      cases h
      rfl

end ViewTree
