import ViewTree.Proofs.Transform.Record
import ViewTree.Proofs.Tree.Validity

namespace ViewTree

structure Spot where
  label : String
  depth : Nat
  index : Nat
deriving DecidableEq

namespace Rose

/-- One rose is another without what lies below some values: those that must be cut, and perhaps
others. -/
inductive Trims (must : α → Bool) (may : Prop) : Rose α → Rose α → Prop
  | keep {value : α} {below rest : List (Rose α)} (hvalue : must value = false)
      (hbelow : List.Forall₂ (Trims must may) below rest) :
      Trims must may (.mk value below) (.mk value rest)
  | cut {value : α} (below : List (Rose α)) (h : must value = true ∨ may) :
      Trims must may (.mk value below) (.mk value [])

variable {must : α → Bool} {may : Prop}

theorem Trims.leaf (value : α) : Trims must may (.mk value []) (.mk value []) := by
  cases hvalue : must value with
  | true => exact .cut [] (.inl hvalue)
  | false => exact .keep hvalue .nil

mutual
def trim (must : α → Bool) : Rose α → Rose α
  | .mk value below => .mk value (if must value then [] else trimAll must below)

def trimAll (must : α → Bool) : List (Rose α) → List (Rose α)
  | [] => []
  | rose :: rest => trim must rose :: trimAll must rest
end

/-- Where only those are cut that must be, there is one way to trim. -/
theorem Trims.eq_trim (hmay : ¬ may) {rose : Rose α} :
    ∀ {trimmed : Rose α}, Trims must may rose trimmed → trimmed = rose.trim must := by
  induction rose using induct with
  | mk value below ih =>
      intro trimmed h
      cases h with
      | cut _ hcut =>
          rw [trim, if_pos (hcut.resolve_right hmay)]
      | @keep _ _ rest hvalue hbelow =>
          rw [trim, hvalue]
          refine congrArg (Rose.mk value) ?_
          clear hvalue
          induction hbelow with
          | nil => rfl
          | cons hrose _ ihrest =>
              obtain ⟨hfirst, hothers⟩ := List.forall_mem_cons.mp ih
              rw [hfirst hrose, ihrest hothers]
              rfl

theorem Trims.eq_map_trim (hmay : ¬ may) {full rest : List (Rose α)}
    (h : List.Forall₂ (Trims must may) full rest) : rest = full.map (trim must) := by
  induction h with
  | nil => rfl
  | cons hrose _ ih => rw [List.map_cons, hrose.eq_trim hmay, ih]

end Rose

namespace Tree

mutual
def spotsAt (depth : Nat) : Tree → Nat → List (Rose Spot)
  | .array items, _ => spotsOfItems depth items 0
  | .object members, index =>
    [.mk ⟨(object members).label, depth, index⟩ (spotsBelow (depth + 1) members)]
  | .atom a, index => [.mk ⟨(atom a).label, depth, index⟩ []]
  | .tuple items, index => [.mk ⟨(tuple items).label, depth, index⟩ []]

def spotsOfItems (depth : Nat) : List Tree → Nat → List (Rose Spot)
  | [], _ => []
  | item :: rest, position => spotsAt depth item position ++ spotsOfItems depth rest (position + 1)

def spotsBelow (depth : Nat) : List (String × Tree) → List (Rose Spot)
  | [] => []
  | (name, item) :: rest =>
    if name = "children" then (if item.isNull then [] else spotsAt depth item 0)
    else spotsBelow depth rest
end

mutual
/-- The places of the nodes of a tree.  Every value at the top level stands alone. -/
def spots : Tree → List (Rose Spot)
  | .array items => spotsOfTops items
  | t => spotsAt 0 t 0

def spotsOfTops : List Tree → List (Rose Spot)
  | [] => []
  | item :: rest => spots item ++ spotsOfTops rest
end

theorem spots_eq_spotsAt {t : Tree} (h : t.isArray = false) : t.spots = t.spotsAt 0 0 := by
  cases t with
  | array items => cases h
  | _ => rfl

end Tree

end ViewTree
