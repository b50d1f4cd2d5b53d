import ViewTree.Node

/-!
Children of trees.  Arrays are transparent: the children of a node are the values other than arrays
in its `children`, through arrays nested to any depth.
-/

namespace ViewTree

namespace Tree

mutual
def size : Tree → Nat
  | .atom _ | .tuple _ => 1
  | .array items => 1 + sizes items
  | .object members => 1 + memberSizes members

def sizes : List Tree → Nat
  | [] => 0
  | item :: rest => item.size + sizes rest

def memberSizes : List (String × Tree) → Nat
  | [] => 0
  | (_, item) :: rest => item.size + memberSizes rest
end

mutual
/-- The values other than arrays that a value at an index stands for, each with its own index. -/
def spread : Tree → Nat → List (Tree × Nat)
  | .array items, _ => spreadItems items 0
  | t, index => [(t, index)]

def spreadItems : List Tree → Nat → List (Tree × Nat)
  | [], _ => []
  | item :: rest, position => item.spread position ++ spreadItems rest (position + 1)
end

def hasChildren (t : Tree) : Bool :=
  t.isStructured && !(t.member "children").isNull

def children (t : Tree) : List (Tree × Nat) :=
  if t.hasChildren then (t.member "children").spread 0 else []

/-- The values at the top level of a tree. -/
def tops (t : Tree) : List Tree :=
  (t.spread 0).map Prod.fst

theorem member_cons_of_ne {name other : String} (h : name ≠ other) (value : Tree)
    (rest : List (String × Tree)) :
    (object ((name, value) :: rest)).member other = (object rest).member other := by
  rw [member, member, List.lookup_cons, beq_eq_false_iff_ne.mpr (Ne.symm h)]

theorem size_pos (t : Tree) : 0 < t.size := by
  cases t <;> simp only [size] <;> omega

theorem sizes_append (items others : List Tree) :
    sizes (items ++ others) = sizes items + sizes others := by
  induction items with
  | nil => simp [sizes]
  | cons item rest ih =>
      simp only [List.cons_append, sizes, ih]
      omega

theorem size_le_sizes {item : Tree} {items : List Tree} (h : item ∈ items) :
    item.size ≤ sizes items := by
  induction items with
  | nil => simp at h
  | cons first rest ih =>
      simp only [sizes]
      rcases List.mem_cons.mp h with rfl | h
      · omega
      · have := ih h
        omega

mutual
theorem sizes_spread_le (t : Tree) (index : Nat) :
    sizes ((t.spread index).map Prod.fst) ≤ t.size := by
  cases t with
  | array items =>
      have := sizes_spreadItems_le items 0
      simp only [spread, size]
      omega
  | _ => simp [spread, sizes]

theorem sizes_spreadItems_le (items : List Tree) (position : Nat) :
    sizes ((spreadItems items position).map Prod.fst) ≤ sizes items := by
  cases items with
  | nil => simp [spreadItems, sizes]
  | cons item rest =>
      have hhead := sizes_spread_le item position
      have htail := sizes_spreadItems_le rest (position + 1)
      simp only [spreadItems, sizes, List.map_append, sizes_append]
      omega
end

theorem size_le_memberSizes {name : String} {item : Tree} {members : List (String × Tree)}
    (h : members.lookup name = some item) : item.size ≤ memberSizes members := by
  induction members with
  | nil => simp at h
  | cons member rest ih =>
      obtain ⟨first, value⟩ := member
      rw [List.lookup_cons] at h
      simp only [memberSizes]
      split at h
      · cases h; omega
      · have := ih h; omega

theorem sizes_children_lt (t : Tree) : sizes (t.children.map Prod.fst) < t.size := by
  unfold children
  split
  · next h =>
      cases t with
      | object members =>
          have hle := sizes_spread_le ((object members).member "children") 0
          have hitem : ((object members).member "children").size ≤ memberSizes members := by
            simp only [hasChildren, member] at h ⊢
            cases hlookup : members.lookup "children" with
            | none => simp [hlookup] at h
            | some item => exact size_le_memberSizes hlookup
          simp only [size]
          omega
      | _ => simp [hasChildren, isStructured, nodeType?] at h
  · simpa [sizes] using t.size_pos

end Tree

end ViewTree
