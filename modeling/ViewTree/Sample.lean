import ViewTree.Node
import ViewTree.Setting

namespace ViewTree.Tree

private def branch (type : String) (children : List Tree) : Tree :=
  .object [("type", text type), ("children", .array children)]

def sample : Tree :=
  branch "root" [branch "a" [], branch "b" [branch "c" []]]

/-- The complete tree with `depth` levels below its root and `breadth` children everywhere; each
leaf holds `leaf`, or nothing when that is null. -/
def wide (breadth : Nat) (type leaf : Tree) : Nat → Except Failure Tree
  | 0 => node type null (if leaf.isNull then none else some leaf)
  | depth + 1 =>
    if breadth = 0 then node type null (some (.array []))
    else do
      let child ← wide breadth type leaf depth
      node type null (some (.array (List.replicate breadth child)))

/-- The same for a depth and a breadth given as plain values.  Below zero counts as zero; without
end a tree can only be deep where it has no breadth. -/
def wideOf (depth breadth type leaf : Tree) : Except Failure Tree := do
  match ← depth.steps? with
  | some 0 => wide 0 type leaf 0
  | some levels => wide (← breadth.whole).toNat type leaf levels
  | none =>
    if (← breadth.whole) ≤ 0 then wide 0 type leaf 1 else throw .exhausted

mutual
def countStructured : Tree → Nat
  | .array items => countAll items
  | .object members =>
    if (object members).isStructured then 1 + countBelow members else 0
  | .atom _ | .tuple _ => 0

def countAll : List Tree → Nat
  | [] => 0
  | item :: rest => item.countStructured + countAll rest

def countBelow : List (String × Tree) → Nat
  | [] => 0
  | (name, value) :: rest => if name = "children" then value.countStructured else countBelow rest
end

theorem countBelow_eq (members : Members Tree) :
    countBelow members = ((members.lookup "children").map countStructured).getD 0 := by
  induction members with
  | nil => rfl
  | cons member rest ih =>
      obtain ⟨name, value⟩ := member
      by_cases h : name = "children"
      · simp [countBelow, h]
      · have hne : ("children" == name) = false := by simpa using Ne.symm h
        simp [countBelow, h, List.lookup_cons, hne, ih]

end ViewTree.Tree
