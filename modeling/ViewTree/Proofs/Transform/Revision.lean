import ViewTree.Proofs.Transform.Reading

/-!
The revision of a tree: what a depth-first transform makes of it, told by recursion on the tree.  A
node is rebuilt from the revisions of its children, arrays keep their shape, and a replacement is
left as it is.
-/

namespace ViewTree

/-- What those who watch a transform mean. -/
structure Team (σ : Type) where
  enter : Meaning σ (Option Tree)
  exit : Meaning σ (Option Tree)
  prune : Meaning σ Bool

namespace Team

def of (onlookers : List (Onlooker σ)) (caution : Caution σ) : Team σ :=
  ⟨Onlooker.meaning .enter onlookers, Onlooker.meaning .exit onlookers, caution.meaning⟩

/-- Puts what becomes of the children into the view, unless they are not to be visited. -/
def descend (team : Team σ) (kind : Kind) (view : View) (below : Course σ Tree) :
    Course σ View := do
  if kind = .structured ∧ view.skipping = false then
    let (cut, view) ← team.prune view
    if cut || view.skipping then
      return { view with skipping := true }
    else
      return { view with node := ← below }
  else
    return view

def leave (team : Team σ) (view : View) : Course σ Tree := do
  match ← team.exit view with
  | (some replacement, _) => return replacement
  | (none, _) => return view.node

def visit (team : Team σ) (view : View) : Course σ Tree := do
  match ← team.enter view with
  | (some replacement, _) => return replacement
  | (none, view) => team.leave view

def preOrder (team : Team σ) (view : View) (below : Course σ Tree) : Course σ Tree := do
  let kind ← Course.classify view.node
  match ← team.enter view with
  | (some replacement, _) => return replacement
  | (none, view) => team.leave (← team.descend kind view below)

def postOrder (team : Team σ) (view : View) (below : Course σ Tree) : Course σ Tree := do
  let kind ← Course.classify view.node
  team.visit (← team.descend kind view below)

end Team

namespace Tree

/-- A node as it is seen before anything is done to it. -/
def atFirst (parent : Option String) (depth index : Nat) (node : Tree) : View :=
  ⟨node, parent.map text, depth, index, false, []⟩

mutual
/-- The revision of a value at a depth and an index, with `visit` for nodes. -/
def revise (visit : View → Course σ Tree → Course σ Tree) (parent : Option String) (depth : Nat) :
    Tree → Nat → Course σ Tree
  | .array items, _ => do
    return .array (← reviseItems visit parent depth items 0)
  | .object members, index =>
    visit ((object members).atFirst parent depth index) do
      match ← reviseChildren visit (object members).nodeType? (depth + 1) members with
      | some children => return .object (Members.put "children" children members)
      | none => return .object members
  | .atom a, index => visit ((atom a).atFirst parent depth index) (return .atom a)
  | .tuple items, index => visit ((tuple items).atFirst parent depth index) (return .tuple items)

def reviseItems (visit : View → Course σ Tree → Course σ Tree) (parent : Option String)
    (depth : Nat) : List Tree → Nat → Course σ (List Tree)
  | [], _ => return []
  | item :: rest, position => do
    let first ← revise visit parent depth item position
    let others ← reviseItems visit parent depth rest (position + 1)
    return first :: others

def reviseChildren (visit : View → Course σ Tree → Course σ Tree) (parent : Option String)
    (depth : Nat) : List (String × Tree) → Course σ (Option Tree)
  | [] => return none
  | (name, item) :: rest =>
    if name = "children" then
      if item.isNull then return none
      else do return some (← revise visit parent depth item 0)
    else reviseChildren visit parent depth rest
end

mutual
/-- The revision of a tree.  Every value at the top level stands alone. -/
def reviseTop (visit : View → Course σ Tree → Course σ Tree) : Tree → Course σ Tree
  | .array items => do
    return .array (← reviseTops visit items)
  | t => revise visit none 0 t 0

def reviseTops (visit : View → Course σ Tree → Course σ Tree) : List Tree → Course σ (List Tree)
  | [] => return []
  | item :: rest => do
    let first ← reviseTop visit item
    let others ← reviseTops visit rest
    return first :: others
end

/-- What a node becomes when the children that are visited have been revised. -/
def reviseBelow (visit : View → Course σ Tree → Course σ Tree) (depth : Nat) :
    Tree → Course σ Tree
  | .object members => do
    match ← reviseChildren visit (object members).nodeType? (depth + 1) members with
    | some children => return .object (Members.put "children" children members)
    | none => return .object members
  | t => return t

/-- The revision in a world: the tree it gives or the failure it ends with, and what the world has
become. -/
def revised (visit : View → Course σ Tree → Course σ Tree) (world : σ) (t : Tree) :
    Except Failure Tree × σ :=
  match t.reviseTop visit world with
  | .ok result after => (.ok result, after)
  | .error failure after => (.error failure, after)

theorem revise_eq_visit (visit : View → Course σ Tree → Course σ Tree) (parent : Option String)
    (depth index : Nat) {t : Tree} (h : t.isArray = false) :
    t.revise visit parent depth index =
      visit (t.atFirst parent depth index) (t.reviseBelow visit depth) := by
  cases t with
  | array items => cases h
  | _ => rfl

theorem reviseTop_eq_revise (visit : View → Course σ Tree → Course σ Tree) {t : Tree}
    (h : t.isArray = false) : t.reviseTop visit = t.revise visit none 0 0 := by
  cases t with
  | array items => cases h
  | _ => rfl

theorem reviseChildren_eq (visit : View → Course σ Tree → Course σ Tree) (parent : Option String)
    (depth : Nat) (members : List (String × Tree)) :
    reviseChildren visit parent depth members =
      match members.lookup "children" with
      | none => pure none
      | some item =>
        if item.isNull then pure none
        else do return some (← revise visit parent depth item 0) := by
  induction members with
  | nil => rfl
  | cons member rest ih =>
      obtain ⟨name, item⟩ := member
      by_cases hname : name = "children"
      · subst hname
        simp [reviseChildren]
      · have hne : ("children" == name) = false := by simpa using Ne.symm hname
        rw [reviseChildren, if_neg hname, ih, List.lookup_cons, hne]

theorem reviseBelow_object (visit : View → Course σ Tree → Course σ Tree) (depth : Nat)
    (members : List (String × Tree)) :
    reviseBelow visit depth (.object members) =
      match members.lookup "children" with
      | none => pure (.object members)
      | some item =>
        if item.isNull then pure (.object members)
        else do
          let children ← revise visit (object members).nodeType? (depth + 1) item 0
          return .object (Members.put "children" children members) := by
  rw [reviseBelow, reviseChildren_eq]
  cases members.lookup "children" with
  | none => rfl
  | some item =>
      by_cases hnull : item.isNull = true
      · simp only [hnull, if_true, pure_bind]
      · simp only [hnull, if_false, bind_assoc, pure_bind, Bool.false_eq_true]

end Tree

end ViewTree
