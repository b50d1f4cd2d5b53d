import ViewTree.Node

namespace ViewTree

namespace Tree

variable (bare : Tree → Bool)

/-- Whether a node is a group without props; `bare` says which props count as none. -/
def isBareGroup (node : Tree) : Bool :=
  node.nodeType? == some Marker.fragment.name && bare (node.member "props")

/-- What a value becomes when these values stand for it: one value can take its place, more make an
array, and an array stays one. -/
def gather : Tree → List Tree → Tree
  | .array _, parts => .array parts
  | _, [part] => part
  | _, parts => .array parts

mutual
/-- The flat values that stand for a value in a list. -/
def flat : Tree → List Tree
  | .atom a => [.atom a]
  | .tuple items => [.tuple items]
  | .array items => flatItems items
  | .object members =>
    if (object members).isStructured then
      if (object members).isBareGroup bare then flatBelow members
      else [.object (flatMembers members)]
    else [.object members]

def flatItems : List Tree → List Tree
  | [] => []
  | item :: rest => flat item ++ flatItems rest

def flatBelow : List (String × Tree) → List Tree
  | [] => []
  | (name, value) :: rest =>
    if name = "children" then
      if value.isNull then [] else flat value
    else flatBelow rest

def flatMembers : List (String × Tree) → List (String × Tree)
  | [] => []
  | (name, value) :: rest =>
    if name = "children" then (name, value.gather (flat value)) :: rest
    else (name, value) :: flatMembers rest
end

def flattened (t : Tree) : Tree :=
  t.gather (t.flat bare)

mutual
/-- A value that is no array and no group without props, and has none among the children of any node
in it. -/
def isFlat : Tree → Bool
  | .atom _ | .tuple _ => true
  | .array _ => false
  | .object members =>
    !(object members).isStructured ||
      !(object members).isBareGroup bare && areFlatBelow members

def areFlat : List Tree → Bool
  | [] => true
  | item :: rest => isFlat item && areFlat rest

def areFlatBelow : List (String × Tree) → Bool
  | [] => true
  | (name, value) :: rest =>
    if name = "children" then
      match value with
      | .array items => areFlat items
      | value => isFlat value
    else areFlatBelow rest
end

variable {bare : Tree → Bool}

theorem areFlat_append (items others : List Tree) :
    areFlat bare (items ++ others) = (areFlat bare items && areFlat bare others) := by
  induction items with
  | nil => rfl
  | cons item rest ih => simp only [List.cons_append, areFlat, ih, Bool.and_assoc]

theorem areFlat_iff {items : List Tree} :
    areFlat bare items = true ↔ ∀ item ∈ items, item.isFlat bare = true := by
  induction items with
  | nil => simp [areFlat]
  | cons item rest ih => simp [areFlat, ih]

theorem lookup_flatMembers {name : String} (h : name ≠ "children") (members : Members Tree) :
    (flatMembers bare members).lookup name = members.lookup name := by
  induction members with
  | nil => rfl
  | cons member rest ih =>
      obtain ⟨first, value⟩ := member
      by_cases hname : first = "children"
      · subst hname
        have hne : (name == "children") = false := by simpa using h
        simp [flatMembers, List.lookup_cons, hne]
      · simp [flatMembers, hname, List.lookup_cons, ih]

theorem nodeType?_flatMembers (members : Members Tree) :
    (object (flatMembers bare members)).nodeType? = (object members).nodeType? := by
  simp only [nodeType?, Members.nodeType?, lookup_flatMembers (by decide : "type" ≠ "children")]

theorem isBareGroup_flatMembers (members : Members Tree) :
    (object (flatMembers bare members)).isBareGroup bare =
      (object members).isBareGroup bare := by
  simp only [isBareGroup, nodeType?_flatMembers, member,
    lookup_flatMembers (by decide : "props" ≠ "children")]

theorem areFlatBelow_of_ne {name : String} (h : name ≠ "children") (value : Tree)
    (rest : List (String × Tree)) :
    areFlatBelow bare ((name, value) :: rest) = areFlatBelow bare rest := by
  cases value <;> simp [areFlatBelow, h]

theorem areFlatBelow_gather {value : Tree} {parts : List Tree} (h : areFlat bare parts = true)
    (rest : List (String × Tree)) :
    areFlatBelow bare (("children", value.gather parts) :: rest) = true := by
  have hmany : areFlatBelow bare (("children", .array parts) :: rest) = true := by
    simpa [areFlatBelow] using h
  cases value with
  | array items => exact hmany
  | _ =>
      match parts with
      | [] => exact hmany
      | [part] =>
          have hpart : part.isFlat bare = true := by simpa [areFlat] using h
          cases part with
          | array items => cases hpart
          | _ => simpa [areFlatBelow, gather] using hpart
      | _ :: _ :: _ => exact hmany

mutual
theorem areFlat_flat (t : Tree) : areFlat bare (t.flat bare) = true := by
  cases t with
  | atom a => rfl
  | tuple items => rfl
  | array items => exact areFlat_flatItems items
  | object members =>
      rw [flat]
      split
      · split
        · exact areFlat_flatBelow members
        · next hgroup =>
            have hkept : (object (flatMembers bare members)).isBareGroup bare = false := by
              rw [isBareGroup_flatMembers]
              simpa using hgroup
            simp only [areFlat, isFlat, hkept, areFlatBelow_flatMembers members, Bool.not_false,
              Bool.and_true, Bool.or_true]
      · next hstructured =>
        have hopen : (object members).isStructured = false := by simpa using hstructured
        simp only [areFlat, isFlat, hopen, Bool.not_false, Bool.true_or, Bool.and_true]

theorem areFlat_flatItems (items : List Tree) : areFlat bare (flatItems bare items) = true := by
  cases items with
  | nil => rfl
  | cons item rest =>
      rw [flatItems, areFlat_append, areFlat_flat item, areFlat_flatItems rest, Bool.and_true]

theorem areFlat_flatBelow (members : List (String × Tree)) :
    areFlat bare (flatBelow bare members) = true := by
  cases members with
  | nil => rfl
  | cons member rest =>
      obtain ⟨name, value⟩ := member
      rw [flatBelow]
      split
      · split
        · rfl
        · exact areFlat_flat value
      · exact areFlat_flatBelow rest

theorem areFlatBelow_flatMembers (members : List (String × Tree)) :
    areFlatBelow bare (flatMembers bare members) = true := by
  cases members with
  | nil => rfl
  | cons member rest =>
      obtain ⟨name, value⟩ := member
      by_cases hname : name = "children"
      · rw [flatMembers, if_pos hname, hname]
        exact areFlatBelow_gather (areFlat_flat value) rest
      · rw [flatMembers, if_neg hname, areFlatBelow_of_ne hname]
        exact areFlatBelow_flatMembers rest
end

theorem isStructured_of_isBareGroup {node : Tree} (h : node.isBareGroup bare = true) :
    node.isStructured = true := by
  have htype : node.nodeType? = some Marker.fragment.name := by
    rw [isBareGroup, Bool.and_eq_true] at h
    exact beq_iff_eq.mp h.1
  rw [isStructured, htype, Option.isSome_some]

theorem flatBelow_put_key (members : Members Tree) (key : Tree) :
    flatBelow bare (members.put "key" key) = flatBelow bare members := by
  induction members with
  | nil => rfl
  | cons member rest ih =>
      obtain ⟨name, value⟩ := member
      by_cases hname : name = "key"
      · subst hname
        rfl
      · simp only [Members.put, hname, if_false, flatBelow, ih]

theorem nodeType?_put_key (members : Members Tree) (key : Tree) :
    (object (members.put "key" key)).nodeType? = (object members).nodeType? := by
  simp only [nodeType?, Members.nodeType?, Members.lookup_put_of_ne (by decide : "type" ≠ "key")]

theorem isBareGroup_put_key {members : Members Tree}
    (h : (object members).isBareGroup bare = true) (key : Tree) :
    (object (members.put "key" key)).isBareGroup bare = true := by
  rw [← h, isBareGroup, isBareGroup, nodeType?_put_key, member, member,
    Members.lookup_put_of_ne (by decide : "props" ≠ "key")]

theorem flat_put_key {members : Members Tree}
    (h : (object members).isBareGroup bare = true) (key : Tree) :
    (object (members.put "key" key)).flat bare = (object members).flat bare := by
  have hkeyed := isBareGroup_put_key h key
  rw [flat, flat, if_pos (isStructured_of_isBareGroup h), if_pos h,
    if_pos (isStructured_of_isBareGroup hkeyed), if_pos hkeyed, flatBelow_put_key]

end Tree

end ViewTree
