import ViewTree.Proofs.Tree.Children

namespace ViewTree

namespace Tree

variable (test : Tree → Bool) (gap : List Tree)

def isCulled (t : Tree) : Bool :=
  !t.isArray && test t

mutual
/-- A tree with values taken out of it.  Each leaves a gap where it stood in a list, and null where
it stood alone. -/
def culled : Tree → Tree
  | .array items => .array (culledItems items)
  | .object members =>
    if test (.object members) then .null else .object (culledMembers members)
  | .atom a => if test (.atom a) then .null else .atom a
  | .tuple items => if test (.tuple items) then .null else .tuple items

def culledItems : List Tree → List Tree
  | [] => []
  | item :: rest => (if item.isCulled test then gap else [item.culled]) ++ culledItems rest

def culledMembers : List (String × Tree) → List (String × Tree)
  | [] => []
  | (name, value) :: rest =>
    if name = "children" then (name, value.culled) :: rest
    else (name, value) :: culledMembers rest
end

/-- A tree without the values that pass a test. -/
def without (t : Tree) : Tree :=
  t.culled test []

/-- A tree with null for the values that pass a test. -/
def nulled (t : Tree) : Tree :=
  t.culled test [.null]

variable {test gap}

theorem culled_of_isCulled {t : Tree} (h : t.isCulled test = true) :
    t.culled test gap = .null := by
  rw [isCulled, Bool.and_eq_true] at h
  cases t with
  | array items => cases h.1
  | _ => rw [culled, if_pos h.2]

theorem culledItems_nil (items : List Tree) :
    culledItems test [] items =
      (items.filter fun item => !item.isCulled test).map (without test) := by
  induction items with
  | nil => rfl
  | cons item rest ih =>
      rw [culledItems, ih]
      cases h : item.isCulled test with
      | true => rw [List.filter_cons_of_neg (by rw [h]; decide)]; rfl
      | false => rw [List.filter_cons_of_pos (by rw [h]; rfl)]; rfl

theorem culledItems_null (items : List Tree) :
    culledItems test [.null] items = items.map (nulled test) := by
  induction items with
  | nil => rfl
  | cons item rest ih =>
      rw [culledItems, ih, List.map_cons]
      cases h : item.isCulled test with
      | true => rw [nulled, culled_of_isCulled h]; rfl
      | false => rfl

theorem culledMembers_of_lookup {members : Members Tree} {value : Tree}
    (h : members.lookup "children" = some value) :
    culledMembers test gap members = members.put "children" (value.culled test gap) := by
  induction members with
  | nil => cases h
  | cons member rest ih =>
      obtain ⟨name, first⟩ := member
      by_cases hname : name = "children"
      · subst hname
        obtain rfl : first = value := by simpa using h
        rw [culledMembers, if_pos rfl, Members.put, if_pos rfl]
      · rw [List.lookup_cons, beq_eq_false_iff_ne.mpr (Ne.symm hname)] at h
        rw [culledMembers, if_neg hname, Members.put, if_neg hname, ih h]

theorem culledMembers_of_lookup_none {members : Members Tree}
    (h : members.lookup "children" = none) : culledMembers test gap members = members := by
  induction members with
  | nil => rfl
  | cons member rest ih =>
      obtain ⟨name, first⟩ := member
      by_cases hname : name = "children"
      · simp [hname] at h
      · rw [List.lookup_cons, beq_eq_false_iff_ne.mpr (Ne.symm hname)] at h
        rw [culledMembers, if_neg hname, ih h]

theorem lookup_culledMembers (members : Members Tree) {name : String} (h : name ≠ "children") :
    (culledMembers test gap members).lookup name = members.lookup name := by
  cases hchildren : members.lookup "children" with
  | none => rw [culledMembers_of_lookup_none hchildren]
  | some value => rw [culledMembers_of_lookup hchildren, Members.lookup_put_of_ne h]

theorem isStructured_culledMembers (members : Members Tree) :
    (object (culledMembers test gap members)).isStructured = (object members).isStructured := by
  simp only [isStructured, nodeType?, Members.nodeType?,
    lookup_culledMembers members (by decide : "type" ≠ "children")]

end Tree

end ViewTree
