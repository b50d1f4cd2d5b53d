import ViewTree.Proofs.Tree.Children

namespace ViewTree

namespace Tree

mutual
/-- Whether every node reached through arrays and children passes a test. -/
def everyNode (test : Tree → Bool) : Tree → Bool
  | .array items => everyItem test items
  | .object members => test (.object members) && everyChild test members
  | .atom a => test (.atom a)
  | .tuple items => test (.tuple items)

def everyItem (test : Tree → Bool) : List Tree → Bool
  | [] => true
  | item :: rest => item.everyNode test && everyItem test rest

def everyChild (test : Tree → Bool) : List (String × Tree) → Bool
  | [] => true
  | (name, item) :: rest => if name = "children" then item.everyNode test else everyChild test rest
end

/-- What can be visited as a node. -/
def isNode (t : Tree) : Bool :=
  t.isPrimitive || t.isStructured

def isValid (t : Tree) : Bool :=
  t.everyNode isNode

/-- Whether props are an object or count as false. -/
def fitsProps : Tree → Bool
  | .object _ => true
  | props => !props.isTruthy

variable {test : Tree → Bool}

theorem everyNode_object {members : List (String × Tree)} :
    (object members).everyNode test = true ↔
      test (object members) = true ∧ everyChild test members = true := by
  rw [everyNode, Bool.and_eq_true]

theorem everyNode_of_lookup {members : List (String × Tree)}
    (h : everyChild test members = true) {item : Tree}
    (hitem : members.lookup "children" = some item) : item.everyNode test = true := by
  induction members with
  | nil => cases hitem
  | cons member rest ih =>
      obtain ⟨name, value⟩ := member
      rw [List.lookup_cons] at hitem
      rw [everyChild] at h
      by_cases hname : name = "children"
      · subst hname
        obtain rfl : value = item := by simpa using hitem
        rwa [if_pos rfl] at h
      · rw [beq_eq_false_iff_ne.mpr (Ne.symm hname)] at hitem
        rw [if_neg hname] at h
        exact ih h hitem

theorem everyNode_of_mem {items : List Tree} (h : everyItem test items = true) {item : Tree}
    (hitem : item ∈ items) : item.everyNode test = true := by
  induction items with
  | nil => cases hitem
  | cons first rest ih =>
      rw [everyItem, Bool.and_eq_true] at h
      rcases List.mem_cons.mp hitem with rfl | hitem
      · exact h.1
      · exact ih h.2 hitem

mutual
theorem everyNode_mono {other : Tree → Bool} (hmono : ∀ t, test t = true → other t = true)
    {t : Tree} (h : t.everyNode test = true) : t.everyNode other = true := by
  cases t with
  | atom a => exact hmono _ h
  | tuple items => exact hmono _ h
  | array items =>
      rw [everyNode] at h ⊢
      exact everyItem_mono hmono h
  | object members =>
      obtain ⟨htest, hbelow⟩ := everyNode_object.mp h
      exact everyNode_object.mpr ⟨hmono _ htest, everyChild_mono hmono hbelow⟩

theorem everyItem_mono {other : Tree → Bool} (hmono : ∀ t, test t = true → other t = true)
    {items : List Tree} (h : everyItem test items = true) : everyItem other items = true := by
  cases items with
  | nil => rfl
  | cons item rest =>
      rw [everyItem, Bool.and_eq_true] at h ⊢
      exact ⟨everyNode_mono hmono h.1, everyItem_mono hmono h.2⟩

theorem everyChild_mono {other : Tree → Bool} (hmono : ∀ t, test t = true → other t = true)
    {members : List (String × Tree)} (h : everyChild test members = true) :
    everyChild other members = true := by
  cases members with
  | nil => rfl
  | cons member rest =>
      obtain ⟨name, item⟩ := member
      rw [everyChild] at h ⊢
      by_cases hname : name = "children"
      · rw [if_pos hname] at h ⊢
        exact everyNode_mono hmono h
      · rw [if_neg hname] at h ⊢
        exact everyChild_mono hmono h
end

mutual
theorem everyNode_spread {t : Tree} (h : t.everyNode test = true) (index : Nat) :
    ∀ item ∈ t.spread index, item.1.everyNode test = true := by
  cases t with
  | array items =>
      rw [everyNode] at h
      exact everyNode_spreadItems h 0
  | _ => simpa [spread] using h

theorem everyNode_spreadItems {items : List Tree} (h : everyItem test items = true)
    (position : Nat) : ∀ item ∈ spreadItems items position, item.1.everyNode test = true := by
  cases items with
  | nil => simp [spreadItems]
  | cons item rest =>
      rw [everyItem, Bool.and_eq_true] at h
      rw [spreadItems, List.forall_mem_append]
      exact ⟨everyNode_spread h.1 position, everyNode_spreadItems h.2 (position + 1)⟩
end

theorem everyNode_children {t : Tree} (h : t.everyNode test = true) :
    ∀ item ∈ t.children, item.1.everyNode test = true := by
  unfold children
  split
  · next hchildren =>
      cases t with
      | object members =>
          cases hlookup : members.lookup "children" with
          | none => simp [hasChildren, member, hlookup] at hchildren
          | some item =>
              rw [member, hlookup]
              exact everyNode_spread (everyNode_of_lookup (everyNode_object.mp h).2 hlookup) 0
      | _ => simp [hasChildren, isStructured, nodeType?] at hchildren
  · simp

theorem isPrimitive_of_isValid {a : Atom} (h : (atom a).isValid = true) : a.isPrimitive = true := by
  have hnode : (a.isPrimitive || false) = true := h
  rwa [Bool.or_false] at hnode

theorem classify_of_isValid {t : Tree} (h : t.isValid = true) (harray : t.isArray = false) :
    (∃ a, t = .atom a ∧ t.classify = .ok .primitive) ∨
      ∃ members, t = .object members ∧ t.classify = .ok .structured := by
  cases t with
  | atom a =>
      exact .inl ⟨a, rfl, (isPrimitive_iff_classify _).mp (isPrimitive_of_isValid h)⟩
  | tuple items => cases h
  | array items => cases harray
  | object members =>
      have hstructured : (object members).isStructured = true := (everyNode_object.mp h).1
      exact .inr ⟨members, rfl, (isStructured_iff_classify _).mp hstructured⟩

end Tree

end ViewTree
