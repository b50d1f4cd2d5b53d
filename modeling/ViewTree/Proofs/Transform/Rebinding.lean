import ViewTree.Proofs.Transform.Binding

namespace ViewTree

namespace Roster

variable (roster : Roster)

theorem size_bindProps (props : Tree) : (roster.bindProps props).size = props.size := by
  have hvalue : ∀ (name : String) (value : Tree),
      (((roster.handler? name value.text?).map Tree.atom).getD value).size = value.size := by
    intro name value
    cases hhandler : roster.handler? name value.text? with
    | none => rfl
    | some handler =>
        cases value with
        | atom a => rfl
        -- no handler goes by what is no text
        | _ => cases hhandler.symm.trans (roster.handler?_none name)
  cases props with
  | object members =>
      rw [bindProps, Tree.size, Tree.size]
      induction members with
      | nil => rfl
      | cons member rest ih =>
          have hrest := Nat.add_left_cancel ih
          rw [bind, List.map_cons, Tree.memberSizes, hvalue]
          rw [bind] at hrest
          rw [hrest, Tree.memberSizes]
  | _ => rfl

theorem bindProps_bindProps (props : Tree) :
    roster.bindProps (roster.bindProps props) = roster.bindProps props := by
  cases props with
  | object members =>
      have hatom : ∀ a, Tree.text? (.atom a) = a.text? := fun _ => rfl
      exact congrArg Tree.object (roster.bind_bind hatom members)
  | _ => rfl

theorem fitsProps_bindProps (props : Tree) :
    (roster.bindProps props).fitsProps = props.fitsProps := by
  cases props <;> rfl

theorem isDistinct_bindProps (props : Tree) :
    (roster.bindProps props).isDistinct = props.isDistinct := by
  cases props with
  | object members => simp only [bindProps, Tree.isDistinct, names_bind]
  | _ => rfl

end Roster

namespace Tree

variable (roster : Roster)

mutual
theorem size_bound (t : Tree) : (t.bound roster).size = t.size := by
  cases t with
  | atom a => rfl
  | tuple items => rfl
  | array items => rw [bound, size, size, sizes_boundItems items]
  | object members =>
      rw [bound, size, size]
      split
      · rw [memberSizes_boundMembers members]
      · rfl

theorem sizes_boundItems (items : List Tree) : sizes (boundItems roster items) = sizes items := by
  cases items with
  | nil => rfl
  | cons item rest => rw [boundItems, sizes, sizes, size_bound item, sizes_boundItems rest]

theorem memberSizes_boundMembers (members : List (String × Tree)) :
    memberSizes (boundMembers roster members) = memberSizes members := by
  cases members with
  | nil => rfl
  | cons member rest =>
      obtain ⟨name, value⟩ := member
      rw [boundMembers, memberSizes, memberSizes, memberSizes_boundMembers rest]
      split
      · rw [size_bound value]
      · split
        · rw [roster.size_bindProps]
        · rfl
end

mutual
theorem bound_bound (t : Tree) : (t.bound roster).bound roster = t.bound roster := by
  cases t with
  | atom a => rfl
  | tuple items => rfl
  | array items => rw [bound, bound, boundItems_boundItems items]
  | object members =>
      rw [bound]
      split
      · next h =>
          rw [bound, isStructured_boundMembers, if_pos h, boundMembers_boundMembers members]
      · next h => rw [bound, if_neg h]

theorem boundItems_boundItems (items : List Tree) :
    boundItems roster (boundItems roster items) = boundItems roster items := by
  cases items with
  | nil => rfl
  | cons item rest =>
      rw [boundItems, boundItems, bound_bound item, boundItems_boundItems rest]

theorem boundMembers_boundMembers (members : List (String × Tree)) :
    boundMembers roster (boundMembers roster members) = boundMembers roster members := by
  cases members with
  | nil => rfl
  | cons member rest =>
      obtain ⟨name, value⟩ := member
      rw [boundMembers, boundMembers, boundMembers_boundMembers rest]
      by_cases hname : name = "children"
      · rw [if_pos hname, if_pos hname, bound_bound value]
      · rw [if_neg hname, if_neg hname]
        split
        · rw [roster.bindProps_bindProps]
        · rfl
end

theorem names_boundMembers (members : Members Tree) :
    Members.names (boundMembers roster members) = members.names := by
  induction members with
  | nil => rfl
  | cons member rest ih => exact congrArg (member.1 :: ·) ih

theorem isBindable_boundMembers {members : List (String × Tree)}
    (h : (object members).isBindable = true) :
    (object (boundMembers roster members)).isBindable = true := by
  have hprops : (object (boundMembers roster members)).member "props" =
      roster.bindProps ((object members).member "props") := by
    rw [member, member, lookup_boundMembers]
    cases members.lookup "props" <;> rfl
  obtain ⟨hnode, hdistinct, hfits, hnames⟩ := isBindable_iff.mp h
  refine isBindable_iff.mpr ⟨?_, ?_, ?_, ?_⟩
  · exact (isStructured_boundMembers roster members).trans hnode
  · rw [isDistinct, names_boundMembers]
    exact hdistinct
  · rw [hprops, roster.fitsProps_bindProps, hfits]
  · rw [hprops, roster.isDistinct_bindProps, hnames]

mutual
theorem everyNode_bound {t : Tree} (h : t.everyNode isBindable = true) :
    (t.bound roster).everyNode isBindable = true := by
  cases t with
  | atom a => exact h
  | tuple items => exact h
  | array items =>
      rw [everyNode] at h
      rw [bound, everyNode, everyItem_boundItems h]
  | object members =>
      obtain ⟨hnode, hbelow⟩ := everyNode_object.mp h
      have hstructured : (object members).isStructured = true := (isBindable_iff.mp hnode).1
      rw [bound, if_pos hstructured]
      exact everyNode_object.mpr
        ⟨isBindable_boundMembers roster hnode, everyChild_boundMembers hbelow⟩

theorem everyItem_boundItems {items : List Tree} (h : everyItem isBindable items = true) :
    everyItem isBindable (boundItems roster items) = true := by
  cases items with
  | nil => rfl
  | cons item rest =>
      rw [everyItem, Bool.and_eq_true] at h
      rw [boundItems, everyItem, everyNode_bound h.1, everyItem_boundItems h.2, Bool.and_true]

theorem everyChild_boundMembers {members : List (String × Tree)}
    (h : everyChild isBindable members = true) :
    everyChild isBindable (boundMembers roster members) = true := by
  cases members with
  | nil => rfl
  | cons member rest =>
      obtain ⟨name, value⟩ := member
      rw [everyChild] at h
      rw [boundMembers, everyChild]
      by_cases hname : name = "children"
      · rw [if_pos hname] at h
        rw [if_pos hname, if_pos hname]
        exact everyNode_bound h
      · rw [if_neg hname] at h
        rw [if_neg hname]
        exact everyChild_boundMembers h
end

end Tree

/-- What the visitor that binds handlers does as a whole.  Given a bindable tree, or the tree it has
been bound to, a transform in any order, on a copy or in place, returns the bound tree, and tells
its policy, if anything is to be told, of every prop that still goes by a name and of nothing else.
So all orders return the same tree, and to bind again changes nothing and tells the same but for the
nodes.  Only a policy that refuses a report keeps a transform from its end. -/
theorem transform_bindHandlers {settings : Binding.Settings} {entries : Members Tree}
    (hhandlers : settings.handlers = .object entries) (hstart : settings.start.textsOnly = true)
    {options : TransformOptions (Desk Value)} (hprune : options.prune.isNull = true) {order : Order}
    (horder : Order.resolve options.order = .ok order) {t : Tree}
    (htest : t.everyNode Tree.isBindable = true) {fuel : Nat} (hfuel : t.size < fuel)
    (desk : Desk Value) :
    let bound := t.bound ⟨entries, settings.start⟩
    ∀ given ∈ [t, bound],
      (∃ (told : List (Diagnostic Value)) (after : Desk Value),
        given.transform fuel [bindHandlers settings] options desk = (.ok bound, after) ∧
        told.forM Policy.report desk = .ok () after ∧
        (told.map (Diagnostic.mapNode fun _ => ())).Perm
          (if settings.warnOnMissing then (bound.calls settings.start).map fun call =>
            .unresolvedHandler () call.1 call.2 else [])) ∨
      ∃ failure after, given.transform fuel [bindHandlers settings] options desk =
        (.error failure, after) ∧ desk.policy.handling.Refuses failure after := by
  let roster : Roster := ⟨entries, settings.start⟩
  have hgoes : settings.GoesBy roster := ⟨hhandlers, rfl, hstart⟩
  refine List.forall_mem_cons.mpr ⟨?_, List.forall_mem_singleton.mpr ?_⟩
  · exact t.transform_tells hgoes hprune horder htest hfuel desk
  · have hagain := (t.bound roster).transform_tells hgoes hprune horder
      (t.everyNode_bound roster htest) ((t.size_bound roster).symm ▸ hfuel) desk
    rw [Roster.leftover, t.bound_bound roster] at hagain
    exact hagain

def chimes : Binding.Settings :=
  { handlers := .object [("ring", .atom (.callable "ring")), ("gong", .text "ring")]
    start := ⟨["on", "at"], true⟩ }

def veranda : Tree :=
  .array [.object [("props", .object [("onRain", .text "gong"), ("atNoon", .text "ring"),
      ("on", .int 1), ("title", .text "ring")]), ("type", .text "roof"),
      ("children", .array [.text "swing", .array [.object [("type", .text "lamp"), ("props",
        .object [("onDusk", .text "glow")])]], .object [("type", .text "step")]])],
    .array [.text "ring", .object [("type", .text "mat"), ("props", .bool false), ("children",
      .object [("type", .text "door"), ("props", .object [("onKnock", .text "ring"),
        ("atNight", .text "gong")])])]]]

def chimingVeranda : Tree :=
  .array [.object [("props", .object [("onRain", .text "gong"),
      ("atNoon", .atom (.callable "ring")), ("on", .int 1), ("title", .text "ring")]),
      ("type", .text "roof"), ("children", .array [.text "swing", .array [.object
        [("type", .text "lamp"), ("props", .object [("onDusk", .text "glow")])]],
        .object [("type", .text "step")]])],
    .array [.text "ring", .object [("type", .text "mat"), ("props", .bool false), ("children",
      .object [("type", .text "door"), ("props", .object [("onKnock", .atom (.callable "ring")),
        ("atNight", .text "gong")])])]]]

theorem transform_bindHandlers_veranda :
    chimes.start.textsOnly = true ∧ veranda.everyNode Tree.isBindable = true ∧
    veranda.size < 50 ∧ ∀ given ∈ [veranda, chimingVeranda],
      ∃ (told : List (Diagnostic Value)) (after : Desk Value),
        given.transform 50 [bindHandlers chimes] { order := Order.breadthFirst.setting }
          ⟨.ofHandling .gather, []⟩ = (.ok chimingVeranda, after) ∧
        told.forM Policy.report ⟨.ofHandling .gather, []⟩ = .ok () after ∧
        (told.map (Diagnostic.mapNode fun _ => ())).Perm
          [.unresolvedHandler () "onRain" "gong", .unresolvedHandler () "onDusk" "glow",
            .unresolvedHandler () "atNight" "gong"] := by
  have htest : veranda.everyNode Tree.isBindable = true := by decide
  have hsize : veranda.size < 50 := by decide
  have hprune : ({ order := Order.breadthFirst.setting } :
      TransformOptions (Desk Value)).prune.isNull = true := rfl
  have horder : Order.resolve ({ order := Order.breadthFirst.setting } :
      TransformOptions (Desk Value)).order = .ok .breadthFirst := rfl
  have hhandlers : chimes.handlers =
      .object [("ring", .atom (.callable "ring")), ("gong", .text "ring")] := rfl
  have hstart : chimes.start.textsOnly = true := rfl
  refine ⟨hstart, htest, hsize, fun given hgiven => ?_⟩
  rcases transform_bindHandlers hhandlers hstart hprune horder htest hsize
    ⟨.ofHandling .gather, []⟩ given hgiven with
    ⟨told, after, hrun, hreport, htold⟩ | ⟨failure, after, -, hrefused⟩
  · exact ⟨told, after, hrun, hreport, htold⟩
  · rcases Handling.refuses_only hrefused with hhandling | ⟨limit, verbose, hhandling⟩
    · cases hhandling
    · cases hhandling

end ViewTree
