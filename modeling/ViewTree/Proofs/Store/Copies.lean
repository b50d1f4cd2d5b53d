import ViewTree.Proofs.Store.Bindable
import ViewTree.Proofs.Store.Placing
import ViewTree.Render.Renderer

namespace ViewTree

inductive Part
  | item (position : Nat)
  | member (name : String)

namespace Tree

def part? (tree : Tree) (part : Part) : Option Tree :=
  match tree, part with
  | .array items, .item position => items[position]?
  | .object members, .member name => members.lookup name
  | _, _ => none

def follow (tree : Tree) (path : List Part) : Option Tree :=
  path.foldlM part? tree

end Tree

namespace Store

def part? (s : Store) (value : Value) (part : Part) : Option Value :=
  match value, part with
  | .array ref, .item position => s.at? (.element ref position)
  | .object ref, .member name => s.at? (.member ref name)
  | _, _ => none

def follow (s : Store) (value : Value) (path : List Part) : Option Value :=
  path.foldlM s.part? value

/-- A value of one store and its copy in another: where the first has an array or an object, the
second has one of the copied cells, and else both are the same thing. -/
inductive Twins (s after : Store) (copied : List Cell) : Value → Value → Prop
  | atom (a : Atom) : Twins s after copied (.atom a) (.atom a)
  | tuple (items : List Tree) : Twins s after copied (.tuple items) (.tuple items)
  | array {ref other : ArrayRef} (hcopied : .array other ∈ copied)
      (hlength : (after.items other).length = (s.items ref).length) :
      Twins s after copied (.array ref) (.array other)
  | object {ref other : ObjectRef} (hcopied : .object other ∈ copied)
      (hnames : (after.members other).names = (s.members ref).names) :
      Twins s after copied (.object ref) (.object other)

/-- A cell that is overwritten, or a new one. -/
inductive Update
  | items (ref : ArrayRef) (items : List Value)
  | members (ref : ObjectRef) (members : Members Value)
  | newArray (items : List Value)
  | newObject (members : Members Value)

/-- The cell that is written through. -/
def Update.cell? : Update → Option Cell
  | .items ref _ => some (.array ref)
  | .members ref _ => some (.object ref)
  | .newArray _ | .newObject _ => none

def update (s : Store) : Update → Store
  | .items ref items => s.setItems ref items
  | .members ref members => s.setMembers ref members
  | .newArray items => (Store.newArray items s).2
  | .newObject members => (Store.newObject members s).2

def updateAll (s : Store) (updates : List Update) : Store :=
  updates.foldl update s

def ShowsWithin (s : Store) (cells : List Cell) (tree : Tree) (value : Value) : Prop :=
  ∃ parts, s.Shows tree value parts ∧ parts.Sublist cells

variable {s after : Store} {tree : Tree} {value copy : Value} {cells copied : List Cell}

theorem rel_mono {r q : α → β → Prop} (h : ∀ a b, r a b → q a b) {first : Option α}
    {second : Option β} (hrel : Option.Rel r first second) : Option.Rel q first second := by
  cases hrel with
  | none => exact .none
  | some hfirst => exact .some (h _ _ hfirst)

theorem rel_bind {r : α → β → Prop} {q : γ → δ → Prop} {f : α → Option γ} {g : β → Option δ}
    (h : ∀ a b, r a b → Option.Rel q (f a) (g b)) {first : Option α} {second : Option β}
    (hrel : Option.Rel r first second) : Option.Rel q (first.bind f) (second.bind g) := by
  cases hrel with
  | none => exact .none
  | some hfirst => exact h _ _ hfirst

theorem ShowsWithin.mono {more : List Cell} (hmore : cells.Sublist more) (tree : Tree)
    (value : Value) (h : s.ShowsWithin cells tree value) : s.ShowsWithin more tree value := by
  obtain ⟨parts, hshows, hparts⟩ := h
  exact ⟨parts, hshows, hparts.trans hmore⟩

theorem ShowsItems.getElem? {trees : List Tree} {values : List Value}
    (h : s.ShowsItems trees values cells) (position : Nat) :
    Option.Rel (s.ShowsWithin cells) trees[position]? values[position]? := by
  induction trees generalizing values cells position with
  | nil =>
      cases h
      exact .none
  | cons tree trees ih =>
      cases h with
      | cons head tail =>
          cases position with
          | zero => exact .some ⟨_, head, List.sublist_append_left _ _⟩
          | succ position =>
              exact rel_mono (ShowsWithin.mono (List.sublist_append_right _ _)) (ih tail position)

theorem Shows.part? (h : s.Shows tree value cells) (part : Part) :
    Option.Rel (s.ShowsWithin cells) (tree.part? part) (s.part? value part) := by
  cases h with
  | atom a => exact .none
  | tuple items => exact .none
  | array has items =>
      cases part with
      | member name => exact .none
      | item position =>
          exact rel_mono (ShowsWithin.mono (List.sublist_cons_self _ _)) (items.getElem? position)
  | object has members =>
      cases part with
      | item position => exact .none
      | member name =>
          rw [Tree.part?, Store.part?, at?]
          rcases members.lookup name with ⟨htree, hvalue⟩ | ⟨_, _, parts, htree, hvalue, hshows, hparts⟩
          · rw [htree, hvalue]
            exact .none
          · rw [htree, hvalue]
            exact .some ⟨parts, hshows, hparts.cons _⟩

theorem ShowsWithin.follow (h : s.ShowsWithin cells tree value) (path : List Part) :
    Option.Rel (s.ShowsWithin cells) (tree.follow path) (s.follow value path) := by
  induction path generalizing tree value with
  | nil => exact .some h
  | cons part path ih =>
      obtain ⟨parts, hshows, hparts⟩ := h
      have hpart := rel_mono (ShowsWithin.mono hparts) (hshows.part? part)
      refine rel_bind ?_ hpart
      intro below held hbelow
      exact ih hbelow

theorem ShowsItems.length_eq {trees : List Tree} {values : List Value}
    (h : s.ShowsItems trees values cells) : values.length = trees.length := by
  induction trees generalizing values cells with
  | nil =>
      cases h
      rfl
  | cons tree trees ih =>
      cases h with
      | cons head tail => exact congrArg Nat.succ (ih tail)

theorem ShowsWithin.twins (h : s.ShowsWithin cells tree value)
    (hcopy : after.ShowsWithin copied tree copy) : Twins s after copied value copy := by
  obtain ⟨_, hshows, -⟩ := h
  obtain ⟨_, hcopy, hparts⟩ := hcopy
  cases hshows with
  | atom a =>
      cases hcopy
      exact .atom a
  | tuple items =>
      cases hcopy
      exact .tuple items
  | array has items =>
      cases hcopy with
      | array hasCopy copies =>
          exact .array (hparts.subset List.mem_cons_self) (copies.length_eq.trans items.length_eq.symm)
  | object has members =>
      cases hcopy with
      | object hasCopy copies =>
          exact .object (hparts.subset List.mem_cons_self) (copies.names.trans members.names.symm)

theorem ShowsWithin.follow_twins (h : s.ShowsWithin cells tree value)
    (hcopy : after.ShowsWithin copied tree copy) (path : List Part) :
    Option.Rel (Twins s after copied) (s.follow value path) (after.follow copy path) := by
  have hfirst := h.follow path
  have hsecond := hcopy.follow path
  generalize tree.follow path = below at hfirst hsecond
  generalize s.follow value path = held at hfirst ⊢
  generalize after.follow copy path = other at hsecond ⊢
  cases hfirst with
  | none =>
      cases hsecond
      exact .none
  | some hbelow =>
      cases hsecond with
      | some hother => exact .some (hbelow.twins hother)

mutual
theorem Shows.cellsTo_subset {tree : Tree} {value : Value} {cells : List Cell}
    (h : s.Shows tree value cells) (level : Nat) : s.cellsTo level value ⊆ cells := by
  cases h with
  | atom a => cases level <;> exact List.nil_subset _
  | tuple items => cases level <;> exact List.nil_subset _
  | array has items =>
      cases level with
      | zero => exact List.cons_subset_cons _ (List.nil_subset _)
      | succ level => exact List.cons_subset_cons _ (items.cellsTo_subset level)
  | object has members =>
      cases level with
      | zero => exact List.cons_subset_cons _ (List.nil_subset _)
      | succ level => exact List.cons_subset_cons _ (members.cellsTo_subset level)

theorem ShowsItems.cellsTo_subset {trees : List Tree} {values : List Value} {cells : List Cell}
    (h : s.ShowsItems trees values cells) (level : Nat) :
    values.flatMap (s.cellsTo level) ⊆ cells := by
  cases h with
  | nil => exact List.nil_subset _
  | cons head tail =>
      rw [List.flatMap_cons]
      exact List.append_subset.mpr
        ⟨List.subset_append_of_subset_left _ (head.cellsTo_subset level),
          List.subset_append_of_subset_right _ (tail.cellsTo_subset level)⟩

theorem ShowsMembers.cellsTo_subset {trees : List (String × Tree)} {values : Members Value}
    {cells : List Cell} (h : s.ShowsMembers trees values cells) (level : Nat) :
    (values.flatMap fun member => s.cellsTo level member.2) ⊆ cells := by
  cases h with
  | nil => exact List.nil_subset _
  | cons head tail =>
      rw [List.flatMap_cons]
      exact List.append_subset.mpr
        ⟨List.subset_append_of_subset_left _ (head.cellsTo_subset level),
          List.subset_append_of_subset_right _ (tail.cellsTo_subset level)⟩
end

theorem Shows.disjoint {other : Tree} (h : s.Shows tree value cells)
    (hcopy : s.Shows other copy copied) (hapart : ∀ cell ∈ copied, cell ∉ cells) :
    s.disjoint value copy = true := by
  rw [Store.disjoint, List.all_eq_true]
  intro cell hcell
  rw [decide_eq_true_eq]
  intro hmem
  exact hapart cell (hcopy.cellsTo_subset _ hmem) (h.cellsTo_subset _ hcell)

theorem update_grows (s : Store) (update : Update) : s.Grows (s.update update) := by
  cases update with
  | items ref items => exact ⟨by simp [Store.update, setItems], Nat.le_refl _⟩
  | members ref members => exact ⟨Nat.le_refl _, by simp [Store.update, setMembers]⟩
  | newArray items => exact (newArray_extends items s).grows
  | newObject members => exact (newObject_extends members s).grows

theorem update_agreesOn {kept : Cell → Prop} (hkept : ∀ cell, kept cell → s.Contains cell)
    {update : Update} (h : ∀ cell ∈ update.cell?, ¬ kept cell) :
    AgreesOn kept s (s.update update) := by
  cases update with
  | items ref items =>
      refine ⟨fun other hother => items_setItems_of_ne s ?_ items, fun _ _ => rfl⟩
      intro heq
      exact h _ rfl (heq ▸ hother)
  | members ref members =>
      refine ⟨fun _ _ => rfl, fun other hother => members_setMembers_of_ne s ?_ members⟩
      intro heq
      exact h _ rfl (heq ▸ hother)
  | newArray items => exact (newArray_extends items s).agrees.mono hkept
  | newObject members => exact (newObject_extends members s).agrees.mono hkept

theorem updateAll_grows (s : Store) (updates : List Update) : s.Grows (s.updateAll updates) := by
  induction updates generalizing s with
  | nil => exact .refl s
  | cons update rest ih => exact (s.update_grows update).trans (ih _)

theorem updateAll_agreesOn {kept : Cell → Prop} (hkept : ∀ cell, kept cell → s.Contains cell)
    {updates : List Update} (h : ∀ update ∈ updates, ∀ cell ∈ update.cell?, ¬ kept cell) :
    AgreesOn kept s (s.updateAll updates) := by
  induction updates generalizing s with
  | nil => exact .refl kept s
  | cons update rest ih =>
      obtain ⟨hfirst, hrest⟩ := List.forall_mem_cons.mp h
      have hgrown : ∀ cell, kept cell → (s.update update).Contains cell := fun cell hcell =>
        (s.update_grows update).contains (hkept cell hcell)
      exact (update_agreesOn hkept hfirst).trans (ih hgrown hrest)

theorem Shows.updateAll (h : s.Shows tree value cells) {updates : List Update}
    (hupdates : ∀ update ∈ updates, ∀ cell ∈ update.cell?, cell ∉ cells) :
    (s.updateAll updates).Shows tree value cells :=
  h.frame (s.updateAll_grows updates) (updateAll_agreesOn h.contains hupdates)

/-- A copy unfolds to the tree of its original, in cells that are new and all its own.  Along every
path both have arrays of one length, objects with the same names in one order, or the very same
thing.  The copy is classified and rendered as the original is.  The store has all its cells as they
were, and still does when the copy is written through, and new cells as much as one likes; and the
copy stays as it is when anything else is written through. -/
theorem clone_separate (h : s.Shows tree value cells) :
    let copy := (Store.clone value s).1
    let after := (Store.clone value s).2
    s.Extends after ∧ after.Shows tree value cells ∧ ∃ copied, after.Shows tree copy copied ∧
      s.Fresh copied ∧ after.disjoint value copy = true ∧
      (∀ path, Option.Rel (Twins s after copied) (s.follow value path) (after.follow copy path)) ∧
      after.read copy = s.read value ∧ after.classify copy = s.classify value ∧
      (∀ renderer : Renderer,
        renderer.render (after.read copy) = renderer.render (s.read value)) ∧
      (∀ updates : List Update,
        (∀ update ∈ updates, ∀ cell ∈ update.cell?, cell ∈ copied ∨ ¬ after.Contains cell) →
        s.Extends (after.updateAll updates) ∧ (after.updateAll updates).Shows tree value cells) ∧
      ∀ updates : List Update,
        (∀ update ∈ updates, ∀ cell ∈ update.cell?, cell ∉ copied) →
        (after.updateAll updates).Shows tree copy copied := by
  intro copy after
  obtain ⟨hextends, copied, hcopy, hfresh⟩ := h.clone
  have hvalue := hextends.shows h
  have hread : after.read copy = s.read value := hcopy.read_eq.trans h.read_eq.symm
  have hapart : ∀ cell ∈ copied, cell ∉ cells := fun cell hcell hmem =>
    hfresh.new cell hcell (h.contains cell hmem)
  refine ⟨hextends, hvalue, copied, hcopy, hfresh, hvalue.disjoint hcopy hapart, ?_, hread,
    hcopy.classify.trans h.classify.symm, ?_, ?_, ?_⟩
  · intro path
    exact ShowsWithin.follow_twins ⟨cells, h, .refl _⟩ ⟨copied, hcopy, .refl _⟩ path
  · intro renderer
    rw [hread]
  · intro updates hupdates
    have hkept : AgreesOn s.Contains after (after.updateAll updates) := by
      apply updateAll_agreesOn fun cell hcell => hextends.grows.contains hcell
      intro update hupdate cell hcell hhas
      rcases hupdates update hupdate cell hcell with hmem | hnew
      · exact hfresh.new cell hmem hhas
      · exact hnew (hextends.grows.contains hhas)
    have hlater : s.Extends (after.updateAll updates) :=
      ⟨hextends.grows.trans (after.updateAll_grows updates), hextends.agrees.trans hkept⟩
    exact ⟨hlater, hlater.shows h⟩
  · intro updates hupdates
    exact hcopy.updateAll hupdates

def trellis : Store where
  arrays := #[[.atom (.text "rose")]]
  objects := #[[("left", .array ⟨0⟩), ("right", .array ⟨0⟩), ("grow", .atom (.callable "grow")),
    ("size", .tuple [.int 2, .int 3])]]

def trellisTree : Tree :=
  .object [("left", .array [.text "rose"]), ("right", .array [.text "rose"]),
    ("grow", .atom (.callable "grow")), ("size", .tuple [.int 2, .int 3])]

theorem clone_separate_trellis :
    ∃ cells, trellis.Shows trellisTree (.object ⟨0⟩) cells ∧
      (Store.clone (.object ⟨0⟩) trellis).1 = .object ⟨1⟩ ∧
      (Store.clone (.object ⟨0⟩) trellis).2.disjoint (.object ⟨0⟩) (.object ⟨1⟩) = true ∧
      ((Store.clone (.object ⟨0⟩) trellis).2.update (.members ⟨1⟩ [])).read (.object ⟨0⟩) =
        trellisTree ∧
      ((Store.clone (.object ⟨0⟩) trellis).2.update (.items ⟨0⟩ [])).read (.object ⟨1⟩) =
        trellisTree := by
  have harray : trellis.Contains (.array ⟨0⟩) := Nat.zero_lt_one
  have hobject : trellis.Contains (.object ⟨0⟩) := Nat.zero_lt_one
  have hrose : trellis.Shows (.array [.text "rose"]) (.array ⟨0⟩) [.array ⟨0⟩] :=
    .array harray (.cons (.atom _) .nil)
  have hshows : trellis.Shows trellisTree (.object ⟨0⟩)
      [.object ⟨0⟩, .array ⟨0⟩, .array ⟨0⟩] :=
    .object hobject (.cons hrose (.cons hrose (.cons (.atom _) (.cons (.tuple _) .nil))))
  obtain ⟨-, -, copied, hcopy, hfresh, hdisjoint, -, -, -, -, hthrough, hapart⟩ :=
    clone_separate hshows
  have hmine : Cell.object ⟨1⟩ ∈ copied := by
    cases hcopy with
    | object has members => exact List.mem_cons_self
  have htheirs : Cell.array ⟨0⟩ ∉ copied := fun hmem => hfresh.new _ hmem harray
  refine ⟨_, hshows, rfl, hdisjoint, ?_, ?_⟩
  · exact (hthrough [.members ⟨1⟩ []] (by simpa [Update.cell?] using .inl hmine)).2.read_eq
  · exact (hapart [.items ⟨0⟩ []] (by simpa [Update.cell?] using htheirs)).read_eq

end Store

end ViewTree
