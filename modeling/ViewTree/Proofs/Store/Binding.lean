import ViewTree.Proofs.Store.Tending
import ViewTree.Proofs.Tree.Binding

namespace ViewTree

def Roster.bindValues (roster : Roster) (members : Members Value) : Members Value :=
  roster.bind Value.text? .atom members

@[simp] theorem Roster.bindValues_bindValues (roster : Roster) (members : Members Value) :
    roster.bindValues (roster.bindValues members) = roster.bindValues members := by
  have hatom : ∀ a, Value.text? (.atom a) = a.text? := fun _ => rfl
  exact roster.bind_bind hatom members

namespace Store

/-- An object is the props of a structured node reached from a value. -/
inductive PropsOf (s : Store) : Value → ObjectRef → Prop
  | own {ref props : ObjectRef} (htype : (s.nodeType? (.object ref)).isSome = true)
      (h : ("props", Value.object props) ∈ s.members ref) : PropsOf s (.object ref) props
  | child {ref props : ObjectRef} {value : Value}
      (htype : (s.nodeType? (.object ref)).isSome = true)
      (hmember : ("children", value) ∈ s.members ref) (h : PropsOf s value props) :
      PropsOf s (.object ref) props
  | item {ref : ArrayRef} {props : ObjectRef} {value : Value} (hitem : value ∈ s.items ref)
      (h : PropsOf s value props) : PropsOf s (.array ref) props

/-- Some objects of a store are bound later, and all else is as it was. -/
structure Bound (roster : Roster) (s : Store) (chosen : ObjectRef → Prop) (after : Store) :
    Prop where
  grows : s.Grows after
  items : ∀ ref, s.Contains (.array ref) → after.items ref = s.items ref
  bound : ∀ ref, s.Contains (.object ref) → chosen ref →
    after.members ref = roster.bindValues (s.members ref)
  others : ∀ ref, s.Contains (.object ref) → ¬ chosen ref → after.members ref = s.members ref

variable {roster : Roster} {s middle after : Store} {chosen more : ObjectRef → Prop}

theorem Extends.bound (h : s.Extends after) : s.Bound roster (fun _ => False) after where
  grows := h.grows
  items := h.agrees.items
  bound := fun _ _ hchosen => hchosen.elim
  others := fun ref href _ => h.agrees.members ref href

theorem Bound.congr (h : s.Bound roster chosen after) (hsame : ∀ ref, chosen ref ↔ more ref) :
    s.Bound roster more after := by
  rwa [funext fun ref => propext (hsame ref)] at h

/-- Bound or not, an object comes to the same when it is bound. -/
theorem Bound.bindValues (h : s.Bound roster chosen after) {ref : ObjectRef}
    (href : s.Contains (.object ref)) :
    roster.bindValues (after.members ref) = roster.bindValues (s.members ref) := by
  by_cases hchosen : chosen ref
  · rw [h.bound ref href hchosen, Roster.bindValues_bindValues]
  · rw [h.others ref href hchosen]

theorem Bound.trans (h : s.Bound roster chosen middle) (hnext : middle.Bound roster more after) :
    s.Bound roster (fun ref => chosen ref ∨ more ref) after where
  grows := h.grows.trans hnext.grows
  items := fun ref href =>
    (hnext.items ref (h.grows.contains href)).trans (h.items ref href)
  bound := by
    intro ref href hboth
    have hmiddle : middle.Contains (.object ref) := h.grows.contains href
    by_cases hmore : more ref
    · rw [hnext.bound ref hmiddle hmore, h.bindValues href]
    · rw [hnext.others ref hmiddle hmore, h.bound ref href (hboth.resolve_right hmore)]
  others := by
    intro ref href hneither
    obtain ⟨hchosen, hmore⟩ := not_or.mp hneither
    rw [hnext.others ref (h.grows.contains href) hmore, h.others ref href hchosen]

theorem Bound.agreesOn (h : s.Bound roster chosen after) {cells : List Cell}
    (hcells : ∀ cell ∈ cells, s.Contains cell)
    (hfree : ∀ ref, Cell.object ref ∈ cells → ¬ chosen ref) : AgreesOn (· ∈ cells) s after where
  items := fun ref href => h.items ref (hcells _ href)
  members := fun ref href => h.others ref (hcells _ href) (hfree ref href)

theorem Bound.isTruthy (h : s.Bound roster chosen after) {value : Value}
    (hheld : ∀ cell : Cell, value = cell.value → s.Contains cell) :
    after.isTruthy value = s.isTruthy value := by
  cases value with
  | atom a => rfl
  | tuple items => rfl
  | array ref => rw [Store.isTruthy, Store.isTruthy, h.items ref (hheld (.array ref) rfl)]
  | object ref =>
      have href : s.Contains (.object ref) := hheld (.object ref) rfl
      rw [Store.isTruthy, Store.isTruthy]
      by_cases hchosen : chosen ref
      · rw [h.bound ref href hchosen, Roster.bindValues, Roster.bind, List.isEmpty_map]
      · rw [h.others ref href hchosen]

def Gives (s : Store) (member : String × Value) (props : ObjectRef) : Prop :=
  member.1 = "props" ∧ member.2 = .object props ∨
    member.1 = "children" ∧ s.PropsOf member.2 props

theorem propsOf_object {ref props : ObjectRef}
    (htype : (s.nodeType? (.object ref)).isSome = true) :
    s.PropsOf (.object ref) props ↔ ∃ member ∈ s.members ref, s.Gives member props := by
  constructor
  · intro h
    cases h with
    | own _ h => exact ⟨_, h, .inl ⟨rfl, rfl⟩⟩
    | child _ hmember h => exact ⟨_, hmember, .inr ⟨rfl, h⟩⟩
  · intro h
    obtain ⟨⟨name, value⟩, hmember, hgives⟩ := h
    rcases hgives with ⟨rfl, rfl⟩ | ⟨rfl, h⟩
    · exact .own htype hmember
    · exact .child htype hmember h

theorem propsOf_array {ref : ArrayRef} {props : ObjectRef} :
    s.PropsOf (.array ref) props ↔ ∃ value ∈ s.items ref, s.PropsOf value props := by
  constructor
  · intro h
    cases h with
    | item hitem h => exact ⟨_, hitem, h⟩
  · intro h
    obtain ⟨value, hitem, h⟩ := h
    exact .item hitem h

theorem ShowsItems.shows_of_mem {trees : List Tree} {values : List Value} {cells : List Cell}
    (h : s.ShowsItems trees values cells) {value : Value} (hvalue : value ∈ values) :
    ∃ tree parts, s.Shows tree value parts ∧ parts.Sublist cells := by
  induction trees generalizing values cells with
  | nil =>
      cases h
      cases hvalue
  | cons tree trees ih =>
      cases h with
      | cons head tail =>
          rcases List.mem_cons.mp hvalue with rfl | hvalue
          · exact ⟨_, _, head, List.sublist_append_left _ _⟩
          · obtain ⟨other, parts, hshows, hparts⟩ := ih tail hvalue
            exact ⟨other, parts, hshows, hparts.trans (List.sublist_append_right _ _)⟩

theorem ShowsMembers.shows_of_mem {trees : List (String × Tree)} {values : Members Value}
    {cells : List Cell} (h : s.ShowsMembers trees values cells) {member : String × Value}
    (hmember : member ∈ values) :
    ∃ tree parts, s.Shows tree member.2 parts ∧ parts.Sublist cells := by
  induction trees generalizing values cells with
  | nil =>
      cases h
      cases hmember
  | cons tree trees ih =>
      cases h with
      | cons head tail =>
          rcases List.mem_cons.mp hmember with rfl | hmember
          · exact ⟨_, _, head, List.sublist_append_left _ _⟩
          · obtain ⟨other, parts, hshows, hparts⟩ := ih tail hmember
            exact ⟨other, parts, hshows, hparts.trans (List.sublist_append_right _ _)⟩

theorem Shows.mem_of_propsOf {t : Tree} {value : Value} {cells : List Cell}
    (h : s.Shows t value cells) {props : ObjectRef} (hprops : s.PropsOf value props) :
    Cell.object props ∈ cells := by
  induction hprops generalizing t cells with
  | own _ hmember =>
      cases h with
      | object has members =>
          obtain ⟨tree, parts, hshows, hparts⟩ := members.shows_of_mem hmember
          cases hshows with
          | object => exact List.mem_cons_of_mem _ (hparts.subset List.mem_cons_self)
  | child _ hmember _ ih =>
      cases h with
      | object has members =>
          obtain ⟨tree, parts, hshows, hparts⟩ := members.shows_of_mem hmember
          exact List.mem_cons_of_mem _ (hparts.subset (ih hshows))
  | item hitem _ ih =>
      cases h with
      | array has items =>
          obtain ⟨tree, parts, hshows, hparts⟩ := items.shows_of_mem hitem
          exact List.mem_cons_of_mem _ (hparts.subset (ih hshows))

theorem ShowsItems.mem_of_propsOf {trees : List Tree} {values : List Value} {cells : List Cell}
    (h : s.ShowsItems trees values cells) {value : Value} (hvalue : value ∈ values)
    {props : ObjectRef} (hprops : s.PropsOf value props) : Cell.object props ∈ cells := by
  obtain ⟨tree, parts, hshows, hparts⟩ := h.shows_of_mem hvalue
  exact hparts.subset (hshows.mem_of_propsOf hprops)

theorem ShowsMembers.mem_of_gives {trees : List (String × Tree)} {values : Members Value}
    {cells : List Cell} (h : s.ShowsMembers trees values cells) {member : String × Value}
    (hmember : member ∈ values) {props : ObjectRef} (hgives : s.Gives member props) :
    Cell.object props ∈ cells := by
  obtain ⟨tree, parts, hshows, hparts⟩ := h.shows_of_mem hmember
  refine hparts.subset ?_
  rcases hgives with ⟨-, hvalue⟩ | ⟨-, hprops⟩
  · rw [hvalue] at hshows
    cases hshows with
    | object => exact List.mem_cons_self
  · exact hshows.mem_of_propsOf hprops

theorem Shows.not_propsOf_self {t : Tree} {ref : ObjectRef} {cells : List Cell}
    (h : s.Shows t (.object ref) cells) (hnodup : cells.Nodup) : ¬ s.PropsOf (.object ref) ref := by
  intro hprops
  cases h with
  | object has members =>
      obtain ⟨hself, -⟩ := List.nodup_cons.mp hnodup
      cases hprops with
      | own _ h => exact hself (members.mem_of_gives h (.inl ⟨rfl, rfl⟩))
      | child _ hmember h => exact hself (members.mem_of_gives hmember (.inr ⟨rfl, h⟩))

theorem PropsOf.frame {value : Value} {props : ObjectRef} (h : s.PropsOf value props) {t : Tree}
    {cells : List Cell} (hshows : s.Shows t value cells) (hagrees : AgreesOn (· ∈ cells) s after) :
    after.PropsOf value props := by
  induction h generalizing t cells with
  | @own ref props htype hmember =>
      cases hshows with
      | object has members =>
          have hsame := hagrees.members ref List.mem_cons_self
          refine .own ?_ (hsame ▸ hmember)
          rwa [Store.nodeType?, hsame]
  | @child ref props value htype hmember _ ih =>
      cases hshows with
      | object has members =>
          have hsame := hagrees.members ref List.mem_cons_self
          obtain ⟨tree, parts, htree, hparts⟩ := members.shows_of_mem hmember
          refine .child ?_ (hsame ▸ hmember) (ih htree (hagrees.mono fun cell hcell =>
            List.mem_cons_of_mem _ (hparts.subset hcell)))
          rwa [Store.nodeType?, hsame]
  | @item ref props value hitem _ ih =>
      cases hshows with
      | array has items =>
          obtain ⟨tree, parts, htree, hparts⟩ := items.shows_of_mem hitem
          refine .item (hagrees.items ref List.mem_cons_self ▸ hitem) (ih htree (hagrees.mono
            fun cell hcell => List.mem_cons_of_mem _ (hparts.subset hcell)))

theorem Shows.propsOf_frame {t : Tree} {value : Value} {cells : List Cell}
    (h : s.Shows t value cells) (hgrows : s.Grows after) (hagrees : AgreesOn (· ∈ cells) s after)
    (props : ObjectRef) : after.PropsOf value props ↔ s.PropsOf value props := by
  refine ⟨fun hprops => ?_, fun hprops => hprops.frame h hagrees⟩
  exact hprops.frame (h.frame hgrows hagrees)
    ⟨fun ref href => (hagrees.items ref href).symm, fun ref href => (hagrees.members ref href).symm⟩

theorem ShowsItems.propsOf_frame {trees : List Tree} {values : List Value} {cells : List Cell}
    (h : s.ShowsItems trees values cells) (hgrows : s.Grows after)
    (hagrees : AgreesOn (· ∈ cells) s after) (props : ObjectRef) :
    (∃ value ∈ values, after.PropsOf value props) ↔ ∃ value ∈ values, s.PropsOf value props := by
  refine exists_congr fun value => and_congr_right fun hvalue => ?_
  obtain ⟨tree, parts, hshows, hparts⟩ := h.shows_of_mem hvalue
  exact hshows.propsOf_frame hgrows (hagrees.mono fun cell hcell => hparts.subset hcell) props

theorem Shows.bindProp (roster : Roster) (name : String) {tree : Tree} {value : Value}
    {cells : List Cell} (h : s.Shows tree value cells) :
    s.Shows (((roster.handler? name tree.text?).map Tree.atom).getD tree)
      (((roster.handler? name value.text?).map Value.atom).getD value) cells := by
  rw [h.text?]
  cases hhandler : roster.handler? name tree.text? with
  | none => exact h
  | some handler =>
      cases h with
      | atom a => exact .atom handler
      | _ =>
          have hnone := hhandler.symm.trans (roster.handler?_none name)
          cases hnone

theorem ShowsMembers.bind (roster : Roster) {trees : List (String × Tree)}
    {values : Members Value} {cells : List Cell} (h : s.ShowsMembers trees values cells) :
    s.ShowsMembers (roster.bind Tree.text? .atom trees) (roster.bindValues values) cells := by
  induction trees generalizing values cells with
  | nil =>
      cases h
      exact .nil
  | cons member trees ih =>
      cases h with
      | cons head tail => exact .cons (head.bindProp roster _) (ih tail)

theorem Shows.bindProps (hbound : s.Bound roster chosen after) {tree : Tree} {value : Value}
    {cells : List Cell} (h : s.Shows tree value cells) (hnodup : cells.Nodup)
    (hchosen : ∀ ref, Cell.object ref ∈ cells → (chosen ref ↔ value = .object ref)) :
    after.Shows (roster.bindProps tree) value cells := by
  have hcontains := h.contains
  have hfree : (∀ ref, value ≠ .object ref) → ∀ other, Cell.object other ∈ cells → ¬ chosen other :=
    fun hne other hother hcell => hne other ((hchosen other hother).mp hcell)
  cases h with
  | @object trees ref rest has members =>
      obtain ⟨hself, hrest⟩ := List.nodup_cons.mp hnodup
      have hapart : ∀ other, Cell.object other ∈ rest → ¬ chosen other := by
        intro other hother hcell
        obtain rfl := Value.object.inj ((hchosen other (List.mem_cons_of_mem _ hother)).mp hcell)
        exact hself hother
      have hmembers := members.frame hbound.grows (hbound.agreesOn members.contains hapart)
      refine .object (hbound.grows.contains has) ?_
      rw [hbound.bound ref has ((hchosen ref List.mem_cons_self).mpr rfl)]
      exact hmembers.bind roster
  | _ =>
      exact Shows.frame (by constructor <;> assumption) hbound.grows
        (hbound.agreesOn hcontains (hfree (by simp)))

mutual
theorem Shows.bound (hbound : s.Bound roster chosen after) {t : Tree} {value : Value}
    {cells : List Cell} (h : s.Shows t value cells) (hnodup : cells.Nodup)
    (hchosen : ∀ ref, Cell.object ref ∈ cells → (chosen ref ↔ s.PropsOf value ref)) :
    after.Shows (t.bound roster) value cells := by
  cases h with
  | atom a => exact .atom a
  | tuple items => exact .tuple items
  | @array trees ref rest has items =>
      refine .array (hbound.grows.contains has) ?_
      rw [hbound.items ref has]
      refine items.bound hbound (List.nodup_cons.mp hnodup).2 fun other hother => ?_
      rw [hchosen other (List.mem_cons_of_mem _ hother), propsOf_array]
  | @object trees ref rest has members =>
      obtain ⟨hself, hrest⟩ := List.nodup_cons.mp hnodup
      have htype : (s.nodeType? (.object ref)).isSome = (Tree.object trees).isStructured := by
        rw [Tree.isStructured, Shows.nodeType? (.object has members)]
      have hfree : ¬ chosen ref := fun hcell => Shows.not_propsOf_self (.object has members) hnodup
        ((hchosen ref List.mem_cons_self).mp hcell)
      rw [Tree.bound]
      refine .object (hbound.grows.contains has) ?_
      rw [hbound.others ref has hfree]
      cases hstructured : (Tree.object trees).isStructured with
      | true =>
          refine members.bound hbound hrest fun other hother => ?_
          rw [hchosen other (List.mem_cons_of_mem _ hother),
            propsOf_object (htype.trans hstructured)]
      | false =>
          refine members.frame hbound.grows
            (hbound.agreesOn members.contains fun other hother hcell => ?_)
          have hnone := htype.trans hstructured
          have hprops := (hchosen other (List.mem_cons_of_mem _ hother)).mp hcell
          cases hprops with
          | own htype _ => exact absurd (htype.symm.trans hnone) (by simp)
          | child htype _ _ => exact absurd (htype.symm.trans hnone) (by simp)

theorem ShowsItems.bound (hbound : s.Bound roster chosen after) {trees : List Tree}
    {values : List Value} {cells : List Cell} (h : s.ShowsItems trees values cells)
    (hnodup : cells.Nodup)
    (hchosen : ∀ ref, Cell.object ref ∈ cells →
      (chosen ref ↔ ∃ value ∈ values, s.PropsOf value ref)) :
    after.ShowsItems (Tree.boundItems roster trees) values cells := by
  cases h with
  | nil => exact .nil
  | @cons tree trees value values cells rest head tail =>
      obtain ⟨hcells, hrest, hdisjoint⟩ := List.nodup_append.mp hnodup
      refine .cons (head.bound hbound hcells fun ref href => ?_)
        (tail.bound hbound hrest fun ref href => ?_)
      · rw [hchosen ref (List.mem_append_left _ href), List.exists_mem_cons_iff, or_iff_left]
        intro hother
        obtain ⟨other, hvalue, hprops⟩ := hother
        exact hdisjoint _ href _ (tail.mem_of_propsOf hvalue hprops) rfl
      · rw [hchosen ref (List.mem_append_right _ href), List.exists_mem_cons_iff, or_iff_right]
        intro hprops
        exact hdisjoint _ (head.mem_of_propsOf hprops) _ href rfl

theorem ShowsMembers.bound (hbound : s.Bound roster chosen after) {trees : List (String × Tree)}
    {values : Members Value} {cells : List Cell} (h : s.ShowsMembers trees values cells)
    (hnodup : cells.Nodup)
    (hchosen : ∀ ref, Cell.object ref ∈ cells →
      (chosen ref ↔ ∃ member ∈ values, s.Gives member ref)) :
    after.ShowsMembers (Tree.boundMembers roster trees) values cells := by
  cases h with
  | nil => exact .nil
  | @cons name tree trees value values cells rest head tail =>
      obtain ⟨hcells, hrest, hdisjoint⟩ := List.nodup_append.mp hnodup
      have hhead : ∀ ref, Cell.object ref ∈ cells → (chosen ref ↔ s.Gives (name, value) ref) := by
        intro ref href
        rw [hchosen ref (List.mem_append_left _ href), List.exists_mem_cons_iff, or_iff_left]
        intro hother
        obtain ⟨other, hvalue, hgives⟩ := hother
        exact hdisjoint _ href _ (tail.mem_of_gives hvalue hgives) rfl
      have htail : after.ShowsMembers (Tree.boundMembers roster trees) values rest := by
        refine tail.bound hbound hrest fun ref href => ?_
        rw [hchosen ref (List.mem_append_right _ href), List.exists_mem_cons_iff, or_iff_right]
        intro hgives
        have hmem := (ShowsMembers.cons head .nil).mem_of_gives List.mem_cons_self hgives
        rw [List.append_nil] at hmem
        exact hdisjoint _ hmem _ href rfl
      refine .cons ?_ htail
      by_cases hname : name = "children"
      · rw [if_pos hname]
        refine head.bound hbound hcells fun ref href => ?_
        rw [hhead ref href, Gives]
        simp [hname]
      · rw [if_neg hname]
        by_cases hother : name = "props"
        · rw [if_pos hother]
          refine head.bindProps hbound hcells fun ref href => ?_
          rw [hhead ref href, Gives]
          simp [hother]
        · rw [if_neg hother]
          refine head.frame hbound.grows (hbound.agreesOn head.contains fun ref href hcell => ?_)
          have hgives := (hhead ref href).mp hcell
          rw [Gives] at hgives
          simp [hname, hother] at hgives
end

end Store

end ViewTree
