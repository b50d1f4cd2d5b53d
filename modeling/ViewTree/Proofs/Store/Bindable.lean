import ViewTree.Proofs.Store.Binding

namespace ViewTree

namespace Tree

def isDistinct : Tree → Bool
  | .object members => decide (Members.names members).Nodup
  | _ => true

def isBindable (t : Tree) : Bool :=
  t.isNode && t.isDistinct && (t.member "props").fitsProps && (t.member "props").isDistinct

theorem isBindable_iff {t : Tree} : t.isBindable = true ↔
    t.isNode = true ∧ t.isDistinct = true ∧ (t.member "props").fitsProps = true ∧
      (t.member "props").isDistinct = true := by
  simp only [isBindable, Bool.and_eq_true, and_assoc]

end Tree

namespace Store

variable {s after : Store} {kept : Cell → Prop} {plot : Plot} {plots : List Plot}
  {ref : ObjectRef}

/-- What the members of a bindable node are in a store. -/
structure Bindable (s : Store) (ref : ObjectRef) : Prop where
  structured : (s.nodeType? (.object ref)).isSome = true
  names : (s.members ref).names.Nodup
  held : ∀ cell : Cell, s.member ref "props" = cell.value → s.Contains cell
  fits : s.isTruthy (s.member ref "props") = true →
    ∃ props, s.member ref "props" = .object props
  distinct : ∀ props, s.member ref "props" = .object props → (s.members props).names.Nodup

theorem Shows.isTruthy {tree : Tree} {value : Value} {cells : List Cell}
    (h : s.Shows tree value cells) : s.isTruthy value = tree.isTruthy := by
  cases h with
  | atom a => rfl
  | tuple items => rfl
  | @array trees ref rest has items =>
      rw [Store.isTruthy, Tree.isTruthy]
      generalize s.items ref = values at items
      cases items <;> rfl
  | @object trees ref rest has members =>
      rw [Store.isTruthy, Tree.isTruthy]
      generalize s.members ref = values at members
      cases members <;> rfl

theorem ShowsMembers.names {trees : List (String × Tree)} {values : Members Value}
    {cells : List Cell} (h : s.ShowsMembers trees values cells) :
    values.names = Members.names trees := by
  induction trees generalizing values cells with
  | nil =>
      cases h
      rfl
  | cons member trees ih =>
      cases h with
      | cons head tail => exact congrArg (_ :: ·) (ih tail)

theorem Shows.object_mem {t : Tree} {ref : ObjectRef} {cells : List Cell}
    (h : s.Shows t (.object ref) cells) : Cell.object ref ∈ cells := by
  cases h with
  | object has members => exact List.mem_cons_self

theorem Shows.contains_value {t : Tree} {cell : Cell} {cells : List Cell}
    (h : s.Shows t cell.value cells) : s.Contains cell := by
  cases cell <;> cases h <;> assumption

theorem Shows.object_of_fits {t : Tree} {value : Value} {cells : List Cell}
    (h : s.Shows t value cells) (hfits : t.fitsProps = true) (htruthy : t.isTruthy = true) :
    ∃ ref, value = .object ref := by
  cases h with
  | object has members => exact ⟨_, rfl⟩
  | _ =>
      rw [Tree.fitsProps, htruthy] at hfits
      · cases hfits
      · simp

theorem Shows.names_nodup {t : Tree} {ref : ObjectRef} {cells : List Cell}
    (h : s.Shows t (.object ref) cells) (hdistinct : t.isDistinct = true) :
    (s.members ref).names.Nodup := by
  cases h with
  | object has members =>
      rw [members.names]
      exact of_decide_eq_true hdistinct

theorem ShowsMembers.member_apart {trees : List (String × Tree)} {ref : ObjectRef}
    {cells : List Cell} (h : s.ShowsMembers trees (s.members ref) cells) (hnodup : cells.Nodup)
    {first second : String} (hne : first ≠ second) {tree other : Tree} {parts others : List Cell}
    (hshows : s.Shows tree (s.member ref first) parts)
    (hother : s.Shows other (s.member ref second) others) : ∀ cell ∈ parts, cell ∉ others := by
  rw [Store.member] at hshows hother
  cases hfirst : (s.members ref).lookup first with
  | none =>
      rw [hfirst] at hshows
      cases hshows
      simp
  | some value =>
      cases hsecond : (s.members ref).lookup second with
      | none =>
          rw [hsecond] at hother
          cases hother
          simp
      | some held =>
          rw [hfirst] at hshows
          rw [hsecond] at hother
          exact h.members_apart hnodup hne hfirst hsecond hshows hother

theorem Shows.bindable {t : Tree} {ref : ObjectRef} {cells : List Cell}
    (h : s.Shows t (.object ref) cells) (htest : t.everyNode Tree.isBindable = true) :
    s.Bindable ref := by
  have htype := h.nodeType?
  cases h with
  | object has members =>
      obtain ⟨hnode, hnames, hfits, hdistinct⟩ :=
        Tree.isBindable_iff.mp (Tree.everyNode_object.mp htest).1
      obtain ⟨parts, hprops, -⟩ := members.member "props"
      refine ⟨?_, ?_, fun cell hcell => ?_, fun htruthy => ?_, fun props hvalue => ?_⟩
      · rw [htype]
        exact hnode
      · rw [members.names]
        exact of_decide_eq_true hnames
      · rw [hcell] at hprops
        exact hprops.contains_value
      · rw [hprops.isTruthy] at htruthy
        exact hprops.object_of_fits hfits htruthy
      · rw [hvalue] at hprops
        exact hprops.names_nodup hdistinct

theorem Bindable.bound {roster : Roster} {chosen : ObjectRef → Prop} (h : s.Bindable ref)
    (hbound : s.Bound roster chosen after) (href : s.Contains (.object ref))
    (hfree : ¬ chosen ref) : after.Bindable ref := by
  have hmembers := hbound.others ref href hfree
  have hmember : after.member ref "props" = s.member ref "props" := by
    rw [Store.member, hmembers]
    rfl
  refine ⟨?_, ?_, ?_, ?_, ?_⟩
  · rw [Store.nodeType?, hmembers]
    exact h.structured
  · rw [hmembers]
    exact h.names
  · rw [hmember]
    exact fun cell hcell => hbound.grows.contains (h.held cell hcell)
  · rw [hmember, hbound.isTruthy h.held]
    exact h.fits
  · rw [hmember]
    intro props hprops
    have hdistinct := h.distinct props hprops
    have hheld : s.Contains (.object props) := h.held (.object props) hprops
    by_cases hchosen : chosen props
    · rw [hbound.bound props hheld hchosen, Roster.bindValues, Roster.names_bind]
      exact hdistinct
    · rw [hbound.others props hheld hchosen]
      exact hdistinct

/-- An object is the props of this very node. -/
def OwnProps (s : Store) (node : Value) (props : ObjectRef) : Prop :=
  ∃ ref, node = .object ref ∧ s.member ref "props" = .object props

mutual
theorem Shows.propsOf_expand {t : Tree} {slot : Slot} {cells : List Cell}
    (h : s.Shows t slot.node cells) (props : ObjectRef) :
    s.PropsOf slot.node props ↔ ∃ child ∈ s.expand slot, s.PropsOf child.node props := by
  obtain ⟨node, parent, index, place⟩ := slot
  cases h with
  | @array trees ref rest has items =>
      rw [items.expand_eq has, propsOf_array]
      exact items.propsOf_expand parent ref 0 props
  | _ => simp [expand_of_ne_array]

theorem ShowsItems.propsOf_expand {trees : List Tree} {values : List Value} {cells : List Cell}
    (h : s.ShowsItems trees values cells) (parent : Option ObjectRef) (ref : ArrayRef)
    (start : Nat) (props : ObjectRef) :
    (∃ value ∈ values, s.PropsOf value props) ↔
      ∃ child ∈ (values.zipIdx start).flatMap (fun entry =>
        s.expand ⟨entry.1, parent, entry.2, .element ref entry.2⟩),
        s.PropsOf child.node props := by
  cases h with
  | nil => simp
  | @cons tree trees value values cells rest head tail =>
      let slot : Slot := ⟨value, parent, start, .element ref start⟩
      have hslot : s.Shows tree slot.node cells := head
      have hhead := hslot.propsOf_expand props
      have htail := tail.propsOf_expand parent ref (start + 1) props
      rw [List.exists_mem_cons_iff, List.zipIdx_cons, List.flatMap_cons]
      simp only [List.mem_append, or_and_right, exists_or, ← htail]
      exact or_congr_left hhead
end

theorem Bindable.mem_iff (h : s.Bindable ref) {name : String} {value : Value}
    (hvalue : value.isNull = false) :
    (name, value) ∈ s.members ref ↔ s.member ref name = value := by
  rw [Members.mem_iff_lookup h.names, Store.member]
  cases (s.members ref).lookup name with
  | none =>
      constructor
      · intro hsome
        cases hsome
      · intro hnull
        rw [← hnull] at hvalue
        cases hvalue
  | some held => simp

theorem Bindable.propsOf_iff {trees : List (String × Tree)} {ref : ObjectRef} {cells : List Cell}
    (hbindable : s.Bindable ref) (h : s.ShowsMembers trees (s.members ref) cells)
    (props : ObjectRef) :
    s.PropsOf (.object ref) props ↔ s.member ref "props" = .object props ∨
      ∃ child ∈ s.childSlots (.object ref), s.PropsOf child.node props := by
  have hnull : ∀ value : Value, s.PropsOf value props → value.isNull = false := by
    intro value hprops
    cases hprops <;> rfl
  have hchildren : (∃ value, ("children", value) ∈ s.members ref ∧ s.PropsOf value props) ↔
      ∃ child ∈ s.childSlots (.object ref), s.PropsOf child.node props := by
    obtain ⟨parts, hmember, -⟩ := h.member "children"
    let slot : Slot := ⟨s.member ref "children", some ref, 0, .member ref "children"⟩
    have hexpand := (show s.Shows _ slot.node parts from hmember).propsOf_expand props
    rw [Store.childSlots, hbindable.structured, Bool.true_and]
    cases hvalue : (s.member ref "children").isNull with
    | true =>
        refine ⟨fun hmem => ?_, by simp⟩
        obtain ⟨value, hmem, hprops⟩ := hmem
        rw [(hbindable.mem_iff (hnull value hprops)).mp hmem, hnull value hprops] at hvalue
        cases hvalue
    | false =>
        rw [Bool.not_false, if_pos rfl, ← hexpand]
        constructor
        · intro hmem
          obtain ⟨value, hmem, hprops⟩ := hmem
          obtain rfl := (hbindable.mem_iff (hnull value hprops)).mp hmem
          exact hprops
        · intro hprops
          exact ⟨_, (hbindable.mem_iff hvalue).mpr rfl, hprops⟩
  rw [← hchildren, propsOf_object hbindable.structured, ← hbindable.mem_iff rfl]
  constructor
  · intro hmem
    obtain ⟨⟨name, value⟩, hmem, hgives⟩ := hmem
    rcases hgives with ⟨rfl, rfl⟩ | ⟨rfl, hprops⟩
    · exact .inl hmem
    · exact .inr ⟨value, hmem, hprops⟩
  · intro hmem
    rcases hmem with hmem | ⟨value, hmem, hprops⟩
    · exact ⟨_, hmem, .inl ⟨rfl, rfl⟩⟩
    · exact ⟨_, hmem, .inr ⟨rfl, hprops⟩⟩

theorem Shows.propsOf_iff {t : Tree} {node : Value} {cells : List Cell} (h : s.Shows t node cells)
    (hnode : ∀ ref, node ≠ .array ref) (htest : t.everyNode Tree.isBindable = true)
    (props : ObjectRef) :
    s.PropsOf node props ↔
      s.OwnProps node props ∨ ∃ child ∈ s.childSlots node, s.PropsOf child.node props := by
  have hshows := h
  cases h with
  | @array trees ref rest has items => exact absurd rfl (hnode ref)
  | @object trees ref rest has members =>
      have hbindable := hshows.bindable htest
      rw [hbindable.propsOf_iff members props]
      simp [OwnProps]
  | _ =>
      constructor
      · intro hprops
        cases hprops
      intro hprops
      rcases hprops with ⟨ref, hnode, -⟩ | ⟨child, hchild, -⟩
      · cases hnode
      · cases hchild

def marked (chosen : ObjectRef → Prop) : Cell → Prop
  | .array _ => False
  | .object ref => chosen ref

theorem marked_or (chosen more : ObjectRef → Prop) :
    (marked fun ref => chosen ref ∨ more ref) =
      fun cell => marked chosen cell ∨ marked more cell := by
  funext cell
  cases cell <;> simp [marked]

/-- The props of a node lie apart from the node, from its children and from the places that hold
these. -/
theorem OwnProps.apart {t : Tree} {ref props : ObjectRef} {cells parts : List Cell} {tree : Tree}
    {below : List Plot} (h : s.member ref "props" = .object props)
    (hshows : s.Shows t (.object ref) cells) (hnodup : cells.Nodup)
    (hmember : s.Shows tree (s.member ref "children") parts)
    (hlaid : s.Laid (some ref) (s.Lists (s.member ref "children")) (.object ref) parts below) :
    props ≠ ref ∧ Cell.object props ∈ cells ∧ Cell.object props ∉ parts ∧
      Cell.object props ∉ area below ∧
      ∀ child ∈ below, child.slot.place.cell ≠ .object props := by
  cases hshows with
  | @object trees _ rest has members =>
      obtain ⟨hself, hrest⟩ := List.nodup_cons.mp hnodup
      obtain ⟨others, hprops, hothers⟩ := members.member "props"
      have hmem : Cell.object props ∈ others := (h ▸ hprops).object_mem
      have hapart : Cell.object props ∉ parts :=
        members.member_apart hrest (by decide) hprops hmember _ hmem
      have hne : props ≠ ref := fun heq => hself (hothers.subset (heq ▸ hmem))
      refine ⟨hne, List.mem_cons_of_mem _ (hothers.subset hmem), hapart, fun harea =>
        hapart (hlaid.within.subset harea), fun child hchild heq => ?_⟩
      rcases hlaid.places child hchild with hplace | ⟨array, -, hplace⟩
      · exact hne (Cell.object.inj (hplace.symm.trans heq)).symm
      · exact Cell.noConfusion (hplace.symm.trans heq)

theorem Ready.childSlots_bound {roster : Roster} {chosen more : ObjectRef → Prop}
    (h : s.Ready (marked chosen) (plot :: plots)) (hbound : s.Bound roster more after)
    (hmore : ∀ ref, more ref → chosen ref ∨ s.OwnProps plot.slot.node ref) :
    after.childSlots plot.slot.node = s.childSlots plot.slot.node := by
  have hshows := h.shows plot List.mem_cons_self
  have hnodup := h.nodup
  have hfree : ∀ ref, Cell.object ref ∈ plot.cells → ¬ chosen ref := fun ref href hchosen =>
    h.apart _ (List.mem_append_left _ href) hchosen
  rw [area_cons] at hnodup
  obtain ⟨hcells, -, -⟩ := List.nodup_append.mp hnodup
  obtain ⟨⟨node, parent, index, place⟩, tree, cells⟩ := plot
  have hself := hshows
  cases hshows with
  | @object trees ref rest has members =>
      obtain ⟨below, parts, -, -, hlaid, hmember, hparts⟩ := members.childPlots
      have hown : ∀ props, s.OwnProps (.object ref) props →
          props ≠ ref ∧ Cell.object props ∉ parts := by
        intro props hprops
        obtain ⟨other, hother, hprops⟩ := hprops
        obtain rfl := Value.object.inj hother
        obtain ⟨hne, -, hapart, -⟩ := OwnProps.apart hprops hself hcells hmember hlaid
        exact ⟨hne, hapart⟩
      have hmembers : after.members ref = s.members ref := by
        refine hbound.others ref has fun hchosen => ?_
        exact (hmore ref hchosen).elim (hfree ref List.mem_cons_self) fun hprops =>
          (hown ref hprops).1 rfl
      have hsame : after.member ref "children" = s.member ref "children" := by
        rw [Store.member, hmembers]
        rfl
      let slot : Slot := ⟨s.member ref "children", some ref, 0, .member ref "children"⟩
      have hslot : s.Shows ((Tree.object trees).member "children") slot.node parts := hmember
      have hexpand : after.expand slot = s.expand slot := by
        refine hslot.expand_frame hbound.grows (hbound.agreesOn hmember.contains ?_)
        intro other hother hchosen
        exact (hmore other hchosen).elim
          (hfree other (List.mem_cons_of_mem _ (hparts.subset hother)))
          fun hprops => (hown other hprops).2 hother
      rw [Store.childSlots, Store.childSlots, hsame, Store.nodeType?, Store.nodeType?, hmembers]
      simp only [slot] at hexpand
      rw [hexpand]
  | _ => rfl

theorem Ready.node_bound {roster : Roster} {chosen more : ObjectRef → Prop}
    (h : s.Ready (marked chosen) (plot :: plots)) (hbound : s.Bound roster more after)
    (hmore : ∀ ref, more ref → chosen ref ∨ s.PropsOf plot.slot.node ref)
    (htest : plot.tree.everyNode Tree.isBindable = true) {ref : ObjectRef}
    (hnode : plot.slot.node = .object ref) :
    after.members ref = s.members ref ∧ after.Bindable ref := by
  have hshows := h.shows plot List.mem_cons_self
  have hnodup := h.nodup
  rw [area_cons] at hnodup
  obtain ⟨hcells, -, -⟩ := List.nodup_append.mp hnodup
  rw [hnode] at hshows hmore
  have hfree : ¬ more ref := by
    intro hchosen
    rcases hmore ref hchosen with hchosen | hprops
    · exact h.apart _ (List.mem_append_left _ hshows.object_mem) hchosen
    · exact hshows.not_propsOf_self hcells hprops
  have href := hshows.contains _ hshows.object_mem
  exact ⟨hbound.others ref href hfree, (hshows.bindable htest).bound hbound href hfree⟩

/-- What is listed below a bindable plot lies apart from the props of the node. -/
theorem Ready.bindable {chosen : ObjectRef → Prop} (h : s.Ready (marked chosen) (plot :: plots))
    (htest : plot.tree.everyNode Tree.isBindable = true) :
    ∃ below, s.childSlots plot.slot.node = below.map Plot.slot ∧
      s.Ready (marked fun ref => chosen ref ∨ s.OwnProps plot.slot.node ref) (plots ++ below) ∧
      (∀ child ∈ below, child.tree.everyNode Tree.isBindable = true) ∧
      Tree.sizes (below.map Plot.tree) < plot.tree.size ∧
      ∀ props, s.PropsOf plot.slot.node props ↔
        s.OwnProps plot.slot.node props ∨ ∃ child ∈ below, s.PropsOf child.slot.node props := by
  obtain ⟨below, hslots, hready, hbelow, hsizes, -, hlaid⟩ := h.listed htest
  have hshows := h.shows plot List.mem_cons_self
  have hnodup := h.nodup
  rw [area_cons] at hnodup
  obtain ⟨hcells, -, hdisjoint⟩ := List.nodup_append.mp hnodup
  refine ⟨below, hslots, ?_, hbelow, hsizes, ?_⟩
  · rw [marked_or]
    -- props hold no place and lie in no plot that waits, be it a child or not
    refine hready.keep fun cell hcell => ?_
    cases cell with
    | array ref => exact hcell.elim
    | object props =>
        obtain ⟨ref, hnode, hprops⟩ := hcell
        obtain ⟨tree, parts, hmember, hlaid⟩ := hlaid ref hnode
        obtain ⟨-, hmem, -, harea, hapart⟩ :=
          OwnProps.apart hprops (hnode ▸ hshows) hcells hmember hlaid
        refine ⟨hshows.contains _ hmem, ?_, ?_⟩
        · rw [area_append, List.mem_append, not_or]
          exact ⟨fun hother => hdisjoint _ hmem _ hother rfl, harea⟩
        · refine List.forall_mem_append.mpr ⟨fun other hother heq => ?_, hapart⟩
          refine (h.places other (List.mem_cons_of_mem _ hother)).2 ?_
          rw [heq, area_cons]
          exact List.mem_append_left _ hmem
  · intro props
    have hchildren : (∃ child ∈ below, s.PropsOf child.slot.node props) ↔
        ∃ child ∈ s.childSlots plot.slot.node, s.PropsOf child.node props := by
      rw [hslots]
      simp
    rw [hchildren]
    exact hshows.propsOf_iff (h.nodes plot List.mem_cons_self) htest props

theorem Ready.passed {chosen : ObjectRef → Prop} (h : s.Ready (marked chosen) (plot :: plots)) :
    s.Ready (marked fun ref => chosen ref ∨ s.PropsOf plot.slot.node ref) plots := by
  have hshows := h.shows plot List.mem_cons_self
  have hnodup := h.nodup
  rw [area_cons] at hnodup
  obtain ⟨-, -, hdisjoint⟩ := List.nodup_append.mp hnodup
  rw [marked_or]
  refine h.tail.keep fun cell hcell => ?_
  cases cell with
  | array ref => exact hcell.elim
  | object props =>
      have hmem := hshows.mem_of_propsOf hcell
      refine ⟨hshows.contains _ hmem, fun hother => hdisjoint _ hmem _ hother rfl, ?_⟩
      intro other hother heq
      refine (h.places other (List.mem_cons_of_mem _ hother)).2 ?_
      rw [heq, area_cons]
      exact List.mem_append_left _ hmem

end Store

end ViewTree
