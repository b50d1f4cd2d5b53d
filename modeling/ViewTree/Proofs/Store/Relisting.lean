import ViewTree.Proofs.Store.Nearness
import ViewTree.Proofs.Store.Spreading

/-!
Rows of slots as references.  A row is what is listed of one node's children or of the top level of a
tree.  Where the tree shares no parts, every slot of a row is a place of its own: what is put into it
is what is listed there next, the last value put counts, and the order of the slots does not matter.
-/

namespace ViewTree

namespace Store

variable {s : Store}

theorem write_of_not_contains {place : Place} (h : ¬ s.Contains place.cell) (value : Value) :
    s.write place value = s := by
  cases place with
  | element array position => exact setItems_of_not_contains h _
  | member object name => exact setMembers_of_not_contains h _

theorem setItems_comm (s : Store) {first second : ArrayRef} (h : first ≠ second)
    (items others : List Value) : (s.setItems first items).setItems second others =
      (s.setItems second others).setItems first items := by
  have hindex : first.index ≠ second.index := fun heq => h (congrArg ArrayRef.mk heq)
  simp only [Store.setItems, Array.setIfInBounds_comm _ _ hindex]

theorem setMembers_comm (s : Store) {first second : ObjectRef} (h : first ≠ second)
    (members others : Members Value) : (s.setMembers first members).setMembers second others =
      (s.setMembers second others).setMembers first members := by
  have hindex : first.index ≠ second.index := fun heq => h (congrArg ObjectRef.mk heq)
  simp only [Store.setMembers, Array.setIfInBounds_comm _ _ hindex]

theorem write_write (s : Store) (place : Place) (value other : Value) :
    (s.write place value).write place other = s.write place other := by
  by_cases has : s.Contains place.cell
  · cases place with
    | element array position =>
        rw [write, write, items_setItems has, if_pos rfl, List.set_set, setItems_setItems, write]
    | member object name =>
        rw [write, write, members_setMembers has, if_pos rfl, Members.put_put,
          setMembers_setMembers, write]
  · rw [write_of_not_contains has]

theorem write_comm (s : Store) {first second : Place} (hfirst : first.IsChild)
    (hsecond : second.IsChild) (hne : first ≠ second) (value other : Value) :
    (s.write first value).write second other = (s.write second other).write first value := by
  by_cases has : s.Contains first.cell
  · by_cases hhas : s.Contains second.cell
    · cases first with
      | element array position =>
          cases second with
          | element list index =>
              simp only [write, items_setItems has, items_setItems hhas]
              by_cases harray : array = list
              · subst harray
                have hposition : position ≠ index := fun heq => hne (heq ▸ rfl)
                rw [if_pos rfl, if_pos rfl, setItems_setItems, setItems_setItems,
                  List.set_comm _ _ hposition]
              · rw [if_neg (Ne.symm harray), if_neg harray, setItems_comm s harray]
          | member => rfl
      | member object name =>
          cases second with
          | element => rfl
          | member owner child =>
              obtain rfl : name = child := Eq.trans hfirst (Eq.symm hsecond)
              have hobject : object ≠ owner := fun heq => hne (heq ▸ rfl)
              simp only [write, members_setMembers has, members_setMembers hhas]
              rw [if_neg (Ne.symm hobject), if_neg hobject, setMembers_comm s hobject]
    · rw [write_of_not_contains hhas, write_of_not_contains (contains_write.not.mpr hhas)]
  · rw [write_of_not_contains has, write_of_not_contains (contains_write.not.mpr has)]

theorem has_write (s : Store) (place other : Place) (value : Value) :
    (s.write place value).has other = s.has other := by
  cases other with
  | member => rfl
  | element list index =>
      cases place with
      | member => rfl
      | element array position =>
          by_cases has : s.Contains (.array array)
          · rw [write, Store.has, Store.has, items_setItems has]
            split
            · next heq => rw [heq, List.length_set]
            · rfl
          · rw [write_of_not_contains has]

theorem at?_write_self {place : Place} {old : Value} (h : s.at? place = some old) (value : Value) :
    (s.write place value).at? place = some value := by
  have has := contains_of_at? h
  cases place with
  | element array position =>
      have hposition := (List.getElem?_eq_some_iff.mp h).1
      rw [write, at?, items_setItems has, if_pos rfl, List.getElem?_set_self hposition]
  | member object name =>
      rw [write, at?, members_setMembers has, if_pos rfl, Members.lookup_put_self]

theorem at?_write_of_ne {place other : Place} (h : other ≠ place) (value : Value) :
    (s.write place value).at? other = s.at? other := by
  by_cases has : s.Contains place.cell
  · cases place with
    | element array position =>
        cases other with
        | member => rfl
        | element list index =>
            rw [write, at?, at?, items_setItems has]
            split
            · next heq =>
                rw [heq, List.getElem?_set_ne]
                rintro rfl
                exact h (heq ▸ rfl)
            · rfl
    | member object name =>
        cases other with
        | element => rfl
        | member owner child =>
            rw [write, at?, at?, members_setMembers has]
            split
            · next heq =>
                rw [heq, Members.lookup_put_of_ne]
                rintro rfl
                exact h (heq ▸ rfl)
            · rfl
  · rw [write_of_not_contains has]

end Store

/-- Puts values into slots, one after the other. -/
def Slot.replaceAll (jobs : List (Slot × Value)) (s : Store) : Except Failure Store :=
  jobs.foldlM (fun s job => do return (← job.1.replace job.2 s).2) s

theorem Slot.replace_of_has {slot : Slot} {s : Store} (h : s.has slot.place = true)
    (value : Value) :
    slot.replace value s = .ok ({ slot with node := value }, s.write slot.place value) :=
  if_pos h

theorem Slot.replaceAll_eq {jobs : List (Slot × Value)} {s : Store}
    (h : ∀ job ∈ jobs, s.has job.1.place = true) : Slot.replaceAll jobs s =
      .ok (jobs.foldl (fun s job => s.write job.1.place job.2) s) := by
  induction jobs generalizing s with
  | nil => rfl
  | cons job jobs ih =>
      have hrest : ∀ later ∈ jobs, (s.write job.1.place job.2).has later.1.place = true := by
        intro later hlater
        rw [Store.has_write]
        exact h later (List.mem_cons_of_mem _ hlater)
      have hfirst := Slot.replace_of_has (h job List.mem_cons_self) job.2
      rw [List.foldl_cons, ← ih hrest, Slot.replaceAll, List.foldlM_cons, hfirst]
      rfl

/-- What slots are listed of: the children of a node, or the top level of a tree in a one-element
array. -/
inductive Row
  | children (ref : ObjectRef)
  | top (box : ArrayRef)

namespace Row

variable {row : Row} {s : Store} {t : Tree}

def slots (s : Store) : Row → List Slot
  | children ref => s.childSlots (.object ref)
  | top box => s.rootSlots box

def parent : Row → Option ObjectRef
  | children ref => some ref
  | top _ => none

def place : Row → Place
  | children ref => .member ref "children"
  | top box => .element box 0

/-- The slot that is spread over those of a row. -/
def whole (s : Store) (row : Row) : Slot :=
  ⟨(s.at? row.place).getD .null, row.parent, 0, row.place⟩

/-- At the top level every index is zero. -/
def numbered : Row → Slot → Slot
  | children _, slot => slot
  | top _, slot => { slot with index := 0 }

/-- What a row lists of a tree at an index: the values in it other than arrays, in order, each with
an index of its own. -/
def entries : Row → Tree → Nat → List (Tree × Nat)
  | children _, t, index => t.spread index
  | top _, t, index => (t.spread index).map fun entry => (entry.1, 0)

def isSingle : Row → Tree → Bool
  | children _, .array _ => false
  | children _, _ => true
  | top _, _ => false

/-- A row is of a tree that shares no parts: the `children` of a structured node that has some, or a
value by itself. -/
inductive Of (s : Store) : Row → Tree → Prop
  | children {trees : List (String × Tree)} {ref : ObjectRef} {cells : List Store.Cell}
      (shows : s.Shows (.object trees) (.object ref) cells) (nodup : cells.Nodup)
      (has : (Tree.object trees).hasChildren = true) :
      Of s (.children ref) ((Tree.object trees).member "children")
  | top {t : Tree} {value : Value} {box : ArrayRef} {cells : List Store.Cell}
      (holds : s.items box = [value]) (shows : s.Shows t value cells)
      (nodup : (Store.Cell.array box :: cells).Nodup) : Of s (.top box) t

/-- A slot stands for a tree in a row: it is a place that holds a value with this tree. -/
structure Stands (s : Store) (row : Row) (slot : Slot) (entry : Tree × Nat) : Prop where
  shows : ∃ cells, s.Shows entry.1 slot.node cells
  single : ∀ ref, slot.node ≠ .array ref
  holds : s.at? slot.place = some slot.node
  child : slot.place.IsChild
  parent : slot.parent = row.parent
  index : slot.index = entry.2

theorem numbered_node (row : Row) (slot : Slot) : (row.numbered slot).node = slot.node := by
  cases row <;> rfl

theorem numbered_place (row : Row) (slot : Slot) : (row.numbered slot).place = slot.place := by
  cases row <;> rfl

theorem numbered_parent (row : Row) (slot : Slot) : (row.numbered slot).parent = slot.parent := by
  cases row <;> rfl

theorem place_isChild (row : Row) : row.place.IsChild := by
  cases row with
  | children => rfl
  | top => trivial

theorem Of.whole (h : Of s row t) : ∃ cells, s.Shows t (row.whole s).node cells ∧ cells.Nodup ∧
    s.at? row.place = some (row.whole s).node := by
  cases h with
  | @children trees ref cells shows nodup has =>
      cases shows with
      | object _ members =>
          obtain ⟨parts, hmember, hparts⟩ := members.member "children"
          have hlookup : (s.members ref).lookup "children" ≠ none := by
            intro hnone
            have hnull : (Tree.object trees).hasChildren = false := by
              rw [Tree.hasChildren, ← hmember.isNull, Store.member, hnone]
              exact Bool.and_false _
            rw [hnull] at has
            cases has
          obtain ⟨value, hvalue⟩ := Option.ne_none_iff_exists'.mp hlookup
          refine ⟨parts, hmember, (List.nodup_cons.mp nodup).2.sublist hparts, ?_⟩
          rw [Row.whole, place, Store.at?, hvalue, Option.getD_some]
  | @top _ value box cells holds shows nodup =>
      have hat : s.at? (Row.top box).place = some value := by
        rw [place, Store.at?, holds]
        rfl
      refine ⟨cells, ?_, (List.nodup_cons.mp nodup).2, ?_⟩
      · rw [Row.whole, hat]
        exact shows
      · rw [Row.whole, hat]
        rfl

theorem Of.slots_eq (h : Of s row t) :
    row.slots s = (s.expand (row.whole s)).map row.numbered := by
  cases h with
  | children shows nodup has =>
      cases shows with
      | object _ members =>
          rw [Row.slots, members.childSlots, if_pos has]
          exact (List.map_id _).symm
  | top holds =>
      rw [Row.slots, Store.rootSlots, List.headD_eq_head?_getD, List.head?_eq_getElem?]
      rfl

theorem Of.isStructured {ref : ObjectRef} (h : Of s (.children ref) t) :
    (s.nodeType? (.object ref)).isSome = true := by
  cases h with
  | children shows nodup has =>
      rw [shows.nodeType?]
      exact (Bool.and_eq_true_iff.mp has).1

theorem Of.isNull_member {ref : ObjectRef} (h : Of s (.children ref) t) :
    (s.member ref "children").isNull = false := by
  cases h with
  | children shows nodup has =>
      cases shows with
      | object _ members =>
          obtain ⟨_, hmember, -⟩ := members.member "children"
          rw [hmember.isNull]
          exact Bool.not_eq_true' _ ▸ (Bool.and_eq_true_iff.mp has).2

theorem stands_expand {slot : Slot} {cells : List Store.Cell} (h : s.Shows t slot.node cells)
    (hat : s.at? slot.place = some slot.node) (hchild : slot.place.IsChild)
    (hparent : slot.parent = row.parent) :
    List.Forall₂ (row.Stands s) ((s.expand slot).map row.numbered) (row.entries t slot.index) := by
  obtain ⟨plots, hslots, htrees, hlaid⟩ := h.plots hat hchild
  have hstands : ∀ plot ∈ plots, ∀ index, row.Stands s { plot.slot with index := index }
      (plot.tree, index) := fun plot hplot index =>
    ⟨⟨plot.cells, hlaid.shows plot hplot⟩, hlaid.nodes plot hplot, hlaid.holds plot hplot,
      hlaid.child plot hplot, (hlaid.parents plot hplot).trans hparent, rfl⟩
  cases row with
  | children =>
      rw [hslots, entries, ← htrees, List.map_map, List.forall₂_map_left_iff,
        List.forall₂_map_right_iff, List.forall₂_same]
      exact fun plot hplot => hstands plot hplot plot.slot.index
  | top =>
      rw [hslots, entries, ← htrees, List.map_map, List.map_map, List.forall₂_map_left_iff,
        List.forall₂_map_right_iff, List.forall₂_same]
      exact fun plot hplot => hstands plot hplot 0

theorem Of.stands (h : Of s row t) :
    List.Forall₂ (row.Stands s) (row.slots s) (row.entries t 0) := by
  obtain ⟨cells, hshows, -, hat⟩ := h.whole
  rw [h.slots_eq]
  exact @stands_expand row s t (row.whole s) cells hshows hat row.place_isChild rfl

theorem Of.stands_of_mem (h : Of s row t) {slot : Slot} (hslot : slot ∈ row.slots s) :
    ∃ entry, row.Stands s slot entry := by
  obtain ⟨position, hposition, rfl⟩ := List.getElem_of_mem hslot
  exact ⟨_, h.stands.get hposition (h.stands.length_eq ▸ hposition)⟩

theorem Of.numbered_of_mem (h : Of s row t) {slot : Slot} (hslot : slot ∈ row.slots s)
    (value : Value) : row.numbered { slot with node := value } = { slot with node := value } := by
  rw [h.slots_eq] at hslot
  obtain ⟨raw, -, rfl⟩ := List.mem_map.mp hslot
  cases row <;> rfl

theorem Of.nodup_places (h : Of s row t) : ((row.slots s).map Slot.place).Nodup := by
  obtain ⟨cells, hshows, hnodup, -⟩ := h.whole
  obtain ⟨slots, refs, hspreads, hrefs⟩ := hshows.spreads row.parent 0 row.place
  have hplaces := (hspreads.places ((hnodup.sublist hrefs).of_map _)).1
  have hnumbered : Slot.place ∘ row.numbered = Slot.place := by
    funext slot
    cases row <;> rfl
  rw [h.slots_eq, List.map_map, hnumbered]
  exact hspreads.expand_eq ▸ hplaces

theorem whole_write {place : Place} {old : Value} (hold : s.at? place = some old) (value : Value) :
    row.whole (s.write place value) = (row.whole s).put place value := by
  by_cases heq : row.place = place
  · have hput : (row.whole s).put place value = { row.whole s with node := value } := if_pos heq
    rw [hput, Row.whole, heq, Store.at?_write_self hold, Option.getD_some, Row.whole, heq]
  · have hput : (row.whole s).put place value = row.whole s := if_neg heq
    rw [hput, Row.whole, Store.at?_write_of_ne heq]
    rfl

theorem numbered_expand (s : Store) (row : Row) (slot : Slot) :
    (s.expand (row.numbered slot)).map row.numbered = (s.expand slot).map row.numbered := by
  cases row with
  | children => rfl
  | top =>
      obtain ⟨node, parent, index, place⟩ := slot
      unfold Store.expand Store.expandTo
      cases node <;> rfl

/-- Whatever is put into a slot of a row is listed there next. -/
theorem Of.expand_write (h : Of s row t) {before after : List Slot} {slot : Slot}
    (hslots : row.slots s = before ++ slot :: after) {value : Value}
    (hvalue : ∀ index, ∃ more refs, (s.write slot.place value).Spreads
      ⟨value, slot.parent, index, slot.place⟩ more refs) :
    ((s.write slot.place value).expand (row.whole (s.write slot.place value))).map row.numbered =
      before ++ ((s.write slot.place value).expand { slot with node := value }).map row.numbered ++
        after := by
  obtain ⟨cells, hshows, hnodup, hat⟩ := h.whole
  obtain ⟨slots, refs, hspreads, hrefs⟩ := hshows.spreads row.parent 0 row.place
  have hexpand : s.expand (row.whole s) = slots := hspreads.expand_eq
  have hslot : slot ∈ row.slots s := by rw [hslots]; simp
  obtain ⟨_, hstands⟩ := h.stands_of_mem hslot
  rw [h.slots_eq, hexpand] at hslots
  obtain ⟨first, rest, rfl, hfirst, hrest⟩ := List.map_eq_append_iff.mp hslots
  obtain ⟨raw, last, rfl, hraw, hlast⟩ := List.map_eq_cons_iff.mp hrest
  have hplace : raw.place = slot.place := by rw [← hraw, numbered_place]
  have hparent : raw.parent = slot.parent := by rw [← hraw, numbered_parent]
  have hnode : raw.node = slot.node := by rw [← hraw, numbered_node]
  have hnodes : ∀ listed ∈ first ++ raw :: last, ∀ ref, listed.node ≠ .array ref := by
    intro listed hlisted
    have hmem : row.numbered listed ∈ row.slots s :=
      h.slots_eq ▸ List.mem_map_of_mem (hexpand ▸ hlisted)
    obtain ⟨_, hother⟩ := h.stands_of_mem hmem
    exact row.numbered_node listed ▸ hother.single
  obtain ⟨more, others, hmore⟩ := hvalue raw.index
  rw [← hplace, ← hparent] at hmore
  obtain ⟨all, hall⟩ := hspreads.put_listed ((hnodup.sublist hrefs).of_map _) hat hnodes
    (by rw [hplace, hnode, hstands.holds]) hmore
  have hmiddle : more.map row.numbered =
      ((s.write slot.place value).expand { slot with node := value }).map row.numbered := by
    rw [← hmore.expand_eq, hplace, hparent, ← numbered_expand, ← hraw]
    cases row <;> rfl
  calc ((s.write slot.place value).expand (row.whole (s.write slot.place value))).map row.numbered
      = (first ++ more ++ last).map row.numbered := by
        rw [whole_write hstands.holds, ← hall.expand_eq, hplace]
        rfl
    _ = before ++ more.map row.numbered ++ after := by
        rw [List.map_append, List.map_append, hfirst, hlast]
    _ = _ := by rw [hmiddle]

theorem Of.place_eq_iff (h : Of s row t) {slot : Slot} (hslot : slot ∈ row.slots s) :
    slot.place = row.place ↔ ∀ items, t ≠ .array items := by
  obtain ⟨cells, hshows, -, hat⟩ := h.whole
  obtain ⟨_, hstands⟩ := h.stands_of_mem hslot
  constructor
  · rintro hplace items rfl
    have hheld := hstands.holds
    rw [hplace, hat] at hheld
    generalize (row.whole s).node = node at *
    cases hshows with
    | @array _ ref => exact hstands.single ref (Option.some.inj hheld).symm
  · intro hitems
    have hnode : ∀ ref, (row.whole s).node ≠ .array ref := by
      intro ref href
      rw [href] at hshows
      cases hshows with
      | @array items => exact hitems items rfl
    rw [h.slots_eq, Store.expand_of_ne_array hnode, List.map_singleton, List.mem_singleton] at hslot
    rw [hslot, numbered_place]
    rfl

/-- What is listed of a row after one of its places has been written to: nothing, if a single child
has given way to null. -/
theorem Of.slots_write (h : Of s row t) {slot : Slot} (hslot : slot ∈ row.slots s)
    (value : Value) : row.slots (s.write slot.place value) =
      if row.isSingle t && value.isNull then []
      else ((s.write slot.place value).expand
        (row.whole (s.write slot.place value))).map row.numbered := by
  obtain ⟨_, hstands⟩ := h.stands_of_mem hslot
  have hplace := h.place_eq_iff hslot
  cases row with
  | top box =>
      have hsingle : (Row.top box).isSingle t = false := by cases t <;> rfl
      rw [hsingle, slots, Store.rootSlots, List.headD_eq_head?_getD, List.head?_eq_getElem?]
      rfl
  | children ref =>
      have htype : (s.write slot.place value).nodeType? (.object ref) =
          s.nodeType? (.object ref) := by
        have hne : Place.member ref "type" ≠ slot.place := by
          intro heq
          have hchild : (Place.member ref "type").IsChild := heq ▸ hstands.child
          exact absurd hchild (by simp [Place.IsChild])
        have hsame := @Store.at?_write_of_ne s _ _ hne value
        rw [Store.at?, Store.at?] at hsame
        rw [Store.nodeType?, Store.nodeType?, Members.nodeType?, Members.nodeType?, hsame]
      have hnull : ((s.write slot.place value).member ref "children").isNull =
          ((Row.children ref).isSingle t && value.isNull) := by
        have hwhole := @whole_write (.children ref) s _ _ hstands.holds value
        have hmember : (s.write slot.place value).member ref "children" =
            (((Row.children ref).whole s).put slot.place value).node := hwhole ▸ rfl
        rw [hmember, Slot.put]
        by_cases heq : ((Row.children ref).whole s).place = slot.place
        · have hitems := hplace.mp heq.symm
          have hsingle : (Row.children ref).isSingle t = true := by
            cases t with
            | array items => exact absurd rfl (hitems items)
            | _ => rfl
          rw [if_pos heq, hsingle, Bool.true_and]
        · have hsingle : (Row.children ref).isSingle t = false := by
            cases t with
            | array items => rfl
            | _ => exact absurd (hplace.mpr (by simp)).symm heq
          rw [if_neg heq, hsingle, Bool.false_and]
          exact h.isNull_member
      rw [slots, Store.childSlots, htype, h.isStructured, hnull, Bool.true_and]
      cases (Row.children ref).isSingle t && value.isNull with
      | true => rfl
      | false => exact (List.map_id _).symm

theorem Of.slots_splice (h : Of s row t) {before after : List Slot} {slot : Slot}
    (hslots : row.slots s = before ++ slot :: after) {items : List Tree} {ref : ArrayRef}
    {cells : List Store.Cell} (hshows : s.Shows (.array items) (.array ref) cells)
    (hapart : slot.place.cell ∉ cells) :
    let middle := (s.expand { slot with node := .array ref }).map row.numbered
    row.slots (s.write slot.place (.array ref)) = before ++ middle ++ after ∧
      List.Forall₂ (row.Stands (s.write slot.place (.array ref))) middle
        (row.entries (.array items) slot.index) := by
  intro middle
  have hslot : slot ∈ row.slots s := by rw [hslots]; simp
  obtain ⟨_, hstands⟩ := h.stands_of_mem hslot
  have hkept : Store.AgreesOn (· ∈ cells) s (s.write slot.place (.array ref)) :=
    (s.write_agreesOn slot.place _).mono fun cell hcell heq => hapart (heq ▸ hcell)
  have hgrows := s.write_grows slot.place (.array ref)
  let filled : Slot := { slot with node := .array ref }
  have hfilled : s.Shows (.array items) filled.node cells := hshows
  have hlater : (s.write slot.place (.array ref)).Shows (.array items) filled.node cells :=
    hshows.frame hgrows hkept
  have hsame : (s.write slot.place (.array ref)).expand filled = s.expand filled :=
    hfilled.expand_frame hgrows hkept
  constructor
  · have hspreads : ∀ index, ∃ more refs, (s.write slot.place (.array ref)).Spreads
        ⟨.array ref, slot.parent, index, slot.place⟩ more refs := by
      intro index
      obtain ⟨more, refs, hmore, -⟩ := hlater.spreads slot.parent index slot.place
      exact ⟨more, refs, hmore⟩
    rw [h.slots_write hslot, h.expand_write hslots hspreads, hsame]
    exact if_neg (by simp [Value.isNull])
  · show List.Forall₂ _ ((s.expand filled).map row.numbered) _
    rw [← hsame]
    exact stands_expand hlater (Store.at?_write_self hstands.holds _) hstands.child hstands.parent

theorem Of.replaceAll_perm (h : Of s row t) {jobs others : List (Slot × Value)}
    (hnodup : (jobs.map Prod.fst).Nodup) (hjobs : ∀ job ∈ jobs, job.1 ∈ row.slots s)
    (hperm : jobs.Perm others) :
    ∃ next, Slot.replaceAll jobs s = .ok next ∧ Slot.replaceAll others s = .ok next := by
  have hplaces : ∀ job ∈ jobs, s.has job.1.place = true := by
    intro job hjob
    obtain ⟨_, hstands⟩ := h.stands_of_mem (hjobs job hjob)
    exact Store.has_of_at? hstands.holds
  refine ⟨_, Slot.replaceAll_eq hplaces, ?_⟩
  rw [Slot.replaceAll_eq fun job hjob => hplaces job (hperm.mem_iff.mpr hjob)]
  refine congrArg Except.ok (hperm.foldl_eq' ?_ s).symm
  intro job hjob another hanother later
  by_cases heq : job = another
  · rw [heq]
  · obtain ⟨_, hstands⟩ := h.stands_of_mem (hjobs job hjob)
    obtain ⟨_, hother⟩ := h.stands_of_mem (hjobs another hanother)
    refine Store.write_comm later hstands.child hother.child (fun hplace => heq ?_) _ _
    have hsame := List.inj_on_of_nodup_map h.nodup_places (hjobs job hjob)
      (hjobs another hanother) hplace
    exact List.inj_on_of_nodup_map hnodup hjob hanother hsame

/-- The slots of a row are references to places of their own. -/
structure Lawful (s : Store) (row : Row) (t : Tree) : Prop where
  lists : List.Forall₂ (row.Stands s) (row.slots s) (row.entries t 0)
  kept : ∀ slot ∈ row.slots s, slot.replace slot.node s = .ok (slot, s)
  /-- What is put there, if no array, is listed there; a single child that is null is not listed. -/
  replaced : ∀ before slot after, row.slots s = before ++ slot :: after →
    ∀ value : Value, (∀ ref, value ≠ .array ref) → ∃ next,
      slot.replace value s = .ok ({ slot with node := value }, next) ∧
      row.slots next = if row.isSingle t && value.isNull then []
        else before ++ { slot with node := value } :: after
  spliced : ∀ before slot after, row.slots s = before ++ slot :: after →
    ∀ items ref cells, s.Shows (.array items) (.array ref) cells → slot.place.cell ∉ cells →
      ∃ next middle, slot.replace (.array ref) s = .ok ({ slot with node := .array ref }, next) ∧
        middle = (s.expand { slot with node := .array ref }).map row.numbered ∧
        row.slots next = before ++ middle ++ after ∧
        List.Forall₂ (row.Stands next) middle (row.entries (.array items) slot.index)
  overwritten : ∀ slot ∈ row.slots s, ∀ value other,
    (do let (slot, s) ← slot.replace value s; slot.replace other s) = slot.replace other s
  independent : ∀ jobs others : List (Slot × Value), (jobs.map Prod.fst).Nodup →
    (∀ job ∈ jobs, job.1 ∈ row.slots s) → jobs.Perm others → ∃ next,
      Slot.replaceAll jobs s = .ok next ∧ Slot.replaceAll others s = .ok next

theorem slots_lawful (h : Of s row t) : row.Lawful s t where
  lists := h.stands
  kept := by
    intro slot hslot
    obtain ⟨_, hstands⟩ := h.stands_of_mem hslot
    rw [Slot.replace_of_has (Store.has_of_at? hstands.holds), Store.write_of_at? hstands.holds]
  replaced := by
    intro before slot after hslots value hvalue
    have hslot : slot ∈ row.slots s := by rw [hslots]; simp
    obtain ⟨_, hstands⟩ := h.stands_of_mem hslot
    refine ⟨_, Slot.replace_of_has (Store.has_of_at? hstands.holds) value, ?_⟩
    have hnode := h.numbered_of_mem hslot value
    rw [h.slots_write hslot, h.expand_write hslots fun index => ⟨_, _, .node hvalue⟩,
      Store.expand_of_ne_array hvalue, List.map_singleton, hnode, List.append_assoc]
    rfl
  spliced := by
    intro before slot after hslots items ref cells hshows hapart
    have hslot : slot ∈ row.slots s := by rw [hslots]; simp
    obtain ⟨_, hstands⟩ := h.stands_of_mem hslot
    obtain ⟨hlisted, hentries⟩ := h.slots_splice hslots hshows hapart
    exact ⟨_, _, Slot.replace_of_has (Store.has_of_at? hstands.holds) _, rfl, hlisted, hentries⟩
  overwritten := by
    intro slot hslot value other
    obtain ⟨_, hstands⟩ := h.stands_of_mem hslot
    have has := Store.has_of_at? hstands.holds
    rw [Slot.replace_of_has has, Slot.replace_of_has has]
    refine (Slot.replace_of_has ?_ other).trans ?_
    · rw [Store.has_write, has]
    · rw [Store.write_write]
  independent := fun _ _ hnodup hjobs hperm => h.replaceAll_perm hnodup hjobs hperm

def bed : Members Tree :=
  [("type", .text "bed"), ("children", .array [.text "kale", .array [],
    .array [.array [.object [("type", .text "bean")], .null]]])]

theorem slots_lawful_bed :
    Of (Store.load (.object bed) {}).2 (.children ⟨1⟩) ((Tree.object bed).member "children") ∧
      (children ⟨1⟩).entries ((Tree.object bed).member "children") 0 =
        [(.text "kale", 0), (.object [("type", .text "bean")], 0), (.null, 1)] ∧
      (children ⟨1⟩).Lawful (Store.load (.object bed) {}).2
        ((Tree.object bed).member "children") := by
  obtain ⟨-, cells, hshows, hfresh⟩ := Store.load_shows (.object bed) {}
  have hof : Of (Store.load (.object bed) {}).2 (.children ⟨1⟩)
      ((Tree.object bed).member "children") := .children hshows hfresh.nodup rfl
  exact ⟨hof, rfl, slots_lawful hof⟩

end Row

end ViewTree
