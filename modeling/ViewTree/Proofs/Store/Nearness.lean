import ViewTree.Proofs.Store.Guarding
import ViewTree.Proofs.Store.Plots

/-!
What is near a node.  Near an object are the object itself, its props, and the arrays its children
are listed in.  A visit that changes only what is near the node or its parent, and brings nothing
else near them but new cells, leaves alone all that lies further off.
-/

namespace ViewTree

namespace Store

inductive Near (s : Store) (ref : ObjectRef) : Cell → Prop
  | self : Near s ref (.object ref)
  | props {props : ObjectRef} (h : s.member ref "props" = .object props) :
      Near s ref (.object props)
  | list {array : ArrayRef} (h : s.Lists (s.member ref "children") array) :
      Near s ref (.array array)

/-- The cells near a node or near its parent. -/
def Reach (s : Store) (node : Value) (parent : Option ObjectRef) (cell : Cell) : Prop :=
  (∃ ref, node = .object ref ∧ s.Near ref cell) ∨ ∃ ref, parent = some ref ∧ s.Near ref cell

/-- No reference in reach leads nowhere. -/
def Settled (s : Store) (node : Value) (parent : Option ObjectRef) : Prop :=
  ∀ cell, s.Reach node parent cell → s.Contains cell

def Gained (s after : Store) (cell : Cell) : Prop :=
  ¬ s.Contains cell ∧ after.Contains cell

/-- Only what was in reach of a visit has changed, and only new cells have come into reach. -/
structure Stirs (s : Store) (node : Value) (parent : Option ObjectRef) (after : Store) : Prop where
  grows : s.Grows after
  agrees : AgreesOn (fun cell => s.Contains cell ∧ ¬ s.Reach node parent cell) s after
  reach : ∀ cell, after.Reach node parent cell → s.Reach node parent cell ∨ s.Gained after cell

/-- A value is spread among arrays that were in reach or are new. -/
def Offers (s : Store) (node : Value) (parent : Option ObjectRef) (after : Store)
    (value : Value) : Prop :=
  ∀ array, after.Lists value array →
    s.Reach node parent (.array array) ∨ s.Gained after (.array array)

variable {s middle after : Store} {node : Value} {parent : Option ObjectRef}

theorem Gained.later {cell : Cell} (h : s.Gained middle cell) (hgrows : middle.Grows after) :
    s.Gained after cell :=
  ⟨h.1, hgrows.contains h.2⟩

theorem Gained.earlier {cell : Cell} (h : middle.Gained after cell) (hgrows : s.Grows middle) :
    s.Gained after cell :=
  ⟨fun hcell => h.1 (hgrows.contains hcell), h.2⟩

theorem Lists.frame {value : Value} {ref : ArrayRef} (h : after.Lists value ref)
    (hsame : ∀ array, s.Lists value array → after.items array = s.items array) :
    s.Lists value ref := by
  induction h with
  | self ref => exact .self ref
  | @item array _ _ hitem _ ih =>
      rw [hsame array (.self array)] at hitem
      exact .item hitem (ih fun other hother => hsame other (.item hitem hother))

theorem Near.frame {ref : ObjectRef} {cell : Cell} (h : after.Near ref cell)
    (hagrees : AgreesOn (s.Near ref) s after) : s.Near ref cell := by
  have hmember : ∀ name, after.member ref name = s.member ref name := by
    intro name
    rw [Store.member, Store.member, hagrees.members ref .self]
  cases h with
  | self => exact .self
  | props hprops =>
      rw [hmember] at hprops
      exact .props hprops
  | list hlist =>
      rw [hmember] at hlist
      exact .list (hlist.frame fun array harray => hagrees.items array (.list harray))

theorem Reach.frame {cell : Cell} (h : after.Reach node parent cell)
    (hagrees : AgreesOn (s.Reach node parent) s after) : s.Reach node parent cell := by
  rcases h with ⟨ref, href, hnear⟩ | ⟨ref, href, hnear⟩
  · exact .inl ⟨ref, href, hnear.frame (hagrees.mono fun _ hcell => .inl ⟨ref, href, hcell⟩)⟩
  · exact .inr ⟨ref, href, hnear.frame (hagrees.mono fun _ hcell => .inr ⟨ref, href, hcell⟩)⟩

theorem Extends.stirs (h : s.Extends after) (hsettled : s.Settled node parent) :
    s.Stirs node parent after where
  grows := h.grows
  agrees := h.agrees.mono fun _ hcell => hcell.1
  reach := fun _ hcell => .inl (hcell.frame (h.agrees.mono hsettled))

theorem Stirs.settled (h : s.Stirs node parent after) (hsettled : s.Settled node parent) :
    after.Settled node parent := by
  intro cell hcell
  rcases h.reach cell hcell with hcell | hcell
  · exact h.grows.contains (hsettled cell hcell)
  · exact hcell.2

theorem Stirs.trans (h : s.Stirs node parent middle) (hnext : middle.Stirs node parent after) :
    s.Stirs node parent after where
  grows := h.grows.trans hnext.grows
  agrees := by
    refine h.agrees.trans (hnext.agrees.mono fun cell hcell => ?_)
    refine ⟨h.grows.contains hcell.1, fun hreach => ?_⟩
    rcases h.reach cell hreach with hreach | hnew
    · exact hcell.2 hreach
    · exact hnew.1 hcell.1
  reach := by
    intro cell hcell
    rcases hnext.reach cell hcell with hcell | hcell
    · exact (h.reach cell hcell).imp_right fun hnew => hnew.later hnext.grows
    · exact .inr (hcell.earlier h.grows)

theorem Stirs.offers (h : s.Stirs node parent middle) (hgrows : middle.Grows after)
    {value : Value} (hoffers : middle.Offers node parent after value) :
    s.Offers node parent after value := by
  intro array harray
  rcases hoffers array harray with hreach | hnew
  · exact (h.reach _ hreach).imp_right fun hnew => hnew.later hgrows
  · exact .inr (hnew.earlier h.grows)

end Store

/-- A value that is no cell, or a new one. -/
def Value.IsNew (s after : Store) : Value → Prop
  | .array ref => s.Gained after (.array ref)
  | .object ref => s.Gained after (.object ref)
  | .atom _ | .tuple _ => True

namespace Store

/-- What a cell holds, it held before, or it is new. -/
structure Derives (s after : Store) : Prop where
  grows : s.Grows after
  items : ∀ ref, ∀ item ∈ after.items ref, item ∈ s.items ref ∨ item.IsNew s after
  member : ∀ ref name, after.member ref name = s.member ref name ∨
    (after.member ref name).IsNew s after

variable {s middle after : Store} {node : Value} {parent : Option ObjectRef}

theorem isNew_later {value : Value} (h : value.IsNew s middle) (hgrows : middle.Grows after) :
    value.IsNew s after := by
  cases value with
  | array ref => exact Gained.later h hgrows
  | object ref => exact Gained.later h hgrows
  | _ => trivial

theorem Derives.refl (s : Store) : s.Derives s :=
  ⟨.refl s, fun _ _ h => .inl h, fun _ _ => .inl rfl⟩

theorem member_of_not_contains {ref : ObjectRef} (h : ¬ s.Contains (.object ref))
    (name : String) : s.member ref name = .null := by
  rw [Store.member, members_of_not_contains h]
  rfl

/-- From a new cell on only new arrays are listed, and from others those that were. -/
theorem Derives.lists (h : s.Derives after) {value : Value} {array : ArrayRef}
    (hlists : after.Lists value array) :
    s.Lists value array ∨ s.Gained after (.array array) := by
  induction hlists with
  | self ref => exact .inl (.self ref)
  | @item ref array item hitem hlists ih =>
      rcases ih with hold | hnew
      · rcases h.items ref item hitem with hitem | hnew
        · exact .inl (.item hitem hold)
        · cases hold with
          | self array => exact .inr hnew
          | item hinner _ =>
              rw [items_of_not_contains hnew.1] at hinner
              cases hinner
      · exact .inr hnew

theorem Derives.lists_new (h : s.Derives after) {value : Value} (hvalue : value.IsNew s after)
    {array : ArrayRef} (hlists : after.Lists value array) : s.Gained after (.array array) := by
  rcases h.lists hlists with hold | hnew
  · cases hold with
    | self => exact hvalue
    | item hinner _ =>
        rw [items_of_not_contains hvalue.1] at hinner
        cases hinner
  · exact hnew

theorem Derives.near (h : s.Derives after) {ref : ObjectRef} {cell : Cell}
    (hnear : after.Near ref cell) : s.Near ref cell ∨ s.Gained after cell := by
  cases hnear with
  | self => exact .inl .self
  | @props props hprops =>
      rcases h.member ref "props" with hsame | hnew
      · exact .inl (.props (hsame ▸ hprops))
      · rw [hprops] at hnew
        exact .inr hnew
  | list hlist =>
      rcases h.member ref "children" with hsame | hnew
      · rw [hsame] at hlist
        exact (h.lists hlist).imp_left .list
      · exact .inr (h.lists_new hnew hlist)

theorem Derives.stirs (h : s.Derives after) {ref : ObjectRef}
    (href : node = .object ref ∨ parent = some ref)
    (hagrees : AgreesOn (fun cell => s.Contains cell ∧ ¬ s.Near ref cell) s after) :
    s.Stirs node parent after where
  grows := h.grows
  agrees := hagrees.mono fun cell hcell => by
    refine ⟨hcell.1, fun hnear => hcell.2 ?_⟩
    rcases href with href | href
    · exact .inl ⟨ref, href, hnear⟩
    · exact .inr ⟨ref, href, hnear⟩
  reach := by
    intro cell hcell
    rcases hcell with ⟨other, hother, hnear⟩ | ⟨other, hother, hnear⟩
    · exact (h.near hnear).imp_left fun hnear => .inl ⟨other, hother, hnear⟩
    · exact (h.near hnear).imp_left fun hnear => .inr ⟨other, hother, hnear⟩

theorem Derives.newArray (h : s.Derives middle) {items : List Value}
    (hitems : ∀ item ∈ items, item.IsNew s middle) :
    s.Derives (newArray items middle).2 ∧
      (newArray items middle).1.IsNew s (newArray items middle).2 := by
  have hgrows := (newArray_extends items middle).grows
  refine ⟨⟨h.grows.trans hgrows, ?_, ?_⟩, ?_⟩
  · intro ref item hitem
    by_cases href : middle.Contains (.array ref)
    · rw [items_newArray_of_lt middle items href] at hitem
      exact (h.items ref item hitem).imp_right fun hnew => isNew_later hnew hgrows
    · by_cases hself : ref = ⟨middle.arrays.size⟩
      · rw [hself, items_newArray_self] at hitem
        exact .inr (isNew_later (hitems item hitem) hgrows)
      · have hnone : ¬ (Store.newArray items middle).2.Contains (.array ref) :=
          fun hmem => (contains_newArray hmem).elim href hself
        rw [items_of_not_contains hnone] at hitem
        cases hitem
  · intro ref name
    have hsame : (Store.newArray items middle).2.member ref name = middle.member ref name := rfl
    rw [hsame]
    exact (h.member ref name).imp_right fun hnew => isNew_later hnew hgrows
  · refine ⟨fun hmem => Nat.lt_irrefl _ (h.grows.contains hmem), newArray_contains items middle⟩

theorem Derives.newObject (h : s.Derives middle) {members : Members Value}
    (hmembers : ∀ member ∈ members, member.2.IsNew s middle) :
    s.Derives (newObject members middle).2 ∧
      (newObject members middle).1.IsNew s (newObject members middle).2 := by
  have hgrows := (newObject_extends members middle).grows
  refine ⟨⟨h.grows.trans hgrows, ?_, ?_⟩, ?_⟩
  · intro ref item hitem
    rw [items_newObject] at hitem
    exact (h.items ref item hitem).imp_right fun hnew => isNew_later hnew hgrows
  · intro ref name
    by_cases href : middle.Contains (.object ref)
    · have hsame : (Store.newObject members middle).2.member ref name = middle.member ref name := by
        rw [Store.member, Store.member, members_newObject_of_lt middle members href]
      rw [hsame]
      exact (h.member ref name).imp_right fun hnew => isNew_later hnew hgrows
    · by_cases hself : ref = ⟨middle.objects.size⟩
      · right
        rw [hself, Store.member, members_newObject_self]
        cases hlookup : members.lookup name with
        | none => trivial
        | some value =>
            exact isNew_later (hmembers _ (Members.mem_of_lookup hlookup)) hgrows
      · have hnone : ¬ (Store.newObject members middle).2.Contains (.object ref) :=
          fun hmem => (contains_newObject hmem).elim href hself
        rw [member_of_not_contains hnone]
        exact .inr trivial
  · exact ⟨fun hmem => Nat.lt_irrefl _ (h.grows.contains hmem), newObject_contains members middle⟩

theorem setItems_of_not_contains {ref : ArrayRef} (h : ¬ s.Contains (.array ref))
    (items : List Value) : s.setItems ref items = s := by
  have hsize : ¬ ref.index < s.arrays.size := h
  simp only [Store.setItems, Array.setIfInBounds, hsize, dif_neg, not_false_eq_true]

theorem setMembers_of_not_contains {ref : ObjectRef} (h : ¬ s.Contains (.object ref))
    (members : Members Value) : s.setMembers ref members = s := by
  have hsize : ¬ ref.index < s.objects.size := h
  simp only [Store.setMembers, Array.setIfInBounds, hsize, dif_neg, not_false_eq_true]

theorem Derives.setItems (h : s.Derives middle) {ref : ArrayRef} {items : List Value}
    (hitems : ∀ item ∈ items, item ∈ middle.items ref ∨ item.IsNew s middle) :
    s.Derives (middle.setItems ref items) := by
  have hgrows : middle.Grows (middle.setItems ref items) := ⟨by simp [Store.setItems], le_refl _⟩
  refine ⟨h.grows.trans hgrows, ?_, ?_⟩
  · intro other item hitem
    by_cases has : middle.Contains (.array ref)
    · rw [items_setItems has] at hitem
      split at hitem
      · next heq =>
          subst heq
          rcases hitems item hitem with hold | hnew
          · exact (h.items other item hold).imp_right fun hnew => isNew_later hnew hgrows
          · exact .inr (isNew_later hnew hgrows)
      · exact (h.items other item hitem).imp_right fun hnew => isNew_later hnew hgrows
    · rw [setItems_of_not_contains has] at hitem ⊢
      exact h.items other item hitem
  · intro other name
    exact (h.member other name).imp_right fun hnew => isNew_later hnew hgrows

theorem Derives.setMembers (h : s.Derives middle) {ref : ObjectRef} {members : Members Value}
    (hmembers : ∀ name, (members.lookup name).getD .null = middle.member ref name ∨
      ((members.lookup name).getD .null).IsNew s middle) :
    s.Derives (middle.setMembers ref members) := by
  have hgrows : middle.Grows (middle.setMembers ref members) :=
    ⟨le_refl _, by simp [Store.setMembers]⟩
  refine ⟨h.grows.trans hgrows, ?_, ?_⟩
  · intro other item hitem
    exact (h.items other item hitem).imp_right fun hnew => isNew_later hnew hgrows
  · intro other name
    have hother := (h.member other name).imp_right fun hnew => isNew_later hnew hgrows
    by_cases has : middle.Contains (.object ref)
    · rw [Store.member, members_setMembers has]
      split
      · next heq =>
          subst heq
          rcases hmembers name with hsame | hnew
          · rw [hsame]
            exact hother
          · exact .inr (isNew_later hnew hgrows)
      · exact hother
    · rw [setMembers_of_not_contains has]
      exact h.member other name

mutual
theorem Derives.load (tree : Tree) {middle : Store} (h : s.Derives middle) :
    s.Derives (load tree middle).2 ∧ (load tree middle).1.IsNew s (load tree middle).2 := by
  cases tree with
  | atom a => exact ⟨h, trivial⟩
  | tuple items => exact ⟨h, trivial⟩
  | array trees =>
      obtain ⟨hitems, hvalues⟩ := h.loadItems trees
      exact hitems.newArray hvalues
  | object trees =>
      obtain ⟨hmembers, hvalues⟩ := h.loadMembers trees
      exact hmembers.newObject hvalues

theorem Derives.loadItems (trees : List Tree) {middle : Store} (h : s.Derives middle) :
    s.Derives (loadItems trees middle).2 ∧
      ∀ item ∈ (loadItems trees middle).1, item.IsNew s (loadItems trees middle).2 := by
  cases trees with
  | nil => exact ⟨h, by simp [Store.loadItems]⟩
  | cons tree trees =>
      obtain ⟨hhead, hvalue⟩ := h.load tree
      obtain ⟨htail, hvalues⟩ := hhead.loadItems trees
      refine ⟨htail, fun item hitem => ?_⟩
      rcases List.mem_cons.mp hitem with rfl | hitem
      · exact isNew_later hvalue (loadItems_shows trees _).1.grows
      · exact hvalues item hitem

theorem Derives.loadMembers (trees : List (String × Tree)) {middle : Store} (h : s.Derives middle) :
    s.Derives (loadMembers trees middle).2 ∧
      ∀ member ∈ (loadMembers trees middle).1, member.2.IsNew s (loadMembers trees middle).2 := by
  cases trees with
  | nil => exact ⟨h, by simp [Store.loadMembers]⟩
  | cons member trees =>
      obtain ⟨name, tree⟩ := member
      obtain ⟨hhead, hvalue⟩ := h.load tree
      obtain ⟨htail, hvalues⟩ := hhead.loadMembers trees
      refine ⟨htail, fun member hmember => ?_⟩
      rcases List.mem_cons.mp hmember with rfl | hmember
      · exact isNew_later hvalue (loadMembers_shows trees _).1.grows
      · exact hvalues member hmember
end

/-- Kept cells exist, and what is in reach of a visit exists and is not kept. -/
structure Secures (s : Store) (kept : Cell → Prop) (node : Value) (parent : Option ObjectRef) :
    Prop where
  contains : ∀ cell, kept cell → s.Contains cell
  reach : ∀ cell, s.Reach node parent cell → s.Contains cell ∧ ¬ kept cell

/-- Kept cells are as they were, and still out of reach. -/
structure Keeps (s : Store) (kept : Cell → Prop) (node : Value) (parent : Option ObjectRef)
    (after : Store) : Prop where
  grows : s.Grows after
  agrees : AgreesOn kept s after
  secures : after.Secures kept node parent

def Clears (s : Store) (kept : Cell → Prop) (value : Value) : Prop :=
  ∀ array, s.Lists value array → s.Contains (.array array) ∧ ¬ kept (.array array)

variable {kept fewer : Cell → Prop}

theorem Secures.settled (h : s.Secures kept node parent) : s.Settled node parent :=
  fun cell hcell => (h.reach cell hcell).1

theorem Secures.mono (h : s.Secures kept node parent) (hfewer : ∀ cell, fewer cell → kept cell) :
    s.Secures fewer node parent where
  contains := fun cell hcell => h.contains cell (hfewer cell hcell)
  reach := fun cell hcell => (h.reach cell hcell).imp_right fun hkept hmem =>
    hkept (hfewer cell hmem)

theorem Secures.keeps (h : s.Secures kept node parent) : s.Keeps kept node parent s :=
  ⟨.refl s, .refl kept s, h⟩

theorem Keeps.trans (h : s.Keeps kept node parent middle)
    (hnext : middle.Keeps kept node parent after) : s.Keeps kept node parent after :=
  ⟨h.grows.trans hnext.grows, h.agrees.trans hnext.agrees, hnext.secures⟩

theorem Keeps.mono (h : s.Keeps kept node parent after) (hfewer : ∀ cell, fewer cell → kept cell) :
    s.Keeps fewer node parent after :=
  ⟨h.grows, h.agrees.mono hfewer, h.secures.mono hfewer⟩

theorem Secures.aside (h : s.Secures kept node parent) : s.Secures kept .null parent where
  contains := h.contains
  reach := fun cell hcell => h.reach cell <| hcell.imp_left fun ⟨_, href, _⟩ => nomatch href

theorem Keeps.aside (h : s.Keeps kept node parent after) : s.Keeps kept .null parent after :=
  ⟨h.grows, h.agrees, h.secures.aside⟩

theorem Secures.stirs (h : s.Secures kept node parent) (hstirs : s.Stirs node parent after) :
    s.Keeps kept node parent after where
  grows := hstirs.grows
  agrees := hstirs.agrees.mono fun cell hcell =>
    ⟨h.contains cell hcell, fun hreach => (h.reach cell hreach).2 hcell⟩
  secures := by
    refine ⟨fun cell hcell => hstirs.grows.contains (h.contains cell hcell), fun cell hcell => ?_⟩
    refine ⟨hstirs.settled h.settled cell hcell, fun hkept => ?_⟩
    rcases hstirs.reach cell hcell with hreach | hnew
    · exact (h.reach cell hreach).2 hkept
    · exact hnew.1 (h.contains cell hkept)

theorem Secures.clears (h : s.Secures kept node parent) (hgrows : s.Grows after) {value : Value}
    (hoffers : s.Offers node parent after value) : after.Clears kept value := by
  intro array harray
  rcases hoffers array harray with hreach | hnew
  · exact (h.reach _ hreach).imp_left hgrows.contains
  · exact ⟨hnew.2, fun hkept => hnew.1 (h.contains _ hkept)⟩

theorem mem_items_write {place : Place} {value item : Value} {ref : ArrayRef}
    (h : item ∈ (s.write place value).items ref) : item ∈ s.items ref ∨ item = value := by
  cases place with
  | member object name => exact .inl h
  | element array position =>
      by_cases has : s.Contains (.array array)
      · rw [write, items_setItems has] at h
        split at h
        · next heq => exact heq ▸ List.mem_or_eq_of_mem_set h
        · exact .inl h
      · rw [write, setItems_of_not_contains has] at h
        exact .inl h

theorem member_write {place : Place} (hplace : place.IsChild) (value : Value) (ref : ObjectRef)
    (name : String) : (s.write place value).member ref name = s.member ref name ∨
      (s.write place value).member ref name = value ∧ name = "children" := by
  cases place with
  | element array position => exact .inl rfl
  | member object child =>
      obtain rfl : child = "children" := hplace
      by_cases has : s.Contains (.object object)
      · rw [Store.member, write, members_setMembers has]
        split
        · next heq =>
            rw [Members.lookup_put]
            split
            · next hname => exact .inr ⟨rfl, hname⟩
            · exact .inl (heq ▸ rfl)
        · exact .inl rfl
      · rw [write, setMembers_of_not_contains has]
        exact .inl rfl

theorem Lists.of_write {place : Place} {value start : Value} {array : ArrayRef}
    (h : (s.write place value).Lists start array) : s.Lists start array ∨ s.Lists value array := by
  induction h with
  | self ref => exact .inl (.self ref)
  | item hitem _ ih =>
      rcases ih with hold | hvalue
      · rcases mem_items_write hitem with hitem | rfl
        · exact .inl (.item hitem hold)
        · exact .inr hold
      · exact .inr hvalue

theorem Near.of_write {place : Place} (hplace : place.IsChild) {value : Value} {ref : ObjectRef}
    {cell : Cell} (h : (s.write place value).Near ref cell) :
    s.Near ref cell ∨ ∃ array, cell = .array array ∧ s.Lists value array := by
  cases h with
  | self => exact .inl .self
  | props hprops =>
      rcases s.member_write hplace value ref "props" with hsame | ⟨-, hname⟩
      · exact .inl (.props (hsame ▸ hprops))
      · exact absurd hname (by decide)
  | @list array hlist =>
      rcases hlist.of_write with hlist | hvalue
      · rcases s.member_write hplace value ref "children" with hsame | ⟨hsame, -⟩
        · exact .inl (.list (hsame ▸ hlist))
        · exact .inr ⟨array, rfl, hsame ▸ hlist⟩
      · exact .inr ⟨array, rfl, hvalue⟩

/-- A replacement brings the arrays it is spread among near the parent, and nothing else. -/
theorem Secures.write (h : s.Secures kept node parent) {place : Place} (hplace : place.IsChild)
    (hapart : ¬ kept place.cell) {value : Value} (hvalue : s.Clears kept value) :
    s.Keeps kept node parent (s.write place value) where
  grows := write_grows s place value
  agrees := (write_agreesOn s place value).mono fun cell hcell heq => hapart (heq ▸ hcell)
  secures := by
    refine ⟨fun cell hcell => contains_write.mpr (h.contains cell hcell), fun cell hcell => ?_⟩
    rw [contains_write]
    have hnear : ∀ ref, (s.write place value).Near ref cell →
        (∀ cell, s.Near ref cell → s.Reach node parent cell) →
        s.Contains cell ∧ ¬ kept cell := by
      intro ref hnear hreach
      rcases hnear.of_write hplace with hnear | ⟨array, rfl, hlists⟩
      · exact h.reach cell (hreach cell hnear)
      · exact hvalue array hlists
    rcases hcell with ⟨ref, href, hcell⟩ | ⟨ref, href, hcell⟩
    · exact hnear ref hcell fun _ hnear => .inl ⟨ref, href, hnear⟩
    · exact hnear ref hcell fun _ hnear => .inr ⟨ref, href, hnear⟩

theorem ShowsMembers.near {trees : List (String × Tree)} {ref : ObjectRef} {cells : List Cell}
    (h : s.ShowsMembers trees (s.members ref) cells) (hnodup : (Cell.object ref :: cells).Nodup)
    {plots : List Plot} {parts : List Cell} {home : Cell}
    (hlaid : s.Laid parent (s.Lists (s.member ref "children")) home parts plots)
    (hshows : s.Shows ((Tree.object trees).member "children") (s.member ref "children") parts)
    (hparts : parts.Sublist cells) {cell : Cell} (hnear : s.Near ref cell) :
    cell ∈ Cell.object ref :: cells ∧ cell ∉ area plots := by
  obtain ⟨hself, hcells⟩ := List.nodup_cons.mp hnodup
  have hwithin : ∀ cell ∈ area plots, cell ∈ cells :=
    fun cell hcell => hparts.subset (hlaid.within.subset hcell)
  cases hnear with
  | self => exact ⟨List.mem_cons_self, fun hmem => hself (hwithin _ hmem)⟩
  | list hlist =>
      exact ⟨List.mem_cons_of_mem _ (hparts.subset (hlaid.listed _ hlist)),
        hlaid.apart (hcells.sublist hparts) _ hlist⟩
  | @props props hprops =>
      obtain ⟨own, hown, hownSub⟩ := h.member "props"
      rw [hprops] at hown
      have hmem : Cell.object props ∈ own := by
        generalize (Tree.object trees).member "props" = tree at hown
        cases hown
        exact List.mem_cons_self
      refine ⟨List.mem_cons_of_mem _ (hownSub.subset hmem), fun hchild => ?_⟩
      have hheld : (s.members ref).lookup "props" = some (.object props) := by
        rw [Store.member] at hprops
        cases hlookup : (s.members ref).lookup "props" with
        | none => rw [hlookup] at hprops; cases hprops
        | some value => rw [hlookup] at hprops; exact congrArg some hprops
      cases hlookup : (s.members ref).lookup "children" with
      | none =>
          generalize (Tree.object trees).member "children" = tree at hshows
          rw [Store.member, hlookup] at hshows
          cases hshows
          cases hlaid.within.subset hchild
      | some value =>
          rw [Store.member, hlookup] at hshows
          exact h.members_apart hcells (by decide) hheld hlookup hown hshows _ hmem
            (hlaid.within.subset hchild)

end Store

end ViewTree
