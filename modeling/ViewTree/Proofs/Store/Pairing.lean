import ViewTree.Proofs.Store.Relocation
import ViewTree.Proofs.Walk.Related

/-!
Pairings.  Some cells of one store are paired with cells of another, one to one, so that paired cells
hold the same up to the pairing.  What is reached from paired values reads the same on both sides,
whatever else is in the two stores.
-/

namespace ViewTree

open Store (Cell)

/-- Which cells of one store stand for which cells of another. -/
abbrev Pairing := Cell → Cell → Prop

namespace Pairing

def left (p : Pairing) (cell : Cell) : Prop :=
  ∃ other, p cell other

def right (p : Pairing) (cell : Cell) : Prop :=
  ∃ other, p other cell

end Pairing

inductive Value.Pairs (p : Pairing) : Value → Value → Prop
  | atom (a : Atom) : Pairs p (.atom a) (.atom a)
  | tuple (items : List Tree) : Pairs p (.tuple items) (.tuple items)
  | array {ref other : ArrayRef} (h : p (.array ref) (.array other)) :
      Pairs p (.array ref) (.array other)
  | object {ref other : ObjectRef} (h : p (.object ref) (.object other)) :
      Pairs p (.object ref) (.object other)

def Members.Pairs (p : Pairing) : Members Value → Members Value → Prop :=
  List.Forall₂ fun member other => member.1 = other.1 ∧ member.2.Pairs p other.2

/-- Paired cells are there, each has one partner, and they hold the same up to the pairing. -/
structure Store.Pairs (p : Pairing) (s t : Store) : Prop where
  left : ∀ cell, p.left cell → s.Contains cell
  right : ∀ cell, p.right cell → t.Contains cell
  unique : ∀ {cell other next later : Cell}, p cell other → p next later →
    (cell = next ↔ other = later)
  items : ∀ {ref other : ArrayRef}, p (.array ref) (.array other) →
    List.Forall₂ (Value.Pairs p) (s.items ref) (t.items other)
  members : ∀ {ref other : ObjectRef}, p (.object ref) (.object other) →
    Members.Pairs p (s.members ref) (t.members other)

variable {p q : Pairing} {s t : Store} {value other : Value}

theorem forall₂_flatMap_zipIdx {R : α → β → Prop} {S : γ → δ → Prop} {f : α × Nat → List γ}
    {g : β × Nat → List δ} {xs : List α} {ys : List β} (h : List.Forall₂ R xs ys)
    (hflat : ∀ x y position, R x y → List.Forall₂ S (f (x, position)) (g (y, position)))
    (start : Nat) :
    List.Forall₂ S ((xs.zipIdx start).flatMap f) ((ys.zipIdx start).flatMap g) := by
  induction h generalizing start with
  | nil => exact .nil
  | cons hhead _ ih =>
      rw [List.zipIdx_cons, List.zipIdx_cons, List.flatMap_cons, List.flatMap_cons]
      exact List.rel_append (hflat _ _ start hhead) (ih (start + 1))

namespace Value.Pairs

theorem mono (hle : p ≤ q) (h : value.Pairs p other) : value.Pairs q other := by
  cases h with
  | atom a => exact .atom a
  | tuple items => exact .tuple items
  | array h => exact .array (hle _ _ h)
  | object h => exact .object (hle _ _ h)

theorem isNull_eq (h : value.Pairs p other) : value.isNull = other.isNull := by
  cases h <;> rfl

theorem text?_eq (h : value.Pairs p other) : value.text? = other.text? := by
  cases h <;> rfl

end Value.Pairs

namespace Members.Pairs

variable {members others : Members Value}

theorem mono (hle : p ≤ q) (h : members.Pairs p others) : members.Pairs q others :=
  List.Forall₂.imp (fun _ _ hmember => ⟨hmember.1, hmember.2.mono hle⟩) h

theorem lookup (h : members.Pairs p others) (name : String) :
    Option.Rel (Value.Pairs p) (members.lookup name) (others.lookup name) := by
  induction h with
  | nil => exact .none
  | @cons member other _ _ hmember _ ih =>
      obtain ⟨first, value⟩ := member
      obtain ⟨second, partner⟩ := other
      obtain ⟨hname, hvalue⟩ := hmember
      simp only at hname
      subst hname
      rw [List.lookup_cons, List.lookup_cons]
      cases name == first with
      | true => exact .some hvalue
      | false => exact ih

theorem nodeType?_eq (h : members.Pairs p others) :
    Members.nodeType? Value.text? members = Members.nodeType? Value.text? others := by
  have hlookup := h.lookup "type"
  unfold Members.nodeType?
  cases hmember : members.lookup "type" with
  | none =>
      rw [hmember] at hlookup
      cases hother : others.lookup "type" with
      | none => rfl
      | some partner =>
          rw [hother] at hlookup
          cases hlookup
  | some value =>
      rw [hmember] at hlookup
      cases hother : others.lookup "type" with
      | none =>
          rw [hother] at hlookup
          cases hlookup
      | some partner =>
          rw [hother] at hlookup
          cases hlookup with
          | some hvalue => rw [Option.bind_some, Option.bind_some, hvalue.text?_eq]

theorem put (h : members.Pairs p others) (name : String) (hvalue : value.Pairs p other) :
    (members.put name value).Pairs p (others.put name other) := by
  induction h with
  | nil => exact .cons ⟨rfl, hvalue⟩ .nil
  | @cons member partner _ _ hmember hrest ih =>
      obtain ⟨first, old⟩ := member
      obtain ⟨second, older⟩ := partner
      obtain ⟨hname, hold⟩ := hmember
      simp only at hname
      subst hname
      rw [Members.put, Members.put]
      split
      · exact .cons ⟨rfl, hvalue⟩ hrest
      · exact .cons ⟨rfl, hold⟩ ih

theorem remove (h : members.Pairs p others) (name : String) :
    (members.remove name).Pairs p (others.remove name) := by
  unfold Members.remove
  induction h with
  | nil => exact .nil
  | @cons member partner _ _ hmember hrest ih =>
      rw [List.filter_cons, List.filter_cons, ← hmember.1]
      split
      · exact .cons hmember ih
      · exact ih

end Members.Pairs

namespace Store.Pairs

theorem member (h : s.Pairs p t) {ref partner : ObjectRef} (hp : p (.object ref) (.object partner))
    (name : String) : (s.member ref name).Pairs p (t.member partner name) := by
  have hlookup := (h.members hp).lookup name
  unfold Store.member
  revert hlookup
  generalize (s.members ref).lookup name = found
  generalize (t.members partner).lookup name = seen
  intro hlookup
  cases hlookup with
  | none => exact .atom .null
  | some hvalue => exact hvalue

theorem nodeType?_eq (h : s.Pairs p t) (hvalue : value.Pairs p other) :
    s.nodeType? value = t.nodeType? other := by
  cases hvalue with
  | object hp => exact (h.members hp).nodeType?_eq
  | _ => rfl

/-- What has been passed on one side has been passed on the other, as far as it is paired. -/
def Passes (p : Pairing) (path passed : List Cell) : Prop :=
  ∀ cell partner, p cell partner → (cell ∈ path ↔ partner ∈ passed)

theorem passes_cons (h : s.Pairs p t) {path passed : List Cell} (hpath : Passes p path passed)
    {cell partner : Cell} (hp : p cell partner) : Passes p (cell :: path) (partner :: passed) := by
  intro next later hnext
  rw [List.mem_cons, List.mem_cons, hpath next later hnext, h.unique hnext hp]

theorem readTo_eq (h : s.Pairs p t) (level : Nat) :
    ∀ {path passed : List Cell}, Passes p path passed →
      ∀ {value other : Value}, value.Pairs p other →
        s.readTo level path value = t.readTo level passed other := by
  induction level with
  | zero =>
      intro path passed _ value other hvalue
      cases hvalue <;> rfl
  | succ level ih =>
      intro path passed hpath value other hvalue
      cases hvalue with
      | atom a => rfl
      | tuple items => rfl
      | array hp =>
          have hitems := map_eq_of_forall₂ (h.items hp)
            fun _ _ hitem => ih (h.passes_cons hpath hp) hitem
          simp only [Store.readTo, hpath _ _ hp, hitems]
      | @object ref second hp =>
          have hmember : ∀ member partner : String × Value,
              member.1 = partner.1 ∧ member.2.Pairs p partner.2 →
                (member.1, s.readTo level (.object ref :: path) member.2) =
                  (partner.1, t.readTo level (.object second :: passed) partner.2) := by
            intro member partner hmember
            rw [hmember.1, ih (h.passes_cons hpath hp) hmember.2]
          have hmembers := map_eq_of_forall₂ (h.members hp) hmember
          simp only [Store.readTo, hpath _ _ hp, hmembers]

theorem read_eq (h : s.Pairs p t) (hvalue : value.Pairs p other) :
    s.read value = t.read other := by
  have hlevel : s.cellCount < s.cellCount + t.cellCount + 1 := by omega
  have hlater : t.cellCount < s.cellCount + t.cellCount + 1 := by omega
  rw [← Store.readTo_eq_read hlevel, ← Store.readTo_eq_read hlater]
  apply h.readTo_eq _ _ hvalue
  intro cell partner _
  simp

/-- A value reads the same at the end of a path through cells that are not paired. -/
theorem readTo_path_eq (h : s.Pairs p t) (hvalue : value.Pairs p other) {path : List Cell}
    (hpath : t.IsPath path) (hapart : ∀ cell ∈ path, ¬ p.right cell) {level : Nat}
    (hlevel : t.cellCount < path.length + level) : t.readTo level path other = s.read value := by
  have hmore : ∀ more, t.readTo (level + more) path other = t.readTo level path other := by
    intro more
    induction more with
    | zero => rfl
    | succ more ih => rw [← Nat.add_assoc, Store.readTo_succ _ hpath (by omega), ih]
  have hroom : s.cellCount < level + (s.cellCount + 1) := by omega
  rw [← hmore (s.cellCount + 1), ← Store.readTo_eq_read hroom]
  apply (h.readTo_eq _ _ hvalue).symm
  intro cell partner hp
  constructor
  · intro hmem
    simp at hmem
  · intro hmem
    exact absurd ⟨cell, hp⟩ (hapart partner hmem)

theorem classify_eq (h : s.Pairs p t) (hvalue : value.Pairs p other) :
    s.classify value = t.classify other := by
  have hread := h.read_eq hvalue
  cases hvalue with
  | object hp => simp only [Store.classify, (h.members hp).nodeType?_eq, hread]
  | _ => rfl

theorem typeMember_eq (h : s.Pairs p t) {ref partner : ObjectRef}
    (hp : p (.object ref) (.object partner)) : s.typeMember ref = t.typeMember partner :=
  h.read_eq (h.member hp "type")

end Store.Pairs

inductive Place.Pairs (p : Pairing) : Place → Place → Prop
  | element {array partner : ArrayRef} (h : p (.array array) (.array partner)) (position : Nat) :
      Pairs p (.element array position) (.element partner position)
  | member {object partner : ObjectRef} (h : p (.object object) (.object partner))
      (name : String) : Pairs p (.member object name) (.member partner name)

def Pairing.Parents (p : Pairing) : Option ObjectRef → Option ObjectRef → Prop :=
  Option.Rel fun ref partner => p (.object ref) (.object partner)

theorem Pairing.Parents.mono {parent partner : Option ObjectRef} (hle : p ≤ q)
    (h : p.Parents parent partner) : q.Parents parent partner := by
  cases h with
  | none => exact .none
  | some h => exact .some (hle _ _ h)

structure Slot.Pairs (p : Pairing) (slot partner : Slot) : Prop where
  node : slot.node.Pairs p partner.node
  parent : p.Parents slot.parent partner.parent
  index : slot.index = partner.index
  place : slot.place.Pairs p partner.place

theorem Place.Pairs.mono {place partner : Place} (hle : p ≤ q) (h : place.Pairs p partner) :
    place.Pairs q partner := by
  cases h with
  | element h position => exact .element (hle _ _ h) position
  | member h name => exact .member (hle _ _ h) name

theorem Slot.Pairs.mono {slot partner : Slot} (hle : p ≤ q) (h : slot.Pairs p partner) :
    slot.Pairs q partner :=
  ⟨h.node.mono hle, h.parent.mono hle, h.index, h.place.mono hle⟩

namespace Store.Pairs

theorem has_eq (h : s.Pairs p t) {place partner : Place} (hplace : place.Pairs p partner) :
    s.has place = t.has partner := by
  cases hplace with
  | element hp position => rw [Store.has, Store.has, (h.items hp).length_eq]
  | member hp name => rfl

theorem expandTo_pairs (h : s.Pairs p t) (level : Nat) :
    ∀ {path passed : List ArrayRef}, (∀ ref partner, p (.array ref) (.array partner) →
        (ref ∈ path ↔ partner ∈ passed)) →
      ∀ {slot later : Slot}, slot.node.Pairs p later.node → p.Parents slot.parent later.parent →
        ((∃ ref, slot.node = .array ref) ∨ slot.Pairs p later) →
        List.Forall₂ (Slot.Pairs p) (s.expandTo level path slot) (t.expandTo level passed later) := by
  induction level with
  | zero =>
      rintro path passed hpath ⟨value, parent, index, place⟩ ⟨other, partner, position, site⟩
        hvalue hparent hslot
      cases hvalue with
      | array hp => exact .nil
      | _ => exact .cons (hslot.resolve_left (by simp)) .nil
  | succ level ih =>
      rintro path passed hpath ⟨value, parent, index, place⟩ ⟨other, partner, position, site⟩
        hvalue hparent hslot
      cases hvalue with
      | @array ref second hp =>
          by_cases hpassed : ref ∈ path
          · rw [expandTo_array_of_mem s _ hpassed,
              expandTo_array_of_mem t _ ((hpath _ _ hp).mp hpassed)]
            exact .nil
          · rw [expandTo_array s level hpassed,
              expandTo_array t level (mt (hpath _ _ hp).mpr hpassed)]
            have hlonger : ∀ next later, p (.array next) (.array later) →
                (next ∈ ref :: path ↔ later ∈ second :: passed) := by
              intro next later hnext
              have hsame := h.unique hnext hp
              simp only [Cell.array.injEq] at hsame
              rw [List.mem_cons, List.mem_cons, hpath next later hnext, hsame]
            apply forall₂_flatMap_zipIdx (h.items hp)
            intro item partner position hitem
            exact ih hlonger hitem hparent (.inr ⟨hitem, hparent, rfl, .element hp position⟩)
      | _ => exact .cons (hslot.resolve_left (by simp)) .nil

theorem expand_pairs (h : s.Pairs p t) {slot later : Slot} (hslot : slot.Pairs p later) :
    List.Forall₂ (Slot.Pairs p) (s.expand slot) (t.expand later) := by
  have hlevel : s.arrays.size ≤ s.arrays.size + t.arrays.size := by omega
  have hlater : t.arrays.size ≤ s.arrays.size + t.arrays.size := by omega
  rw [← expandTo_eq_expand hlevel, ← expandTo_eq_expand hlater]
  exact h.expandTo_pairs _ (by simp) hslot.node hslot.parent (.inr hslot)

theorem childSlots_pairs (h : s.Pairs p t) (hvalue : value.Pairs p other) :
    List.Forall₂ (Slot.Pairs p) (s.childSlots value) (t.childSlots other) := by
  have htype := h.nodeType?_eq hvalue
  cases hvalue with
  | object hp =>
      have hchildren := h.member hp "children"
      simp only [Store.childSlots, htype, hchildren.isNull_eq]
      split
      · exact h.expand_pairs ⟨hchildren, .some hp, rfl, .member hp "children"⟩
      · exact .nil
  | _ => exact .nil

theorem headD_items (h : s.Pairs p t) {box partner : ArrayRef}
    (hp : p (.array box) (.array partner)) :
    ((s.items box).headD .null).Pairs p ((t.items partner).headD .null) := by
  have hitems := h.items hp
  revert hitems
  generalize s.items box = items
  generalize t.items partner = others
  intro hitems
  cases hitems with
  | nil => exact .atom .null
  | cons hhead _ => exact hhead

theorem forall₂_index {slots others : List Slot} (h : List.Forall₂ (Slot.Pairs p) slots others) :
    List.Forall₂ (Slot.Pairs p) (slots.map fun slot => { slot with index := 0 })
      (others.map fun slot => { slot with index := 0 }) := by
  rw [List.forall₂_map_left_iff, List.forall₂_map_right_iff]
  exact h.imp fun _ _ hslot => ⟨hslot.node, hslot.parent, rfl, hslot.place⟩

theorem rootSlots_pairs (h : s.Pairs p t) {box partner : ArrayRef}
    (hp : p (.array box) (.array partner)) :
    List.Forall₂ (Slot.Pairs p) (s.rootSlots box) (t.rootSlots partner) :=
  forall₂_index (h.expand_pairs ⟨h.headD_items hp, .none, rfl, .element hp 0⟩)

end Store.Pairs

structure Context.Pairs (p : Pairing) (ctx partner : Context) : Prop where
  parent : p.Parents ctx.parent partner.parent
  depth : ctx.depth = partner.depth
  index : ctx.index = partner.index
  skipping : ctx.skipping = partner.skipping
  attributes : ctx.attributes = partner.attributes

namespace Context.Pairs

variable {ctx partner : Context}

theorem mono (hle : p ≤ q) (h : ctx.Pairs p partner) : ctx.Pairs q partner :=
  ⟨h.parent.mono hle, h.depth, h.index, h.skipping, h.attributes⟩

theorem alone (p : Pairing) : Context.alone.Pairs p Context.alone :=
  ⟨.none, rfl, rfl, rfl, rfl⟩

theorem skipChildren (h : ctx.Pairs p partner) : ctx.skipChildren.Pairs p partner.skipChildren :=
  ⟨h.parent, h.depth, h.index, rfl, h.attributes⟩

theorem mark (h : ctx.Pairs p partner) (name : String) (value : Tree) :
    (ctx.mark name value).Pairs p (partner.mark name value) := by
  refine ⟨h.parent, h.depth, h.index, h.skipping, ?_⟩
  rw [Context.mark, Context.mark, h.attributes]

theorem view_eq (h : ctx.Pairs p partner) (hstore : s.Pairs p t) (hvalue : value.Pairs p other) :
    ctx.view s value = partner.view t other := by
  have hparent : ctx.parent.map s.typeMember = partner.parent.map t.typeMember := by
    have hparents := h.parent
    revert hparents
    generalize ctx.parent = parent
    generalize partner.parent = second
    intro hparents
    cases hparents with
    | none => rfl
    | some hp => exact congrArg some (hstore.typeMember_eq hp)
  simp only [Context.view, hstore.read_eq hvalue, hparent, h.depth, h.index, h.skipping,
    h.attributes]

end Context.Pairs

theorem Slot.Pairs.context {slot later : Slot} (h : slot.Pairs p later) (depth : Nat) :
    (slot.context depth).Pairs p (later.context depth) :=
  ⟨h.parent, rfl, h.index, rfl, rfl⟩

end ViewTree
