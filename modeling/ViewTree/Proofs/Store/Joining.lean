import ViewTree.Proofs.Store.Guarding
import ViewTree.Proofs.Store.Pairing
import ViewTree.Visitor.Script

namespace ViewTree

open Store (Cell)

namespace Store

/-- From some cells of one's own one comes to have others, all of them old or newly made; what is not
one's own stays as it is. -/
structure Framed (own more : Cell → Prop) (s next : Store) : Prop where
  grows : s.Grows next
  fresh : ∀ cell, more cell → own cell ∨ ¬ s.Contains cell
  agrees : AgreesOn (fun cell => s.Contains cell ∧ ¬ own cell) s next

namespace Framed

variable {own more most : Cell → Prop} {s next last : Store}

theorem refl (own : Cell → Prop) (s : Store) : Framed own own s s :=
  ⟨.refl s, fun _ hcell => .inl hcell, .refl _ s⟩

theorem trans (h : Framed own more s next) (hnext : Framed more most next last) :
    Framed own most s last where
  grows := h.grows.trans hnext.grows
  fresh := by
    intro cell hcell
    rcases hnext.fresh cell hcell with hmore | hnew
    · exact h.fresh cell hmore
    · exact .inr fun has => hnew (h.grows.contains has)
  agrees := by
    refine h.agrees.trans (hnext.agrees.mono ?_)
    intro cell hcell
    obtain ⟨has, hother⟩ := hcell
    refine ⟨h.grows.contains has, fun hmore => ?_⟩
    exact (h.fresh cell hmore).elim hother fun hnew => hnew has

end Framed

theorem setItems_grows (s : Store) (ref : ArrayRef) (items : List Value) :
    s.Grows (s.setItems ref items) :=
  ⟨by simp [setItems], Nat.le_refl _⟩

theorem setItems_agreesOn (s : Store) (ref : ArrayRef) (items : List Value) :
    AgreesOn (· ≠ .array ref) s (s.setItems ref items) :=
  ⟨fun _ hne => items_setItems_of_ne s (fun heq => hne (congrArg _ heq)) items, fun _ _ => rfl⟩

theorem setMembers_grows (s : Store) (ref : ObjectRef) (members : Members Value) :
    s.Grows (s.setMembers ref members) :=
  ⟨Nat.le_refl _, by simp [setMembers]⟩

theorem setMembers_agreesOn (s : Store) (ref : ObjectRef) (members : Members Value) :
    AgreesOn (· ≠ .object ref) s (s.setMembers ref members) :=
  ⟨fun _ _ => rfl, fun _ hne => members_setMembers_of_ne s (fun heq => hne (congrArg _ heq)) members⟩

end Store

/-- Paired stores come to be two others, which are paired at least as before. -/
structure Pairing.Leads (p : Pairing) (s t : Store) (q : Pairing) (next later : Store) : Prop where
  keeps : p ≤ q
  left : Store.Framed p.left q.left s next
  right : Store.Framed p.right q.right t later
  pairs : next.Pairs q later

variable {p q r : Pairing} {s t next later : Store} {value other : Value}

namespace Pairing.Leads

theorem refl (h : s.Pairs p t) : p.Leads s t p s t :=
  ⟨fun _ _ hp => hp, .refl _ s, .refl _ t, h⟩

theorem trans {last end_ : Store} (h : p.Leads s t q next later)
    (hnext : q.Leads next later r last end_) : p.Leads s t r last end_ :=
  ⟨fun cell partner hp => hnext.keeps cell partner (h.keeps cell partner hp),
    h.left.trans hnext.left, h.right.trans hnext.right, hnext.pairs⟩

theorem not_right (h : p.Leads s t q next later) {cell : Cell} (has : t.Contains cell)
    (hout : ¬ p.right cell) : ¬ q.right cell := fun hcell =>
  (h.right.fresh cell hcell).elim hout fun hnew => hnew has

end Pairing.Leads

def Pairing.join (p : Pairing) (cell partner : Cell) : Pairing := fun first second =>
  p first second ∨ first = cell ∧ second = partner

theorem forall₂_set {R : α → β → Prop} {xs : List α} {ys : List β} (h : List.Forall₂ R xs ys)
    {x : α} {y : β} (hxy : R x y) (position : Nat) :
    List.Forall₂ R (xs.set position x) (ys.set position y) := by
  induction h generalizing position with
  | nil => exact .nil
  | cons hhead htail ih =>
      cases position with
      | zero => exact .cons hxy htail
      | succ position => exact .cons hhead (ih position)

namespace Store.Pairs

theorem frame (h : s.Pairs p t) (hleft : s.Grows next) (hnext : AgreesOn p.left s next)
    (hright : t.Grows later) (hlater : AgreesOn p.right t later) : next.Pairs p later where
  left := fun cell hcell => hleft.contains (h.left cell hcell)
  right := fun cell hcell => hright.contains (h.right cell hcell)
  unique := h.unique
  items := by
    intro ref partner hp
    rw [hnext.items ref ⟨_, hp⟩, hlater.items partner ⟨_, hp⟩]
    exact h.items hp
  members := by
    intro ref partner hp
    rw [hnext.members ref ⟨_, hp⟩, hlater.members partner ⟨_, hp⟩]
    exact h.members hp

theorem alter (h : s.Pairs p t) {cell partner : Cell} (hp : p cell partner) (hleft : s.Grows next)
    (hnext : AgreesOn (· ≠ cell) s next) (hright : t.Grows later)
    (hlater : AgreesOn (· ≠ partner) t later)
    (hitems : ∀ ref other, cell = .array ref → partner = .array other →
      List.Forall₂ (Value.Pairs p) (next.items ref) (later.items other))
    (hmembers : ∀ ref other, cell = .object ref → partner = .object other →
      Members.Pairs p (next.members ref) (later.members other)) :
    p.Leads s t p next later where
  keeps := fun _ _ hp => hp
  left := ⟨hleft, fun _ hcell => .inl hcell, hnext.mono fun _ hcell heq => hcell.2 (heq ▸ ⟨_, hp⟩)⟩
  right := ⟨hright, fun _ hcell => .inl hcell,
    hlater.mono fun _ hcell heq => hcell.2 (heq ▸ ⟨_, hp⟩)⟩
  pairs := by
    refine ⟨fun cell hcell => hleft.contains (h.left cell hcell),
      fun cell hcell => hright.contains (h.right cell hcell), h.unique, ?_, ?_⟩
    · intro ref other hother
      have hsame := h.unique hother hp
      by_cases heq : Cell.array ref = cell
      · exact hitems ref other heq.symm (hsame.mp heq).symm
      · rw [hnext.items ref heq, hlater.items other (mt hsame.mpr heq)]
        exact h.items hother
    · intro ref other hother
      have hsame := h.unique hother hp
      by_cases heq : Cell.object ref = cell
      · exact hmembers ref other heq.symm (hsame.mp heq).symm
      · rw [hnext.members ref heq, hlater.members other (mt hsame.mpr heq)]
        exact h.members hother

theorem setItems (h : s.Pairs p t) {ref partner : ArrayRef}
    (hp : p (.array ref) (.array partner)) {items others : List Value}
    (hitems : List.Forall₂ (Value.Pairs p) items others) :
    p.Leads s t p (s.setItems ref items) (t.setItems partner others) := by
  apply h.alter hp (setItems_grows s ref items) (setItems_agreesOn s ref items)
    (setItems_grows t partner others) (setItems_agreesOn t partner others)
  · rintro _ _ ⟨⟩ ⟨⟩
    rw [items_setItems_self s ref items (h.left _ ⟨_, hp⟩),
      items_setItems_self t partner others (h.right _ ⟨_, hp⟩)]
    exact hitems
  · intro _ _ heq
    cases heq

theorem setMembers (h : s.Pairs p t) {ref partner : ObjectRef}
    (hp : p (.object ref) (.object partner)) {members others : Members Value}
    (hmembers : members.Pairs p others) :
    p.Leads s t p (s.setMembers ref members) (t.setMembers partner others) := by
  apply h.alter hp (setMembers_grows s ref members) (setMembers_agreesOn s ref members)
    (setMembers_grows t partner others) (setMembers_agreesOn t partner others)
  · intro _ _ heq
    cases heq
  · rintro _ _ ⟨⟩ ⟨⟩
    rw [members_setMembers_self s ref members (h.left _ ⟨_, hp⟩),
      members_setMembers_self t partner others (h.right _ ⟨_, hp⟩)]
    exact hmembers

theorem write (h : s.Pairs p t) {place partner : Place} (hplace : place.Pairs p partner)
    (hvalue : value.Pairs p other) :
    p.Leads s t p (s.write place value) (t.write partner other) := by
  cases hplace with
  | element hp position => exact h.setItems hp (forall₂_set (h.items hp) hvalue position)
  | member hp name => exact h.setMembers hp ((h.members hp).put name hvalue)

theorem join (h : s.Pairs p t) {cell partner : Cell} (hnext : s.Extends next)
    (hlater : t.Extends later) (hcell : ¬ s.Contains cell) (hpartner : ¬ t.Contains partner)
    (has : next.Contains cell) (hhas : later.Contains partner)
    (hitems : ∀ ref other, cell = .array ref → partner = .array other →
      List.Forall₂ (Value.Pairs p) (next.items ref) (later.items other))
    (hmembers : ∀ ref other, cell = .object ref → partner = .object other →
      Members.Pairs p (next.members ref) (later.members other)) :
    p.Leads s t (p.join cell partner) next later := by
  have hkeeps : p ≤ p.join cell partner := fun _ _ hp => .inl hp
  refine ⟨hkeeps, ⟨hnext.grows, ?_, hnext.agrees.mono fun _ hold => hold.1⟩,
    ⟨hlater.grows, ?_, hlater.agrees.mono fun _ hold => hold.1⟩, ?_, ?_, ?_, ?_, ?_⟩
  · rintro first ⟨second, hp | ⟨rfl, -⟩⟩
    · exact .inl ⟨second, hp⟩
    · exact .inr hcell
  · rintro second ⟨first, hp | ⟨-, rfl⟩⟩
    · exact .inl ⟨first, hp⟩
    · exact .inr hpartner
  · rintro first ⟨second, hp | ⟨rfl, -⟩⟩
    · exact hnext.grows.contains (h.left first ⟨second, hp⟩)
    · exact has
  · rintro second ⟨first, hp | ⟨-, rfl⟩⟩
    · exact hlater.grows.contains (h.right second ⟨first, hp⟩)
    · exact hhas
  · rintro first second third fourth (hp | ⟨rfl, rfl⟩) (hother | ⟨rfl, rfl⟩)
    · exact h.unique hp hother
    · have hfirst : first ≠ third := fun heq => hcell (heq ▸ h.left first ⟨_, hp⟩)
      have hsecond : second ≠ fourth := fun heq => hpartner (heq ▸ h.right second ⟨_, hp⟩)
      exact iff_of_false hfirst hsecond
    · have hthird : first ≠ third := fun heq => hcell (heq ▸ h.left third ⟨_, hother⟩)
      have hfourth : second ≠ fourth := fun heq => hpartner (heq ▸ h.right fourth ⟨_, hother⟩)
      exact iff_of_false hthird hfourth
    · exact iff_of_true rfl rfl
  · rintro ref other (hp | ⟨hfirst, hsecond⟩)
    · rw [hnext.agrees.items ref (h.left _ ⟨_, hp⟩), hlater.agrees.items other (h.right _ ⟨_, hp⟩)]
      exact (h.items hp).imp fun _ _ hitem => hitem.mono hkeeps
    · exact (hitems ref other hfirst.symm hsecond.symm).imp fun _ _ hitem => hitem.mono hkeeps
  · rintro ref other (hp | ⟨hfirst, hsecond⟩)
    · rw [hnext.agrees.members ref (h.left _ ⟨_, hp⟩),
        hlater.agrees.members other (h.right _ ⟨_, hp⟩)]
      exact (h.members hp).mono hkeeps
    · exact (hmembers ref other hfirst.symm hsecond.symm).mono hkeeps

theorem newArray (h : s.Pairs p t) {items others : List Value}
    (hitems : List.Forall₂ (Value.Pairs p) items others) :
    ∃ q, p.Leads s t q (newArray items s).2 (newArray others t).2 ∧
      (Store.newArray items s).1.Pairs q (Store.newArray others t).1 := by
  refine ⟨p.join (.array ⟨s.arrays.size⟩) (.array ⟨t.arrays.size⟩), ?_, .array (.inr ⟨rfl, rfl⟩)⟩
  apply h.join (newArray_extends items s) (newArray_extends others t) (Nat.lt_irrefl _)
    (Nat.lt_irrefl _) (newArray_contains items s) (newArray_contains others t)
  · rintro _ _ ⟨⟩ ⟨⟩
    rw [items_newArray_self, items_newArray_self]
    exact hitems
  · intro _ _ heq
    cases heq

theorem newObject (h : s.Pairs p t) {members others : Members Value}
    (hmembers : members.Pairs p others) :
    ∃ q, p.Leads s t q (newObject members s).2 (newObject others t).2 ∧
      (Store.newObject members s).1.Pairs q (Store.newObject others t).1 := by
  refine ⟨p.join (.object ⟨s.objects.size⟩) (.object ⟨t.objects.size⟩), ?_,
    .object (.inr ⟨rfl, rfl⟩)⟩
  apply h.join (newObject_extends members s) (newObject_extends others t) (Nat.lt_irrefl _)
    (Nat.lt_irrefl _) (newObject_contains members s) (newObject_contains others t)
  · intro _ _ heq
    cases heq
  · rintro _ _ ⟨⟩ ⟨⟩
    rw [members_newObject_self, members_newObject_self]
    exact hmembers

mutual
theorem load (tree : Tree) {p : Pairing} {s t : Store} (h : s.Pairs p t) :
    ∃ q, p.Leads s t q (load tree s).2 (load tree t).2 ∧
      (Store.load tree s).1.Pairs q (Store.load tree t).1 := by
  cases tree with
  | atom a => exact ⟨p, .refl h, .atom a⟩
  | tuple items => exact ⟨p, .refl h, .tuple items⟩
  | array trees =>
      obtain ⟨q, hleads, hitems⟩ := loadItems trees h
      obtain ⟨r, hmore, hvalue⟩ := hleads.pairs.newArray hitems
      exact ⟨r, hleads.trans hmore, hvalue⟩
  | object trees =>
      obtain ⟨q, hleads, hmembers⟩ := loadMembers trees h
      obtain ⟨r, hmore, hvalue⟩ := hleads.pairs.newObject hmembers
      exact ⟨r, hleads.trans hmore, hvalue⟩

theorem loadItems (trees : List Tree) {p : Pairing} {s t : Store} (h : s.Pairs p t) :
    ∃ q, p.Leads s t q (loadItems trees s).2 (loadItems trees t).2 ∧
      List.Forall₂ (Value.Pairs q) (Store.loadItems trees s).1 (Store.loadItems trees t).1 := by
  cases trees with
  | nil => exact ⟨p, .refl h, .nil⟩
  | cons tree trees =>
      obtain ⟨q, hleads, hvalue⟩ := load tree h
      obtain ⟨r, hmore, hitems⟩ := loadItems trees hleads.pairs
      exact ⟨r, hleads.trans hmore, .cons (hvalue.mono hmore.keeps) hitems⟩

theorem loadMembers (trees : List (String × Tree)) {p : Pairing} {s t : Store}
    (h : s.Pairs p t) :
    ∃ q, p.Leads s t q (loadMembers trees s).2 (loadMembers trees t).2 ∧
      Members.Pairs q (Store.loadMembers trees s).1 (Store.loadMembers trees t).1 := by
  cases trees with
  | nil => exact ⟨p, .refl h, .nil⟩
  | cons member trees =>
      obtain ⟨name, tree⟩ := member
      obtain ⟨q, hleads, hvalue⟩ := load tree h
      obtain ⟨r, hmore, hmembers⟩ := loadMembers trees hleads.pairs
      exact ⟨r, hleads.trans hmore, .cons ⟨rfl, hvalue.mono hmore.keeps⟩ hmembers⟩
end

end Store.Pairs

end ViewTree
