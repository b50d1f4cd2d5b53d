import ViewTree.Proofs.Store.Lots
import ViewTree.Proofs.Visitor.Impartiality

/-!
The elements of an array, one after the other.  A walk that deals with one element after the other
comes to what the elements alone come to, up to the first that fails.  A transform of an array is
such a walk.
-/

namespace ViewTree

open Store (Cell)

namespace Walk

def ended (failure? : Option Failure) (result : α) (after : Session σ) :
    EStateM.Result Failure (Session σ) α :=
  match failure? with
  | none => .ok result after
  | some failure => .error failure after

theorem bind_of_ended_none {first : Walk σ PUnit} {next : PUnit → Walk σ α}
    {session after : Session σ} (h : first session = ended none PUnit.unit after) :
    (first >>= next) session = next PUnit.unit after := by
  rw [bind_apply, h]
  rfl

theorem bind_of_ended_some {first : Walk σ PUnit} {next : PUnit → Walk σ α}
    {session after : Session σ} {failure : Failure}
    (h : first session = ended (some failure) PUnit.unit after) :
    (first >>= next) session = .error failure after := by
  rw [bind_apply, h]
  rfl

theorem bind_pure_of_ended {first : Walk σ PUnit} {session after : Session σ}
    {failure? : Option Failure} (h : first session = ended failure? PUnit.unit after) (result : α) :
    (first >>= fun _ => pure result) session = ended failure? result after := by
  cases failure? with
  | none => exact bind_of_ended_none h
  | some failure => exact bind_of_ended_some h

def settle (place : Place) : Option Value → Walk σ PUnit
  | none => return ()
  | some replacement => Walk.write place replacement

theorem settle_apply {s : Store} {array : ArrayRef} {position : Nat} {value : Value}
    (h : (s.items array)[position]? = some value) (replacement : Value) (world : σ) :
    settle (.element array position) (some replacement) ⟨s, world⟩ =
      .ok PUnit.unit ⟨s.setItems array ((s.items array).set position replacement), world⟩ := by
  have hat : s.at? (.element array position) = some value := h
  exact Store.write_apply (Store.has_of_at? hat) world

/-- The replacement of a node, or the node where there is none. -/
def answer (survey : Value → Walk σ (Option Value)) (node : Value) : Walk σ Value := do
  return (← survey node).getD node

end Walk

/-- What has come of a tree: the calls that were made, the failure if there was one, and the tree that
is in its place now. -/
structure Account where
  events : List Event
  failure? : Option Failure
  tree : Tree

namespace Account

/-- What comes of a tree that is laid out in a store of its own and handed to a walk. -/
def ofWalk (walk : Value → Walk (Traced Unit) Value) (t : Tree) : Account :=
  match walk (Store.load t {}).1 ⟨(Store.load t {}).2, [], ()⟩ with
  | .ok result after => ⟨after.world.1, none, after.store.read result⟩
  | .error failure after => ⟨after.world.1, some failure, after.store.read (Store.load t {}).1⟩

theorem ofWalk_congr {walk other : Value → Walk (Traced Unit) Value} {t : Tree}
    (h : walk (Store.load t {}).1 = other (Store.load t {}).1) : ofWalk walk t = ofWalk other t := by
  rw [ofWalk, h, ofWalk]

theorem ofWalk_of_ok {walk : Value → Walk (Traced Unit) Value} {t : Tree} {result : Value}
    {after : Session (Traced Unit)}
    (h : walk (Store.load t {}).1 ⟨(Store.load t {}).2, [], ()⟩ = .ok result after) :
    ofWalk walk t = ⟨after.world.1, none, after.store.read result⟩ := by
  rw [ofWalk, h]

theorem ofWalk_of_error {walk : Value → Walk (Traced Unit) Value} {t : Tree} {failure : Failure}
    {after : Session (Traced Unit)}
    (h : walk (Store.load t {}).1 ⟨(Store.load t {}).2, [], ()⟩ = .error failure after) :
    ofWalk walk t = ⟨after.world.1, some failure, after.store.read (Store.load t {}).1⟩ := by
  rw [ofWalk, h]

theorem ofWalk_of_ended {walk : Value → Walk (Traced Unit) Value} {t : Tree} {root : Value}
    (hroot : (Store.load t {}).1 = root) {failure? : Option Failure}
    {after : Session (Traced Unit)}
    (h : walk root ⟨(Store.load t {}).2, [], ()⟩ = Walk.ended failure? root after) :
    ofWalk walk t = ⟨after.world.1, failure?, after.store.read root⟩ := by
  subst hroot
  cases failure? with
  | none => exact ofWalk_of_ok h
  | some failure => exact ofWalk_of_error h

def followed (account : Account) (rest : List Tree)
    (later : List Event × Option Failure × List Tree) : List Event × Option Failure × List Tree :=
  match account.failure? with
  | some failure => (account.events, some failure, account.tree :: rest)
  | none => (account.events ++ later.1, later.2.1, account.tree :: later.2.2)

/-- One tree after the other.  The first that fails is the last that is dealt with. -/
def inTurn (account : Tree → Account) : List Tree → List Event × Option Failure × List Tree
  | [] => ([], none, [])
  | t :: rest => (account t).followed rest (inTurn account rest)

def ofArray (account : Tree → Account) (items : List Tree) : Account :=
  ⟨(inTurn account items).1, (inTurn account items).2.1, .array (inTurn account items).2.2⟩

end Account

/-- A store after a lot was dealt with: its place in an array holds what reads as a tree, and the
cells of others are as they were. -/
structure Store.Settles (t : Store) (array : ArrayRef) (position : Nat) (lot : Lot) (tree : Tree)
    (later : Store) : Prop where
  grows : t.Grows later
  agrees : AgreesOn (fun cell => t.Contains cell ∧ ¬ lot.cells cell ∧ cell ≠ .array array) t later
  place : ∃ value, later.items array = (t.items array).set position value ∧
    later.Displays (fun cell => lot.cells cell ∨ ¬ t.Contains cell) value tree

theorem Store.Settles.of_leads {s next t later : Store} {lot : Lot} {q : Pairing}
    (h : lot.pairing.Leads s t q next later) {array : ArrayRef} (has : t.Contains (.array array))
    (hout : ¬ lot.cells (.array array)) (position : Nat) {own value : Value}
    (hvalue : own.Pairs q value) :
    t.Settles array position lot (next.read own)
      (later.setItems array ((later.items array).set position value)) := by
  have hlast := setItems_agreesOn later array ((later.items array).set position value)
  have hkept : later.items array = t.items array := h.right.agrees.items array ⟨has, hout⟩
  have hfree : ∀ cell, q.right cell → cell ≠ .array array := by
    rintro cell hcell rfl
    exact h.not_right has hout hcell
  refine ⟨h.right.grows.trans (setItems_grows _ _ _), ?_, value, ?_, next, own, q, ?_, hvalue, rfl,
    h.right.fresh⟩
  · exact (h.right.agrees.mono fun _ hcell => ⟨hcell.1, hcell.2.1⟩).trans
      (hlast.mono fun _ hcell => hcell.2.2)
  · rw [items_setItems_self _ _ _ (h.right.grows.contains has), hkept]
  · exact h.pairs.extend (setItems_grows _ _ _) (hlast.mono hfree)

theorem Store.Settles.of_leads_same {s next t later : Store} {lot : Lot} {q : Pairing}
    (h : lot.pairing.Leads s t q next later) {array : ArrayRef} (has : t.Contains (.array array))
    (hout : ¬ lot.cells (.array array)) {position : Nat} {own value : Value}
    (hplace : (t.items array)[position]? = some value) (hvalue : own.Pairs q value) :
    t.Settles array position lot (next.read own) later := by
  have hat : later.at? (.element array position) = some value := by
    rw [at?, h.right.agrees.items array ⟨has, hout⟩, hplace]
  have hsettles := of_leads h has hout position hvalue
  have hsame : later.setItems array ((later.items array).set position value) = later :=
    write_of_at? hat
  rw [hsame] at hsettles
  exact hsettles

/-- A walk deals with a lot in an array as an account tells it of the tree alone.  If it fails, the
array is as it was. -/
def Lot.Dealt (lot : Lot) (array : ArrayRef) (position : Nat) (account : Account)
    (walk : Walk (Traced Unit) PUnit) : Prop :=
  ∀ t before, lot.Stands t → t.Contains (.array array) → ¬ lot.cells (.array array) →
    (t.items array)[position]? = some lot.value →
    ∃ later, walk ⟨t, before, ()⟩ =
        Walk.ended account.failure? PUnit.unit ⟨later, before ++ account.events, ()⟩ ∧
      t.Settles array position lot account.tree later ∧
      ∀ failure ∈ account.failure?, later.items array = t.items array

theorem set_append_cons (done rest : List α) (x y : α) :
    (done ++ x :: rest).set done.length y = (done ++ [y]) ++ rest := by
  rw [List.set_append_right _ _ (Nat.le_refl _), Nat.sub_self, List.set_cons_zero,
    List.append_assoc, List.singleton_append]

/-- A cell that belongs neither to an array nor to one of the lots. -/
structure Store.Aside (t : Store) (array : ArrayRef) (lots : List Lot) (cell : Cell) : Prop where
  has : t.Contains cell
  ne : cell ≠ .array array
  out : ∀ lot ∈ lots, ¬ lot.cells cell

/-- An array of which a part has been dealt with: it holds what has come of that, and then the lots
that wait.  All of it lies apart. -/
structure Store.Midway (t : Store) (array : ArrayRef) (lots : List Lot) (done : List Value)
    (trees : List Tree) : Prop where
  has : t.Contains (.array array)
  items : t.items array = done ++ lots.map Lot.value
  stands : ∀ lot ∈ lots, lot.Stands t
  out : ∀ lot ∈ lots, ¬ lot.cells (.array array)
  apart : lots.Pairwise Lot.Apart
  shown : List.Forall₂ (t.Displays (t.Aside array lots)) done trees

namespace Store.Midway

variable {array : ArrayRef} {lot : Lot} {lots : List Lot} {done : List Value} {trees : List Tree}
  {t later : Store}

theorem read (h : t.Midway array lots done trees) :
    t.read (.array array) = .array (trees ++ lots.map Lot.tree) := by
  apply Store.read_array_of_displays h.has
  rw [h.items]
  refine List.rel_append (h.shown.imp fun _ _ hshown => hshown.mono fun _ _ hcell => hcell.ne) ?_
  rw [List.forall₂_map_left_iff, List.forall₂_map_right_iff, List.forall₂_same]
  intro other hother
  apply (h.stands other hother).displays.mono
  rintro cell _ hcell rfl
  exact h.out other hother hcell

theorem apart_of_mem (h : t.Midway array (lot :: lots) done trees) {other : Lot}
    (hother : other ∈ lots) {cell : Cell} (hcell : other.cells cell) :
    t.Contains cell ∧ ¬ lot.cells cell ∧ cell ≠ .array array := by
  have hmem := List.mem_cons_of_mem lot hother
  refine ⟨(h.stands other hmem).contains hcell, fun hown => ?_, ?_⟩
  · exact List.rel_of_pairwise_cons h.apart hother cell hown hcell
  · rintro rfl
    exact h.out other hmem hcell

theorem settle (h : t.Midway array (lot :: lots) done trees) {tree : Tree}
    (hsettles : t.Settles array done.length lot tree later) :
    AgreesOn (t.Aside array (lot :: lots)) t later ∧
      ∃ value, later.Midway array lots (done ++ [value]) (trees ++ [tree]) := by
  obtain ⟨hgrows, hagrees, value, hset, hvalue⟩ := hsettles
  have hkept : AgreesOn (t.Aside array (lot :: lots)) t later :=
    hagrees.mono fun _ hcell => ⟨hcell.has, hcell.out lot List.mem_cons_self, hcell.ne⟩
  refine ⟨hkept, value, hgrows.contains h.has, ?_, ?_, ?_, h.apart.of_cons, List.rel_append ?_ ?_⟩
  · rw [hset, h.items, List.map_cons, set_append_cons]
  · intro other hother
    exact (h.stands other (List.mem_cons_of_mem lot hother)).frame hgrows
      (hagrees.mono fun _ hcell => h.apart_of_mem hother hcell)
  · intro other hother
    exact h.out other (List.mem_cons_of_mem lot hother)
  · refine h.shown.imp fun _ _ hshown => (hshown.frame hgrows hkept).mono ?_
    intro cell has hcell
    exact ⟨has, hcell.ne, fun other hother => hcell.out other (List.mem_cons_of_mem lot hother)⟩
  · refine .cons (hvalue.mono ?_) .nil
    intro cell has hcell
    refine ⟨has, ?_, fun other hother hin => ?_⟩
    · rintro rfl
      exact hcell.elim (h.out lot List.mem_cons_self) fun hnew => hnew h.has
    · obtain ⟨hold, hother, -⟩ := h.apart_of_mem hother hin
      exact hcell.elim hother fun hnew => hnew hold

end Store.Midway

theorem forM_dealt {array : ArrayRef} {account : Tree → Account} {lots : List Lot}
    (visit : Lot × Nat → Walk (Traced Unit) PUnit)
    (hvisit : ∀ lot ∈ lots, ∀ position,
      lot.Dealt array position (account lot.tree) (visit (lot, position))) :
    ∀ {t : Store} (before : List Event) {done : List Value} {trees : List Tree},
      t.Midway array lots done trees →
      ∃ later, (lots.zipIdx done.length).forM visit ⟨t, before, ()⟩ =
          Walk.ended (Account.inTurn account (lots.map Lot.tree)).2.1 PUnit.unit
            ⟨later, before ++ (Account.inTurn account (lots.map Lot.tree)).1, ()⟩ ∧
        later.read (.array array) =
          .array (trees ++ (Account.inTurn account (lots.map Lot.tree)).2.2) ∧
        Store.AgreesOn (t.Aside array lots) t later := by
  induction lots with
  | nil =>
      intro t before done trees h
      refine ⟨t, ?_, h.read, .refl _ t⟩
      rw [List.map_nil, Account.inTurn, List.append_nil]
      rfl
  | cons lot lots ih =>
      intro t before done trees h
      have hposition : (t.items array)[done.length]? = some lot.value := by
        rw [h.items]
        simp
      obtain ⟨later, hwalk, hsettles, -⟩ := hvisit lot List.mem_cons_self done.length t before
        (h.stands lot List.mem_cons_self) h.has (h.out lot List.mem_cons_self) hposition
      obtain ⟨hkept, value, hnext⟩ := h.settle hsettles
      rw [List.zipIdx_cons, List.map_cons, Account.inTurn, Account.followed]
      cases hfailure : (account lot.tree).failure? with
      | none =>
          rw [hfailure] at hwalk
          obtain ⟨last, hloop, hread, hrest⟩ := ih
            (fun other hother => hvisit other (List.mem_cons_of_mem lot hother)) _ hnext
          rw [List.length_append, List.length_singleton] at hloop
          refine ⟨last, ?_, ?_, hkept.trans (hrest.mono ?_)⟩
          · refine (Walk.bind_of_ended_none hwalk).trans ?_
            rw [hloop, List.append_assoc]
          · rw [hread, List.append_assoc, List.singleton_append]
          · intro cell hcell
            exact ⟨hsettles.grows.contains hcell.has, hcell.ne,
              fun other hother => hcell.out other (List.mem_cons_of_mem lot hother)⟩
      | some failure =>
          rw [hfailure] at hwalk
          refine ⟨later, Walk.bind_of_ended_some hwalk, ?_, hkept⟩
          rw [hnext.read, List.append_assoc, List.singleton_append]

theorem forM_dealt_all {array : ArrayRef} {account : Tree → Account} {lots : List Lot}
    (visit : Lot × Nat → Walk (Traced Unit) PUnit)
    (hvisit : ∀ lot ∈ lots, ∀ position,
      lot.Dealt array position (account lot.tree) (visit (lot, position)))
    {t : Store} (h : t.Midway array lots [] []) :
    ∃ later, lots.zipIdx.forM visit ⟨t, [], ()⟩ =
        Walk.ended (Account.ofArray account (lots.map Lot.tree)).failure? PUnit.unit
          ⟨later, (Account.ofArray account (lots.map Lot.tree)).events, ()⟩ ∧
      later.read (.array array) = (Account.ofArray account (lots.map Lot.tree)).tree ∧
      Store.AgreesOn (t.Aside array lots) t later :=
  forM_dealt visit hvisit [] h

/-- A walk that gives the replacement of a node, if there is one, and does the same for paired nodes,
beside any trace. -/
def Walk.Uniform (survey : Value → Walk (Traced Unit) (Option Value)) : Prop :=
  ∀ {before : List Event} {p : Pairing} {value other : Value}, value.Pairs p other →
    Walk.InStep p (Traced.Continues before Eq) (survey value) (survey other)
      fun q => Option.Rel (Value.Pairs q)

theorem Lot.dealt_settle {survey : Value → Walk (Traced Unit) (Option Value)}
    (hsurvey : Walk.Uniform survey) (lot : Lot) (array : ArrayRef) (position : Nat) :
    lot.Dealt array position (Account.ofWalk (Walk.answer survey) lot.tree)
      (survey lot.value >>= Walk.settle (.element array position)) := by
  intro t before hstands has hout hposition
  have hworlds : Traced.Continues before Eq ([], ()) (before, ()) :=
    ⟨(List.append_nil before).symm, rfl⟩
  have hboth := hsurvey hstands.value _ t _ _ hstands.pairs hworlds
  rw [Walk.bind_apply]
  split at hboth
  · next given after replacement later hown hend =>
      obtain ⟨later, world⟩ := later
      obtain ⟨q, hleads, htrace, hgiven⟩ := hboth
      have hanswer : Walk.answer survey (Store.load lot.tree {}).1
          ⟨(Store.load lot.tree {}).2, [], ()⟩ =
            .ok (given.getD (Store.load lot.tree {}).1) after := by
        rw [Walk.answer, Walk.bind_apply, hown]
        rfl
      rw [Account.ofWalk_of_ok hanswer, hend]
      cases hgiven with
      | none =>
          refine ⟨later, ?_, .of_leads_same hleads has hout hposition
            (hstands.value.mono hleads.keeps), nofun⟩
          rw [← htrace.1]
          rfl
      | @some given replacement hvalue =>
          have hplace : (later.items array)[position]? = some lot.value := by
            rw [hleads.right.agrees.items array ⟨has, hout⟩, hposition]
          refine ⟨_, ?_, .of_leads hleads has hout position hvalue, nofun⟩
          refine (Walk.settle_apply hplace replacement world).trans ?_
          rw [← htrace.1]
          rfl
  · next failure after cause later hown hend =>
      obtain ⟨later, world⟩ := later
      obtain ⟨rfl, q, hleads, htrace⟩ := hboth
      have hanswer : Walk.answer survey (Store.load lot.tree {}).1
          ⟨(Store.load lot.tree {}).2, [], ()⟩ = .error failure after := by
        rw [Walk.answer, Walk.bind_apply, hown]
      rw [Account.ofWalk_of_error hanswer, hend]
      refine ⟨later, ?_, .of_leads_same hleads has hout hposition
        (hstands.value.mono hleads.keeps), ?_⟩
      · rw [← htrace.1]
        rfl
      · intro _ _
        exact hleads.right.agrees.items array ⟨has, hout⟩
  · exact hboth.elim

section

variable {visitors : List (Visitor (Traced Unit))} {prune : Prune (Traced Unit)}
  (hvisitors : ∀ before, ∀ visitor ∈ visitors, visitor.Impartial (Traced.Continues before Eq))
  (hprune : ∀ before, prune.Impartial (Traced.Continues before Eq))

include hvisitors hprune

theorem Lot.dealt_root (lot : Lot) (order : Order) (fuel : Nat) (array : ArrayRef)
    (position : Nat) :
    lot.Dealt array position
      (Account.ofWalk (Transform.root order visitors prune fuel) lot.tree) (do
        let result ← Transform.root order visitors prune fuel lot.value
        Walk.write (.element array position) result) := by
  let survey : Value → Walk (Traced Unit) (Option Value) := fun node => do
    return some (← Transform.root order visitors prune fuel node)
  have huniform : Walk.Uniform survey := by
    intro before p value other hvalue
    apply (Transform.root_inStep (hvisitors before) (hprune before) order fuel hvalue).bind
    intro q _ result same hresult
    exact .pure (.some hresult)
  have hanswer : Walk.answer survey = Transform.root order visitors prune fuel := by
    funext node
    simp only [Walk.answer, survey, bind_assoc, pure_bind, Option.getD_some, bind_pure]
  have hdealt := lot.dealt_settle huniform array position
  rw [hanswer] at hdealt
  simpa only [survey, bind_assoc, pure_bind, Walk.settle] using hdealt

/-- A transform of an array does with the items in turn what it does with each of them alone. -/
theorem Transform.ofWalk_root_array (order : Order) (fuel : Nat) (items : List Tree) :
    Account.ofWalk (Transform.root order visitors prune (fuel + 1)) (.array items) =
      Account.ofArray (Account.ofWalk (Transform.root order visitors prune fuel)) items := by
  obtain ⟨lots, ref, rfl, hroot, hitems, has, hstands, hout, hapart⟩ :=
    Lot.exists_of_load_array items
  have hmidway : (Store.load (.array (lots.map Lot.tree)) {}).2.Midway ref lots [] [] :=
    ⟨has, hitems, hstands, hout, hapart, .nil⟩
  let visit : Value × Nat → Walk (Traced Unit) PUnit := fun entry => do
    let result ← Transform.root order visitors prune fuel entry.1
    Walk.write (.element ref entry.2) result
  obtain ⟨later, hloop, hread, -⟩ := forM_dealt_all (fun entry => visit (entry.1.value, entry.2))
    (fun lot _ position => lot.dealt_root hvisitors hprune order fuel ref position) hmidway
  have hentries : lots.zipIdx.forM (fun entry => visit (entry.1.value, entry.2)) =
      ((Store.load (.array (lots.map Lot.tree)) {}).2.items ref).zipIdx.forM visit := by
    rw [hitems, List.zipIdx_map, forM_map_eq]
    rfl
  rw [hentries] at hloop
  rw [Account.ofWalk_of_ended hroot (Walk.bind_pure_of_ended hloop (Value.array ref)), hread]

end

end ViewTree
