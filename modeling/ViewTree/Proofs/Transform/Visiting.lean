import ViewTree.Proofs.Store.Placing
import ViewTree.Proofs.Transform.Revision

namespace ViewTree

open Store (Cell)

namespace Store

/-- A slot holds a node, and neither the holder nor the parent lies below the node. -/
structure Held (s : Store) (slot : Slot) (type : Option String) (t : Tree) (cells : List Cell) :
    Prop where
  shows : s.Shows t slot.node cells
  place : s.at? slot.place = some slot.node
  apart : slot.place.cell ∉ cells
  named : s.Named slot.parent type
  above : ∀ ref, slot.parent = some ref → Cell.object ref ∉ cells

theorem held_box {s : Store} {t : Tree} {value : Value} {cells : List Cell}
    (h : s.Shows t value cells) :
    (newArray [value] s).2.Held ⟨value, none, 0, .element ⟨s.arrays.size⟩ 0⟩ none t cells where
  shows := (newArray_extends [value] s).shows h
  place := by rw [at?, items_newArray_self]; rfl
  apart := fun hmem => Nat.lt_irrefl _ (h.contains _ hmem)
  named := .none
  above := by simp

/-- A place has come to hold a value that shows the result; apart from that only cells of the node it
held have changed. -/
def Placed (s : Store) (place : Place) (cells : List Cell) (result : Tree) (after : Store) : Prop :=
  ∃ value, (s.write place value).ChangesOnly cells after ∧ s.MadeOf cells after value result

variable {s middle after : Store} {slot : Slot} {type : Option String} {t : Tree}
  {cells : List Cell}

theorem Held.later (h : s.Held slot type t cells) (hchanges : s.ChangesOnly cells after)
    {result : Tree} {parts : List Cell} (hshows : after.Shows result slot.node parts)
    (hparts : ∀ cell ∈ parts, cell ∈ cells ∨ ¬ s.Contains cell) :
    after.Held slot type result parts where
  shows := hshows
  place := (hchanges.at? (contains_of_at? h.place) h.apart).trans h.place
  apart := fun hmem => (hparts _ hmem).elim h.apart fun hnew => hnew (contains_of_at? h.place)
  named := h.named.frame fun ref href =>
    hchanges.members (Named.contains (href ▸ h.named)) (h.above ref href)
  above := fun ref href hmem =>
    (hparts _ hmem).elim (h.above ref href) fun hnew => hnew (Named.contains (href ▸ h.named))

theorem Held.extends (h : s.Held slot type t cells) (hextends : s.Extends after) :
    after.Held slot type t cells :=
  h.later (hextends.changesOnly cells) (hextends.shows h.shows) fun _ => Or.inl

theorem Held.placed_same (h : s.Held slot type t cells) (hextends : s.Extends after) :
    s.Placed slot.place cells t after := by
  refine ⟨slot.node, ?_, cells, hextends.shows h.shows, fun _ => Or.inl⟩
  rw [write_of_at? h.place]
  exact hextends.changesOnly cells

theorem Held.placed_write (h : s.Held slot type t cells) (hchanges : s.ChangesOnly cells middle)
    {value : Value} {result : Tree} (hmade : s.MadeOf cells middle value result) :
    s.Placed slot.place cells result (middle.write slot.place value) := by
  obtain ⟨parts, hshows, hparts⟩ := hmade
  have has := contains_of_at? h.place
  refine ⟨value, hchanges.write has h.apart value, parts, ?_, hparts⟩
  refine hshows.frame (write_grows _ _ _) ((write_agreesOn _ _ _).mono fun cell hcell => ?_)
  rintro rfl
  exact (hparts _ hcell).elim h.apart fun hnew => hnew has

theorem Placed.earlier {parts : List Cell} {result : Tree}
    (h : middle.Placed slot.place parts result after) (hheld : s.Held slot type t cells)
    (hchanges : s.ChangesOnly cells middle)
    (hparts : ∀ cell ∈ parts, cell ∈ cells ∨ ¬ s.Contains cell) :
    s.Placed slot.place cells result after := by
  obtain ⟨value, hafter, hmade⟩ := h
  have hwrite := hchanges.write (contains_of_at? hheld.place) hheld.apart value
  obtain ⟨made, hshows, hcells⟩ := hmade.earlier hchanges.grows
  refine ⟨value, hwrite.trans hafter fun cell hcell => ?_, made, hshows, fun cell hcell => ?_⟩
  · exact (hparts cell hcell).imp_right fun hnew hhas => hnew (contains_write.mp hhas)
  · exact (hcells cell hcell).elim (hparts cell) Or.inr

theorem Placed.changesOnly {place : Place} {result : Tree}
    (h : s.Placed place cells result after) : s.ChangesOnly (place.cell :: cells) after := by
  obtain ⟨value, hchanges, -⟩ := h
  have hwrite : s.ChangesOnly (place.cell :: cells) (s.write place value) :=
    ⟨write_grows _ _ _, (write_agreesOn _ _ _).mono fun cell hcell heq =>
      hcell.2 (heq ▸ List.mem_cons_self)⟩
  exact hwrite.trans hchanges fun cell hcell => .inl (List.mem_cons_of_mem _ hcell)

/-- The items of an array from a position on, still as they were. -/
structure Pending (s : Store) (ref : ArrayRef) (start : Nat) (trees : List Tree)
    (values : List Value) (cells : List Cell) : Prop where
  has : s.Contains (.array ref)
  items : (s.items ref).drop start = values
  shows : s.ShowsItems trees values cells
  nodup : cells.Nodup
  apart : .array ref ∉ cells

/-- The items of an array from a position on have become these results. -/
def Done (s : Store) (ref : ArrayRef) (start : Nat) (cells : List Cell) (results : List Tree)
    (after : Store) : Prop :=
  ∃ later parts, s.ChangesOnly (.array ref :: cells) after ∧
    after.items ref = (s.items ref).take start ++ later ∧ after.ShowsItems results later parts ∧
    ∀ cell ∈ parts, cell ∈ cells ∨ ¬ s.Contains cell

variable {ref : ArrayRef} {start : Nat} {tree first : Tree} {trees results : List Tree}
  {value : Value} {values : List Value} {rest : List Cell}

theorem Pending.at? (h : s.Pending ref start trees (value :: values) cells) :
    s.at? (.element ref start) = some value := by
  rw [Store.at?, ← List.head?_drop, h.items]
  rfl

theorem Pending.rest_apart (h : s.Pending ref start trees values (cells ++ rest)) :
    ∀ cell ∈ rest, cell ∉ Cell.array ref :: cells := by
  intro cell hcell hmem
  rcases List.mem_cons.mp hmem with rfl | hmem
  · exact h.apart (List.mem_append_right _ hcell)
  · exact (List.nodup_append.mp h.nodup).2.2 cell hmem cell hcell rfl

theorem Placed.items (h : s.Placed (.element ref start) cells first after)
    (has : s.Contains (.array ref)) (hapart : .array ref ∉ cells) :
    ∃ next, after.items ref = (s.items ref).set start next ∧ s.MadeOf cells after next first := by
  obtain ⟨next, hwrite, hmade⟩ := h
  refine ⟨next, ?_, hmade⟩
  rw [hwrite.items (contains_write.mpr has) hapart, write, items_setItems has, if_pos rfl]

theorem Pending.next (h : s.Pending ref start (tree :: trees) (value :: values) (cells ++ rest))
    (htail : s.ShowsItems trees values rest)
    (hplaced : s.Placed (.element ref start) cells first middle) :
    middle.Pending ref (start + 1) trees values rest := by
  have hchanges := hplaced.changesOnly
  have hself : .array ref ∉ cells := fun hmem => h.apart (List.mem_append_left _ hmem)
  obtain ⟨next, hitems, -⟩ := hplaced.items h.has hself
  refine ⟨hchanges.grows.contains h.has, ?_, hchanges.showsItems htail h.rest_apart,
    (List.nodup_append.mp h.nodup).2.1, fun hmem => h.apart (List.mem_append_right _ hmem)⟩
  rw [hitems, List.drop_set_of_lt (Nat.lt_succ_self start), ← List.tail_drop, h.items]
  rfl

theorem Pending.done_nil (h : s.Pending ref start [] [] cells) : s.Done ref start cells [] s := by
  refine ⟨[], [], .refl _ _, ?_, .nil, by simp⟩
  rw [List.append_nil, List.take_of_length_le (List.drop_eq_nil_iff.mp h.items)]

theorem Done.cons (h : s.Pending ref start (tree :: trees) (value :: values) (cells ++ rest))
    (htail : s.ShowsItems trees values rest)
    (hplaced : s.Placed (.element ref start) cells first middle)
    (hdone : middle.Done ref (start + 1) rest results after) :
    s.Done ref start (cells ++ rest) (first :: results) after := by
  have hchanges := hplaced.changesOnly
  have hself : .array ref ∉ cells := fun hmem => h.apart (List.mem_append_left _ hmem)
  obtain ⟨next, hitems, parts, hshows, hparts⟩ := hplaced.items h.has hself
  obtain ⟨last, lastParts, hlast, hlastItems, hlastShows, hlastParts⟩ := hdone
  have hapart : ∀ cell ∈ parts, cell ∉ Cell.array ref :: rest := by
    intro cell hcell hmem
    rcases List.mem_cons.mp hmem with rfl | hmem
    · exact (hparts _ hcell).elim hself fun hnew => hnew h.has
    · exact (hparts _ hcell).elim
        (fun hfirst => (List.nodup_append.mp h.nodup).2.2 cell hfirst cell hmem rfl)
        fun hnew => hnew (htail.contains cell hmem)
  refine ⟨next :: last, parts ++ lastParts, ?_, ?_, .cons (hlast.shows hshows hapart) hlastShows, ?_⟩
  · have hmore : s.ChangesOnly (.array ref :: (cells ++ rest)) middle :=
      hchanges.mono fun cell hcell =>
        (List.mem_cons.mp hcell).elim (fun heq => heq ▸ List.mem_cons_self)
          fun hmem => List.mem_cons_of_mem _ (List.mem_append_left _ hmem)
    exact hmore.trans hlast fun cell hcell => .inl <|
      (List.mem_cons.mp hcell).elim (fun heq => heq ▸ List.mem_cons_self)
        fun hmem => List.mem_cons_of_mem _ (List.mem_append_right _ hmem)
  · have hlength : start < ((s.items ref).set start next).length := by
      rw [List.length_set]
      exact (List.getElem?_eq_some_iff.mp h.at?).1
    rw [hlastItems, hitems, List.take_succ_eq_append_getElem hlength,
      List.take_set_of_le (Nat.le_refl start), List.getElem_set_self, List.append_assoc]
    rfl
  · intro cell hcell
    rcases List.mem_append.mp hcell with hcell | hcell
    · exact (hparts cell hcell).imp_left (List.mem_append_left _)
    · exact (hlastParts cell hcell).imp (List.mem_append_right _)
        fun hnew hhas => hnew (hchanges.grows.contains hhas)

theorem Done.madeOf (h : s.Done ref 0 cells results after) (has : s.Contains (.array ref)) :
    s.ChangesOnly (.array ref :: cells) after ∧
      s.MadeOf (.array ref :: cells) after (.array ref) (.array results) := by
  obtain ⟨later, parts, hchanges, hitems, hshows, hparts⟩ := h
  refine ⟨hchanges, .array ref :: parts, .array (hchanges.grows.contains has) ?_, ?_⟩
  · rw [hitems]
    exact hshows
  · intro cell hcell
    rcases List.mem_cons.mp hcell with rfl | hcell
    · exact .inl List.mem_cons_self
    · exact (hparts cell hcell).imp_left (List.mem_cons_of_mem _)

/-- An object whose member a value is placed in is rebuilt with the result as that member. -/
theorem Placed.object {trees : List (String × Tree)} {ref : ObjectRef} {rest : List Cell}
    (has : s.Contains (.object ref)) (hmembers : s.ShowsMembers trees (s.members ref) rest)
    (hnodup : (Cell.object ref :: rest).Nodup) {name : String} {item : Tree} {value : Value}
    {old : List Cell} (htree : trees.lookup name = some item)
    (hvalue : (s.members ref).lookup name = some value) (hold : s.Shows item value old)
    {result : Tree} (h : s.Placed (.member ref name) old result after) :
    ∃ parts, after.Shows (.object (Members.put name result trees)) (.object ref) parts ∧
      (∀ cell ∈ parts, cell ∈ Cell.object ref :: rest ∨ ¬ s.Contains cell) ∧
      s.ChangesOnly (.object ref :: rest) after := by
  obtain ⟨hself, hrest⟩ := List.nodup_cons.mp hnodup
  have hbelow : ∀ cell ∈ old, cell ∈ rest := by
    rcases hmembers.lookup name with ⟨hnone, -⟩ | ⟨_, _, _, hitem, hheld, hshows, hsub⟩
    · rw [hnone] at htree
      cases htree
    · obtain rfl := Option.some.inj (hitem.symm.trans htree)
      obtain rfl := Option.some.inj (hheld.symm.trans hvalue)
      obtain ⟨-, rfl⟩ := hshows.unique hold
      exact fun cell hcell => hsub.subset hcell
  have hchanges := h.changesOnly
  obtain ⟨next, hwrite, made, hmade, hmadeCells⟩ := h
  have hkept : ∀ parts : List Cell, (∀ cell ∈ parts, cell ∈ rest) →
      AgreesOn (· ∈ parts) s (s.write (.member ref name) next) := fun parts hparts =>
    (write_agreesOn s _ next).mono fun cell hcell (heq : cell = Cell.object ref) =>
      hself (heq ▸ hparts cell hcell)
  have hwritten := hmembers.frame (write_grows s _ next) (hkept rest fun _ => id)
  have hwrittenOld := hold.frame (write_grows s _ next) (hkept old hbelow)
  obtain ⟨all, hall, hallCells⟩ :=
    hwritten.put hrest htree hvalue hwrittenOld hwrite.grows
      (hwrite.agrees.mono fun cell hcell => ⟨hwritten.contains cell hcell.1, hcell.2⟩) hmade
  have hput : after.members ref = (s.members ref).put name next := by
    rw [hwrite.members (contains_write.mpr has) fun hmem => hself (hbelow _ hmem), write,
      members_setMembers has, if_pos rfl]
  refine ⟨.object ref :: all, .object (hchanges.grows.contains has) (hput ▸ hall), ?_, ?_⟩
  · intro cell hcell
    rcases List.mem_cons.mp hcell with rfl | hcell
    · exact .inl List.mem_cons_self
    · rcases hallCells cell hcell with hcell | hcell
      · exact .inl (List.mem_cons_of_mem _ hcell)
      · exact (hmadeCells cell hcell).imp_left fun hmem => List.mem_cons_of_mem _ (hbelow _ hmem)
  · refine hchanges.mono fun cell hcell => ?_
    rcases List.mem_cons.mp hcell with rfl | hcell
    · exact List.mem_cons_self
    · exact List.mem_cons_of_mem _ (hbelow cell hcell)

/-- A node is rebuilt below a slot that goes on holding it. -/
def Rebuilt (s : Store) (slot : Slot) (type : Option String) (cells : List Cell) (next : Context)
    (seen : View) (after : Store) : Prop :=
  ∃ result parts, after.Held slot type result parts ∧
    (∀ cell ∈ parts, cell ∈ cells ∨ ¬ s.Contains cell) ∧ s.ChangesOnly cells after ∧
    next.parent = slot.parent ∧ next.view after slot.node = seen

theorem Held.rebuilt_same (h : s.Held slot type t cells) (hextends : s.Extends after)
    {next : Context} (hparent : next.parent = slot.parent) :
    s.Rebuilt slot type cells next (next.view s slot.node) after :=
  ⟨t, cells, h.extends hextends, fun _ => Or.inl, hextends.changesOnly cells, hparent,
    Context.view_extends h.shows (hparent ▸ h.named) hextends⟩

theorem Rebuilt.earlier {next : Context} {seen : View}
    (h : middle.Rebuilt slot type cells next seen after) (hextends : s.Extends middle) :
    s.Rebuilt slot type cells next seen after := by
  obtain ⟨result, parts, hheld, hparts, hchanges, hnext⟩ := h
  refine ⟨result, parts, hheld, fun cell hcell => ?_, ?_, hnext⟩
  · exact (hparts cell hcell).imp_right fun hnew hhas => hnew (hextends.grows.contains hhas)
  · exact hchanges.earlier hextends fun _ => Or.inl

end Store

variable {s : Store} {slot : Slot} {type : Option String} {t : Tree} {cells : List Cell}

theorem leaveNode_follows (onlookers : List (Onlooker σ)) (caution : Caution σ)
    (h : s.Held slot type t cells) {ctx : Context} (hparent : ctx.parent = slot.parent)
    {view : View} (hview : ctx.view s slot.node = view) (world : σ) :
    Walk.Follows (Transform.leaveNode (onlookers.map Onlooker.visitor) slot ctx)
      ((Team.of onlookers caution).leave view) ⟨s, world⟩
      fun _ result after => s.Placed slot.place cells result after := by
  have hphase := runPhase_follows .exit onlookers h.shows (hparent ▸ h.named) world
  rw [hview] at hphase
  refine hphase.bind ?_
  rintro ⟨value, next⟩ ⟨result, seen⟩ ⟨after, world⟩ ⟨hextends, -, -, hmade⟩
  simp only at hmade hextends ⊢
  cases hmade with
  | some hmade =>
      have hhas := Store.has_of_at? (h.extends hextends).place
      exact .of_ok (Store.write_apply hhas world) rfl (h.placed_write (hextends.changesOnly cells) hmade)
  | none =>
      have hnode : view.node = t := by
        rw [← hview]
        exact h.shows.read_eq
      exact .pure (hnode ▸ h.placed_same hextends)

theorem enterNode_follows (onlookers : List (Onlooker σ)) (caution : Caution σ)
    (h : s.Held slot type t cells) {ctx : Context} (hparent : ctx.parent = slot.parent)
    {view : View} (hview : ctx.view s slot.node = view) (world : σ) :
    Walk.Follows (Transform.enterNode (onlookers.map Onlooker.visitor) slot ctx)
      ((Team.of onlookers caution).enter view) ⟨s, world⟩
      fun given said after =>
        (∃ result, given = none ∧ said.1 = some result ∧ s.Placed slot.place cells result after) ∨
        ∃ next, given = some next ∧ said.1 = none ∧ s.Extends after ∧
          next.parent = slot.parent ∧ next.view after slot.node = said.2 := by
  have hphase := runPhase_follows .enter onlookers h.shows (hparent ▸ h.named) world
  rw [hview] at hphase
  rw [← bind_pure ((Team.of onlookers caution).enter view)]
  refine hphase.bind ?_
  rintro ⟨value, next⟩ ⟨result, seen⟩ ⟨after, world⟩ ⟨hextends, hsame, hseen, hmade⟩
  simp only at hmade hextends hsame hseen ⊢
  cases hmade with
  | some hmade =>
      have hhas := Store.has_of_at? (h.extends hextends).place
      refine .step (Store.write_apply hhas world) rfl (.pure (.inl ?_))
      exact ⟨_, rfl, rfl, h.placed_write (hextends.changesOnly cells) hmade⟩
  | none =>
      have hnext := hsame.trans hparent
      refine .pure (.inr ⟨next, rfl, rfl, hextends, hnext, ?_⟩)
      exact (Context.view_extends h.shows (hnext ▸ h.named) hextends).trans hseen

end ViewTree
