import ViewTree.Proofs.Transform.Entry
import ViewTree.Proofs.Transform.Recording
import ViewTree.Proofs.Transform.Immunity

namespace ViewTree

open Store (Cell Plot)

abbrev recordedTour (visitors : List (Visitor σ)) (prune : Prune σ) (order : Order) :
    Tour (Watched σ) :=
  Transform.tour [watch visitors] prune.watched order

abbrev outlinesOf (s : Store) (level depth : Nat) (plots : List Plot) : List (Rose Stand) :=
  plots.map fun plot => s.outlineTo level (plot.slot.stand depth)

theorem outlineTo_ready {s : Store} {kept : Cell → Prop} {plot : Plot} {plots below : List Plot}
    (h : s.Ready kept (plot :: plots)) (hslots : s.childSlots plot.slot.node = below.map Plot.slot)
    {level : Nat} (hlevel : plot.cells.length ≤ level) (depth : Nat) :
    s.outlineTo level (plot.slot.stand depth) =
      .mk (plot.slot.stand depth) (outlinesOf s level (depth + 1) below) := by
  have hshows : s.Shows plot.tree (plot.slot.stand depth).node plot.cells :=
    h.shows plot List.mem_cons_self
  have hchildren : s.childSlots (plot.slot.stand depth).node = below.map Plot.slot := hslots
  rw [hshows.outlineTo_succ hlevel, Store.outlineTo, hchildren, List.map_map]
  rfl

section

variable {visitors : List (Visitor σ)} {prune : Prune σ} {order : Order}

/-- What it takes for plots to be visited depth first. -/
def VisitsReady (visitors : List (Visitor σ)) (prune : Prune σ) (order : Order) (fuel : Nat) :
    Prop :=
  ∀ {session : Session (Watched σ)} {kept : Cell → Prop} {plot : Plot},
    session.store.Ready kept [plot] → plot.tree.isValid = true → plot.tree.size ≤ fuel →
    ∀ {level : Nat}, plot.cells.length ≤ level → ∀ depth,
      Walk.Records order (!prune.isNull) True False
        ((recordedTour visitors prune order).depthFirst fuel plot.slot depth) session
        [session.store.outlineTo level (plot.slot.stand depth)]
        fun _ after => session.store.Tends kept after

theorem forM_records {fuel : Nat} (hvisit : VisitsReady visitors prune order fuel)
    {kept : Cell → Prop} {level : Nat} (depth : Nat) {plots : List Plot} :
    ∀ {session : Session (Watched σ)}, session.store.Ready kept plots →
      (∀ plot ∈ plots, plot.tree.isValid = true) → Tree.sizes (plots.map Plot.tree) ≤ fuel →
      (Store.area plots).length ≤ level →
      Walk.Records order (!prune.isNull) True False
        ((plots.map Plot.slot).forM fun child =>
          (recordedTour visitors prune order).depthFirst fuel child depth) session
        (outlinesOf session.store level depth plots)
        fun _ after => session.store.Tends kept after := by
  induction plots with
  | nil => exact fun _ _ _ _ => .pure (.refl _ kept)
  | cons plot plots ih =>
      intro session h hvalid hsize hlevel
      rw [List.map_cons, Tree.sizes] at hsize
      rw [Store.area_cons, List.length_append] at hlevel
      have hhead := hvisit h.head (hvalid plot List.mem_cons_self) (by omega)
        (Nat.le_of_add_right_le hlevel) depth
      apply hhead.bind
      intro _ middle hmiddle
      have htail := ih (h.tail.tended hmiddle)
        (fun other hother => hvalid other (List.mem_cons_of_mem _ hother)) (by omega)
        (Nat.le_of_add_left_le hlevel)
      -- the outlines of those that are to come are what they were
      have hsame : outlinesOf middle.store level depth plots =
          outlinesOf session.store level depth plots :=
        List.map_congr_left fun other hother =>
          h.tail.outlineTo_tended hmiddle (Nat.le_of_add_left_le hlevel) hother depth
      rw [hsame] at htail
      exact htail.mono fun _ _ hlast => (hmiddle.mono fun _ => .inl).trans hlast

/-- Below a node that bars the walk there is nothing to do. -/
theorem below_records {fuel : Nat} (hvisit : VisitsReady visitors prune order fuel) {s : Store}
    {session : Session (Watched σ)} {kept : Cell → Prop} {below : List Plot}
    (h : s.Ready kept below) (hextends : s.Extends session.store)
    (hvalid : ∀ child ∈ below, child.tree.isValid = true)
    (hsize : Tree.sizes (below.map Plot.tree) ≤ fuel) {level : Nat}
    (hlevel : (Store.area below).length ≤ level) (depth : Nat) {barred : Prop}
    {children : List Slot} (hbarred : barred → children = [])
    (hopen : ¬ barred → children = below.map Plot.slot) :
    Walk.Records order (!prune.isNull) (True ∧ ¬ barred) False
      (children.forM fun child =>
        (recordedTour visitors prune order).depthFirst fuel child depth) session
      (outlinesOf s level depth below) fun _ after => s.Tends kept after := by
  have hbefore := hextends.tends h.contains
  by_cases hbar : barred
  · rw [hbarred hbar]
    exact ⟨(), session, [], _, rfl, (List.append_nil _).symm, .blank (fun h => h.2 hbar) _, hbefore⟩
  · rw [hopen hbar]
    obtain ⟨value, after, notices, records, hwalk, hworld, hrecorded, hafter⟩ :=
      forM_records hvisit depth (h.extended hextends) hvalid hsize hlevel
    have hsame : outlinesOf session.store level depth below = outlinesOf s level depth below :=
      List.map_congr_left fun child hchild =>
        h.outlineTo_tended (hextends.tends h.reserved) hlevel hchild depth
    rw [hsame] at hrecorded
    exact ⟨value, after, notices, records, hwalk, hworld, hrecorded.congr (by simp [hbar]) .rfl,
      hbefore.trans hafter⟩

theorem preVisit_records (hvisitors : ∀ visitor ∈ visitors, visitor.Aloof)
    (hprune : Aloof prune.test) {fuel : Nat} (hvisit : VisitsReady visitors prune .preOrder fuel) :
    VisitsReady visitors prune .preOrder (fuel + 1) := by
  intro session kept plot h hvalid hsize level hlevel depth
  obtain ⟨s, notices, world⟩ := session
  obtain ⟨kind, hkind, hstructured⟩ := h.classify hvalid
  obtain ⟨below, hslots, hready, hbelow, hsizes, hbelowCells, -⟩ := h.listed hvalid
  rw [List.nil_append] at hready
  have hplace := h.has plot List.mem_cons_self
  have hfree := (h.places plot List.mem_cons_self).1
  obtain ⟨entered, skipping, middle, henter, hentered, htends, hnext⟩ :=
    enterNode_aloof hvisitors hplace h.contains hfree notices world (plot.slot.context depth)
  have harrive : (recordedTour visitors prune .preOrder).arrive kind plot.slot
      (plot.slot.context depth) =
    Transform.enterNode [watch visitors] plot.slot (plot.slot.context depth) := rfl
  rw [outlineTo_ready h hslots hlevel, Tour.depthFirst]
  apply Walk.Records.step (by rw [Walk.classify_apply, hkind]) rfl
  rw [harrive]
  cases entered with
  | none =>
      let visit : Visit := ⟨plot.slot.stand depth, some (true, skipping), none, false⟩
      have hlawful : visit.Lawful .preOrder (!prune.isNull) True False :=
        Visit.lawful_of_replaced (by simp)
      have hblank : Recorded .preOrder (!prune.isNull) (True ∧ ¬ visit.Bars .preOrder) False
        (outlinesOf s level (depth + 1) below) [] _ :=
        .blank (fun h => h.2 (Visit.bars_of_replaced (by simp))) _
      refine ⟨(), middle, _, _, ?_, hentered, .node hlawful rfl hblank (hblank.lists.pre visit),
        htends⟩
      rw [Walk.bind_apply, henter]
      rfl
  | some ctx =>
      obtain ⟨hextends, hskip, hstand⟩ := hnext ctx rfl
      obtain ⟨middle, noticed, middleWorld⟩ := middle
      have htour : (recordedTour visitors prune .preOrder).prune = prune.watched.test := rfl
      obtain ⟨asked, children, next, later, hdescend, hasked, hlater, hlast, hlawful, hclosed,
        hopen⟩ :=
        descend_kept .preOrder (by simp) hprune htour h hslots hextends noticed middleWorld
          hstructured hskip depth true (by simp)
      let visit : Visit := ⟨plot.slot.stand depth, some (false, skipping), asked, true⟩
      obtain ⟨_, done, others, records, hforM, hdone, hrecorded, htended⟩ :=
        below_records hvisit hready hlater hbelow (by omega) (hbelowCells.length_le.trans hlevel)
          (depth + 1) hclosed hopen
      obtain ⟨done, doneNotices, doneWorld⟩ := done
      have hkept : ∀ cell, kept cell → done.Contains cell := fun cell hcell =>
        htended.grows.contains (h.contains cell hcell)
      obtain ⟨last, hleave, hleft, hlastTends⟩ :=
        leaveNode_aloof hvisitors (htended.has hplace) hkept hfree doneNotices doneWorld next
      refine ⟨(), last, _, _, ?_, ?_, .node hlawful rfl hrecorded (hrecorded.lists.pre visit),
        htended.trans hlastTends⟩
      · rw [Walk.bind_apply, henter]
        simp only [Walk.bind_apply, hdescend, hforM]
        exact hleave
      · simp only at hdone hentered
        rw [hleft, hdone, hasked, hentered, hlast, hstand]
        simp only [List.append_assoc]
        rfl

theorem postVisit_records (hvisitors : ∀ visitor ∈ visitors, visitor.Aloof)
    (hprune : Aloof prune.test) {fuel : Nat}
    (hvisit : VisitsReady visitors prune .postOrder fuel) :
    VisitsReady visitors prune .postOrder (fuel + 1) := by
  intro session kept plot h hvalid hsize level hlevel depth
  obtain ⟨s, notices, world⟩ := session
  obtain ⟨kind, hkind, hstructured⟩ := h.classify hvalid
  obtain ⟨below, hslots, hready, hbelow, hsizes, hbelowCells, -⟩ := h.listed hvalid
  rw [List.nil_append] at hready
  have hplace := h.has plot List.mem_cons_self
  have hfree := (h.places plot List.mem_cons_self).1
  have htour : (recordedTour visitors prune .postOrder).prune = prune.watched.test := rfl
  obtain ⟨asked, children, next, middle, hdescend, hasked, hextends, hnext, hask, hclosed, hopen⟩ :=
    descend_ready hprune htour h hslots (.refl s) notices world hstructured
      (plot.slot.context depth)
  have hclear : (plot.slot.context depth).skipping = false := rfl
  simp only [hclear, Bool.false_eq_true, or_false] at hclosed hopen
  obtain ⟨_, done, others, records, hforM, hdone, hrecorded, htended⟩ :=
    below_records hvisit hready hextends hbelow (by omega) (hbelowCells.length_le.trans hlevel)
      (depth + 1)
      hclosed hopen
  obtain ⟨done, doneNotices, doneWorld⟩ := done
  have hkept : ∀ cell, kept cell → done.Contains cell := fun cell hcell =>
    htended.grows.contains (h.contains cell hcell)
  obtain ⟨entered, skipping, later, henter, hentered, hlater, hlast⟩ :=
    enterNode_aloof hvisitors (htended.has hplace) hkept hfree doneNotices doneWorld next
  let visit : Visit := ⟨plot.slot.stand depth, some (entered.isNone, skipping), asked,
    entered.isSome⟩
  have hlawful : visit.Lawful .postOrder (!prune.isNull) True False := by
    refine Visit.lawful_of_entered ?_ ?_
    · cases entered <;> simp
    · rw [hask, hclear]
      simp [Slot.stand]
  have hlisted := hrecorded.lists.post visit
  have harrive : (recordedTour visitors prune .postOrder).arrive kind plot.slot
      (plot.slot.context depth) = pure (some (plot.slot.context depth)) := rfl
  rw [outlineTo_ready h hslots hlevel, Tour.depthFirst]
  apply Walk.Records.step (by rw [Walk.classify_apply, hkind]) rfl
  rw [harrive, pure_bind]
  simp only at hdone
  cases entered with
  | none =>
      refine ⟨(), later, _, _, ?_, ?_, .node hlawful rfl hrecorded hlisted, htended.trans hlater⟩
      · simp only [Walk.bind_apply, hdescend, hforM]
        show (Transform.enterNode [watch visitors] plot.slot next >>= _ :
          Walk (Watched σ) Unit) _ = _
        rw [Walk.bind_apply, henter]
        rfl
      · rw [hentered, hdone, hasked, hnext]
        simp only [List.append_assoc]
        rfl
  | some ctx =>
      obtain ⟨hgrown, -, hstand⟩ := hlast ctx rfl
      obtain ⟨later, laterNotices, laterWorld⟩ := later
      have hlaterTends := htended.trans hlater
      obtain ⟨last, hleave, hleft, hlastTends⟩ := leaveNode_aloof hvisitors
        (hlaterTends.has hplace) (fun cell hcell => hgrown.grows.contains (hkept cell hcell)) hfree
        laterNotices laterWorld ctx
      refine ⟨(), last, _, _, ?_, ?_, .node hlawful rfl hrecorded hlisted,
        hlaterTends.trans hlastTends⟩
      · simp only [Walk.bind_apply, hdescend, hforM]
        show (Transform.enterNode [watch visitors] plot.slot next >>= _ :
          Walk (Watched σ) Unit) _ = _
        rw [Walk.bind_apply, henter]
        exact hleave
      · simp only at hentered
        rw [hleft, hentered, hdone, hasked, hstand, hnext]
        simp only [List.append_assoc]
        rfl

theorem depthFirst_records (hvisitors : ∀ visitor ∈ visitors, visitor.Aloof)
    (hprune : Aloof prune.test) (horder : order ≠ .breadthFirst) (fuel : Nat) :
    VisitsReady visitors prune order fuel := by
  induction fuel with
  | zero =>
      intro _ _ plot _ _ hsize
      exact absurd hsize (Nat.not_le_of_lt plot.tree.size_pos)
  | succ fuel ih =>
      cases order with
      | preOrder => exact preVisit_records hvisitors hprune ih
      | postOrder => exact postVisit_records hvisitors hprune ih
      | breadthFirst => exact absurd rfl horder

abbrev queueOutlines (s : Store) (level : Nat) (queue : List (Plot × Nat)) : List (Rose Stand) :=
  queue.map fun entry => s.outlineTo level (entry.1.slot.stand entry.2)

abbrev queueSlots (queue : List (Plot × Nat)) : List (Slot × Nat) :=
  queue.map fun entry => (entry.1.slot, entry.2)

def VisitsQueue (visitors : List (Visitor σ)) (prune : Prune σ) (fuel : Nat) : Prop :=
  ∀ {session : Session (Watched σ)} {kept : Cell → Prop} {queue : List (Plot × Nat)},
    session.store.Ready kept (queue.map Prod.fst) →
    (∀ entry ∈ queue, entry.1.tree.isValid = true) →
    Tree.sizes (queue.map fun entry => entry.1.tree) ≤ fuel →
    ∀ {level : Nat}, (Store.area (queue.map Prod.fst)).length ≤ level →
      Walk.Records .breadthFirst (!prune.isNull) True False
        ((recordedTour visitors prune .breadthFirst).breadthFirst fuel (queueSlots queue)) session
        (queueOutlines session.store level queue) fun _ after => session.store.Tends kept after

/-- Of the children of a node those join the queue that the walk is not barred from. -/
theorem queue_records {fuel : Nat} (hvisit : VisitsQueue visitors prune fuel) {s : Store}
    {session : Session (Watched σ)} {kept : Cell → Prop} {queue : List (Plot × Nat)}
    {below : List Plot} (h : s.Ready kept (queue.map Prod.fst ++ below))
    (htends : s.Tends (fun cell => kept cell ∨ cell ∈ Store.area (queue.map Prod.fst ++ below))
      session.store)
    (hqueue : ∀ entry ∈ queue, entry.1.tree.isValid = true)
    (hvalid : ∀ child ∈ below, child.tree.isValid = true)
    (hsize : Tree.sizes (queue.map fun entry => entry.1.tree) +
      Tree.sizes (below.map Plot.tree) ≤ fuel)
    {level : Nat} (hlevel : (Store.area (queue.map Prod.fst ++ below)).length ≤ level) (depth : Nat)
    {barred : Prop} {children : List Slot} (hbarred : barred → children = [])
    (hopen : ¬ barred → children = below.map Plot.slot) :
    ∃ after notices before records others,
      (recordedTour visitors prune .breadthFirst).breadthFirst fuel
        (queueSlots queue ++ children.map fun child => (child, depth)) session = .ok () after ∧
      after.world.1 = session.world.1 ++ notices ∧
      notices.Perm (before ++ Rose.preNoticesAll others) ∧
      Recorded .breadthFirst (!prune.isNull) True False (queueOutlines s level queue) before
        records ∧
      Recorded .breadthFirst (!prune.isNull) (True ∧ ¬ barred) False
        (outlinesOf s level depth below) (Rose.preNoticesAll others) others ∧
      s.Tends kept after.store := by
  have hready := h.tended htends
  have hsame : ∀ plot ∈ queue.map Prod.fst ++ below, ∀ depth,
      session.store.outlineTo level (plot.slot.stand depth) =
        s.outlineTo level (plot.slot.stand depth) :=
    fun plot hplot depth => h.outlineTo_tended htends hlevel hplot depth
  have hqueueSame : queueOutlines session.store level queue = queueOutlines s level queue :=
    List.map_congr_left fun entry hentry =>
      hsame entry.1 (List.mem_append_left _ (List.mem_map_of_mem hentry)) entry.2
  have hbefore : s.Tends kept session.store := htends.mono fun _ => .inl
  by_cases hbar : barred
  · obtain ⟨_, after, notices, records, hwalk, hworld, hrecorded, hafter⟩ :=
      hvisit (hready.sublist (List.sublist_append_left _ _)) hqueue (by omega)
        (((List.sublist_append_left _ below).flatMap Plot.cells).length_le.trans hlevel)
    rw [hqueueSame] at hrecorded
    obtain ⟨others, hblank⟩ : ∃ others, Recorded .breadthFirst (!prune.isNull) (True ∧ ¬ barred)
        False (outlinesOf s level depth below) [] others := ⟨_, .blank (fun h => h.2 hbar) _⟩
    have hnothing : [] = Rose.preNoticesAll others := List.Perm.nil_eq hblank.lists
    refine ⟨after, notices, notices, records, others, ?_, hworld, ?_, hrecorded, ?_,
      hbefore.trans hafter⟩
    · rw [hbarred hbar, List.map_nil, List.append_nil]
      exact hwalk
    · rw [← hnothing, List.append_nil]
    · rw [← hnothing]
      exact hblank
  · have hplots := Store.plots_enqueue queue below depth
    have hslots := Store.slots_enqueue queue below depth
    rw [← hopen hbar] at hslots
    have houtlines : queueOutlines session.store level (Store.enqueue queue below depth) =
        queueOutlines s level queue ++ outlinesOf s level depth below := by
      simp only [Store.enqueue, queueOutlines, List.map_append, List.map_map]
      refine congrArg₂ _ hqueueSame (List.map_congr_left fun child hchild => ?_)
      exact hsame child (List.mem_append_right _ hchild) depth
    have hsizes := (Store.sizes_enqueue queue below depth).trans_le hsize
    obtain ⟨_, after, notices, records, hwalk, hworld, hrecorded, hafter⟩ :=
      hvisit (hplots ▸ hready) (Store.forall_enqueue hqueue hvalid depth) hsizes (hplots ▸ hlevel)
    rw [houtlines] at hrecorded
    have hlists : notices.Perm (Rose.preNoticesAll records) := hrecorded.lists
    obtain ⟨first, others, rfl, hfirst, hothers⟩ := hrecorded.split
    rw [Rose.preNoticesAll_eq, List.flatMap_append, ← Rose.preNoticesAll_eq,
      ← Rose.preNoticesAll_eq] at hlists
    exact ⟨after, notices, _, first, others, hslots ▸ hwalk, hworld, hlists, hfirst,
      hothers.congr (by simp [hbar]) .rfl, hbefore.trans hafter⟩

theorem queueVisit_records (hvisitors : ∀ visitor ∈ visitors, visitor.Aloof)
    (hprune : Aloof prune.test) {fuel : Nat} (hvisit : VisitsQueue visitors prune fuel)
    {session : Session (Watched σ)} {kept : Cell → Prop} {plot : Plot} {depth : Nat}
    {queue : List (Plot × Nat)} (h : session.store.Ready kept (plot :: queue.map Prod.fst))
    (hvalid : plot.tree.isValid = true) (hqueue : ∀ entry ∈ queue, entry.1.tree.isValid = true)
    (hsize : plot.tree.size + Tree.sizes (queue.map fun entry => entry.1.tree) ≤ fuel + 1)
    {level : Nat} (hlevel : (Store.area (plot :: queue.map Prod.fst)).length ≤ level) :
    Walk.Records .breadthFirst (!prune.isNull) True False
      ((recordedTour visitors prune .breadthFirst).breadthFirst (fuel + 1)
        ((plot.slot, depth) :: queueSlots queue)) session
      (session.store.outlineTo level (plot.slot.stand depth) ::
        queueOutlines session.store level queue)
      fun _ after => session.store.Tends kept after := by
  obtain ⟨s, notices, world⟩ := session
  obtain ⟨kind, hkind, hstructured⟩ := h.classify hvalid
  obtain ⟨below, hslots, hready, hbelow, hsizes, hbelowCells, -⟩ := h.listed hvalid
  rw [Store.area_cons, List.length_append] at hlevel
  have hlength : (Store.area (queue.map Prod.fst ++ below)).length ≤ level := by
    have := hbelowCells.length_le
    rw [Store.area_append, List.length_append]
    omega
  -- the node is written to apart from all that waits and from its own children
  have hwithin : ∀ cell ∈ Store.area (queue.map Prod.fst ++ below),
      cell ∈ Store.area (plot :: queue.map Prod.fst) := by
    intro cell hcell
    rw [Store.area_append] at hcell
    rw [Store.area_cons]
    rcases List.mem_append.mp hcell with hcell | hcell
    · exact List.mem_append_right _ hcell
    · exact List.mem_append_left _ (hbelowCells.subset hcell)
  have hfree := not_or.mpr (h.places plot List.mem_cons_self)
  obtain ⟨entered, skipping, middle, henter, hentered, htends, hnext⟩ :=
    enterNode_aloof hvisitors (h.has plot List.mem_cons_self) h.reserved hfree notices world
      (plot.slot.context depth)
  have hmiddle : s.Tends (fun cell => kept cell ∨
      cell ∈ Store.area (queue.map Prod.fst ++ below)) middle.store :=
    htends.mono fun cell => Or.imp_right (hwithin cell)
  have harrive : (recordedTour visitors prune .breadthFirst).arrive kind plot.slot
      (plot.slot.context depth) =
    Transform.enterNode [watch visitors] plot.slot (plot.slot.context depth) := rfl
  rw [outlineTo_ready h hslots (Nat.le_of_add_right_le hlevel), Tour.breadthFirst]
  apply Walk.Records.step (by rw [Walk.classify_apply, hkind]) rfl
  rw [harrive]
  cases entered with
  | none =>
      let visit : Visit := ⟨plot.slot.stand depth, some (true, skipping), none, false⟩
      have hbars : visit.Bars .breadthFirst := Visit.bars_of_replaced (by simp)
      have hlawful : visit.Lawful .breadthFirst (!prune.isNull) True False :=
        Visit.lawful_of_replaced (by simp)
      have hclosed : visit.Bars .breadthFirst → ([] : List Slot) = [] := fun _ => rfl
      obtain ⟨after, log, before, records, others, hwalk, hworld, hperm, hrecords, hothers,
        hafter⟩ :=
        queue_records hvisit hready hmiddle hqueue hbelow (by omega) hlength (depth + 1) hclosed
          fun hbar => absurd hbars hbar
      rw [List.map_nil, List.append_nil] at hwalk
      refine ⟨(), after, _, _, ?_, ?_, .queued hlawful rfl rfl hothers hrecords hperm, hafter⟩
      · rw [Walk.bind_apply, henter]
        exact hwalk
      · rw [hworld, hentered, List.append_assoc]
        rfl
  | some ctx =>
      obtain ⟨hextends, hskip, hstand⟩ := hnext ctx rfl
      obtain ⟨middle, noticed, middleWorld⟩ := middle
      have htour : (recordedTour visitors prune .breadthFirst).prune = prune.watched.test := rfl
      obtain ⟨asked, children, next, later, hdescend, hasked, hlater, hlast, hlawful, hclosed,
        hopen⟩ :=
        descend_kept .breadthFirst (by simp) hprune htour h hslots hextends noticed middleWorld
          hstructured hskip depth false (by simp)
      obtain ⟨after, log, before, records, others, hwalk, hworld, hperm, hrecords, hothers,
        hafter⟩ :=
        queue_records hvisit hready (hlater.tends hready.reserved) hqueue hbelow (by omega) hlength
          (depth + 1) hclosed hopen
      refine ⟨(), after, _, _, ?_, ?_, .queued hlawful rfl rfl hothers hrecords hperm, hafter⟩
      · rw [Walk.bind_apply, henter]
        simp only [Walk.bind_apply, hdescend]
        exact hwalk
      · simp only at hentered
        rw [hworld, hasked, hentered, hstand]
        simp only [List.append_assoc]
        rfl

theorem breadthFirst_records (hvisitors : ∀ visitor ∈ visitors, visitor.Aloof)
    (hprune : Aloof prune.test) (fuel : Nat) : VisitsQueue visitors prune fuel := by
  induction fuel with
  | zero =>
      intro session kept queue h hvalid hsize level hlevel
      cases queue with
      | nil => exact .pure (.refl _ kept)
      | cons entry queue =>
          have := entry.1.tree.size_pos
          rw [List.map_cons, Tree.sizes] at hsize
          omega
  | succ fuel ih =>
      intro session kept queue h hvalid hsize level hlevel
      cases queue with
      | nil => exact .pure (.refl _ kept)
      | cons entry queue =>
          obtain ⟨plot, depth⟩ := entry
          have hrest := (List.forall_mem_cons.mp hvalid).2
          exact queueVisit_records hvisitors hprune ih h (hvalid _ List.mem_cons_self) hrest hsize
            hlevel

end

end ViewTree
