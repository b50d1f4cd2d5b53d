import ViewTree.Proofs.Store.Tending
import ViewTree.Proofs.Transform.Record
import ViewTree.Proofs.Visitor.Aloofness

namespace ViewTree

open Store (Cell Plot)

/-- How the notices of a walk are listed from its records; breadth-first the order is left open. -/
def Order.Lists (order : Order) (notices : List Notice) (records : List (Rose Visit)) : Prop :=
  match order with
  | .preOrder => notices = Rose.preNoticesAll records
  | .postOrder => notices = Rose.postNoticesAll records
  | .breadthFirst => notices.Perm (Rose.preNoticesAll records)

theorem Order.Lists.pre {notices : List Notice} {records : List (Rose Visit)} (visit : Visit)
    (h : Order.preOrder.Lists notices records) :
    Order.preOrder.Lists (visit.entering ++ visit.asking ++ notices ++ visit.leaving)
      [.mk visit records] := by
  have hnotices : notices = Rose.preNoticesAll records := h
  rw [hnotices]
  exact (List.append_nil _).symm

theorem Order.Lists.post {notices : List Notice} {records : List (Rose Visit)} (visit : Visit)
    (h : Order.postOrder.Lists notices records) :
    Order.postOrder.Lists (visit.asking ++ notices ++ visit.entering ++ visit.leaving)
      [.mk visit records] := by
  have hnotices : notices = Rose.postNoticesAll records := h
  rw [hnotices]
  exact (List.append_nil _).symm

/-- Notices that are those of lawful records in the shape of some outlines. -/
structure Recorded (order : Order) (prunes : Bool) (reached top : Prop)
    (outlines : List (Rose Stand)) (notices : List Notice) (records : List (Rose Visit)) :
    Prop where
  shape : records.map (Rose.map Visit.stand) = outlines
  lists : order.Lists notices records
  lawful : ∀ record ∈ records, record.Lawful order prunes reached top

namespace Recorded

variable {order : Order} {prunes : Bool} {reached other top first : Prop}
  {outlines more : List (Rose Stand)} {notices others : List Notice}
  {records rest : List (Rose Visit)}

theorem nil : Recorded order prunes reached top [] [] [] := by
  refine ⟨rfl, ?_, by simp⟩
  cases order with
  | breadthFirst => exact .nil
  | _ => rfl

theorem append (h : Recorded order prunes reached top outlines notices records)
    (hmore : Recorded order prunes reached top more others rest) :
    Recorded order prunes reached top (outlines ++ more) (notices ++ others) (records ++ rest) := by
  refine ⟨?_, ?_, List.forall_mem_append.mpr ⟨h.lawful, hmore.lawful⟩⟩
  · rw [List.map_append, h.shape, hmore.shape]
  · have hfirst := h.lists
    have hnext := hmore.lists
    cases order with
    | preOrder =>
        simp only [Order.Lists, Rose.preNoticesAll_eq, List.flatMap_append] at hfirst hnext ⊢
        rw [hfirst, hnext]
    | postOrder =>
        simp only [Order.Lists, Rose.postNoticesAll_eq, List.flatMap_append] at hfirst hnext ⊢
        rw [hfirst, hnext]
    | breadthFirst =>
        simp only [Order.Lists, Rose.preNoticesAll_eq, List.flatMap_append] at hfirst hnext ⊢
        exact hfirst.append hnext

theorem congr (h : Recorded order prunes reached top outlines notices records)
    (hreached : reached ↔ other) (htop : top ↔ first) :
    Recorded order prunes other first outlines notices records := by
  rwa [propext hreached, propext htop] at h

theorem blank (hreached : ¬ reached) (outlines : List (Rose Stand)) :
    Recorded order prunes reached top outlines [] (outlines.map (Rose.map Visit.blank)) := by
  refine ⟨?_, ?_, ?_⟩
  · rw [List.map_map]
    exact (List.map_congr_left fun rose _ => rose.map_stand_blank).trans (List.map_id outlines)
  · have hpre : Rose.preNoticesAll (outlines.map (Rose.map Visit.blank)) = [] := by
      rw [Rose.preNoticesAll_eq, List.flatMap_map]
      exact List.flatMap_eq_nil_iff.mpr fun rose _ => rose.preNotices_blank
    have hpost : Rose.postNoticesAll (outlines.map (Rose.map Visit.blank)) = [] := by
      rw [Rose.postNoticesAll_eq, List.flatMap_map]
      exact List.flatMap_eq_nil_iff.mpr fun rose _ => rose.postNotices_blank
    cases order with
    | preOrder => exact hpre.symm
    | postOrder => exact hpost.symm
    | breadthFirst =>
        rw [Order.Lists, hpre]
  · intro record hrecord
    obtain ⟨rose, -, rfl⟩ := List.mem_map.mp hrecord
    exact rose.blank_lawful order prunes hreached top

/-- Breadth-first the notices of the first records may come between those of others. -/
theorem split (h : Recorded .breadthFirst prunes reached top (outlines ++ more) notices records) :
    ∃ before after, records = before ++ after ∧
      Recorded .breadthFirst prunes reached top outlines (Rose.preNoticesAll before) before ∧
      Recorded .breadthFirst prunes reached top more (Rose.preNoticesAll after) after := by
  obtain ⟨before, after, rfl, hbefore, hafter⟩ := List.map_eq_append_iff.mp h.shape
  have hlawful := List.forall_mem_append.mp h.lawful
  exact ⟨before, after, rfl, ⟨hbefore, .refl _, hlawful.1⟩, ⟨hafter, .refl _, hlawful.2⟩⟩

theorem perm (h : Recorded .breadthFirst prunes reached top outlines notices records)
    (hperm : others.Perm notices) :
    Recorded .breadthFirst prunes reached top outlines others records :=
  ⟨h.shape, hperm.trans h.lists, h.lawful⟩

theorem node {visit : Visit} {stand : Stand} {below : List (Rose Stand)}
    (hvisit : visit.Lawful order prunes reached top) (hstand : visit.stand = stand)
    (h : Recorded order prunes (reached ∧ ¬ visit.Bars order) False below notices records)
    (hlists : order.Lists others [.mk visit records]) :
    Recorded order prunes reached top [.mk stand below] others [.mk visit records] := by
  refine ⟨?_, hlists, ?_⟩
  · rw [List.map_singleton, Rose.map_mk, h.shape, hstand]
  · exact List.forall_mem_singleton.mpr (.mk hvisit h.lawful)

/-- Breadth-first a node comes before those that wait, and its children come among and after them.
-/
theorem queued {visit : Visit} {stand : Stand} {below : List (Rose Stand)} {before : List Notice}
    (hvisit : visit.Lawful .breadthFirst prunes reached top) (hstand : visit.stand = stand)
    (hleft : visit.left = false)
    (h : Recorded .breadthFirst prunes (reached ∧ ¬ visit.Bars .breadthFirst) False below
      (Rose.preNoticesAll records) records)
    (hmore : Recorded .breadthFirst prunes reached top more before rest)
    (hperm : notices.Perm (before ++ Rose.preNoticesAll records)) :
    Recorded .breadthFirst prunes reached top (.mk stand below :: more)
      (visit.entering ++ visit.asking ++ notices) (.mk visit records :: rest) := by
  let mine := visit.entering ++ visit.asking ++ Rose.preNoticesAll records
  have hmine : Order.breadthFirst.Lists mine [.mk visit records] := by
    have hleaving : visit.leaving = [] := if_neg (hleft ▸ Bool.false_ne_true)
    have hwhole : Rose.preNoticesAll [.mk visit records] = mine := by
      rw [Rose.preNoticesAll, Rose.preNotices, hleaving, List.append_nil, Rose.preNoticesAll,
        List.append_nil]
    rw [Order.Lists, hwhole]
  apply ((node hvisit hstand h hmine).append hmore).perm
  rw [List.append_assoc _ _ before]
  exact (hperm.trans List.perm_append_comm).append_left _

end Recorded

theorem Visit.lawful_of_entered {order : Order} {prunes replaced skipping left : Bool}
    {asked : Option Bool} {stand : Stand} {top : Prop}
    (hleft : left = true ↔ replaced = false ∧
      (order ≠ .breadthFirst ∨ top ∧ ∃ a, stand.node = .atom a))
    (hasked : asked.isSome = true ↔ prunes = true ∧ (∃ ref, stand.node = .object ref) ∧
      (order = .postOrder ∨ replaced = false ∧ skipping = false)) :
    Lawful order prunes True top ⟨stand, some (replaced, skipping), asked, left⟩ := by
  refine ⟨by simp, ?_, ?_⟩
  · simp only [Option.some.injEq, Prod.mk.injEq, hleft]
    simp
  · simp only [hasked, true_and, Option.some.injEq, Prod.mk.injEq]

theorem Visit.bars_of_entered {order : Order} (h : order ≠ .postOrder) {stand : Stand}
    {replaced skipping left : Bool} {asked : Option Bool} :
    Visit.Bars order ⟨stand, some (replaced, skipping), asked, left⟩ ↔
      replaced = true ∨ skipping = true ∨ asked = some true := by
  cases order with
  | postOrder => exact absurd rfl h
  | _ => simp [Bars]

theorem Visit.bars_of_replaced {order : Order} (h : order ≠ .postOrder) {stand : Stand}
    {skipping : Bool} : Visit.Bars order ⟨stand, some (true, skipping), none, false⟩ :=
  (bars_of_entered h).mpr (.inl rfl)

theorem Visit.lawful_of_replaced {order : Order} (h : order ≠ .postOrder) {prunes skipping : Bool}
    {stand : Stand} :
    Lawful order prunes True False ⟨stand, some (true, skipping), none, false⟩ :=
  lawful_of_entered (by simp) (by simp [h])

theorem Visit.bars_of_kept {order : Order} (h : order ≠ .postOrder) {stand : Stand}
    {skipping left : Bool} {asked : Option Bool} :
    Visit.Bars order ⟨stand, some (false, skipping), asked, left⟩ ↔
      asked = some true ∨ skipping = true := by
  rw [bars_of_entered h, or_comm (a := asked = some true)]
  exact or_iff_right Bool.false_ne_true

theorem Visit.lawful_of_kept {order : Order} (h : order ≠ .postOrder)
    {prunes skipping left : Bool} {asked : Option Bool} {stand : Stand}
    (hleft : left = true ↔ order ≠ .breadthFirst)
    (hasked : asked.isSome = true ↔
      prunes = true ∧ (∃ ref, stand.node = .object ref) ∧ skipping = false) :
    Lawful order prunes True False ⟨stand, some (false, skipping), asked, left⟩ := by
  apply lawful_of_entered
  · rw [hleft]
    simp
  · rw [hasked]
    simp [h]

namespace Walk

/-- A walk succeeds, and its notices are recorded. -/
def Records (order : Order) (prunes : Bool) (reached top : Prop) (walk : Walk (Watched σ) α)
    (session : Session (Watched σ)) (outlines : List (Rose Stand)) (post : α → Store → Prop) :
    Prop :=
  ∃ value after notices records, walk session = .ok value after ∧
    after.world.1 = session.world.1 ++ notices ∧
    Recorded order prunes reached top outlines notices records ∧ post value after.store

namespace Records

variable {order : Order} {prunes : Bool} {reached top : Prop} {walk : Walk (Watched σ) α}
  {session : Session (Watched σ)} {outlines more : List (Rose Stand)} {post : α → Store → Prop}

theorem pure {value : α} (hpost : post value session.store) :
    Records order prunes reached top (Pure.pure value) session [] post :=
  ⟨value, session, [], [], rfl, (List.append_nil _).symm, .nil, hpost⟩

theorem mono {weaker : α → Store → Prop}
    (h : Records order prunes reached top walk session outlines post)
    (hpost : ∀ value s, post value s → weaker value s) :
    Records order prunes reached top walk session outlines weaker := by
  obtain ⟨value, after, notices, records, hwalk, hworld, hrecorded, hafter⟩ := h
  exact ⟨value, after, notices, records, hwalk, hworld, hrecorded, hpost _ _ hafter⟩

theorem bind {next : α → Walk (Watched σ) β} {goal : β → Store → Prop}
    (h : Records order prunes reached top walk session outlines post)
    (hnext : ∀ value after, post value after.store →
      Records order prunes reached top (next value) after more goal) :
    Records order prunes reached top (walk >>= next) session (outlines ++ more) goal := by
  obtain ⟨value, middle, notices, records, hwalk, hworld, hrecorded, hmiddle⟩ := h
  obtain ⟨result, after, others, rest, hrun, hlater, hmore, hafter⟩ := hnext value middle hmiddle
  refine ⟨result, after, notices ++ others, records ++ rest, ?_, ?_, hrecorded.append hmore, hafter⟩
  · rw [bind_apply, hwalk]
    exact hrun
  · rw [hlater, hworld, List.append_assoc]

theorem step {next : α → Walk (Watched σ) β} {goal : β → Store → Prop} {value : α}
    {after : Session (Watched σ)} (hwalk : walk session = .ok value after)
    (hworld : after.world.1 = session.world.1)
    (hnext : Records order prunes reached top (next value) after outlines goal) :
    Records order prunes reached top (walk >>= next) session outlines goal := by
  obtain ⟨result, last, notices, records, hrun, hlater, hrecorded, hlast⟩ := hnext
  refine ⟨result, last, notices, records, ?_, hworld ▸ hlater, hrecorded, hlast⟩
  rw [bind_apply, hwalk]
  exact hrun

theorem andThen {next : α → Walk (Watched σ) β} {goal : β → Store → Prop}
    (h : Records order prunes reached top walk session outlines post)
    (hnext : ∀ value after, post value after.store →
      ∃ result last, next value after = .ok result ⟨last, after.world⟩ ∧ goal result last) :
    Records order prunes reached top (walk >>= next) session outlines goal := by
  obtain ⟨value, middle, notices, records, hwalk, hworld, hrecorded, hmiddle⟩ := h
  obtain ⟨result, last, hrun, hlast⟩ := hnext value middle hmiddle
  refine ⟨result, ⟨last, middle.world⟩, notices, records, ?_, hworld, hrecorded, hlast⟩
  rw [bind_apply, hwalk]
  exact hrun

end Records

end Walk

section

variable {visitors : List (Visitor σ)} {s : Store} {kept : Cell → Prop} {slot : Slot}

theorem enterPhase_aloof (hvisitors : ∀ visitor ∈ visitors, visitor.Aloof) (s : Store)
    (notices : List Notice) (world : σ) (node : Value) (ctx : Context) :
    ∃ replacement next after, runPhase .enter [watch visitors] node ctx ⟨s, notices, world⟩ =
        .ok (replacement, next) after ∧
      after.world.1 = notices ++ [.enter (ctx.stand node),
        .entered (ctx.stand node) replacement.isSome next.skipping] ∧
      s.Extends after.store ∧ next.stand node = ctx.stand node := by
  obtain ⟨replacement, next, after, hphase, hextends, hstand⟩ :=
    runPhase_aloof hvisitors .enter s world node ctx
  have hwalk := runPhase_watch_enter visitors node ctx s notices world
  rw [hphase] at hwalk
  exact ⟨replacement, next, _, hwalk, List.append_assoc _ _ _, hextends, hstand⟩

theorem exitPhase_aloof (hvisitors : ∀ visitor ∈ visitors, visitor.Aloof) (s : Store)
    (notices : List Notice) (world : σ) (node : Value) (ctx : Context) :
    ∃ given after, runPhase .exit [watch visitors] node ctx ⟨s, notices, world⟩ =
        .ok given after ∧
      after.world.1 = notices ++ [.exit (ctx.stand node)] ∧ s.Extends after.store := by
  obtain ⟨replacement, next, after, hphase, hextends, -⟩ :=
    runPhase_aloof hvisitors .exit s world node ctx
  have hwalk := runPhase_watch_exit visitors node ctx s notices world
  rw [hphase] at hwalk
  exact ⟨_, _, hwalk, rfl, hextends⟩

theorem write_aloof {middle : Store} (hextends : s.Extends middle)
    (hplace : s.has slot.place = true) (hkept : ∀ cell, kept cell → s.Contains cell)
    (hfree : ¬ kept slot.place.cell) (replacement : Value) (world : σ) :
    ∃ after, Walk.write slot.place replacement ⟨middle, world⟩ = .ok () ⟨after, world⟩ ∧
      s.Tends kept after := by
  have htends := hextends.tends hkept
  exact ⟨_, Store.write_apply (htends.has hplace) world,
    htends.trans (Store.write_tends hfree middle replacement)⟩

theorem enterNode_aloof (hvisitors : ∀ visitor ∈ visitors, visitor.Aloof)
    (hplace : s.has slot.place = true) (hkept : ∀ cell, kept cell → s.Contains cell)
    (hfree : ¬ kept slot.place.cell) (notices : List Notice) (world : σ) (ctx : Context) :
    ∃ entered skipping after,
      Transform.enterNode [watch visitors] slot ctx ⟨s, notices, world⟩ = .ok entered after ∧
      after.world.1 = notices ++ [.enter (ctx.stand slot.node),
        .entered (ctx.stand slot.node) entered.isNone skipping] ∧
      s.Tends kept after.store ∧ ∀ next, entered = some next → s.Extends after.store ∧
        next.skipping = skipping ∧ next.stand slot.node = ctx.stand slot.node := by
  obtain ⟨replacement, next, middle, hphase, hworld, hextends, hstand⟩ :=
    enterPhase_aloof hvisitors s notices world slot.node ctx
  rw [Transform.enterNode, Walk.bind_apply, hphase]
  cases replacement with
  | none =>
      refine ⟨some next, next.skipping, middle, rfl, hworld, hextends.tends hkept, ?_⟩
      intro last hlast
      obtain rfl := Option.some.inj hlast
      exact ⟨hextends, rfl, hstand⟩
  | some replacement =>
      obtain ⟨after, hwrite, htends⟩ :=
        write_aloof hextends hplace hkept hfree replacement middle.world
      refine ⟨none, next.skipping, ⟨after, middle.world⟩, ?_, hworld, htends, nofun⟩
      simp only [Walk.bind_apply, hwrite]
      rfl

theorem leaveNode_aloof (hvisitors : ∀ visitor ∈ visitors, visitor.Aloof)
    (hplace : s.has slot.place = true) (hkept : ∀ cell, kept cell → s.Contains cell)
    (hfree : ¬ kept slot.place.cell) (notices : List Notice) (world : σ) (ctx : Context) :
    ∃ after, Transform.leaveNode [watch visitors] slot ctx ⟨s, notices, world⟩ = .ok () after ∧
      after.world.1 = notices ++ [.exit (ctx.stand slot.node)] ∧ s.Tends kept after.store := by
  obtain ⟨⟨_ | replacement, next⟩, middle, hphase, hworld, hextends⟩ :=
    exitPhase_aloof hvisitors s notices world slot.node ctx
  · refine ⟨middle, ?_, hworld, hextends.tends hkept⟩
    rw [Transform.leaveNode, Walk.bind_apply, hphase]
    rfl
  · obtain ⟨after, hwrite, htends⟩ :=
      write_aloof hextends hplace hkept hfree replacement middle.world
    refine ⟨⟨after, middle.world⟩, ?_, hworld, htends⟩
    rw [Transform.leaveNode, Walk.bind_apply, hphase]
    exact hwrite

theorem descend_aloof {prune : Prune σ} (hprune : Aloof prune.test) {tour : Tour (Watched σ)}
    (htour : tour.prune = prune.watched.test) (s : Store) (notices : List Notice) (world : σ)
    {kind : Kind} {node : Value} (hkind : kind = .structured ↔ ∃ ref, node = .object ref)
    (ctx : Context) :
    ∃ asked children next after,
      tour.descend kind node ctx ⟨s, notices, world⟩ = .ok (children, next) after ∧
      after.world.1 = notices ++ Visit.asking ⟨ctx.stand node, none, asked, false⟩ ∧
      s.Extends after.store ∧ next.stand node = ctx.stand node ∧
      (asked.isSome = true ↔
        prune.isNull = false ∧ (∃ ref, node = .object ref) ∧ ctx.skipping = false) ∧
      (asked = some true ∨ ctx.skipping = true → children = []) ∧
      (¬ (asked = some true ∨ ctx.skipping = true) → children = after.store.childSlots node) := by
  unfold Tour.descend
  rw [← hkind]
  by_cases hask : kind = .structured ∧ ctx.skipping = false
  · obtain ⟨hstructured, hclear⟩ := hask
    rw [if_pos ⟨hstructured, hclear⟩, Walk.bind_apply, htour]
    cases hnull : prune.isNull with
    | true =>
        have htest : prune.watched.test node ctx ⟨s, notices, world⟩ =
            .ok (false, ctx) ⟨s, notices, world⟩ := by
          rw [Prune.test_of_isNull (prune.isNull_watched.trans hnull)]
          rfl
        rw [htest]
        refine ⟨none, s.childSlots node, ctx, ⟨s, notices, world⟩, ?_, ?_, .refl s, rfl, ?_, ?_, ?_⟩
        · simp only [hclear]
          rfl
        · exact (List.append_nil _).symm
        · simp
        · simp [hclear]
        · exact fun _ => rfl
    | false =>
        obtain ⟨cut, next, after, htest, hextends, hstand⟩ := hprune s world node ctx
        have hwatched : prune.watched.test node ctx ⟨s, notices, world⟩ = .ok (cut, next)
            ⟨after.store, notices ++ [.asked (ctx.stand node) (cut || next.skipping)],
              after.world⟩ := by
          have hpredicate : prune.watched = _ := if_neg (hnull ▸ Bool.false_ne_true)
          rw [hpredicate, Prune.test, Walk.bind_apply, Walk.zoom_snd_apply, htest]
          rfl
        rw [hwatched]
        cases hcut : cut || next.skipping with
        | true =>
            refine ⟨some true, [], next.skipChildren,
              ⟨after.store, notices ++ [.asked (ctx.stand node) true], after.world⟩, ?_, rfl,
              hextends, hstand, ?_, ?_, ?_⟩
            · simp only [hcut, if_true]
              rfl
            · simp [hstructured, hclear]
            · exact fun _ => rfl
            · exact fun hnot => absurd (.inl rfl) hnot
        | false =>
            refine ⟨some false, after.store.childSlots node, next,
              ⟨after.store, notices ++ [.asked (ctx.stand node) false], after.world⟩, ?_, rfl,
              hextends, hstand, ?_, ?_, ?_⟩
            · simp only [hcut]
              rfl
            · simp [hstructured, hclear]
            · simp [hclear]
            · exact fun _ => rfl
  · rw [if_neg hask]
    refine ⟨none, [], ctx, _, rfl, (List.append_nil _).symm, .refl s, rfl, ?_, fun _ => rfl, ?_⟩
    · simpa using fun _ => hask
    · intro hclear
      have hleaf : ∀ ref, node ≠ .object ref := fun ref href =>
        hask ⟨hkind.mpr ⟨ref, href⟩, by simpa using hclear⟩
      exact (Store.childSlots_of_ne_object hleaf).symm

theorem descend_ready {prune : Prune σ} (hprune : Aloof prune.test) {tour : Tour (Watched σ)}
    (htour : tour.prune = prune.watched.test) {plot : Plot} {plots below : List Plot}
    (h : s.Ready kept (plot :: plots)) (hslots : s.childSlots plot.slot.node = below.map Plot.slot)
    {middle : Store} (hextends : s.Extends middle) (notices : List Notice) (world : σ)
    {kind : Kind} (hkind : kind = .structured ↔ ∃ ref, plot.slot.node = .object ref)
    (ctx : Context) :
    ∃ asked children next after,
      tour.descend kind plot.slot.node ctx ⟨middle, notices, world⟩ =
        .ok (children, next) after ∧
      after.world.1 = notices ++ Visit.asking ⟨ctx.stand plot.slot.node, none, asked, false⟩ ∧
      s.Extends after.store ∧ next.stand plot.slot.node = ctx.stand plot.slot.node ∧
      (asked.isSome = true ↔ prune.isNull = false ∧ (∃ ref, plot.slot.node = .object ref) ∧
        ctx.skipping = false) ∧
      (asked = some true ∨ ctx.skipping = true → children = []) ∧
      (¬ (asked = some true ∨ ctx.skipping = true) → children = below.map Plot.slot) := by
  obtain ⟨asked, children, next, after, hdescend, hasked, hgrown, hstand, hask, hclosed, hopen⟩ :=
    descend_aloof hprune htour middle notices world hkind ctx
  have hlater := hextends.trans hgrown
  rw [h.childSlots_extended hlater, hslots] at hopen
  exact ⟨asked, children, next, after, hdescend, hasked, hlater, hstand, hask, hclosed, hopen⟩

theorem descend_kept (order : Order) (horder : order ≠ .postOrder) {prune : Prune σ}
    (hprune : Aloof prune.test) {tour : Tour (Watched σ)} (htour : tour.prune = prune.watched.test)
    {plot : Plot} {plots below : List Plot} (h : s.Ready kept (plot :: plots))
    (hslots : s.childSlots plot.slot.node = below.map Plot.slot) {middle : Store}
    (hextends : s.Extends middle) (notices : List Notice) (world : σ) {kind : Kind}
    (hkind : kind = .structured ↔ ∃ ref, plot.slot.node = .object ref) {ctx : Context}
    {skipping : Bool} (hskip : ctx.skipping = skipping) (depth : Nat) (left : Bool)
    (hleft : left = true ↔ order ≠ .breadthFirst) :
    ∃ asked children next after,
      tour.descend kind plot.slot.node ctx ⟨middle, notices, world⟩ =
        .ok (children, next) after ∧
      after.world.1 = notices ++ Visit.asking ⟨ctx.stand plot.slot.node, none, asked, false⟩ ∧
      s.Extends after.store ∧ next.stand plot.slot.node = ctx.stand plot.slot.node ∧
      Visit.Lawful order (!prune.isNull) True False
        ⟨plot.slot.stand depth, some (false, skipping), asked, left⟩ ∧
      (Visit.Bars order ⟨plot.slot.stand depth, some (false, skipping), asked, left⟩ →
        children = []) ∧
      (¬ Visit.Bars order ⟨plot.slot.stand depth, some (false, skipping), asked, left⟩ →
        children = below.map Plot.slot) := by
  subst hskip
  obtain ⟨asked, children, next, after, hdescend, hasked, hlater, hstand, hask, hclosed, hopen⟩ :=
    descend_ready hprune htour h hslots hextends notices world hkind ctx
  have hlawful : Visit.Lawful order (!prune.isNull) True False
      ⟨plot.slot.stand depth, some (false, ctx.skipping), asked, left⟩ := by
    apply Visit.lawful_of_kept horder hleft
    rw [hask, Bool.not_eq_true']
    rfl
  have hbars : Visit.Bars order
      ⟨plot.slot.stand depth, some (false, ctx.skipping), asked, left⟩ ↔
        asked = some true ∨ ctx.skipping = true := Visit.bars_of_kept horder
  refine ⟨asked, children, next, after, hdescend, hasked, hlater, hstand, hlawful, ?_, ?_⟩
  · exact fun hbar => hclosed (hbars.mp hbar)
  · exact fun hbar => hopen fun h => hbar (hbars.mpr h)

end

end ViewTree
