import ViewTree.Proofs.Render.Binding
import ViewTree.Proofs.Transform.Entry
import ViewTree.Proofs.Transform.Immunity
import ViewTree.Proofs.Visitor.Binding

namespace ViewTree

open Store (Cell Plot marked)
open Walk (Reports)

abbrev bindingTour (settings : Binding.Settings) (prune : Prune (Desk Value)) (order : Order) :
    Tour (Desk Value) :=
  Transform.tour [bindHandlers settings] prune order

section

variable {settings : Binding.Settings} {roster : Roster} {prune : Prune (Desk Value)}
  {order : Order} {s : Store} {chosen more : ObjectRef → Prop} {plot : Plot} {plots : List Plot}

theorem Tree.isValid_of_isBindable {t : Tree} (h : t.everyNode Tree.isBindable = true) :
    t.isValid = true :=
  Tree.everyNode_mono (fun _ hnode => (Tree.isBindable_iff.mp hnode).1) h

theorem classify_bound (h : s.Ready (marked chosen) (plot :: plots))
    (htest : plot.tree.everyNode Tree.isBindable = true) {session : Session (Desk Value)}
    (hbound : s.Bound roster chosen session.store) :
    ∃ kind, Walk.classify plot.slot.node session = .ok kind session ∧
      (kind = .structured ↔ ∃ ref, plot.slot.node = .object ref) := by
  obtain ⟨kind, hkind, hstructured⟩ := h.classify (Tree.isValid_of_isBindable htest)
  refine ⟨kind, ?_, hstructured⟩
  have hsame : session.store.classify plot.slot.node = .ok kind := by
    cases hnode : plot.slot.node with
    | object ref =>
        obtain ⟨-, hbindable⟩ := h.node_bound hbound (fun _ => .inl) htest hnode
        obtain ⟨type, htype⟩ := Option.isSome_iff_exists.mp hbindable.structured
        rw [Store.nodeType?] at htype
        rw [Store.classify, htype, hstructured.mpr ⟨ref, hnode⟩]
    | _ =>
        rw [hnode] at hkind
        exact hkind
  rw [Walk.classify_apply, hsame]

theorem descend_bound (hprune : prune.isNull = true) {kind : Kind} {ctx : Context}
    {below : List Plot} (hclear : ctx.skipping = false)
    (hkind : kind = .structured ↔ ∃ ref, plot.slot.node = .object ref)
    {session : Session (Desk Value)}
    (hslots : session.store.childSlots plot.slot.node = below.map Plot.slot) :
    (bindingTour settings prune order).descend kind plot.slot.node ctx session =
      .ok (below.map Plot.slot, ctx) session := by
  have htest : (bindingTour settings prune order).prune = fun _ ctx => pure (false, ctx) := by
    funext node ctx
    cases order <;> exact Prune.test_of_isNull hprune node ctx
  rw [Sight.descend_of_no_prune _ htest, hclear]
  by_cases hopen : kind = .structured
  · rw [if_pos ⟨hopen, rfl⟩, hslots]
  · rw [if_neg fun h => hopen h.1, ← hslots, Store.childSlots_of_ne_object]
    exact fun ref hnode => hopen (hkind.mpr ⟨ref, hnode⟩)

theorem enterPlot_reports (hgoes : settings.GoesBy roster)
    (h : s.Ready (marked chosen) (plot :: plots))
    (htest : plot.tree.everyNode Tree.isBindable = true) {session : Session (Desk Value)}
    (hbound : s.Bound roster more session.store)
    (hmore : ∀ ref, more ref → chosen ref ∨ s.PropsOf plot.slot.node ref) (ctx : Context) :
    (Transform.enterNode [bindHandlers settings] plot.slot ctx).Reports session
      fun next told after => next = some ctx ∧
        settings.Tells told (s.leftover roster plot.slot.node) ∧
        s.Bound roster (fun ref => more ref ∨ s.OwnProps plot.slot.node ref) after := by
  have hnode : ∀ ref, plot.slot.node = .object ref →
      session.store.members ref = s.members ref ∧ session.store.Bindable ref :=
    fun ref => h.node_bound hbound hmore htest
  have hshows := h.shows plot List.mem_cons_self
  have hleft : session.store.leftover roster plot.slot.node = s.leftover roster plot.slot.node :=
    hbound.leftover fun ref href => ⟨(href ▸ hshows).bindable htest, (hnode ref href).1⟩
  have henter := Binding.enterNode_reports hgoes (fun ref href => (hnode ref href).2) ctx
  refine henter.mono ?_
  rintro next told after ⟨rfl, rfl, hafter⟩
  refine ⟨rfl, hleft ▸ settings.tells_reports _ _, ?_⟩
  refine (hbound.trans hafter).congr fun props => or_congr_right ?_
  have hsame : ∀ ref, plot.slot.node = .object ref →
      session.store.member ref "props" = s.member ref "props" := by
    intro ref href
    rw [Store.member, (hnode ref href).1]
    rfl
  refine exists_congr fun ref => and_congr_right fun href => ?_
  rw [hsame ref href]

/-- What it takes for plots to be visited in depth. -/
def VisitsBindable (settings : Binding.Settings) (roster : Roster) (prune : Prune (Desk Value))
    (order : Order) (fuel : Nat) : Prop :=
  ∀ {s : Store} {session : Session (Desk Value)} {chosen : ObjectRef → Prop} {plot : Plot},
    s.Ready (marked chosen) [plot] → plot.tree.everyNode Tree.isBindable = true →
    s.Bound roster chosen session.store → plot.tree.size ≤ fuel → ∀ depth,
    ((bindingTour settings prune order).depthFirst fuel plot.slot depth).Reports session
      fun _ told after => settings.Tells told (roster.leftover plot.tree) ∧
        s.Bound roster (fun ref => chosen ref ∨ s.PropsOf plot.slot.node ref) after

theorem forM_plots_bound {fuel : Nat} (hvisit : VisitsBindable settings roster prune order fuel)
    (depth : Nat) : ∀ {session : Session (Desk Value)} {chosen : ObjectRef → Prop},
      s.Ready (marked chosen) plots →
      (∀ plot ∈ plots, plot.tree.everyNode Tree.isBindable = true) →
      s.Bound roster chosen session.store → Tree.sizes (plots.map Plot.tree) ≤ fuel →
      ((plots.map Plot.slot).forM fun child =>
        (bindingTour settings prune order).depthFirst fuel child depth).Reports session
        fun _ told after =>
          settings.Tells told (plots.flatMap fun plot => roster.leftover plot.tree) ∧
          s.Bound roster (fun ref => chosen ref ∨ ∃ plot ∈ plots, s.PropsOf plot.slot.node ref)
            after := by
  induction plots with
  | nil =>
      intro session chosen _ _ hbound _
      exact .pure ⟨settings.tells_nil, hbound.congr fun ref => by simp⟩
  | cons plot plots ih =>
      intro session chosen h htest hbound hsizes
      obtain ⟨hplot, hplots⟩ := List.forall_mem_cons.mp htest
      rw [List.map_cons, Tree.sizes] at hsizes
      have hhead : s.Ready (marked chosen) [plot] :=
        h.sublist (List.singleton_sublist.mpr List.mem_cons_self)
      apply (hvisit hhead hplot hbound (by omega) depth).bind
      rintro _ told middle ⟨htold, hmiddle⟩
      refine (ih h.passed hplots hmiddle (by omega)).mono ?_
      rintro _ more after ⟨hmore, hafter⟩
      refine ⟨htold.append hmore, hafter.congr fun ref => ?_⟩
      rw [List.exists_mem_cons_iff, or_assoc]

theorem preVisit_bound (hgoes : settings.GoesBy roster) (hprune : prune.isNull = true) {fuel : Nat}
    (hvisit : VisitsBindable settings roster prune .preOrder fuel) :
    VisitsBindable settings roster prune .preOrder (fuel + 1) := by
  intro s session chosen plot h htest hbound hsize depth
  obtain ⟨below, hslots, hready, hbelow, hsizes, hprops⟩ := h.bindable htest
  rw [List.nil_append] at hready
  obtain ⟨kind, hclassify, hkind⟩ := classify_bound h htest hbound
  rw [Tour.depthFirst]
  apply Reports.step hclassify rfl
  apply (enterPlot_reports hgoes h htest hbound (fun _ => .inl) (plot.slot.context depth)).bind
  rintro next told middle ⟨rfl, htold, hmiddle⟩
  -- the props of the node are bound by now, those below it are not
  have hlisted := (h.childSlots_bound hmiddle fun _ => id).trans hslots
  apply Reports.step (descend_bound hprune rfl hkind hlisted) rfl
  apply (forM_plots_bound hvisit (depth + 1) hready hbelow hmiddle (by omega)).bind
  rintro _ more after ⟨hmore, hafter⟩
  refine .pure ⟨?_, hafter.congr fun ref => ?_⟩
  · rw [h.leftover htest hslots hready.shows, List.append_nil]
    exact htold.append hmore
  · rw [hprops, or_assoc]

theorem postVisit_bound (hgoes : settings.GoesBy roster) (hprune : prune.isNull = true) {fuel : Nat}
    (hvisit : VisitsBindable settings roster prune .postOrder fuel) :
    VisitsBindable settings roster prune .postOrder (fuel + 1) := by
  intro s session chosen plot h htest hbound hsize depth
  obtain ⟨below, hslots, hready, hbelow, hsizes, hprops⟩ := h.bindable htest
  have hwaiting : s.Ready (marked chosen) below :=
    hready.mono fun cell hcell => by rw [Store.marked_or]; exact .inl hcell
  obtain ⟨kind, hclassify, hkind⟩ := classify_bound h htest hbound
  have hlisted := (h.childSlots_bound hbound fun _ => .inl).trans hslots
  have harrive : (bindingTour settings prune .postOrder).arrive kind plot.slot
      (plot.slot.context depth) = pure (some (plot.slot.context depth)) := rfl
  rw [Tour.depthFirst]
  apply Reports.step hclassify rfl
  rw [harrive, pure_bind]
  apply Reports.step (descend_bound hprune rfl hkind hlisted) rfl
  apply (forM_plots_bound hvisit (depth + 1) hwaiting hbelow hbound (by omega)).bind
  rintro _ told middle ⟨htold, hmiddle⟩
  -- the props below the node are bound by now, its own are not
  have hmore : ∀ ref, (chosen ref ∨ ∃ child ∈ below, s.PropsOf child.slot.node ref) →
      chosen ref ∨ s.PropsOf plot.slot.node ref :=
    fun ref => Or.imp_right fun hchild => (hprops ref).mpr (.inr hchild)
  apply (enterPlot_reports hgoes h htest hmiddle hmore (plot.slot.context depth)).bind
  rintro next more after ⟨rfl, htells, hafter⟩
  refine .pure ⟨?_, hafter.congr fun ref => ?_⟩
  · rw [h.leftover htest hslots hready.shows, List.append_nil]
    exact (htold.append htells).perm List.perm_append_comm
  · rw [hprops, or_assoc]
    exact or_congr_right or_comm

theorem depthFirst_bound (hgoes : settings.GoesBy roster) (hprune : prune.isNull = true)
    (horder : order ≠ .breadthFirst) (fuel : Nat) :
    VisitsBindable settings roster prune order fuel := by
  induction fuel with
  | zero =>
      intro _ _ _ plot _ _ _ hsize
      exact absurd hsize (Nat.not_le_of_lt plot.tree.size_pos)
  | succ fuel ih =>
      cases order with
      | preOrder => exact preVisit_bound hgoes hprune ih
      | postOrder => exact postVisit_bound hgoes hprune ih
      | breadthFirst => exact absurd rfl horder

theorem breadthFirst_bound (hgoes : settings.GoesBy roster) (hprune : prune.isNull = true)
    (fuel : Nat) : ∀ {session : Session (Desk Value)} {chosen : ObjectRef → Prop}
      {queue : List (Plot × Nat)}, s.Ready (marked chosen) (queue.map Prod.fst) →
      (∀ entry ∈ queue, entry.1.tree.everyNode Tree.isBindable = true) →
      s.Bound roster chosen session.store →
      Tree.sizes (queue.map fun entry => entry.1.tree) ≤ fuel →
      ((bindingTour settings prune .breadthFirst).breadthFirst fuel
        (queue.map fun entry => (entry.1.slot, entry.2))).Reports session fun _ told after =>
          settings.Tells told (queue.flatMap fun entry => roster.leftover entry.1.tree) ∧
          s.Bound roster
            (fun ref => chosen ref ∨ ∃ entry ∈ queue, s.PropsOf entry.1.slot.node ref) after := by
  induction fuel with
  | zero =>
      intro session chosen queue h _ hbound hsize
      cases queue with
      | nil => exact .pure ⟨settings.tells_nil, hbound.congr fun ref => by simp⟩
      | cons entry queue =>
          have := entry.1.tree.size_pos
          rw [List.map_cons, Tree.sizes] at hsize
          omega
  | succ fuel ih =>
      intro session chosen queue h htest hbound hsize
      cases queue with
      | nil => exact .pure ⟨settings.tells_nil, hbound.congr fun ref => by simp⟩
      | cons entry queue =>
          obtain ⟨plot, depth⟩ := entry
          obtain ⟨hplot, hqueue⟩ := List.forall_mem_cons.mp htest
          rw [List.map_cons, Tree.sizes] at hsize
          obtain ⟨below, hslots, hready, hbelow, hsizes, hprops⟩ := h.bindable hplot
          have hleft : roster.leftover plot.tree = s.leftover roster plot.slot.node ++
              below.flatMap fun child => roster.leftover child.tree :=
            h.leftover hplot hslots fun child hchild =>
              hready.shows child (List.mem_append_right _ hchild)
          -- the children wait behind the queue, apart from all props bound so far
          have hfits := Store.sizes_enqueue queue below (depth + 1)
          have hwaits := Store.forall_enqueue hqueue hbelow (depth + 1)
          rw [← Store.plots_enqueue queue below (depth + 1)] at hready
          obtain ⟨kind, hclassify, hkind⟩ := classify_bound h hplot hbound
          rw [List.map_cons, Tour.breadthFirst]
          apply Reports.step hclassify rfl
          apply (enterPlot_reports hgoes h hplot hbound (fun _ => .inl)
            (plot.slot.context depth)).bind
          rintro next told middle ⟨rfl, htold, hmiddle⟩
          have hlisted := (h.childSlots_bound hmiddle fun _ => id).trans hslots
          apply Reports.step (descend_bound hprune rfl hkind hlisted) rfl
          have hrest := ih hready hwaits hmiddle (by omega)
          rw [Store.slots_enqueue] at hrest
          refine hrest.mono ?_
          rintro _ more after ⟨hmore, hafter⟩
          refine ⟨?_, hafter.congr fun ref => ?_⟩
          · rw [Store.flatMap_enqueue] at hmore
            rw [List.flatMap_cons, hleft, List.append_assoc]
            exact (htold.append hmore).perm (List.perm_append_comm.append_left _)
          have hothers : (∃ entry ∈ Store.enqueue queue below (depth + 1),
                s.PropsOf entry.1.slot.node ref) ↔
              (∃ child ∈ below, s.PropsOf child.slot.node ref) ∨
                ∃ entry ∈ queue, s.PropsOf entry.1.slot.node ref := by
            rw [or_comm]
            simp [Store.enqueue, or_and_right, exists_or]
          rw [hothers, List.exists_mem_cons_iff, hprops, or_assoc, or_assoc]

theorem run_bound (hgoes : settings.GoesBy roster) (hprune : prune.isNull = true) {fuel : Nat}
    (h : s.Ready (marked chosen) [plot]) (htest : plot.tree.everyNode Tree.isBindable = true)
    {session : Session (Desk Value)} (hbound : s.Bound roster chosen session.store)
    (hsize : plot.tree.size ≤ fuel) :
    ((bindingTour settings prune order).run order fuel [plot.slot]).Reports session
      fun _ told after => settings.Tells told (roster.leftover plot.tree) ∧
        s.Bound roster (fun ref => chosen ref ∨ s.PropsOf plot.slot.node ref) after := by
  have hdepth : order ≠ .breadthFirst →
      ((bindingTour settings prune order).depthFirst fuel plot.slot 0).Reports session
        fun _ told after => settings.Tells told (roster.leftover plot.tree) ∧
          s.Bound roster (fun ref => chosen ref ∨ s.PropsOf plot.slot.node ref) after :=
    fun horder => depthFirst_bound hgoes hprune horder fuel h htest hbound hsize 0
  cases order with
  | breadthFirst =>
      have hready : s.Ready (marked chosen) ([(plot, 0)].map Prod.fst) := h
      have hqueue := breadthFirst_bound hgoes hprune fuel hready (by simpa using htest) hbound
        (by simpa [Tree.sizes] using hsize)
      apply hqueue.bind
      rintro _ told after ⟨htold, hafter⟩
      rw [List.flatMap_singleton] at htold
      refine .pure ⟨?_, hafter.congr fun ref => by simp⟩
      rwa [List.append_nil]
  | _ =>
      apply (hdepth (by simp)).bind
      rintro _ told after ⟨htold, hafter⟩
      refine .pure ⟨?_, hafter⟩
      rwa [List.append_nil]

theorem boxed_bound (hgoes : settings.GoesBy roster) (hprune : prune.isNull = true) {fuel : Nat}
    {t : Tree} {node : Value} {cells : List Cell} (h : s.Shows t node cells) (hnodup : cells.Nodup)
    (htest : t.everyNode Tree.isBindable = true) (hsize : t.size ≤ fuel)
    (hnode : ∀ ref, node ≠ .array ref) (world : Desk Value) :
    Reports (do
        let box ← Walk.box node
        Transform.run fuel order [bindHandlers settings] prune box
        Walk.unbox box) ⟨s, world⟩ fun result told after =>
      result = node ∧ settings.Tells told (roster.leftover t) ∧
        s.Bound roster (s.PropsOf node) after := by
  let slot : Slot := ⟨node, none, 0, .element ⟨s.arrays.size⟩ 0⟩
  let boxed := (Store.newArray [node] s).2
  have hextends : s.Extends boxed := Store.newArray_extends [node] s
  have hnothing : ∀ cell, ¬ marked (fun _ => False) cell := fun cell => by cases cell <;> exact id
  have hready : boxed.Ready (marked fun _ => False) [⟨slot, t, cells⟩] :=
    h.ready_boxed hnodup (fun cell hcell => absurd hcell (hnothing cell))
      (fun cell _ => hnothing cell) hnode
  have hbound : boxed.Bound roster (fun _ => False) boxed := (Store.Extends.refl boxed).bound
  have hrun : Reports ((bindingTour settings prune order).run order fuel (boxed.rootSlots
      ⟨s.arrays.size⟩)) ⟨boxed, world⟩ fun _ told after =>
        settings.Tells told (roster.leftover t) ∧
        boxed.Bound roster (fun ref => False ∨ boxed.PropsOf node ref) after := by
    rw [Store.rootSlots_box hnode s]
    exact @run_bound _ _ _ order _ _ _ hgoes hprune fuel hready htest ⟨boxed, world⟩ hbound hsize
  have hbox : Walk.box node ⟨s, world⟩ = .ok ⟨s.arrays.size⟩ ⟨boxed, world⟩ := rfl
  apply Reports.step hbox rfl
  apply Reports.bind (Reports.store hrun)
  rintro _ told after ⟨htold, hafter⟩
  apply Reports.store
  have hitems := hafter.items ⟨s.arrays.size⟩ (Store.newArray_contains [node] s)
  refine .pure ⟨?_, ?_, ?_⟩
  · rw [hitems, Store.items_newArray_self]
    rfl
  · rwa [List.append_nil]
  · refine (hextends.bound.trans hafter).congr fun ref => ?_
    simpa using h.propsOf_frame hextends.grows (hextends.agrees.mono h.contains) ref

def BindsRoot (settings : Binding.Settings) (roster : Roster) (prune : Prune (Desk Value))
    (order : Order) (fuel : Nat) : Prop :=
  ∀ {session : Session (Desk Value)} {t : Tree} {value : Value} {cells : List Cell},
    session.store.Shows t value cells → cells.Nodup → t.everyNode Tree.isBindable = true →
    t.size < fuel →
    (Transform.root order [bindHandlers settings] prune fuel value).Reports session
      fun result told after => result = value ∧ settings.Tells told (roster.leftover t) ∧
        session.store.Bound roster (session.store.PropsOf value) after

theorem forM_items_bound {fuel : Nat} (hroot : BindsRoot settings roster prune order fuel)
    {ref : ArrayRef} {trees : List Tree} :
    ∀ {session : Session (Desk Value)} {values : List Value} {cells : List Cell} {start : Nat},
      session.store.ShowsItems trees values cells → cells.Nodup →
      Tree.everyItem Tree.isBindable trees = true → Tree.sizes trees < fuel →
      session.store.Contains (.array ref) → (session.store.items ref).drop start = values →
      ((values.zipIdx start).forM fun entry => do
          let result ← Transform.root order [bindHandlers settings] prune fuel entry.1
          Walk.write (.element ref entry.2) result : Walk (Desk Value) PUnit).Reports session
        fun _ told after => settings.Tells told (trees.flatMap roster.leftover) ∧
          session.store.Bound roster
            (fun props => ∃ value ∈ values, session.store.PropsOf value props) after := by
  induction trees with
  | nil =>
      intro session values cells start h _ _ _ _ _
      cases h
      exact .pure ⟨settings.tells_nil, (Store.Extends.refl _).bound.congr fun _ => by simp⟩
  | cons tree trees ih =>
      intro session values cells start h hnodup htest hsize has hitems
      cases h with
      | @cons _ _ value values cells rest head tail =>
          obtain ⟨hcells, hrest, hdisjoint⟩ := List.nodup_append.mp hnodup
          rw [Tree.everyItem, Bool.and_eq_true] at htest
          rw [Tree.sizes] at hsize
          have hat : session.store.at? (.element ref start) = some value := by
            rw [Store.at?, ← List.head?_drop, hitems]
            rfl
          have hdrop : (session.store.items ref).drop (start + 1) = values := by
            rw [← List.tail_drop, hitems, List.tail_cons]
          have hitem : Reports (do
              let result ← Transform.root order [bindHandlers settings] prune fuel value
              Walk.write (.element ref start) result) session fun _ told after =>
                settings.Tells told (roster.leftover tree) ∧
                session.store.Bound roster (session.store.PropsOf value) after := by
            apply (hroot head hcells htest.1 (by omega)).bind
            rintro result told after ⟨rfl, htold, hbound⟩
            -- the item is written back where it lies already
            refine .silent (Store.write_same_apply ?_ after.world) rfl ⟨?_, hbound⟩
            · rw [Store.at?, hbound.items ref has]
              exact hat
            · rwa [List.append_nil]
          rw [List.zipIdx_cons]
          apply hitem.bind
          rintro _ told middle ⟨htold, hmiddle⟩
          have hagrees := hmiddle.agreesOn tail.contains fun props hprops hpropsOf =>
            hdisjoint _ (head.mem_of_propsOf hpropsOf) _ hprops rfl
          have hmore := ih (tail.frame hmiddle.grows hagrees) hrest htest.2 (by omega)
            (hmiddle.grows.contains has) ((hmiddle.items ref has).symm ▸ hdrop)
          refine hmore.mono ?_
          rintro _ more after ⟨hmore, hafter⟩
          refine ⟨htold.append hmore, (hmiddle.trans hafter).congr fun props => ?_⟩
          rw [tail.propsOf_frame hmiddle.grows hagrees, List.exists_mem_cons_iff]

theorem primitive_bound (hgoes : settings.GoesBy roster) (a : Atom)
    (session : Session (Desk Value)) :
    (Transform.primitive [bindHandlers settings] (.atom a)).Reports session fun result told after =>
      result = .atom a ∧ settings.Tells told (roster.leftover (.atom a)) ∧
        session.store.Bound roster (session.store.PropsOf (.atom a)) after := by
  have hphase : runPhase .enter [bindHandlers settings] (.atom a) .alone =
      runHooks [Binding.enter settings] (.atom a) .alone := rfl
  have hnode : ∀ ref, Value.atom a = .object ref → session.store.Bindable ref := by simp
  unfold Transform.primitive
  rw [hphase, runHooks, bind_assoc]
  apply (Binding.enter_reports hgoes hnode .alone).bind
  rintro result told after ⟨rfl, rfl, hbound⟩
  refine .pure ⟨rfl, ?_, hbound.congr fun props => ?_⟩
  · rw [List.append_nil]
    exact settings.tells_reports _ _
  constructor
  · intro hprops
    obtain ⟨other, hother, -⟩ := hprops
    cases hother
  · intro hprops
    cases hprops

theorem root_bound (hgoes : settings.GoesBy roster) (hprune : prune.isNull = true) (fuel : Nat) :
    BindsRoot settings roster prune order fuel := by
  induction fuel with
  | zero =>
      intro _ _ _ _ _ _ _ hsize
      cases hsize
  | succ fuel ih =>
      intro session t value cells h hnodup htest hsize
      have hshows := h
      cases h with
      | @array trees ref rest has items =>
          obtain ⟨-, hrest⟩ := List.nodup_cons.mp hnodup
          rw [Tree.size] at hsize
          apply Reports.store
          apply (forM_items_bound ih items hrest htest (by omega) has List.drop_zero).bind
          rintro _ told after ⟨htold, hafter⟩
          refine .pure ⟨rfl, ?_, hafter.congr fun props => Store.propsOf_array.symm⟩
          rwa [List.append_nil, roster.leftover_array]
      | atom a =>
          have hprimitive := Tree.isPrimitive_of_isValid (Tree.isValid_of_isBindable htest)
          rw [Transform.root, if_pos hprimitive]
          exact primitive_bound hgoes a session
      | tuple items => cases htest
      | object has members =>
          exact boxed_bound hgoes hprune hshows hnodup htest (Nat.le_of_lt_succ hsize) (by simp)
            session.world

theorem transform_bound (hgoes : settings.GoesBy roster) {options : TransformOptions (Desk Value)}
    (hprune : options.prune.isNull = true) (horder : Order.resolve options.order = .ok order)
    {t : Tree} {root : Value} {cells : List Cell} (h : s.Shows t root cells) (hnodup : cells.Nodup)
    (htest : t.everyNode Tree.isBindable = true) {fuel : Nat} (hfuel : t.size < fuel)
    (desk : Desk Value) :
    (transform fuel [bindHandlers settings] options root).Reports ⟨s, desk⟩
      fun result told after => settings.Tells told (roster.leftover t) ∧
        after.read result = t.bound roster := by
  obtain ⟨tree, start, copied, hcopy, -, hshows, hcopied⟩ := Walk.copy_shows h options.clone desk
  rw [transform_eq, horder]
  apply Reports.step hcopy rfl
  rw [Transform.engage_eq_root (by simp)]
  have hroot : BindsRoot settings roster options.prune order fuel := root_bound hgoes hprune fuel
  have hbinds : Reports (Transform.root order [bindHandlers settings] options.prune fuel tree)
      ⟨start, desk⟩ _ := hroot hshows (hcopied hnodup) htest hfuel
  refine hbinds.mono ?_
  rintro result told after ⟨rfl, htold, hbound⟩
  refine ⟨htold, ?_⟩
  exact (hshows.bound hbound (hcopied hnodup) fun _ _ => .rfl).read_eq

end

/-- A bindable tree comes back bound, and the props that still go by names are told, unless the
policy refuses a report. -/
theorem Tree.transform_tells {settings : Binding.Settings} {roster : Roster}
    (hgoes : settings.GoesBy roster) {options : TransformOptions (Desk Value)}
    (hprune : options.prune.isNull = true) {order : Order}
    (horder : Order.resolve options.order = .ok order) {t : Tree}
    (htest : t.everyNode Tree.isBindable = true) {fuel : Nat} (hfuel : t.size < fuel)
    (desk : Desk Value) :
    (∃ told after, t.transform fuel [bindHandlers settings] options desk =
        (.ok (t.bound roster), after) ∧ told.forM Policy.report desk = .ok () after ∧
        settings.Tells told (roster.leftover t)) ∨
      ∃ failure after, t.transform fuel [bindHandlers settings] options desk =
        (.error failure, after) ∧ desk.policy.handling.Refuses failure after := by
  obtain ⟨-, cells, hshows, hfresh⟩ := Store.load_shows t {}
  have hrun := ViewTree.transform_bound hgoes hprune horder hshows hfresh.nodup htest hfuel desk
  unfold Tree.transform
  cases hwalk : ViewTree.transform fuel [bindHandlers settings] options (Store.load t {}).1
      ⟨(Store.load t {}).2, desk⟩ with
  | ok result after =>
      obtain ⟨told, hreport, htold, hread⟩ := (Walk.Ends.iff_of_ok hwalk).mp hrun
      refine .inl ⟨told, after.world, ?_, hreport, htold⟩
      simp only [hwalk, hread]
  | error failure after =>
      refine .inr ⟨failure, after.world, ?_, (Walk.Ends.iff_of_error hwalk).mp hrun⟩
      simp only [hwalk]

theorem Tree.transform_bound {settings : Binding.Settings} {roster : Roster}
    (hgoes : settings.GoesBy roster) {options : TransformOptions (Desk Value)}
    (hprune : options.prune.isNull = true) {order : Order}
    (horder : Order.resolve options.order = .ok order) {t : Tree}
    (htest : t.everyNode Tree.isBindable = true) {fuel : Nat} (hfuel : t.size < fuel)
    (desk : Desk Value) :
    (∃ after, t.transform fuel [bindHandlers settings] options desk =
        (.ok (t.bound roster), after)) ∨
      ∃ failure after, t.transform fuel [bindHandlers settings] options desk =
        (.error failure, after) ∧ desk.policy.handling.Refuses failure after := by
  refine (t.transform_tells hgoes hprune horder htest hfuel desk).imp_left fun hended => ?_
  obtain ⟨told, after, hrun, -⟩ := hended
  exact ⟨after, hrun⟩

/-- Handlers may be bound before a tree is rendered or while it is.  A bindable tree that a
transform has bound, whatever the order and on a copy or in place, is rendered without handlers to
the very output the tree is rendered to with them, by any registry and host; and from policies that
have been told the same, each render tells the same but for the nodes it tells of.  Only a policy
that refuses a report keeps a transform from its end. -/
theorem render_transform_bindHandlers {settings : Binding.Settings} {entries : Members Tree}
    (hhandlers : settings.handlers = .object entries) (hstart : settings.start.textsOnly = true)
    {options : TransformOptions (Desk Value)} (hprune : options.prune.isNull = true) {order : Order}
    (horder : Order.resolve options.order = .ok order) {t : Tree}
    (htest : t.everyNode Tree.isBindable = true) {fuel : Nat} (hfuel : t.size < fuel)
    (desk : Desk Value) :
    (∃ bound after, t.transform fuel [bindHandlers settings] options desk = (.ok bound, after) ∧
      ∀ (resolver : Resolver) (host : Host) (first second : Desk Tree),
        first.blurred = second.blurred →
        Rendering.blurred
            (Renderer.render ⟨resolver, .object [], settings.start, host⟩ bound first) =
          Rendering.blurred
            (Renderer.render ⟨resolver, settings.handlers, settings.start, host⟩ t second)) ∨
      ∃ failure after, t.transform fuel [bindHandlers settings] options desk =
        (.error failure, after) ∧ desk.policy.handling.Refuses failure after := by
  let roster : Roster := ⟨entries, settings.start⟩
  have hgoes : settings.GoesBy roster := ⟨hhandlers, rfl, hstart⟩
  rcases Tree.transform_bound hgoes hprune horder htest hfuel desk with ⟨after, hrun⟩ | hrefused
  · refine .inl ⟨t.bound roster, after, hrun, fun resolver host first second hdesk => ?_⟩
    let renderer : Renderer := ⟨resolver, settings.handlers, settings.start, host⟩
    have hrenderer : renderer.GoesBy roster := ⟨hhandlers, rfl, hstart⟩
    exact Renderer.render_bound hrenderer t first second hdesk
  · exact .inr hrefused

def doorbells : Binding.Settings :=
  { handlers := .object [("ring", .atom (.callable "ring")), ("light", .int 3)]
    start := .text "" }

def parlour : Tree :=
  .object [("type", .text "Portal"),
    ("props", .object [("container", .text "ring"), ("key", .text "light")]),
    ("children", .array [
      .object [("type", .text "door"), ("props", .object [("id", .text "ring")])],
      .array [.text "mat"],
      .object [("type", .text "Fragment"), ("props", .null)]])]

theorem render_transform_bindHandlers_parlour :
    doorbells.start.textsOnly = true ∧ parlour.everyNode Tree.isBindable = true ∧
    parlour.size < 20 ∧ ∃ bound after,
      parlour.transform 20 [bindHandlers doorbells] .bottomUp ⟨.ofHandling .gather, []⟩ =
        (.ok bound, after) ∧
      after.policy.recorded.map Diagnostic.message = ["Event handler not found: light"] ∧
      ∀ (resolver : Resolver) (host : Host) (first second : Desk Tree),
        first.blurred = second.blurred →
        Rendering.blurred
            (Renderer.render ⟨resolver, .object [], doorbells.start, host⟩ bound first) =
          Rendering.blurred
            (Renderer.render ⟨resolver, doorbells.handlers, doorbells.start, host⟩ parlour
              second) := by
  have htest : parlour.everyNode Tree.isBindable = true := by decide
  have hsize : parlour.size < 20 := by decide
  have htold : (parlour.transform 20 [bindHandlers doorbells] .bottomUp
      ⟨.ofHandling .gather, []⟩).2.policy.recorded.map Diagnostic.message =
        ["Event handler not found: light"] := by
    decide +kernel
  have hhandlers : doorbells.handlers =
      .object [("ring", .atom (.callable "ring")), ("light", .int 3)] := rfl
  have hprune : (.bottomUp : TransformOptions (Desk Value)).prune.isNull = true := rfl
  have horder : Order.resolve (.bottomUp : TransformOptions (Desk Value)).order =
      .ok .postOrder := rfl
  refine ⟨rfl, htest, hsize, ?_⟩
  rcases render_transform_bindHandlers hhandlers rfl hprune horder htest hsize
    ⟨.ofHandling .gather, []⟩ with ⟨bound, after, hrun, hrender⟩ | ⟨failure, after, -, hrefused⟩
  · rw [hrun] at htold
    exact ⟨bound, after, hrun, htold, hrender⟩
  · rcases Handling.refuses_only hrefused with hhandling | ⟨limit, verbose, hhandling⟩
    · cases hhandling
    · cases hhandling

end ViewTree
