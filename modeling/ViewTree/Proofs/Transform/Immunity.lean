import ViewTree.Proofs.Store.Awaiting
import ViewTree.Proofs.Transform.Entry
import ViewTree.Proofs.Traverse.Agreement
import ViewTree.Proofs.Visitor.Entering

namespace ViewTree

open Store (Cell)

section

variable {visitors : List (Visitor σ)} (hvisitors : ∀ visitor ∈ visitors, visitor.Confined)

theorem descend_visits (visitors : List (Visitor σ)) (session : Session (Watched σ))
    {kind : Kind} {node : Value} (hkind : session.store.classify node = .ok kind) {ctx : Context}
    (hctx : ctx.skipping = false) :
    Walk.Visits ((watchedTour visitors).descend kind node ctx) session [] fun given after =>
      after = session.store ∧ given = (session.store.childSlots node, ctx) := by
  have hwalk := Sight.descend_of_no_prune (watchedTour visitors) rfl kind node ctx session
  refine .quiet hwalk rfl ⟨rfl, ?_⟩
  by_cases hopen : kind = .structured
  · rw [if_pos ⟨hopen, hctx⟩]
  · rw [if_neg fun h => hopen h.1, Store.childSlots_of_ne_object]
    rintro ref rfl
    rw [Store.classify] at hkind
    split at hkind
    · exact hopen (Except.ok.inj hkind).symm
    · cases hkind

theorem forM_visits {fuel : Nat}
    (hvisit : ∀ {session : Session (Watched σ)} {kept : Cell → Prop} {slot : Slot} {t : Tree}
      {cells : List Cell}, session.store.Awaits kept slot t cells → t.size ≤ fuel →
      ∀ {level : Nat}, cells.length ≤ level → ∀ depth,
        Walk.Visits ((watchedTour visitors).depthFirst fuel slot depth) session
          (session.store.outlineTo level (slot.stand depth)).postOrder
          fun _ after => session.store.Keeps kept .null slot.parent after)
    {kept : Cell → Prop} {parent : Option ObjectRef} {level : Nat} (depth : Nat)
    {plots : List Store.Plot} :
    ∀ session : Session (Watched σ), session.store.AwaitsAll kept parent plots →
      (∀ plot ∈ plots, plot.tree.size ≤ fuel) → (Store.area plots).length ≤ level →
      Walk.Visits ((plots.map Store.Plot.slot).forM fun child =>
          (watchedTour visitors).depthFirst fuel child depth) session
        (Rose.postOrders ((plots.map Store.Plot.slot).map fun child =>
          session.store.outlineTo level (child.stand depth)))
        fun _ after => session.store.Keeps kept .null parent after := by
  induction plots with
  | nil =>
      intro session h _ _
      exact .pure (h.secures.mono fun _ => .inl).keeps
  | cons plot plots ih =>
      intro session h hsizes hlength
      rw [Store.area_cons, List.length_append] at hlength
      have hhead := hvisit h.head (hsizes plot List.mem_cons_self)
        (Nat.le_of_add_right_le hlength) depth
      rw [h.parents plot List.mem_cons_self] at hhead
      apply hhead.bind
      intro _ after hafter
      have htail := ih after (h.tail hafter) (fun other hother =>
        hsizes other (List.mem_cons_of_mem _ hother)) (Nat.le_of_add_left_le hlength)
      -- the outlines of those that wait are what they were
      have hsame : (plots.map Store.Plot.slot).map (fun child =>
            after.store.outlineTo level (child.stand depth)) =
          (plots.map Store.Plot.slot).map fun child =>
            session.store.outlineTo level (child.stand depth) := by
        refine List.map_congr_left fun child hchild => ?_
        obtain ⟨other, hother, rfl⟩ := List.mem_map.mp hchild
        have hcells := (Store.sublist_area hother).length_le.trans
          (Nat.le_of_add_left_le hlength)
        have hshows := h.shows other (List.mem_cons_of_mem _ hother)
        exact Store.Shows.outlineTo_frame hshows hafter.grows
          (hafter.agrees.mono fun cell hcell => Or.inr (Store.cells_subset_area hother cell hcell))
          hcells hcells
      rw [hsame] at htail
      apply htail.mono
      intro _ last hlast
      exact (hafter.mono fun _ => .inl).trans hlast

include hvisitors

theorem depthFirst_visits (fuel : Nat) :
    ∀ {session : Session (Watched σ)} {kept : Cell → Prop} {slot : Slot} {t : Tree}
      {cells : List Cell}, session.store.Awaits kept slot t cells → t.size ≤ fuel →
      ∀ {level : Nat}, cells.length ≤ level → ∀ depth,
        Walk.Visits ((watchedTour visitors).depthFirst fuel slot depth) session
          (session.store.outlineTo level (slot.stand depth)).postOrder
          fun _ after => session.store.Keeps kept .null slot.parent after := by
  induction fuel with
  | zero =>
      intro _ _ _ t _ _ hsize
      exact absurd hsize (Nat.not_le_of_lt t.size_pos)
  | succ fuel ih =>
      intro session kept slot t cells h hsize level hlevel depth
      obtain ⟨s, notices, world⟩ := session
      have houtline : s.outlineTo level (slot.stand depth) = .mk (slot.stand depth) _ :=
        Store.Shows.outlineTo_succ h.shows hlevel
      rw [Tour.depthFirst, houtline, Rose.postOrder]
      apply (Walk.classify_visits slot.node _).after
      intro kind middle hmiddle
      obtain ⟨rfl, hkind⟩ := hmiddle
      have harrive : (watchedTour visitors).arrive kind slot (slot.context depth) =
        pure (some (slot.context depth)) := rfl
      rw [harrive, pure_bind]
      apply (descend_visits visitors middle hkind rfl).after
      intro given last hlast
      obtain ⟨hstore, rfl⟩ := hlast
      obtain ⟨last, lastWorld⟩ := last
      subst hstore
      simp only
      obtain ⟨node, parent, index, place⟩ := slot
      have hshows := h.shows
      cases hshows with
      | @object trees ref rest has members =>
          obtain ⟨plots, parts, hslots, htrees, hlaid, hmember, hparts⟩ := members.childPlots
          have hchildren := h.children members hlaid hmember hparts
          have hsizes : ∀ plot ∈ plots, plot.tree.size ≤ fuel := by
            intro plot hplot
            have hmem : plot.tree ∈ (Tree.object trees).children.map Prod.fst := by
              rw [← htrees, List.map_map]
              exact List.mem_map_of_mem hplot
            have hle := Tree.size_le_sizes hmem
            have hlt := (Tree.object trees).sizes_children_lt
            omega
          have hlength : (Store.area plots).length ≤ level := by
            have hsub := (hlaid.within.trans hparts).length_le
            rw [List.length_cons] at hlevel
            omega
          show Walk.Visits _ _ (Rose.postOrders ((middle.store.childSlots (.object ref)).map
            fun child => middle.store.outlineTo level (child.stand (depth + 1))) ++ _) _
          rw [hslots]
          apply (forM_visits ih (depth + 1) ⟨middle.store, lastWorld⟩ hchildren hsizes
            hlength).bind
          intro _ done hdone
          apply (leave_visits hvisitors kind h.node h.child h.place
            (h.secures_node rfl hdone)).mono
          intro _ after hafter
          exact ⟨hdone.grows.trans hafter.grows,
            (hdone.agrees.mono fun _ => .inl).trans hafter.agrees, hafter.secures.aside⟩
      | _ =>
          have hsecures := h.secures_leaf (by simp)
          apply (leave_visits hvisitors kind h.node h.child h.place hsecures).mono
          intro _ after hafter
          exact hafter.aside

omit hvisitors in
theorem Store.secures_alone {s : Store} {kept : Cell → Prop}
    (hkept : ∀ cell, kept cell → s.Contains cell) : s.Secures kept .null none := by
  refine ⟨hkept, fun cell hcell => ?_⟩
  rcases hcell with ⟨_, hnull, _⟩ | ⟨_, hnone, _⟩
  · cases hnull
  · cases hnone

omit hvisitors in
theorem Store.Secures.write_alone {s : Store} {kept : Cell → Prop}
    (h : s.Secures kept .null none) {place : Place} (hplace : ¬ kept place.cell) (value : Value) :
    s.Keeps kept .null none (s.write place value) where
  grows := write_grows s place value
  agrees := (write_agreesOn s place value).mono fun _ hcell heq => hplace (heq ▸ hcell)
  secures := secures_alone fun cell hcell => contains_write.mpr (h.contains cell hcell)

theorem boxed_visits {fuel level : Nat} {session : Session (Watched σ)} {kept : Cell → Prop}
    {t : Tree} {node : Value} {cells : List Cell} (h : session.store.Shows t node cells)
    (hnode : ∀ ref, node ≠ .array ref) (hnodup : cells.Nodup) (hsize : t.size ≤ fuel)
    (hlevel : cells.length ≤ level) (hkept : session.store.Secures kept .null none)
    (hapart : ∀ cell ∈ cells, ¬ kept cell) :
    Walk.Visits (do
        let box ← Walk.box node
        Transform.run fuel .postOrder [watch visitors] (.setting .null) box
        Walk.unbox box) session
      (session.store.outlineTo level (Context.alone.stand node)).postOrder
      fun _ after => session.store.Keeps kept .null none after := by
  obtain ⟨s, notices, world⟩ := session
  let slot : Slot := ⟨node, none, 0, .element ⟨s.arrays.size⟩ 0⟩
  have hextends := Store.newArray_extends [node] s
  have hbox : ¬ kept slot.place.cell := fun hcell =>
    Nat.lt_irrefl _ (hkept.contains _ hcell)
  have hawaits : (Store.newArray [node] s).2.Awaits kept slot t cells := by
    refine ⟨hextends.shows h, hnodup, hnode, trivial, hbox, hapart, ?_⟩
    refine Store.secures_alone fun cell hcell => hextends.grows.contains ?_
    rcases hcell with hcell | hcell
    · exact hkept.contains cell hcell
    · exact h.contains cell hcell
  have houtline : (Store.newArray [node] s).2.outlineTo level (slot.stand 0) =
      s.outlineTo level (Context.alone.stand node) :=
    Store.Shows.outlineTo_frame h hextends.grows (hextends.agrees.mono h.contains) hlevel hlevel
  have hrun : ∀ world : Watched σ, Walk.Visits
      (Transform.run fuel .postOrder [watch visitors] (.setting .null) ⟨s.arrays.size⟩)
      ⟨(Store.newArray [node] s).2, world⟩
      (s.outlineTo level (Context.alone.stand node)).postOrder
      fun _ after => (Store.newArray [node] s).2.Keeps kept .null none after := by
    intro world
    have hvisit : Walk.Visits ((watchedTour visitors).depthFirst fuel slot 0)
        ⟨(Store.newArray [node] s).2, world⟩ _ _ :=
      depthFirst_visits hvisitors fuel hawaits hsize hlevel 0
    rw [houtline] at hvisit
    have hroots : Walk.Visits ((watchedTour visitors).run .postOrder fuel [slot])
        ⟨(Store.newArray [node] s).2, world⟩ _
        fun _ after => (Store.newArray [node] s).2.Keeps kept .null none after :=
      hvisit.andThen fun _ _ hafter => .pure hafter
    rw [← Store.rootSlots_box hnode s] at hroots
    exact hroots
  apply (Walk.Visits.quiet rfl rfl ⟨rfl, rfl⟩ : Walk.Visits (Walk.box node) _ [] fun box after =>
    box = ⟨s.arrays.size⟩ ∧ after = (Store.newArray [node] s).2).after
  intro box middle hmiddle
  obtain ⟨rfl, hstore⟩ := hmiddle
  obtain ⟨_, middleWorld⟩ := middle
  subst hstore
  apply (hrun middleWorld).andThen
  intro _ after hafter
  exact .quiet rfl rfl ⟨hextends.grows.trans hafter.grows,
    (hextends.agrees.mono hkept.contains).trans hafter.agrees, hafter.secures⟩

theorem primitive_visits {session : Session (Watched σ)} {kept : Cell → Prop} (a : Atom)
    (hkept : session.store.Secures kept .null none) :
    Walk.Visits (Transform.primitive [watch visitors] (.atom a)) session
      [Context.alone.stand (.atom a)]
      fun _ after => session.store.Keeps kept .null none after := by
  have hnode : ∀ ref, Value.atom a ≠ .array ref := by simp
  have hatom : ∀ {s : Store}, s.Secures kept .null none → s.Secures kept (.atom a) none := by
    intro s hs
    refine ⟨hs.contains, fun cell hcell => ?_⟩
    rcases hcell with ⟨_, hnode, _⟩ | ⟨_, hnone, _⟩
    · cases hnode
    · cases hnone
  apply (enterPhase_visits hvisitors hnode (hatom hkept)).andThen
  intro given middle hgiven
  obtain ⟨hkeeps, hstand, -⟩ := hgiven
  obtain ⟨_ | replacement, next⟩ := given
  · have hnext : next.parent = none := Context.parent_of_stand hstand
    have hsecures : middle.store.Secures kept (.atom a) next.parent :=
      hnext ▸ hatom hkeeps.secures.aside
    apply (exitPhase_visits hvisitors hnode hsecures).after
    intro given after hafter
    have hlast := hafter.1
    rw [hnext] at hlast
    obtain ⟨_ | replacement, last⟩ := given
    · exact .pure (hkeeps.trans hlast).aside
    · exact .pure (hkeeps.trans hlast).aside
  · exact .pure hkeeps.aside

omit hvisitors in
/-- The items that wait are kept while one is walked, and so is the array that it is written back to. -/
theorem Store.waiting_apart {kept : Cell → Prop} {cells rest : List Cell} {ref : ArrayRef}
    (hnodup : (cells ++ rest).Nodup) (hapart : ∀ cell ∈ cells ++ rest, ¬ kept cell)
    (href : ¬ kept (.array ref)) (hself : .array ref ∉ cells ++ rest) :
    (∀ cell ∈ cells, ¬ (kept cell ∨ cell ∈ rest)) ∧ ¬ (kept (.array ref) ∨ .array ref ∈ rest) := by
  have hdisjoint := (List.nodup_append.mp hnodup).2.2
  constructor
  · intro cell hcell hmem
    rcases hmem with hmem | hmem
    · exact hapart cell (List.mem_append_left _ hcell) hmem
    · exact hdisjoint cell hcell cell hmem rfl
  · exact not_or.mpr ⟨href, fun hmem => hself (List.mem_append_right _ hmem)⟩

/-- What it takes for roots to be walked in post-order, arrays of them among them. -/
def EntersRoot (visitors : List (Visitor σ)) (fuel level : Nat) : Prop :=
  ∀ {session : Session (Watched σ)} {kept : Cell → Prop} {t : Tree} {value : Value}
    {cells : List Cell}, session.store.Shows t value cells → cells.Nodup → t.size < fuel →
    cells.length ≤ level → session.store.Secures kept .null none →
    (∀ cell ∈ cells, ¬ kept cell) →
    Walk.Visits (Transform.root .postOrder [watch visitors] (.setting .null) fuel value) session
      (Rose.postOrders (session.store.outlinesTo level value))
      fun _ after => session.store.Keeps kept .null none after

omit hvisitors in
theorem forM_items_visits {fuel level : Nat} {ref : ArrayRef}
    (hroot : EntersRoot visitors fuel level) {kept : Cell → Prop} {trees : List Tree} :
    ∀ {session : Session (Watched σ)} {values : List Value} {cells : List Cell} (start : Nat),
      session.store.ShowsItems trees values cells → cells.Nodup → Tree.sizes trees < fuel →
      cells.length ≤ level → session.store.Secures kept .null none →
      (∀ cell ∈ cells, ¬ kept cell) → ¬ kept (.array ref) → .array ref ∉ cells →
      Walk.Visits ((values.zipIdx start).forM fun entry => do
          let result ← Transform.root .postOrder [watch visitors] (.setting .null) fuel entry.1
          Walk.write (.element ref entry.2) result) session
        (Rose.postOrders (values.flatMap (session.store.outlinesTo level)))
        fun _ after => session.store.Keeps kept .null none after := by
  induction trees with
  | nil =>
      intro session values cells start h _ _ _ hkept _ _ _
      cases h
      exact .pure hkept.keeps
  | cons tree trees ih =>
      intro session values cells start h hnodup hsize hlevel hkept hapart href hself
      cases h with
      | @cons _ _ value values cells rest head tail =>
          obtain ⟨hcells, hrest, -⟩ := List.nodup_append.mp hnodup
          obtain ⟨hfree, hplace⟩ := Store.waiting_apart hnodup hapart href hself
          rw [Tree.sizes] at hsize
          rw [List.length_append] at hlevel
          let waiting : Cell → Prop := fun cell => kept cell ∨ cell ∈ rest
          have hslot : ¬ waiting (Place.element ref start).cell := hplace
          have hwaiting : session.store.Secures waiting .null none := by
            refine Store.secures_alone fun cell hcell => ?_
            exact hcell.elim (hkept.contains cell) (tail.contains cell)
          have hhead := hroot head hcells (by omega) (by omega) hwaiting hfree
          have hitem : Walk.Visits (do
              let result ← Transform.root .postOrder [watch visitors] (.setting .null) fuel value
              Walk.write (.element ref start) result) session
              (Rose.postOrders (session.store.outlinesTo level value))
              fun _ after => session.store.Keeps waiting .null none after := by
            apply hhead.andThen
            intro result middle hmiddle
            apply (Walk.write_visits _ result middle).mono
            intro _ after hafter
            rw [hafter]
            exact hmiddle.trans (hmiddle.secures.write_alone hslot result)
          rw [List.zipIdx_cons, List.flatMap_cons, Rose.postOrders_append]
          apply hitem.bind
          intro _ middle hmiddle
          have hagrees := hmiddle.agrees.mono fun cell (hcell : cell ∈ rest) => Or.inr hcell
          have hmore := ih (start + 1) (tail.frame hmiddle.grows hagrees) hrest (by omega)
            (by omega) (hmiddle.secures.mono fun _ => .inl)
            (fun cell hcell => hapart cell (List.mem_append_right _ hcell)) href
            (fun hmem => hself (List.mem_append_right _ hmem))
          rw [tail.outlinesTo_frame hmiddle.grows hagrees (Nat.le_of_add_left_le hlevel)
            (Nat.le_of_add_left_le hlevel)] at hmore
          apply hmore.mono
          intro _ after hafter
          exact (hmiddle.mono fun _ => .inl).trans hafter

theorem root_visits (fuel level : Nat) : EntersRoot visitors fuel level := by
  induction fuel generalizing level with
  | zero =>
      intro _ _ _ _ _ _ _ hsize
      cases hsize
  | succ fuel ih =>
      intro session kept t value cells h hnodup hsize hlevel hkept hapart
      have hboxed : ∀ node, (∀ ref, node ≠ .array ref) → session.store.Shows t node cells →
          Walk.Visits (do
            let box ← Walk.box node
            Transform.run fuel .postOrder [watch visitors] (.setting .null) box
            Walk.unbox box) session (Rose.postOrders (session.store.outlinesTo level node))
            fun _ after => session.store.Keeps kept .null none after := by
        intro node hnode hshows
        have hvisit := boxed_visits hvisitors hshows hnode hnodup (Nat.le_of_lt_succ hsize) hlevel
          hkept hapart
        rw [Store.outlinesTo_of_ne_array hnode, Rose.postOrders, Rose.postOrders, List.append_nil]
        exact hvisit
      have hshows := h
      cases h with
      | @array trees ref rest has items =>
          obtain ⟨hself, hrest⟩ := List.nodup_cons.mp hnodup
          rw [Tree.size] at hsize
          rw [List.length_cons] at hlevel
          obtain ⟨level, rfl⟩ : ∃ fewer, level = fewer + 1 := ⟨level - 1, by omega⟩
          have hloop := forM_items_visits (ih level) 0 items hrest (by omega)
            (Nat.le_of_succ_le_succ hlevel) hkept
            (fun cell hcell => hapart cell (List.mem_cons_of_mem _ hcell))
            (hapart _ List.mem_cons_self) hself
          exact hloop.andThen fun _ _ hafter => .pure hafter
      | atom a =>
          rw [Transform.root]
          split
          · have hobject : ∀ ref, (Context.alone.stand (.atom a)).node ≠ .object ref := by
              simp [Context.stand]
            rw [Store.outlinesTo_of_ne_array (by simp), Store.outlineTo_of_ne_object hobject]
            exact primitive_visits hvisitors a hkept
          · exact hboxed _ (by simp) hshows
      | tuple items => exact hboxed _ (by simp) hshows
      | object has members => exact hboxed _ (by simp) hshows

end

/-- Post-order is immune to what visitors do.  Whatever hooks make of the node they are called at
and of its parent, the enter phases are run at the nodes of the tree as it stood at the start, in
post-order, each once, or at the first of them if the run is broken off; it always ends. -/
theorem transform_postOrder_immune {visitors : List (Visitor σ)} (hsome : visitors ≠ [])
    (hvisitors : ∀ visitor ∈ visitors, visitor.Confined) {options : TransformOptions σ}
    (horder : Order.resolve options.order = .ok .postOrder) (hprune : options.prune.isNull = true)
    {s : Store} {t : Tree} {root : Value} {cells : List Cell} (h : s.Shows t root cells)
    (hnodup : cells.Nodup) {fuel : Nat} (hfuel : t.size < fuel) (world : σ) :
    let run := transform fuel [watch visitors] options.watched root ⟨s, [], world⟩
    transform fuel visitors options root ⟨s, world⟩ = untrace.result id run ∧
      ∃ tree start, Walk.copy options.clone root ⟨s, world⟩ = .ok tree ⟨start, world⟩ ∧
        match run with
        | .ok _ after => entries after.world.1 = Rose.postOrders (start.outlines tree)
        | .error failure after => failure ≠ .exhausted ∧
            entries after.world.1 <+: Rose.postOrders (start.outlines tree) := by
  intro run
  refine ⟨transform_unwatched hsome fuel options root s [] world, ?_⟩
  obtain ⟨tree, start, copied, hcopy, -, hshows, hcopied⟩ := Walk.copy_shows h options.clone world
  refine ⟨tree, start, hcopy, ?_⟩
  have hnull : options.watched.prune = .setting .null := if_pos hprune
  have hrun : run =
      Transform.root .postOrder [watch visitors] (.setting .null) fuel tree ⟨start, [], world⟩ := by
    show transform fuel [watch visitors] options.watched root ⟨s, [], world⟩ = _
    rw [transform_eq, hnull, Walk.bind_apply]
    simp only [TransformOptions.watched, horder]
    show (Walk.copy options.clone root >>= _ : Walk (Watched σ) Value) _ = _
    rw [Walk.bind_apply, Walk.copy_world hcopy]
    rfl
  have hlength := hshows.length_le_cellCount (hcopied hnodup)
  have hvisits : Walk.Visits (Transform.root .postOrder [watch visitors] (.setting .null) fuel tree)
      ⟨start, [], world⟩ (Rose.postOrders (start.outlines tree)) fun _ after =>
        start.Keeps (fun _ => False) .null none after :=
    root_visits hvisitors fuel _ hshows (hcopied hnodup) hfuel hlength
      (Store.secures_alone fun _ => False.elim) fun _ _ => id
  rw [hrun]
  cases hroot : Transform.root .postOrder [watch visitors] (.setting .null) fuel tree
      ⟨start, [], world⟩ with
  | ok result after => exact ((Walk.Ends.iff_of_ok hroot).mp hvisits).1
  | error failure after =>
      obtain ⟨hfailure, part, hpart, hentries⟩ := (Walk.Ends.iff_of_error hroot).mp hvisits
      refine ⟨hfailure, ?_⟩
      rw [hentries]
      exact hpart

def raider : Visitor Unit :=
  .scripted
    (some (.acts [.edit .parent .pop, .edit .parent (.insert (.text "z")),
      .edit .node (.set "children" (.array [.text "y"]))] (.replace (.text "x"))))
    none

def rack : Tree :=
  .object [("type", .text "rack"), ("children", .array [.object [("type", .text "coat")],
    .object [("type", .text "hat")]])]

theorem transform_postOrder_immune_raider :
    rack.size < 9 ∧ ∃ result after,
      transform 9 [watch [raider]] (TransformOptions.inPlace Order.postOrder.setting).watched
        (Store.load rack {}).1 ⟨(Store.load rack {}).2, [], ()⟩ = .ok result after ∧
      entries after.world.1 =
        Rose.postOrders ((Store.load rack {}).2.outlines (Store.load rack {}).1) ∧
      (entries after.world.1).map (fun stand => (stand.depth, stand.index)) =
        [(1, 0), (1, 1), (0, 0)] := by
  have hsize : rack.size < 9 := by decide
  have hvisitors : ∀ visitor ∈ [raider], visitor.Confined := by
    intro visitor hvisitor
    rw [List.mem_singleton.mp hvisitor]
    exact Visitor.scripted_confined _ _
  obtain ⟨-, cells, hshows, hfresh⟩ := Store.load_shows rack {}
  let options : TransformOptions Unit := .inPlace Order.postOrder.setting
  have horder : Order.resolve options.order = .ok .postOrder := rfl
  have hprune : options.prune.isNull = true := rfl
  obtain ⟨-, tree, start, hcopy, hentries⟩ :=
    transform_postOrder_immune (by simp) hvisitors horder hprune hshows hfresh.nodup hsize ()
  cases hcopy
  exact ⟨hsize, _, _, rfl, hentries, rfl⟩

end ViewTree
