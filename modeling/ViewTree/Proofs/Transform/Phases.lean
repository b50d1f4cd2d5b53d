import ViewTree.Proofs.Transform.Coverage

namespace ViewTree

open Store (Cell Plot)

/-- Whether a node is at the top makes a difference to primitives only. -/
theorem Visit.Lawful.atTop {order : Order} {prunes : Bool} {reached : Prop} {visit : Visit}
    (h : visit.Lawful order prunes reached False) (hnode : ∀ a, visit.stand.node ≠ .atom a) :
    visit.Lawful order prunes reached True := by
  refine ⟨h.entered, ?_, h.asked⟩
  have hatom : ¬ ∃ a, visit.stand.node = .atom a := fun ⟨a, ha⟩ => hnode a ha
  simpa [hatom] using h.left

theorem Recorded.atTop {order : Order} {prunes : Bool} {reached : Prop} {stand : Stand}
    {below : List (Rose Stand)} {notices : List Notice} {records : List (Rose Visit)}
    (h : Recorded order prunes reached False [.mk stand below] notices records)
    (hnode : ∀ a, stand.node ≠ .atom a) :
    Recorded order prunes reached True [.mk stand below] notices records := by
  refine ⟨h.shape, h.lists, fun record hrecord => ?_⟩
  have hlawful := h.lawful record hrecord
  have hshape : record.map Visit.stand = .mk stand below := by
    have hmem := List.mem_map_of_mem (f := Rose.map Visit.stand) hrecord
    rw [h.shape] at hmem
    exact List.mem_singleton.mp hmem
  cases hlawful with
  | mk hvisit hbelow =>
      rw [Rose.map_mk] at hshape
      obtain ⟨rfl, -⟩ := Rose.mk.inj hshape
      exact .mk (hvisit.atTop hnode) hbelow

theorem Store.outlineTo_top (s : Store) (level : Nat) (stand : Stand) :
    ∃ below, s.outlineTo level stand = .mk stand below := by
  cases level with
  | zero => exact ⟨_, rfl⟩
  | succ level => exact ⟨_, rfl⟩

theorem Walk.Records.atTop {order : Order} {prunes : Bool} {walk : Walk (Watched σ) α}
    {session : Session (Watched σ)} {s : Store} {level : Nat} {stand : Stand}
    {post : α → Store → Prop}
    (h : Records order prunes True False walk session [s.outlineTo level stand] post)
    (hnode : ∀ a, stand.node ≠ .atom a) :
    Records order prunes True True walk session [s.outlineTo level stand] post := by
  obtain ⟨below, hbelow⟩ := s.outlineTo_top level stand
  obtain ⟨value, after, notices, records, hwalk, hworld, hrecorded, hafter⟩ := h
  rw [hbelow] at hrecorded ⊢
  exact ⟨value, after, notices, records, hwalk, hworld, hrecorded.atTop hnode, hafter⟩

section

variable {visitors : List (Visitor σ)} {prune : Prune σ} {order : Order}

theorem run_records (hvisitors : ∀ visitor ∈ visitors, visitor.Aloof)
    (hprune : Aloof prune.test) {fuel : Nat} {session : Session (Watched σ)} {kept : Cell → Prop}
    {plot : Plot} (h : session.store.Ready kept [plot]) (hvalid : plot.tree.isValid = true)
    (hsize : plot.tree.size ≤ fuel) {level : Nat} (hlevel : plot.cells.length ≤ level) :
    Walk.Records order (!prune.isNull) True False
      ((recordedTour visitors prune order).run order fuel [plot.slot]) session
      [session.store.outlineTo level (plot.slot.stand 0)]
      fun _ after => session.store.Tends kept after := by
  have hdepth : order ≠ .breadthFirst → Walk.Records order (!prune.isNull) True False
      ((recordedTour visitors prune order).depthFirst fuel plot.slot 0) session
      [session.store.outlineTo level (plot.slot.stand 0)]
      fun _ after => session.store.Tends kept after :=
    fun horder => depthFirst_records hvisitors hprune horder fuel h hvalid hsize hlevel 0
  cases order with
  | breadthFirst =>
      have hready : session.store.Ready kept ([(plot, 0)].map Prod.fst) := h
      have hlength : (Store.area ([(plot, 0)].map Prod.fst)).length ≤ level := by
        simpa [Store.area] using hlevel
      have hqueue := breadthFirst_records hvisitors hprune fuel hready (by simpa using hvalid)
        (by simpa [Tree.sizes] using hsize) hlength
      exact hqueue.andThen fun _ after hafter => ⟨(), after.store, rfl, hafter⟩
  | _ => exact (hdepth (by simp)).andThen fun _ after hafter => ⟨(), after.store, rfl, hafter⟩

theorem boxed_records (hvisitors : ∀ visitor ∈ visitors, visitor.Aloof)
    (hprune : Aloof prune.test) {fuel level : Nat} {session : Session (Watched σ)}
    {kept : Cell → Prop} {t : Tree} {node : Value} {cells : List Cell}
    (h : session.store.Shows t node cells) (hnodup : cells.Nodup) (hvalid : t.isValid = true)
    (hsize : t.size ≤ fuel) (hlevel : cells.length ≤ level)
    (hkept : ∀ cell, kept cell → session.store.Contains cell) (hapart : ∀ cell ∈ cells, ¬ kept cell)
    (hnode : ∀ ref, node ≠ .array ref) (hatom : ∀ a, node ≠ .atom a) :
    Walk.Records order (!prune.isNull) True True (do
        let box ← Walk.box node
        Transform.run fuel order [watch visitors] prune.watched box
        Walk.unbox box) session
      [session.store.outlineTo level (Context.alone.stand node)]
      fun _ after => session.store.Tends kept after := by
  obtain ⟨s, notices, world⟩ := session
  let slot : Slot := ⟨node, none, 0, .element ⟨s.arrays.size⟩ 0⟩
  let boxed := (Store.newArray [node] s).2
  have hextends : s.Extends boxed := Store.newArray_extends [node] s
  have hready : boxed.Ready kept [⟨slot, t, cells⟩] := h.ready_boxed hnodup hkept hapart hnode
  have houtline : boxed.outlineTo level (slot.stand 0) =
      s.outlineTo level (Context.alone.stand node) :=
    Store.Shows.outlineTo_frame h hextends.grows (hextends.agrees.mono h.contains) hlevel hlevel
  have hrun : Walk.Records order (!prune.isNull) True False
      ((recordedTour visitors prune order).run order fuel [slot]) ⟨boxed, notices, world⟩
      [boxed.outlineTo level (slot.stand 0)] fun _ after => boxed.Tends kept after :=
    @run_records _ visitors prune order hvisitors hprune fuel ⟨boxed, notices, world⟩ kept
      ⟨slot, t, cells⟩ hready hvalid hsize level hlevel
  rw [houtline] at hrun
  have hroots : Walk.Records order (!prune.isNull) True False
      (Transform.run fuel order [watch visitors] prune.watched ⟨s.arrays.size⟩)
      ⟨boxed, notices, world⟩ [s.outlineTo level (Context.alone.stand node)]
      fun _ after => boxed.Tends kept after := by
    rw [← Store.rootSlots_box hnode s] at hrun
    exact hrun
  apply Walk.Records.atTop _ hatom
  apply Walk.Records.step rfl rfl
  apply hroots.andThen
  intro _ after hafter
  exact ⟨_, after.store, rfl, (hextends.tends hkept).trans hafter⟩

/-- A primitive at the top level is entered, and left unless it was replaced, in every order. -/
theorem primitive_records (hvisitors : ∀ visitor ∈ visitors, visitor.Aloof)
    {session : Session (Watched σ)} {kept : Cell → Prop} (a : Atom)
    (hkept : ∀ cell, kept cell → session.store.Contains cell) (prunes : Bool) :
    Walk.Records order prunes True True (Transform.primitive [watch visitors] (.atom a)) session
      [.mk (Context.alone.stand (.atom a)) []]
      fun _ after => session.store.Tends kept after := by
  obtain ⟨s, notices, world⟩ := session
  let stand := Context.alone.stand (.atom a)
  obtain ⟨replacement, next, middle, henter, hentered, hextends, hstand⟩ :=
    enterPhase_aloof hvisitors s notices world (.atom a) .alone
  let visit : Visit := ⟨stand, some (replacement.isSome, next.skipping), none, replacement.isNone⟩
  have hlawful : visit.Lawful order prunes True True := by
    refine Visit.lawful_of_entered ?_ (by simp [stand, Context.stand])
    cases replacement <;> simp [stand, Context.stand]
  have hnode : ∀ log, order.Lists log [.mk visit []] →
      Recorded order prunes True True [.mk stand []] log [.mk visit []] :=
    fun log hlog => .node hlawful rfl .nil hlog
  have hlists : order.Lists (visit.entering ++ visit.leaving) [.mk visit []] := by
    have hlog : visit.entering ++ visit.leaving = Rose.preNoticesAll [.mk visit []] :=
      (List.append_nil _).symm
    cases order with
    | preOrder => exact hlog
    | postOrder => exact (List.append_nil _).symm
    | breadthFirst => exact .of_eq hlog
  cases replacement with
  | some replacement =>
      refine ⟨replacement, middle, _, _, ?_, ?_, hnode _ hlists, hextends.tends hkept⟩
      · rw [Transform.primitive, Walk.bind_apply, henter]
        rfl
      · exact hentered
  | none =>
      obtain ⟨middle, middleNotices, middleWorld⟩ := middle
      obtain ⟨⟨given, last⟩, after, hexit, hleft, hlater⟩ :=
        exitPhase_aloof hvisitors middle middleNotices middleWorld (.atom a) next
      refine ⟨given.getD (.atom a), after, _, _, ?_, ?_, hnode _ hlists,
        (hextends.trans hlater).tends hkept⟩
      · rw [Transform.primitive, Walk.bind_apply, henter]
        simp only [Walk.bind_apply, hexit]
        cases given <;> rfl
      · simp only at hentered
        rw [hleft, hentered, hstand, List.append_assoc]
        rfl

/-- What it takes for roots to be walked, arrays of them among them. -/
def VisitsRoot (visitors : List (Visitor σ)) (prune : Prune σ) (order : Order) (fuel : Nat) :
    Prop :=
  ∀ {session : Session (Watched σ)} {kept : Cell → Prop} {t : Tree} {value : Value}
    {cells : List Cell}, session.store.Shows t value cells → cells.Nodup → t.isValid = true →
    t.size < fuel → ∀ {level : Nat}, cells.length ≤ level →
    (∀ cell, kept cell → session.store.Contains cell) → (∀ cell ∈ cells, ¬ kept cell) →
    Walk.Records order (!prune.isNull) True True
      (Transform.root order [watch visitors] prune.watched fuel value) session
      (session.store.outlinesTo level value) fun _ after => session.store.Tends kept after

theorem forM_items_records {fuel : Nat} (hroot : VisitsRoot visitors prune order fuel)
    {ref : ArrayRef} {kept : Cell → Prop} {level : Nat} {trees : List Tree} :
    ∀ {session : Session (Watched σ)} {values : List Value} {cells : List Cell} (start : Nat),
      session.store.ShowsItems trees values cells → cells.Nodup →
      Tree.everyItem Tree.isNode trees = true →
      Tree.sizes trees < fuel → cells.length ≤ level →
      (∀ cell, kept cell → session.store.Contains cell) → (∀ cell ∈ cells, ¬ kept cell) →
      ¬ kept (.array ref) → .array ref ∉ cells → session.store.Contains (.array ref) →
      start + values.length ≤ (session.store.items ref).length →
      Walk.Records order (!prune.isNull) True True ((values.zipIdx start).forM fun entry => do
          let result ← Transform.root order [watch visitors] prune.watched fuel entry.1
          Walk.write (.element ref entry.2) result) session
        (values.flatMap (session.store.outlinesTo level))
        fun _ after => session.store.Tends kept after := by
  induction trees with
  | nil =>
      intro session values cells start h _ _ _ _ _ _ _ _ _ _
      cases h
      exact .pure (.refl _ kept)
  | cons tree trees ih =>
      intro session values cells start h hnodup hvalid hsize hlevel hkept hapart href hself has
        hroom
      cases h with
      | @cons _ _ value values cells rest head tail =>
          obtain ⟨hcells, hrest, -⟩ := List.nodup_append.mp hnodup
          obtain ⟨hfree, hplace⟩ := Store.waiting_apart hnodup hapart href hself
          rw [Tree.everyItem, Bool.and_eq_true] at hvalid
          rw [Tree.sizes] at hsize
          rw [List.length_append] at hlevel
          rw [List.length_cons] at hroom
          let waiting : Cell → Prop := fun cell => kept cell ∨ cell ∈ rest
          have hwaiting : ∀ cell, waiting cell → session.store.Contains cell :=
            fun cell hcell => hcell.elim (hkept cell) (tail.contains cell)
          have hhas : session.store.has (.element ref start) = true := by
            rw [Store.has, decide_eq_true_eq]
            omega
          have hhead := hroot head hcells hvalid.1 (by omega) (Nat.le_of_add_right_le hlevel)
            hwaiting hfree
          have hitem : Walk.Records order (!prune.isNull) True True (do
              let result ← Transform.root order [watch visitors] prune.watched fuel value
              Walk.write (.element ref start) result) session
              (session.store.outlinesTo level value)
              fun _ after => session.store.Tends waiting after := by
            apply hhead.andThen
            intro result middle hmiddle
            exact ⟨(), _, Store.write_apply (hmiddle.has hhas) middle.world,
              hmiddle.trans (Store.write_tends hplace middle.store result)⟩
          rw [List.zipIdx_cons, List.flatMap_cons]
          apply hitem.bind
          intro _ middle hmiddle
          have hagrees := hmiddle.agrees.mono fun cell (hcell : cell ∈ rest) => Or.inr hcell
          have hlengths : start + 1 + values.length ≤ (middle.store.items ref).length := by
            rw [hmiddle.lengths ref has]
            omega
          have hmore := ih (start + 1) (tail.frame hmiddle.grows hagrees) hrest hvalid.2 (by omega)
            (Nat.le_of_add_left_le hlevel)
            (fun cell hcell => hmiddle.grows.contains (hkept cell hcell))
            (fun cell hcell => hapart cell (List.mem_append_right _ hcell)) href
            (fun hmem => hself (List.mem_append_right _ hmem)) (hmiddle.grows.contains has) hlengths
          rw [tail.outlinesTo_frame hmiddle.grows hagrees (Nat.le_of_add_left_le hlevel)
            (Nat.le_of_add_left_le hlevel)] at hmore
          exact hmore.mono fun _ _ hafter => (hmiddle.mono fun _ => .inl).trans hafter

theorem root_records (hvisitors : ∀ visitor ∈ visitors, visitor.Aloof)
    (hprune : Aloof prune.test) (fuel : Nat) : VisitsRoot visitors prune order fuel := by
  induction fuel with
  | zero =>
      intro _ _ _ _ _ _ _ _ hsize
      cases hsize
  | succ fuel ih =>
      intro session kept t value cells h hnodup hvalid hsize level hlevel hkept hapart
      have hshows := h
      cases h with
      | @array trees ref rest has items =>
          obtain ⟨hself, hrest⟩ := List.nodup_cons.mp hnodup
          rw [Tree.size] at hsize
          rw [List.length_cons] at hlevel
          obtain ⟨level, rfl⟩ : ∃ fewer, level = fewer + 1 := ⟨level - 1, by omega⟩
          have hloop := forM_items_records ih 0 items hrest hvalid (by omega)
            (Nat.le_of_succ_le_succ hlevel) hkept
            (fun cell hcell => hapart cell (List.mem_cons_of_mem _ hcell))
            (hapart _ List.mem_cons_self) hself has (Nat.zero_add _).le
          exact hloop.andThen fun _ after hafter => ⟨_, after.store, rfl, hafter⟩
      | atom a =>
          have hobject : ∀ ref, (Context.alone.stand (.atom a)).node ≠ .object ref := by
            simp [Context.stand]
          have hprimitive := Tree.isPrimitive_of_isValid hvalid
          rw [Store.outlinesTo_of_ne_array (by simp), Store.outlineTo_of_ne_object hobject,
            Transform.root, if_pos hprimitive]
          exact primitive_records hvisitors a hkept _
      | tuple items => cases hvalid
      | object has members =>
          rw [Store.outlinesTo_of_ne_array (by simp)]
          exact boxed_records hvisitors hprune hshows hnodup hvalid (Nat.le_of_lt_succ hsize) hlevel
            hkept hapart (by simp) (by simp)

end

/-- Which nodes get which phases, and in what order.  Aloof visitors with an aloof question about
descent come to an end on every valid tree.  The phases they run are listed from records in the
shape of the tree, at most one of each kind at each node: a node is entered unless a node above it
bars the walk, left if it was entered and not replaced, unless the walk is breadth-first below the
top, and the question is asked once at each structured node entered with a clear latch. -/
theorem transform_phases_lawful {visitors : List (Visitor σ)} (hsome : visitors ≠ [])
    (hvisitors : ∀ visitor ∈ visitors, visitor.Aloof) {options : TransformOptions σ}
    (hprune : Aloof options.prune.test) {order : Order}
    (horder : Order.resolve options.order = .ok order) {s : Store} {t : Tree} {root : Value}
    {cells : List Cell} (h : s.Shows t root cells) (hnodup : cells.Nodup)
    (hvalid : t.isValid = true) {fuel : Nat} (hfuel : t.size < fuel) (world : σ) :
    ∃ result after tree start records,
      transform fuel [watch visitors] options.watched root ⟨s, [], world⟩ = .ok result after ∧
      transform fuel visitors options root ⟨s, world⟩ =
        .ok result ⟨after.store, after.world.2⟩ ∧
      Walk.copy options.clone root ⟨s, world⟩ = .ok tree ⟨start, world⟩ ∧
      records.map (Rose.map Visit.stand) = start.outlines tree ∧
      order.Lists after.world.1 records ∧
      ∀ record ∈ records, ∀ above visit, record.Holds above visit →
        (visit.entered.isSome = true ↔ ∀ other ∈ above, ¬ other.Bars order) ∧
        (visit.left = true ↔ (∃ skipping, visit.entered = some (false, skipping)) ∧
          (order ≠ .breadthFirst ∨ above = [] ∧ ∃ a, visit.stand.node = .atom a)) ∧
        (visit.asked.isSome = true ↔ visit.entered.isSome = true ∧ options.prune.isNull = false ∧
          (∃ ref, visit.stand.node = .object ref) ∧
          (order = .postOrder ∨ visit.entered = some (false, false))) := by
  obtain ⟨tree, start, copied, hcopy, -, hshows, hcopied⟩ := Walk.copy_shows h options.clone world
  have hlength := hshows.length_le_cellCount (hcopied hnodup)
  have hrecords : Walk.Records order (!options.prune.isNull) True True
      (Transform.root order [watch visitors] options.prune.watched fuel tree) ⟨start, [], world⟩
      (start.outlines tree) fun _ after => start.Tends (fun _ => False) after :=
    root_records hvisitors hprune fuel hshows (hcopied hnodup) hvalid hfuel hlength
      (fun _ => False.elim) fun _ _ => id
  obtain ⟨result, after, notices, records, hroot, hworld, hrecorded, -⟩ := hrecords
  have hwatched : transform fuel [watch visitors] options.watched root ⟨s, [], world⟩ =
      .ok result after := by
    rw [transform_eq, Walk.bind_apply]
    simp only [TransformOptions.watched, horder]
    show (Walk.copy options.clone root >>= _ : Walk (Watched σ) Value) _ = _
    rw [Walk.bind_apply, Walk.copy_world hcopy]
    exact hroot
  refine ⟨result, after, tree, start, records, hwatched, ?_, hcopy, hrecorded.shape, ?_, ?_⟩
  · rw [transform_unwatched hsome fuel options root s [] world, hwatched, Transit.result]
    exact congrArg (EStateM.Result.ok result) (untrace_session _ _ _)
  · rw [hworld]
    exact hrecorded.lists
  · intro record hrecord above visit hholds
    have hvisit := (hrecorded.lawful record hrecord).visit hholds
    refine ⟨by simpa using hvisit.entered, ?_, ?_⟩
    · simpa using hvisit.left
    · simpa [hvisit.entered] using hvisit.asked

def usher : Visitor Unit :=
  .scripted
    (some (.look fun view _ =>
      if view.node.label = "drawer" then .act .skip (.done .noChange)
      else if view.node.label = "box" then .done (.replace (.text "gone"))
      else .done .nothing))
    (some (.done .plain))

def discreet : Prune Unit :=
  .scripted (.look fun view _ => .done (view.node.label = "safe"))

def attic : Tree :=
  .object [("type", .text "attic"), ("children", .array [
    .object [("type", .text "drawer"), ("children", .text "letter")],
    .object [("type", .text "box"), ("children", .text "hat")],
    .object [("type", .text "safe"), ("children", .text "jewel")], .text "dust"])]

theorem transform_phases_lawful_attic :
    attic.isValid = true ∧ attic.size < 20 ∧ ∃ result after records,
      transform 20 [watch [usher]]
        ({ prune := discreet } : TransformOptions Unit).watched
        (Store.load attic {}).1 ⟨(Store.load attic {}).2, [], ()⟩ = .ok result after ∧
      after.world.1 = Rose.preNoticesAll records ∧
      (entries after.world.1).map (fun stand => (stand.depth, stand.index)) =
        [(0, 0), (1, 0), (1, 1), (1, 2), (1, 3)] := by
  have hvalid : attic.isValid = true := by decide
  have hsize : attic.size < 20 := by decide
  have hvisitors : ∀ visitor ∈ [usher], visitor.Aloof := by
    refine List.forall_mem_singleton.mpr (Visitor.scripted_aloof ?_ ?_)
    · intro script hscript
      obtain rfl := Option.some.inj hscript
      refine .look fun view _ => ?_
      split_ifs
      · exact .act rfl (.done rfl)
      · exact .done rfl
      · exact .done rfl
    · intro script hscript
      obtain rfl := Option.some.inj hscript
      exact .done rfl
  obtain ⟨-, cells, hshows, hfresh⟩ := Store.load_shows attic {}
  let options : TransformOptions Unit := { prune := discreet }
  have hprune : Aloof options.prune.test := Prune.scripted_aloof (.look fun _ _ => .done trivial)
  have horder : Order.resolve options.order = .ok .preOrder := rfl
  obtain ⟨result, after, tree, start, records, hrun, -, -, -, hlists, -⟩ :=
    transform_phases_lawful (by simp) hvisitors hprune horder hshows hfresh.nodup hvalid hsize ()
  have hstands : (match transform 20 [watch [usher]] options.watched (Store.load attic {}).1
        ⟨(Store.load attic {}).2, [], ()⟩ with
      | .ok _ after => (entries after.world.1).map fun stand => (stand.depth, stand.index)
      | .error _ _ => []) = [(0, 0), (1, 0), (1, 1), (1, 2), (1, 3)] := by
    decide +kernel
  rw [hrun] at hstands
  exact ⟨hvalid, hsize, result, after, records, hrun, hlists, hstands⟩

end ViewTree
