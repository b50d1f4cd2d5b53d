import ViewTree.Proofs.Transform.Fulfilment

namespace ViewTree

open Store (Cell)
open Errand (ground)

namespace Rules

variable (rules : Rules)

def wholeRevision (t : Tree) : Except Failure Tree :=
  (t.reviseTop rules.visit).outcome ()

def wholeRevisions (items : List Tree) : Except Failure (List Tree) :=
  (Tree.reviseTops rules.visit items).outcome ()

theorem wholeRevision_array (items : List Tree) :
    rules.wholeRevision (.array items) = Tree.array <$> rules.wholeRevisions items := by
  rw [wholeRevision, Tree.reviseTop, Course.outcome_bind_unit]
  rfl

theorem wholeRevisions_cons (item : Tree) (items : List Tree) :
    rules.wholeRevisions (item :: items) = (do
      let first ← rules.wholeRevision item
      let others ← rules.wholeRevisions items
      return first :: others) := by
  simp only [wholeRevisions, wholeRevision, Tree.reviseTops, Course.outcome_bind_unit,
    Course.outcome_pure]
  rfl

theorem wholeRevision_of_ne_array {t : Tree} (harray : t.isArray = false) :
    rules.wholeRevision t = rules.revision none 0 t 0 := by
  rw [wholeRevision, Tree.reviseTop_eq_revise _ harray, revision]

/-- The stands that a walk from the top level of a value comes to. -/
def reachTops (s : Store) : Nat → Value → List Stand
  | 0, .array _ => []
  | level + 1, .array ref => (s.items ref).flatMap (reachTops s level)
  | level, node => rules.reachTo s level (Context.alone.stand node)

variable {rules}

theorem reachTops_of_ne_array {s : Store} {node : Value} (h : ∀ ref, node ≠ .array ref)
    (level : Nat) : rules.reachTops s level node =
      rules.reachTo s level (Context.alone.stand node) := by
  cases node with
  | array ref => exact absurd rfl (h ref)
  | _ => cases level <;> rfl

mutual
theorem reachTops_frame {s after : Store} {t : Tree} {value : Value} {cells : List Cell}
    (h : s.Shows t value cells) (hgrows : s.Grows after)
    (hagrees : Store.AgreesOn (· ∈ cells) s after) {level later : Nat}
    (hlevel : cells.length ≤ level) (hlater : cells.length ≤ later) :
    rules.reachTops after later value = rules.reachTops s level value := by
  have halone : ∀ s : Store, s.Named Context.alone.parent none := fun _ => .none
  cases h with
  | @array trees ref rest has items =>
      rw [List.length_cons] at hlevel hlater
      obtain ⟨level, rfl⟩ : ∃ fewer, level = fewer + 1 := ⟨level - 1, by omega⟩
      obtain ⟨later, rfl⟩ : ∃ fewer, later = fewer + 1 := ⟨later - 1, by omega⟩
      rw [reachTops, reachTops, hagrees.items ref List.mem_cons_self]
      exact reachTops_frameItems items hgrows (hagrees.mono fun _ => List.mem_cons_of_mem _)
        (by omega) (by omega)
  | object has members =>
      rw [reachTops_of_ne_array (by simp), reachTops_of_ne_array (by simp)]
      exact reachTo_frame (.object has members) (halone s) (halone after) hgrows hagrees hlevel hlater
  | atom a =>
      rw [reachTops_of_ne_array (by simp), reachTops_of_ne_array (by simp),
        reachTo_of_ne_object (by simp [Context.stand]),
        reachTo_of_ne_object (by simp [Context.stand])]
  | tuple items =>
      rw [reachTops_of_ne_array (by simp), reachTops_of_ne_array (by simp),
        reachTo_of_ne_object (by simp [Context.stand]),
        reachTo_of_ne_object (by simp [Context.stand])]

theorem reachTops_frameItems {s after : Store} {trees : List Tree} {values : List Value}
    {cells : List Cell} (h : s.ShowsItems trees values cells) (hgrows : s.Grows after)
    (hagrees : Store.AgreesOn (· ∈ cells) s after) {level later : Nat}
    (hlevel : cells.length ≤ level) (hlater : cells.length ≤ later) :
    values.flatMap (rules.reachTops after later) = values.flatMap (rules.reachTops s level) := by
  cases h with
  | nil => rfl
  | cons head tail =>
      rw [List.length_append] at hlevel hlater
      have hhead := reachTops_frame head hgrows
        (hagrees.mono fun _ => List.mem_append_left _) (Nat.le_of_add_right_le hlevel)
        (Nat.le_of_add_right_le hlater)
      have htail := reachTops_frameItems tail hgrows
        (hagrees.mono fun _ => List.mem_append_right _) (Nat.le_of_add_left_le hlevel)
        (Nat.le_of_add_left_le hlater)
      rw [List.flatMap_cons, List.flatMap_cons, hhead, htail]
end

end Rules

/-- The orders in which a node is entered before its children are visited. -/
def Order.joining? : Order → Option Tour.Joining
  | .preOrder => some .before
  | .breadthFirst => some .behind
  | .postOrder => none

/-- A value has become what it is to become, and the nodes in reach have been entered. -/
def Rules.Reworked (rules : Rules) (s : Store) (notices : List Notice) (value : Value)
    (cells : List Cell) (given : Value) (result : Tree) (after : Session (Watched σ)) : Prop :=
  s.ChangesOnly cells after.store ∧ s.MadeOf cells after.store given result ∧
    (entries after.world.1).Perm (entries notices ++ rules.reachTops s cells.length value)

section

variable {rules : Rules} {visitors : List (Visitor (Watched σ))} {prune : Prune (Watched σ)}
  (hgoverns : rules.Governs visitors prune) {order : Order} {joining : Tour.Joining}
  (horder : order.joining? = some joining)

include hgoverns

theorem Rules.Governs.onlyArrives : (Transform.tour visitors prune .preOrder).OnlyArrives := by
  intro kind slot ctx
  show Transform.leaveNode visitors slot ctx = pure ()
  rw [Transform.leaveNode, hgoverns.exit, pure_bind]

theorem primitive_yields {a : Atom} (hprimitive : a.isPrimitive = true) (s : Store)
    (notices : List Notice) (world : σ) :
    Walk.Yields (Transform.primitive visitors (.atom a)) (rules.wholeRevision (.atom a))
      ⟨s, notices, world⟩ (rules.Reworked s notices (.atom a) []) := by
  have hshows : s.Shows (.atom a) (.atom a) [] := .atom a
  have halone : s.Named Context.alone.parent none := .none
  have hview : Context.alone.view s (.atom a) = (Tree.atom a).atFirst none 0 0 :=
    Context.view_eq hshows halone
  have henter := hgoverns.enter notices world hshows halone
  rw [hview] at henter
  have hclassify : ((Tree.atom a).atFirst none 0 0).node.kind = .ok .primitive := by
    simp only [Tree.atFirst, Tree.kind, Tree.classify, Atom.classify, hprimitive, if_true]
  rw [rules.wholeRevision_of_ne_array rfl, Rules.revision_eq rfl,
    Rules.verdict_of_ne_structured hclassify (by decide)]
  unfold Transform.primitive
  unfold Walk.Yields at henter
  split at henter
  · next given after said hwalk hsaid =>
      obtain ⟨hextends, -, -, hmade, hlog⟩ := henter
      obtain ⟨value, next⟩ := given
      obtain ⟨result, seen⟩ := said
      have hchanges := hextends.changesOnly []
      rw [hsaid]
      refine .step hwalk ?_
      simp only at hmade hlog ⊢
      cases hmade with
      | some hmade => exact .pure ⟨hchanges, hmade, .of_eq hlog⟩
      | none =>
          have hexit : runPhase .exit visitors (.atom a) next after = .ok (none, next) after := by
            rw [hgoverns.exit]
            rfl
          exact .step hexit (.pure ⟨hchanges, ⟨[], .atom a, by simp⟩, .of_eq hlog⟩)
  · next hwalk hsaid =>
      rw [hsaid]
      exact .of_error (by rw [Walk.bind_apply, hwalk]) _
  · exact henter.elim

include horder

theorem run_of_sweeps {fuel : Nat} {slot : Slot} {session : Session (Watched σ)}
    {result : EStateM.Result Failure (Session (Watched σ)) PUnit}
    (h : (Transform.tour visitors prune .preOrder).Sweeps joining fuel [(slot, 0)] session result) :
    (Transform.tour visitors prune order).run order fuel [slot] session = result := by
  cases order with
  | postOrder => cases horder
  | preOrder =>
      cases horder
      rw [Tour.run, List.forM, List.forM, bind_pure_unit]
      exact h.depthFirst hgoverns.onlyArrives
  | breadthFirst =>
      cases horder
      rw [Tour.run, List.forM, List.forM, bind_pure_unit]
      exact h.breadthFirst

theorem boxed_yields {s : Store} {t : Tree} {value : Value} {cells : List Cell}
    (h : s.Shows t value cells) (hnodup : cells.Nodup) (harray : t.isArray = false) {fuel : Nat}
    (hsize : t.size ≤ fuel) (notices : List Notice) (world : σ) :
    Walk.Yields (do
        let box ← Walk.box value
        Transform.run fuel order visitors prune box
        Walk.unbox box) (rules.wholeRevision t) ⟨s, notices, world⟩
      (rules.Reworked s notices value cells) := by
  have hextends := Store.newArray_extends [value] s
  have hbox : ¬ s.Contains (.array ⟨s.arrays.size⟩) := Nat.lt_irrefl _
  have hvalue := h.ne_array harray
  let errand : Errand := ⟨⟨⟨value, none, 0, .element ⟨s.arrays.size⟩ 0⟩, t, cells⟩, none, 0⟩
  have hground : ground [errand] = cells := List.append_nil cells
  have hposted : (Store.newArray [value] s).2.Posted [errand] :=
    (Store.held_box h).posted harray trivial hnodup 0
  have hfuel : Tree.sizes ([errand].map fun errand => errand.tree) ≤ fuel := hsize
  obtain ⟨result, hsweeps, hended⟩ := sweeps hgoverns joining hposted hfuel notices world
  have hrun : Transform.run fuel order visitors prune ⟨s.arrays.size⟩
      ⟨(Store.newArray [value] s).2, notices, world⟩ = result := by
    rw [Transform.run, Walk.bind_apply]
    show (Transform.tour visitors prune order).run order fuel
      ((Store.newArray [value] s).2.rootSlots ⟨s.arrays.size⟩) _ = result
    rw [Store.rootSlots_box hvalue]
    exact run_of_sweeps hgoverns horder hsweeps
  rw [rules.wholeRevision_of_ne_array harray]
  refine .step rfl ?_
  cases result with
  | error failure after =>
      obtain ⟨_, hmem, cause, hcause⟩ := hended
      obtain rfl := List.mem_singleton.mp hmem
      have hrevision : rules.revision none 0 t 0 = .error cause := hcause
      rw [hrevision]
      exact .of_error (by rw [Walk.bind_apply, hrun]) cause
  | ok _ after =>
      obtain ⟨hdone, hlog⟩ := hended
      obtain ⟨next, result, hresult, hat, hmade⟩ := hdone.became errand List.mem_cons_self
      have hrevision : rules.revision none 0 t 0 = .ok result := hresult
      rw [hrevision]
      have hheld : (after.store.items ⟨s.arrays.size⟩).headD .null = next := by
        have hhead : (after.store.items ⟨s.arrays.size⟩)[0]? = some next := hat
        rw [List.headD_eq_head?_getD, List.head?_eq_getElem?, hhead, Option.getD_some]
      refine .step hrun (.of_ok rfl ⟨?_, ?_, ?_⟩)
      · refine hdone.rewrites.changesOnly.earlier hextends fun cell hcell => ?_
        rw [hground] at hcell
        exact (List.mem_cons.mp hcell).elim (fun heq => .inr (heq ▸ hbox)) Or.inl
      · rw [hheld]
        exact hmade.earlier hextends.grows
      · have hstand : (Context.alone.stand value).parent = none := rfl
        rw [List.flatMap_singleton] at hlog
        rw [Rules.reachTops_of_ne_array hvalue]
        have hshows : s.Shows t (Context.alone.stand value).node cells := h
        rw [← Rules.reachTo_frame hshows .none .none hextends.grows
          (hextends.agrees.mono h.contains) (Nat.le_refl _) (Nat.le_refl _)]
        exact hlog

end

section

variable {rules : Rules} {visitors : List (Visitor (Watched σ))} {prune : Prune (Watched σ)}
  {order : Order} {joining : Tour.Joining}

mutual
theorem root_yields (hgoverns : rules.Governs visitors prune)
    (horder : order.joining? = some joining) {s : Store} {t : Tree} {value : Value} {cells : List Cell}
    (h : s.Shows t value cells) (hnodup : cells.Nodup) {fuel : Nat} (hfuel : t.size < fuel)
    (notices : List Notice) (world : σ) :
    Walk.Yields (Transform.root order visitors prune fuel value) (rules.wholeRevision t)
      ⟨s, notices, world⟩ (rules.Reworked s notices value cells) := by
  obtain ⟨fuel, rfl⟩ : ∃ fewer, fuel = fewer + 1 := ⟨fuel - 1, by omega⟩
  have hsize : t.size ≤ fuel := Nat.le_of_lt_succ hfuel
  cases h with
  | atom a =>
      rw [Transform.root]
      split
      · next hatom => exact primitive_yields hgoverns hatom s notices world
      · exact boxed_yields hgoverns horder (.atom a) hnodup rfl hsize notices world
  | tuple items =>
      exact boxed_yields hgoverns horder (.tuple items) hnodup rfl hsize notices world
  | object has members =>
      exact boxed_yields hgoverns horder (.object has members) hnodup rfl hsize notices world
  | @array trees ref rest has items =>
      obtain ⟨hself, hrest⟩ := List.nodup_cons.mp hnodup
      have hsizes : Tree.sizes trees < fuel := by simp only [Tree.size] at hsize; omega
      have hitems := rootItems_yields hgoverns horder ⟨has, List.drop_zero, items, hrest, hself⟩
        (Nat.le_refl _) hsizes notices world
      rw [Transform.root, rules.wholeRevision_array, map_eq_pure_bind]
      refine .step rfl (hitems.bind ?_)
      rintro _ results after ⟨hdone, hlog⟩
      obtain ⟨hchanges, hmade⟩ := hdone.madeOf has
      exact .pure ⟨hchanges, hmade, hlog⟩

theorem rootItems_yields (hgoverns : rules.Governs visitors prune)
    (horder : order.joining? = some joining) {s : Store} {trees : List Tree} {ref : ArrayRef}
    {start : Nat} {values : List Value} {cells : List Cell} (h : s.Pending ref start trees values cells)
    {level : Nat} (hlevel : cells.length ≤ level) {fuel : Nat} (hfuel : Tree.sizes trees < fuel)
    (notices : List Notice) (world : σ) :
    Walk.Yields ((values.zipIdx start).forM fun (item, position) => do
        let result ← Transform.root order visitors prune fuel item
        Walk.write (.element ref position) result)
      (rules.wholeRevisions trees) ⟨s, notices, world⟩
      fun _ results after => s.Done ref start cells results after.store ∧
        (entries after.world.1).Perm
          (entries notices ++ values.flatMap (rules.reachTops s level)) := by
  have hshows := h.shows
  cases hshows with
  | nil => exact .pure ⟨h.done_nil, by simp⟩
  | @cons tree trees value values headCells rest head tail =>
      simp only [Tree.sizes] at hfuel
      rw [List.length_append] at hlevel
      have hsize : tree.size < fuel := by omega
      have hhead := root_yields hgoverns horder head (List.nodup_append.mp h.nodup).1 hsize notices world
      have hheld : s.Held ⟨value, none, start, .element ref start⟩ none tree headCells :=
        ⟨head, h.at?, fun hmem => h.apart (List.mem_append_left _ hmem), .none, by simp⟩
      have hwritten : Walk.Yields (do
            let result ← Transform.root order visitors prune fuel value
            Walk.write (.element ref start) result) (rules.wholeRevision tree) ⟨s, notices, world⟩
          fun _ first middle => s.Placed (.element ref start) headCells first middle.store ∧
            (entries middle.world.1).Perm (entries notices ++ rules.reachTops s level value) := by
        refine hhead.andThen fun result first ⟨middle, seen, later⟩ ⟨hchanges, hmade, hlog⟩ => ?_
        have hat := (hchanges.at? (Store.contains_of_at? hheld.place) hheld.apart).trans hheld.place
        have hreach : rules.reachTops s level value = rules.reachTops s headCells.length value :=
          Rules.reachTops_frame head (.refl s) (.refl _ s) (Nat.le_refl _) (by omega)
        exact .of_ok (Store.write_apply (Store.has_of_at? hat) _)
          ⟨hheld.placed_write hchanges hmade, hreach ▸ hlog⟩
      rw [List.zipIdx_cons, rules.wholeRevisions_cons]
      refine hwritten.bind ?_
      rintro _ first ⟨middle, seen, later⟩ ⟨hplaced, hlog⟩
      have hrest : rest.length ≤ level := by omega
      have hsizes : Tree.sizes trees < fuel := by omega
      have htail := rootItems_yields hgoverns horder (h.next tail hplaced) hrest hsizes seen later
      have hchanges := hplaced.changesOnly
      have hreach : values.flatMap (rules.reachTops middle level) =
          values.flatMap (rules.reachTops s level) :=
        Rules.reachTops_frameItems tail hchanges.grows
          (hchanges.agreesOn tail.contains h.rest_apart) hrest hrest
      rw [bind_pure_comp]
      refine htail.map ?_
      rintro _ others after ⟨hdone, hmore⟩
      rw [hreach] at hmore
      refine ⟨.cons h tail hplaced hdone, hmore.trans ?_⟩
      rw [List.flatMap_cons, ← List.append_assoc]
      exact hlog.append_right _
end

theorem transform_yields (hgoverns : rules.Governs visitors prune) (hvisitors : visitors ≠ [])
    (clone t : Tree) (world : σ) : ∃ stands, ∀ (order : Order) joining fuel,
      order.joining? = some joining → t.size < fuel →
      let run := t.transform fuel visitors
        { order := order.setting, clone := clone, prune := prune } ([], world)
      (∃ failure cause, run.1 = .error failure ∧ rules.wholeRevision t = .error cause) ∨
        ∃ result, run.1 = .ok result ∧ rules.wholeRevision t = .ok result ∧
          (entries run.2.1).Perm stands := by
  obtain ⟨-, cells, hshows, hfresh⟩ := Store.load_shows t {}
  obtain ⟨value, after, copied, hcopy, -, hcopied, hnodup⟩ :=
    Walk.copy_shows hshows clone (([], world) : Watched σ)
  refine ⟨rules.reachTops after copied.length value, fun order joining fuel horder hfuel => ?_⟩
  have hroot := root_yields hgoverns horder hcopied (hnodup hfresh.nodup) hfuel [] world
  have hwhole : Walk.Yields
      (transform fuel visitors { order := order.setting, clone := clone, prune := prune }
        (Store.load t {}).1) (rules.wholeRevision t) ⟨(Store.load t {}).2, [], world⟩
      (rules.Reworked after [] value copied) := by
    rw [transform_eq]
    refine .step rfl (.step hcopy ?_)
    rw [Transform.engage_eq_root hvisitors]
    exact hroot
  unfold Walk.Yields at hwhole
  unfold Tree.transform
  split at hwhole
  · next hwalk hsaid =>
      obtain ⟨-, ⟨parts, hparts, -⟩, hlog⟩ := hwhole
      refine .inr ⟨_, ?_, hsaid, ?_⟩
      · simp only [hwalk, hparts.read_eq]
      · simp only [hwalk]
        exact hlog
  · next failure last cause hwalk hsaid =>
      refine .inl ⟨failure, cause, ?_, hsaid⟩
      simp only [hwalk]
  · exact hwhole.elim

end

/-- A company that only enters as one visitor that is watched; there is nothing to watch of nobody. -/
def watchEntering (visitors : List (Visitor σ)) : List (Visitor (Watched σ)) :=
  if visitors.isEmpty then [] else [.entering (watchEnter visitors)]

/-- The stands at which the enter phases of a transform begin, in turn. -/
def Tree.entered (fuel : Nat) (visitors : List (Visitor σ)) (options : TransformOptions σ)
    (world : σ) (t : Tree) : List Stand :=
  ViewTree.entries (t.transform fuel (watchEntering visitors) options.watched ([], world)).2.1

theorem watchEntering_mirrors {visitors : List (Visitor σ)}
    (hvisitors : ∀ visitor ∈ visitors, visitor.exit? = none) :
    Company.Mirrors untrace (watchEntering visitors) visitors := by
  cases visitors with
  | nil => exact Company.mirrors_of_forall₂ .nil
  | cons visitor rest =>
      refine ⟨fun phase => ?_, rfl⟩
      cases phase with
      | enter => exact (watch_mirrors (List.cons_ne_nil visitor rest)).phase .enter
      | exit =>
          refine Asked.of_base rfl (fun given => ?_) fun node ctx => ?_
          · cases given with
            | none => rfl
            | some value => exact congrArg some value.above_empty
          · have hwatched : ∀ entering ∈ watchEntering (visitor :: rest),
                entering.hook? .exit = none := List.forall_mem_singleton.mpr rfl
            rw [runPhase_of_none hwatched, runPhase_of_none hvisitors]
            exact .pure id (none, ctx)

theorem Tree.transform_unwatched {visitors : List (Visitor σ)}
    (hvisitors : ∀ visitor ∈ visitors, visitor.exit? = none) (fuel : Nat)
    (options : TransformOptions σ) (world : σ) (t : Tree) :
    (t.transform fuel (watchEntering visitors) options.watched ([], world)).1 =
      (t.transform fuel visitors options world).1 := by
  have hoptions : options.watched.Mirrors untrace options :=
    ⟨rfl, rfl, options.prune.watched_mirrors⟩
  have hsame := transform_untrace (watchEntering_mirrors hvisitors) hoptions fuel
    (Store.load t {}).1 (Store.load t {}).2 [] world
  unfold Tree.transform
  simp only [hsame]
  cases ViewTree.transform fuel (watchEntering visitors) options.watched (Store.load t {}).1
      ⟨(Store.load t {}).2, [], world⟩ with
  | error failure after => rfl
  | ok result after =>
      obtain ⟨s, notices, later⟩ := after
      simp only [Transit.result, untrace_session, id]

theorem Tree.transform_nil {options : TransformOptions σ} {order : Order}
    (h : Order.resolve options.order = .ok order) (fuel : Nat) (world : σ) (t : Tree) :
    t.transform fuel [] options world = (.ok t, world) := by
  obtain ⟨-, cells, hshows, -⟩ := Store.load_shows t {}
  obtain ⟨value, after, copied, hcopy, -, hcopied, -⟩ :=
    Walk.copy_shows hshows options.clone world
  have hrun : ViewTree.transform fuel [] options (Store.load t {}).1 ⟨(Store.load t {}).2, world⟩ =
      .ok value ⟨after, world⟩ := by
    rw [transform_of_resolve h, Walk.bind_apply, hcopy]
    rfl
  unfold Tree.transform
  simp only [hrun, hcopied.read_eq]

def Caution.options (caution : Caution σ) (clone : Tree) (order : Order) : TransformOptions σ :=
  { order := order.setting, clone := clone, prune := caution.prune }

/-- For steady visitors that only enter, breadth first or in pre-order, in place or on a copy, a
transform fails in both orders or gives the same tree in both, and then the same nodes are entered. -/
theorem Tree.transform_breadthFirst {onlookers : List (Onlooker σ)}
    (honlookers : ∀ onlooker ∈ onlookers, onlooker.EntersSteadily) {caution : Caution σ}
    (hcaution : caution.meaning.Steady) (clone t : Tree) {fuel more : Nat} (hfuel : t.size < fuel)
    (hmore : t.size < more) (world : σ) :
    (∃ failure cause,
      (t.transform fuel (onlookers.map Onlooker.visitor) (caution.options clone .breadthFirst)
        world).1 = .error failure ∧
      (t.transform more (onlookers.map Onlooker.visitor) (caution.options clone .preOrder)
        world).1 = .error cause) ∨
    ∃ result,
      (t.transform fuel (onlookers.map Onlooker.visitor) (caution.options clone .breadthFirst)
        world).1 = .ok result ∧
      (t.transform more (onlookers.map Onlooker.visitor) (caution.options clone .preOrder)
        world).1 = .ok result ∧
      (t.entered fuel (onlookers.map Onlooker.visitor) (caution.options clone .breadthFirst)
        world).Perm
        (t.entered more (onlookers.map Onlooker.visitor) (caution.options clone .preOrder)
          world) := by
  have hexit : ∀ visitor ∈ onlookers.map Onlooker.visitor, visitor.exit? = none := by
    refine List.forall_mem_map.mpr fun onlooker honlooker => ?_
    rw [Onlooker.visitor, (honlookers onlooker honlooker).exit]
    rfl
  rw [← Tree.transform_unwatched hexit, ← Tree.transform_unwatched hexit]
  cases onlookers with
  | nil =>
      have hempty : ∀ (order : Order) (fuel : Nat), t.transform fuel (watchEntering [])
          (caution.options clone order).watched ([], world) = (.ok t, [], world) := fun order fuel =>
        Tree.transform_nil rfl fuel ([], world) t
      refine .inr ⟨t, congrArg Prod.fst (hempty .breadthFirst fuel),
        congrArg Prod.fst (hempty .preOrder more), ?_⟩
      unfold Tree.entered
      rw [List.map_nil, hempty, hempty]
  | cons first rest =>
      obtain ⟨stands, hruns⟩ := transform_yields
        (Rules.governs_watchEnter honlookers hcaution world) (List.cons_ne_nil _ _) clone t world
      have hbreadth := hruns .breadthFirst .behind fuel rfl hfuel
      have hdepth := hruns .preOrder .before more rfl hmore
      rcases hbreadth with ⟨failure, said, hbreadth, hsaid⟩ | ⟨result, hbreadth, hsaid, hstands⟩
      · rcases hdepth with ⟨cause, _, hdepth, -⟩ | ⟨_, -, hother, -⟩
        · exact .inl ⟨failure, cause, hbreadth, hdepth⟩
        · rw [hsaid] at hother
          cases hother
      · rcases hdepth with ⟨_, _, -, hother⟩ | ⟨_, hdepth, hother, hmoreStands⟩
        · rw [hsaid] at hother
          cases hother
        · obtain rfl := Except.ok.inj (hsaid.symm.trans hother)
          exact .inr ⟨result, hbreadth, hdepth, hstands.trans hmoreStands.symm⟩

def gardening : Script Nat Answer :=
  .look fun view _ => .act (.observe fun _ calls => calls + 1) (.done
    (if view.node.nodeType? == some "weed" then .replace (.array [.text "fern", .text "moss"])
    else if view.node.text?.isSome then .affix "<" ">" else .nothing))

theorem gardening_quiet : gardening.Quiet :=
  .look fun _ _ => .act rfl (.done _)

def orchardist : Onlooker Nat :=
  { enter? := some (.scripted gardening gardening_quiet) }

def locking : Script Nat Bool :=
  .look fun view _ => .done (view.node.nodeType? == some "shed")

theorem locking_quiet : locking.Quiet :=
  .look fun _ _ => .done _

def locked : Caution Nat :=
  .scripted locking locking_quiet

def orchard : Tree :=
  .array [.object [("type", .text "orchard"), ("children", .array [.text "pear",
    .array [.object [("type", .text "weed"), ("children", .text "root")],
      .object [("type", .text "tree"), ("children", .text "plum")]],
    .object [("type", .text "shed"), ("children", .text "rake")]])], .text "gate"]

def tendedOrchard : Tree :=
  .array [.object [("type", .text "orchard"), ("children", .array [.text "<pear>",
    .array [.array [.text "fern", .text "moss"],
      .object [("type", .text "tree"), ("children", .text "<plum>")]],
    .object [("type", .text "shed"), ("children", .text "rake")]])], .text "<gate>"]

theorem Tree.transform_breadthFirst_orchard :
    (∀ onlooker ∈ [orchardist], onlooker.EntersSteadily) ∧ locked.meaning.Steady ∧
    orchard.size < 30 ∧ ∃ result,
      (orchard.transform 30 [orchardist.visitor] (locked.options (.bool true) .breadthFirst) 0).1 =
        .ok result ∧
      (orchard.transform 30 [orchardist.visitor] (locked.options (.bool true) .preOrder) 0).1 =
        .ok result ∧
      result = tendedOrchard ∧
      (orchard.entered 30 [orchardist.visitor] (locked.options (.bool true) .breadthFirst) 0).Perm
        (orchard.entered 30 [orchardist.visitor] (locked.options (.bool true) .preOrder) 0) := by
  have horchardist : ∀ onlooker ∈ [orchardist], onlooker.EntersSteadily :=
    List.forall_mem_singleton.mpr (Onlooker.entersSteadily_scripted gardening_quiet
      (.look fun _ => .act _ (.done _)))
  have hlocked : locked.meaning.Steady := Script.meaning_steady (.look fun _ => .done _)
  have hsize : orchard.size < 30 := by decide
  have htended : (orchard.transform 30 [orchardist.visitor] (locked.options (.bool true) .preOrder)
      0).1.toOption = some tendedOrchard := by
    decide +kernel
  refine ⟨horchardist, hlocked, hsize, ?_⟩
  rcases Tree.transform_breadthFirst horchardist hlocked (.bool true) orchard hsize hsize 0 with
    ⟨_, cause, -, hfailed⟩ | ⟨result, hbreadth, hdepth, hentered⟩
  · have hnone := htended.symm.trans (congrArg Except.toOption hfailed)
    cases hnone
  · have hresult := htended.symm.trans (congrArg Except.toOption hdepth)
    exact ⟨result, hbreadth, hdepth, (Option.some.inj hresult).symm, hentered⟩

end ViewTree
