import ViewTree.Proofs.Visitor.Retelling

/-!
Visitors of a single phase.  What is only done on leaving is done when the children are through, in
pre-order as in post-order; and in post-order what is only done on entering is done then too.  So the
same hooks in these three places make one and the same transform.
-/

namespace ViewTree

def Visitor.entering (hook : Hook σ) : Visitor σ := ⟨some hook, none⟩

def Visitor.leaving (hook : Hook σ) : Visitor σ := ⟨none, some hook⟩

theorem runPhase_enter_entering (hooks : List (Hook σ)) :
    runPhase .enter (hooks.map Visitor.entering) = runHooks hooks := by
  funext node ctx
  rw [runPhase, List.filterMap_map]
  exact congrArg (runHooks · node ctx) List.filterMap_some

theorem runPhase_exit_leaving (hooks : List (Hook σ)) :
    runPhase .exit (hooks.map Visitor.leaving) = runHooks hooks := by
  funext node ctx
  rw [runPhase, List.filterMap_map]
  exact congrArg (runHooks · node ctx) List.filterMap_some

theorem runPhase_of_none {phase : Phase} {visitors : List (Visitor σ)}
    (h : ∀ visitor ∈ visitors, visitor.hook? phase = none) (node : Value) (ctx : Context) :
    runPhase phase visitors node ctx = pure (none, ctx) := by
  rw [runPhase, List.filterMap_eq_nil_iff.mpr h, runHooks_nil]

theorem runPhase_exit_entering (hooks : List (Hook σ)) (node : Value) (ctx : Context) :
    runPhase .exit (hooks.map Visitor.entering) node ctx = pure (none, ctx) :=
  runPhase_of_none (List.forall_mem_map.mpr fun _ _ => rfl) node ctx

theorem runPhase_enter_leaving (hooks : List (Hook σ)) (node : Value) (ctx : Context) :
    runPhase .enter (hooks.map Visitor.leaving) node ctx = pure (none, ctx) :=
  runPhase_of_none (List.forall_mem_map.mpr fun _ _ => rfl) node ctx

namespace Transform

theorem enterNode_leaving (hooks : List (Hook σ)) (slot : Slot) (ctx : Context) :
    enterNode (hooks.map Visitor.leaving) slot ctx = pure (some ctx) := by
  rw [enterNode, runPhase_enter_leaving, pure_bind]

theorem leaveNode_entering (hooks : List (Hook σ)) (slot : Slot) (ctx : Context) :
    leaveNode (hooks.map Visitor.entering) slot ctx = pure () := by
  rw [leaveNode, runPhase_exit_entering, pure_bind]

/-- Visitors that only leave make one tour of pre-order and post-order. -/
theorem tour_leaving (hooks : List (Hook σ)) (prune : Prune σ) :
    tour (hooks.map Visitor.leaving) prune .preOrder =
      tour (hooks.map Visitor.leaving) prune .postOrder := by
  have harrive : (fun (_ : Kind) slot ctx => enterNode (hooks.map Visitor.leaving) slot ctx) =
      fun _ _ ctx => pure (some ctx) := by
    funext _ slot ctx
    exact enterNode_leaving hooks slot ctx
  rw [tour, tour, harrive]
  simp only [enterNode_leaving, pure_bind]

/-- To enter and then to leave with hooks for entering only is to leave with hooks for leaving only. -/
theorem enterNode_entering_bind (hooks : List (Hook σ)) (slot : Slot) (ctx : Context) :
    (do
      match ← enterNode (hooks.map Visitor.entering) slot ctx with
      | some ctx => leaveNode (hooks.map Visitor.entering) slot ctx
      | none => return ()) = leaveNode (hooks.map Visitor.leaving) slot ctx := by
  unfold enterNode
  rw [leaveNode, runPhase_enter_entering, runPhase_exit_leaving, bind_assoc]
  refine bind_congr ?_
  rintro ⟨_ | replacement, next⟩
  · exact leaveNode_entering hooks slot next
  · dsimp only
    rw [bind_assoc]
    simp only [pure_bind]
    exact bind_pure_unit

theorem tour_entering (hooks : List (Hook σ)) (prune : Prune σ) :
    tour (hooks.map Visitor.entering) prune .postOrder =
      tour (hooks.map Visitor.leaving) prune .postOrder := by
  have hleave : (tour (hooks.map Visitor.entering) prune .postOrder).leave =
      (tour (hooks.map Visitor.leaving) prune .postOrder).leave := by
    funext _ slot ctx
    rw [tour, tour]
    dsimp only
    rw [enterNode_leaving, pure_bind]
    exact enterNode_entering_bind hooks slot ctx
  exact congrArg (Tour.mk prune.test fun _ _ ctx => pure (some ctx)) hleave

theorem primitive_entering (hooks : List (Hook σ)) (node : Value) :
    primitive (hooks.map Visitor.entering) node = primitive (hooks.map Visitor.leaving) node := by
  unfold primitive
  rw [runPhase_enter_leaving, pure_bind, runPhase_enter_entering, runPhase_exit_leaving]
  refine bind_congr ?_
  rintro ⟨_ | replacement, next⟩
  · dsimp only
    rw [runPhase_exit_entering, pure_bind]
  · rfl

theorem root_congr {visitors images : List (Visitor σ)} {prune : Prune σ} {order other : Order}
    (hrun : ∀ fuel box, run fuel order visitors prune box = run fuel other images prune box)
    (hprimitive : ∀ node, primitive visitors node = primitive images node) (fuel : Nat) :
    ∀ node, root order visitors prune fuel node = root other images prune fuel node := by
  induction fuel with
  | zero =>
      intro node
      rfl
  | succ fuel ih =>
      have hboxed : ∀ node, (do
          let box ← Walk.box node
          run fuel order visitors prune box
          Walk.unbox box) = (do
          let box ← Walk.box node
          run fuel other images prune box
          Walk.unbox box) := by
        intro node
        simp only [hrun]
      intro node
      cases node with
      | array ref =>
          rw [root, root]
          simp only [ih]
      | atom a => rw [root, root, hprimitive, hboxed]
      | tuple items => exact hboxed (.tuple items)
      | object ref => exact hboxed (.object ref)

theorem root_leaving (hooks : List (Hook σ)) (prune : Prune σ) (fuel : Nat) (node : Value) :
    root .preOrder (hooks.map Visitor.leaving) prune fuel node =
      root .postOrder (hooks.map Visitor.leaving) prune fuel node := by
  refine root_congr ?_ (fun _ => rfl) fuel node
  intro fuel box
  rw [run, run, tour_leaving]
  rfl

theorem root_entering (hooks : List (Hook σ)) (prune : Prune σ) (fuel : Nat) (node : Value) :
    root .postOrder (hooks.map Visitor.entering) prune fuel node =
      root .postOrder (hooks.map Visitor.leaving) prune fuel node := by
  refine root_congr ?_ (primitive_entering hooks) fuel node
  intro fuel box
  rw [run, run, tour_entering]

end Transform

theorem transform_of_resolve {options : TransformOptions σ} {order : Order}
    (h : Order.resolve options.order = .ok order) (fuel : Nat) (visitors : List (Visitor σ))
    (root : Value) :
    transform fuel visitors options root = (do
      let tree ← Walk.copy options.clone root
      Transform.engage fuel visitors options.prune order tree) := by
  rw [transform_eq, h]
  rfl

section

variable {pre post : Tree} (hpost : Order.resolve post = .ok .postOrder)
  (options : TransformOptions σ)

include hpost

theorem transform_leaving (hpre : Order.resolve pre = .ok .preOrder) (hooks : List (Hook σ))
    (fuel : Nat) (root : Value) :
    transform fuel (hooks.map Visitor.leaving) { options with order := pre } root =
      transform fuel (hooks.map Visitor.leaving) { options with order := post } root := by
  rw [transform_of_resolve hpre, transform_of_resolve hpost]
  unfold Transform.engage
  simp only [Transform.root_leaving]

theorem transform_entering (hooks : List (Hook σ)) (fuel : Nat) (root : Value) :
    transform fuel (hooks.map Visitor.entering) { options with order := post } root =
      transform fuel (hooks.map Visitor.leaving) { options with order := post } root := by
  rw [transform_of_resolve hpost, transform_of_resolve hpost]
  unfold Transform.engage
  simp only [Transform.root_entering, List.isEmpty_map]

end

/-- An event as it is told when all is done in one phase. -/
def Event.inPhase (phase : Phase) : Event → Option Event
  | .call number _ view => some (.call number phase view)
  | .replaced number _ depth => some (.replaced number phase depth)
  | .asked view => some (.asked view)

theorem Event.inPhase_retells (number : Nat) (phase other : Phase) :
    Retells (inPhase other) number phase number other :=
  ⟨fun _ => rfl, fun _ => rfl⟩

def traceHooks (phase : Phase) (hooks : List (Hook σ)) : List (Hook (Traced σ)) :=
  hooks.mapIdx fun number => Hook.traced number phase

theorem traceAll_map {make : Hook σ → Visitor σ}
    {makeTraced : Hook (Traced σ) → Visitor (Traced σ)} {phase : Phase}
    (h : ∀ number hook, (make hook).traced number = makeTraced (hook.traced number phase))
    (hooks : List (Hook σ)) :
    traceAll (hooks.map make) = (traceHooks phase hooks).map makeTraced := by
  apply List.ext_getElem
  · simp [traceAll, traceHooks]
  · intro number _ _
    simp [traceAll, traceHooks, h]

theorem traceAll_map_entering (hooks : List (Hook σ)) :
    traceAll (hooks.map Visitor.entering) = (traceHooks .enter hooks).map Visitor.entering :=
  traceAll_map (fun _ _ => rfl) hooks

theorem traceAll_map_leaving (hooks : List (Hook σ)) :
    traceAll (hooks.map Visitor.leaving) = (traceHooks .exit hooks).map Visitor.leaving :=
  traceAll_map (fun _ _ => rfl) hooks

theorem Visitor.entering_mirrors {transit : Transit σ ρ} {hook : Hook σ} {image : Hook ρ}
    (h : Hook.Mirrors transit hook image) :
    Visitor.Mirrors transit (entering hook) (entering image) := by
  intro phase
  cases phase with
  | enter => exact .some h
  | exit => exact .none

theorem traceHooks_told (phase other : Phase) (hooks : List (Hook σ)) :
    List.Forall₂ (Hook.Mirrors (retelling (Event.inPhase other) id))
      (traceHooks phase hooks) (traceHooks other hooks) := by
  apply forall₂_mapIdx (List.forall₂_same.mpr fun hook _ => hook.partOf_id)
  intro number _ _ _ hhook
  exact Hook.traced_told (Event.inPhase_retells number phase other) hhook

theorem traceAll_entering_told (hooks : List (Hook σ)) :
    Company.Mirrors (retelling (Event.inPhase .exit) id)
      (traceAll (hooks.map Visitor.entering))
      ((traceHooks .exit hooks).map Visitor.entering) := by
  rw [traceAll_map_entering]
  apply Company.mirrors_of_forall₂
  rw [List.forall₂_map_left_iff, List.forall₂_map_right_iff]
  exact (traceHooks_told .enter .exit hooks).imp fun _ _ => Visitor.entering_mirrors

theorem TransformOptions.traced_told (phase : Phase) (options : TransformOptions σ) :
    TransformOptions.Mirrors (retelling (Event.inPhase phase) id)
      options.traced options.traced := by
  refine ⟨rfl, rfl, ?_⟩
  have hasked : ∀ view, Event.inPhase phase (.asked view) = some (.asked view) := fun _ => rfl
  exact Prune.traced_told hasked rfl options.prune.partOf_id

/-- The same hooks in three places.  Whether they only leave in pre-order, only leave in post-order or
only enter in post-order, the transform comes to the same result or failure with the same tree and
world; and they are called at the same nodes with the same contexts, with the same replacements and
the same questions about descent in between. -/
theorem transform_single_phase (hooks : List (Hook σ)) {pre post : Tree}
    (hpre : Order.resolve pre = .ok .preOrder) (hpost : Order.resolve post = .ok .postOrder)
    (options : TransformOptions σ) (fuel : Nat) (root : Value) (s : Store) (world : σ) :
    (transform fuel (hooks.map Visitor.leaving) { options with order := pre } root ⟨s, world⟩ =
        transform fuel (hooks.map Visitor.leaving) { options with order := post } root ⟨s, world⟩ ∧
      transform fuel (hooks.map Visitor.entering) { options with order := post } root ⟨s, world⟩ =
        transform fuel (hooks.map Visitor.leaving) { options with order := post } root
          ⟨s, world⟩) ∧
    transform fuel (traceAll (hooks.map Visitor.leaving))
        { options with order := pre }.traced root ⟨s, [], world⟩ =
      transform fuel (traceAll (hooks.map Visitor.leaving))
        { options with order := post }.traced root ⟨s, [], world⟩ ∧
    retold (Event.inPhase .exit) id
        (transform fuel (traceAll (hooks.map Visitor.entering))
          { options with order := post }.traced root ⟨s, [], world⟩) =
      transform fuel (traceAll (hooks.map Visitor.leaving))
        { options with order := post }.traced root ⟨s, [], world⟩ := by
  have hleaving : ∀ {τ : Type} (hooks : List (Hook τ)) (options : TransformOptions τ) session,
      transform fuel (hooks.map Visitor.leaving) { options with order := pre } root session =
        transform fuel (hooks.map Visitor.leaving) { options with order := post } root session :=
    fun hooks options => congrFun (transform_leaving hpost options hpre hooks fuel root)
  have hentering : ∀ {τ : Type} (hooks : List (Hook τ)) (options : TransformOptions τ) session,
      transform fuel (hooks.map Visitor.entering) { options with order := post } root session =
        transform fuel (hooks.map Visitor.leaving) { options with order := post } root session :=
    fun hooks options => congrFun (transform_entering hpost options hooks fuel root)
  refine ⟨⟨hleaving hooks options _, hentering hooks options _⟩, ?_, ?_⟩
  · rw [traceAll_map_leaving]
    exact hleaving (traceHooks .exit hooks) options.traced _
  · rw [transform_retold (traceAll_entering_told hooks) (TransformOptions.traced_told .exit _),
      traceAll_map_leaving]
    exact hentering (traceHooks .exit hooks) options.traced _

def framing : Hook Unit :=
  .scripted (.acts [.edit .node (.set "seen" (.bool true)), .edit .parent (.append (.text "z")),
    .skip] (.wrap (.text "frame")))

def stopping : Hook Unit :=
  .scripted (.look fun view _ =>
    if view.node.label = "stop" then .acts [.abandon "stopped"] .nothing else .done .nothing)

def arcade : Tree :=
  .array [.text "wall", .array [.object [("type", .text "arcade"), ("children", .array [
    .object [("type", .text "picture")], .text "bench"])]]]

def framedArcade : Tree :=
  .array [.object [("type", .text "frame"), ("children", .text "wall")],
    .array [.object [("type", .text "frame"), ("children", .object [("type", .text "arcade"),
      ("children", .array [
        .object [("type", .text "frame"), ("children",
          .object [("type", .text "picture"), ("seen", .bool true)])],
        .object [("type", .text "frame"), ("children", .text "bench")], .text "z", .text "z"]),
      ("seen", .bool true)])]]]

theorem transform_single_phase_arcade :
    Order.resolve (.text "dfs_pre") = .ok .preOrder ∧
    Order.resolve (.text "dfs_post") = .ok .postOrder ∧ ∃ result after,
      transform 20 ([stopping, framing].map Visitor.leaving) { order := .text "dfs_pre" }
        (Store.load arcade {}).1 ⟨(Store.load arcade {}).2, ()⟩ = .ok result after ∧
      transform 20 ([stopping, framing].map Visitor.leaving) { order := .text "dfs_post" }
        (Store.load arcade {}).1 ⟨(Store.load arcade {}).2, ()⟩ = .ok result after ∧
      transform 20 ([stopping, framing].map Visitor.entering) { order := .text "dfs_post" }
        (Store.load arcade {}).1 ⟨(Store.load arcade {}).2, ()⟩ = .ok result after ∧
      after.store.read result = framedArcade := by
  have hpre : Order.resolve (.text "dfs_pre") = .ok .preOrder := rfl
  have hpost : Order.resolve (.text "dfs_post") = .ok .postOrder := rfl
  obtain ⟨⟨hleaving, hentering⟩, -⟩ := transform_single_phase [stopping, framing] hpre hpost {} 20
    (Store.load arcade {}).1 (Store.load arcade {}).2 ()
  obtain ⟨result, after, hrun⟩ : ∃ result after,
      transform 20 ([stopping, framing].map Visitor.leaving) { order := .text "dfs_pre" }
        (Store.load arcade {}).1 ⟨(Store.load arcade {}).2, ()⟩ = .ok result after := ⟨_, _, rfl⟩
  have htree : (match transform 20 ([stopping, framing].map Visitor.leaving)
        { order := .text "dfs_pre" } (Store.load arcade {}).1 ⟨(Store.load arcade {}).2, ()⟩ with
      | .ok result after => some (after.store.read result)
      | .error _ _ => none) = some framedArcade := by
    decide +kernel
  rw [hrun] at htree
  have hpostRun := hleaving.symm.trans hrun
  exact ⟨hpre, hpost, result, after, hrun, hpostRun, hentering.trans hpostRun,
    Option.some.inj htree⟩

end ViewTree
