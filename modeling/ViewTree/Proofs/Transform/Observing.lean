import ViewTree.Proofs.Visitor.Retelling

namespace ViewTree

/-- Numbers with one taken out: those above it go down by one. -/
def closeUp (gap number : Nat) : Nat :=
  if gap < number then number - 1 else number

/-- An event as it is told when one of the visitors is left out. -/
def Event.without (gap : Nat) : Event → Option Event
  | .call number phase view =>
    if number = gap then none else some (.call (closeUp gap number) phase view)
  | .replaced number phase depth =>
    if number = gap then none else some (.replaced (closeUp gap number) phase depth)
  | .asked view => some (.asked view)

theorem Event.without_retells {gap number : Nat} (h : number ≠ gap) (phase : Phase) :
    Retells (without gap) number phase (closeUp gap number) phase where
  call _ := if_neg h
  replaced _ := if_neg h

theorem Event.without_retells_before {gap number : Nat} (h : number < gap) (phase : Phase) :
    Retells (without gap) number phase number phase := by
  have hretells := without_retells (Nat.ne_of_lt h) phase
  rwa [closeUp, if_neg (Nat.lt_asymm h)] at hretells

theorem Event.without_retells_after (gap number : Nat) (phase : Phase) :
    Retells (without gap) (number + 1 + gap) phase (number + gap) phase := by
  have habove : number + 1 + gap ≠ gap := by omega
  have hretells := without_retells habove phase
  have hnumber : closeUp gap (number + 1 + gap) = number + gap := by
    rw [closeUp, if_pos (by omega)]
    omega
  rwa [hnumber] at hretells

def Hook.idle : Hook σ := fun _ ctx => return (.nothing, ctx)

/-- A hook that changes no more than its world and replies nothing. -/
def Hook.LooksOn (hook : Hook σ) : Prop :=
  ∀ node ctx s world, ∃ after, hook node ctx ⟨s, world⟩ = .ok (.nothing, ctx) ⟨s, after⟩

def Visitor.LooksOn (visitor : Visitor σ) : Prop :=
  ∀ phase hook, visitor.hook? phase = some hook → hook.LooksOn

/-- A visitor with the hooks of another that do nothing now. -/
def Visitor.hushed (visitor : Visitor σ) : Visitor τ :=
  ⟨visitor.enter?.map fun _ => .idle, visitor.exit?.map fun _ => .idle⟩

theorem Recorder.record_looksOn (settings : Settings) (phase : Phase) (node : Value)
    (ctx : Context) (s : Store) (log : Log) :
    ∃ after, record settings phase node ctx ⟨s, log⟩ = .ok () ⟨s, after⟩ := by
  rw [record, Walk.store_bind_apply]
  dsimp only
  cases s.nodeType? node with
  | some type => exact ⟨_, rfl⟩
  | none =>
      cases settings.recordPrimitives with
      | true => exact ⟨_, rfl⟩
      | false => exact ⟨_, rfl⟩

theorem recorder_looksOn (recordPrimitives : Bool) :
    (recorder ⟨[], recordPrimitives⟩).LooksOn := by
  intro phase hook hhook node ctx s log
  obtain ⟨after, hrecord⟩ :=
    Recorder.record_looksOn ⟨[], recordPrimitives⟩ phase node ctx s log
  refine ⟨after, ?_⟩
  cases phase with
  | enter =>
      obtain rfl := Option.some.inj hhook
      rw [Recorder.enter, Walk.bind_apply, hrecord]
      dsimp only
      rw [Walk.store_bind_apply]
      dsimp only
      cases s.nodeType? node with
      | some type => rfl
      | none => rfl
  | exit =>
      obtain rfl := Option.some.inj hhook
      rw [Recorder.exit, Walk.bind_apply, hrecord]
      rfl

theorem Hook.LooksOn.traced_apply {hook : Hook τ} (h : hook.LooksOn) (number : Nat)
    (phase : Phase) (node : Value) (ctx : Context) (s : Store) (trace : List Event) (world : σ)
    (own : τ) :
    ∃ after, (hook.zoom Lens.snd : Hook (σ × τ)).traced number phase node ctx
        ⟨s, trace, world, own⟩ =
      .ok (.nothing, ctx) ⟨s, trace ++ [.call number phase (ctx.view s node)], world, after⟩ := by
  obtain ⟨after, hhook⟩ := h node ctx s own
  let noted : List Event := trace ++ [.call number phase (ctx.view s node)]
  have hzoom : Walk.zoom Lens.snd ((hook.zoom Lens.snd : Hook (σ × τ)) node ctx)
      ⟨s, noted, world, own⟩ = .ok (.nothing, ctx) ⟨s, noted, world, after⟩ := by
    simp only [Hook.zoom, Walk.zoom, Lens.snd, hhook]
  have htrace : (do
      let s ← Walk.store
      Walk.trace (.call number phase (ctx.view s node)) : Walk (Traced (σ × τ)) Unit)
      ⟨s, trace, world, own⟩ = .ok () ⟨s, noted, world, own⟩ := rfl
  refine ⟨after, ?_⟩
  unfold Hook.traced
  rw [← bind_assoc, Walk.bind_apply, htrace]
  dsimp only
  rw [Walk.bind_apply, hzoom]
  rfl

variable {gap : Nat}

theorem Hook.LooksOn.traced_told {hook : Hook τ} (h : hook.LooksOn) (phase : Phase) :
    Hook.Mirrors (retelling (Event.without gap) Prod.fst)
      ((hook.zoom Lens.snd : Hook (σ × τ)).traced gap phase) Hook.idle := by
  rintro node ctx ⟨s, trace, world, own⟩
  obtain ⟨after, hcall⟩ := h.traced_apply gap phase node ctx s trace world own
  have huntold : Event.without gap (.call gap phase (ctx.view s node)) = none := if_pos rfl
  have hsession : (retelling (Event.without gap) Prod.fst).session ⟨s, trace, world, own⟩ =
      (retelling (Event.without gap) Prod.fst).session
        ⟨s, trace ++ [.call gap phase (ctx.view s node)], world, after⟩ := by
    rw [retelling, partOf_session, partOf_session, Prod.map, Prod.map, List.filterMap_append,
      List.filterMap_cons_none huntold, List.filterMap_nil, List.append_nil]
  rw [hcall]
  exact congrArg (EStateM.Result.ok (Reply.nothing, ctx.above {})) hsession

theorem Visitor.hook?_hushed (visitor : Visitor τ) (phase : Phase) :
    (visitor.hushed : Visitor σ).hook? phase = (visitor.hook? phase).map fun _ => Hook.idle := by
  cases phase with
  | enter => rfl
  | exit => rfl

theorem Visitor.LooksOn.traced_told {visitor : Visitor τ} (h : visitor.LooksOn) :
    Visitor.Mirrors (retelling (Event.without gap) Prod.fst)
      ((visitor.zoom Lens.snd : Visitor (σ × τ)).traced gap) visitor.hushed := by
  intro phase
  have hphase := h phase
  rw [hook?_traced, hook?_zoom, hook?_hushed, Option.map_map]
  cases hhook : visitor.hook? phase with
  | none => exact .none
  | some hook => exact .some ((hphase hook hhook).traced_told phase)

theorem runHooks_idle (before after : List (Hook σ)) :
    runHooks (before ++ Hook.idle :: after) = runHooks (before ++ after) := by
  induction before with
  | nil => rfl
  | cons hook before ih =>
      funext node ctx
      rw [List.cons_append, List.cons_append, runHooks, runHooks, ih]

theorem runPhase_hushed (phase : Phase) (before after : List (Visitor σ)) (visitor : Visitor τ) :
    runPhase phase (before ++ visitor.hushed :: after) = runPhase phase (before ++ after) := by
  funext node ctx
  rw [runPhase, runPhase, List.filterMap_append, List.filterMap_append]
  have hhook : (visitor.hushed : Visitor σ).hook? phase = _ := visitor.hook?_hushed phase
  cases hvisitor : visitor.hook? phase with
  | none =>
      rw [hvisitor] at hhook
      rw [List.filterMap_cons_none hhook]
  | some hook =>
      rw [hvisitor] at hhook
      rw [List.filterMap_cons_some hhook]
      exact congrFun (congrFun (runHooks_idle _ _) node) ctx

/-- An observer put among visitors.  Each side keeps to its part of the world. -/
def observed (before : List (Visitor σ)) (observer : Visitor τ) (after : List (Visitor σ)) :
    List (Visitor (σ × τ)) :=
  before.map (Visitor.zoom Lens.fst) ++
    observer.zoom Lens.snd :: after.map (Visitor.zoom Lens.fst)

def TransformOptions.zoom (lens : Lens ρ σ) (options : TransformOptions σ) : TransformOptions ρ :=
  { order := options.order, clone := options.clone, prune := options.prune.zoom lens }

theorem Lens.get_set_fst (given : σ) (world : σ × τ) :
    Lens.fst.get (Lens.fst.set given world) = given := rfl

theorem map_zoom_mirrors (visitors : List (Visitor σ)) :
    List.Forall₂ (Visitor.Mirrors (partOf Prod.fst))
      (visitors.map (Visitor.zoom (Lens.fst : Lens (σ × τ) σ))) visitors := by
  rw [List.forall₂_map_left_iff, List.forall₂_same]
  intro visitor _
  exact visitor.zoom_partOf Lens.get_set_fst

theorem traceAll_observed_mirrors {observer : Visitor τ} (h : observer.LooksOn)
    (before after : List (Visitor σ)) :
    List.Forall₂ (Visitor.Mirrors (retelling (Event.without before.length) Prod.fst))
      (traceAll (observed before observer after))
      (before.mapIdx Visitor.traced ++
        observer.hushed :: after.mapIdx fun number => Visitor.traced (number + before.length)) := by
  rw [traceAll, observed, List.mapIdx_append, List.mapIdx_cons, List.length_map, Nat.zero_add]
  apply List.rel_append
  · apply forall₂_mapIdx (map_zoom_mirrors before)
    intro number hnumber _ _ hvisitor
    rw [List.length_map] at hnumber
    exact Visitor.traced_told (Event.without_retells_before hnumber) hvisitor
  · refine .cons h.traced_told ?_
    apply forall₂_mapIdx (map_zoom_mirrors after)
    intro number _ _ _ hvisitor
    exact Visitor.traced_told (Event.without_retells_after before.length number) hvisitor

theorem traceAll_observed {observer : Visitor τ} (h : observer.LooksOn)
    {before after : List (Visitor σ)} (hsome : before ++ after ≠ []) :
    Company.Mirrors (retelling (Event.without before.length) Prod.fst)
      (traceAll (observed before observer after)) (traceAll (before ++ after)) := by
  have hmirrors := Company.mirrors_of_forall₂ (traceAll_observed_mirrors h before after)
  refine ⟨?_, ?_⟩
  · intro phase
    have hvisitors : traceAll (before ++ after) = before.mapIdx Visitor.traced ++
        after.mapIdx fun number => Visitor.traced (number + before.length) := List.mapIdx_append
    rw [hvisitors, ← runPhase_hushed phase _ _ observer]
    exact hmirrors.phase phase
  · have hall : traceAll (before ++ after) ≠ [] := by
      rwa [traceAll, Ne, List.mapIdx_eq_nil_iff]
    rw [List.isEmpty_eq_false_iff.mpr hall, hmirrors.isEmpty]
    simp

theorem TransformOptions.zoom_told (gap : Nat) (options : TransformOptions σ) :
    TransformOptions.Mirrors (retelling (Event.without gap) Prod.fst)
      (options.zoom (Lens.fst : Lens (σ × τ) σ)).traced options.traced := by
  refine ⟨rfl, rfl, ?_⟩
  have hnull : (options.prune.zoom (Lens.fst : Lens (σ × τ) σ)).isNull = options.prune.isNull := by
    cases options.prune with
    | predicate test => rfl
    | setting given => rfl
  have hprune : Prune.Mirrors (partOf Prod.fst)
      (options.prune.zoom (Lens.fst : Lens (σ × τ) σ)) options.prune :=
    options.prune.zoom_partOf Lens.get_set_fst
  have hasked : ∀ view, Event.without gap (.asked view) = some (.asked view) := fun _ => rfl
  exact Prune.traced_told hasked hnull hprune

theorem transform_beside {observer : Visitor τ} (h : observer.LooksOn)
    {before after : List (Visitor σ)} (hsome : before ++ after ≠ [])
    (options : TransformOptions σ) (fuel : Nat) (root : Value) (s : Store) (world : σ) (own : τ) :
    retold (Event.without before.length) Prod.fst
        (transform fuel (traceAll (observed before observer after))
          (options.zoom Lens.fst).traced root ⟨s, [], world, own⟩) =
      transform fuel (traceAll (before ++ after)) options.traced root ⟨s, [], world⟩ :=
  transform_retold (traceAll_observed h hsome) (options.zoom_told before.length) fuel root s
    (world, own)

/-- Observers do not interfere.  With a recorder that skips nothing, at whatever place among visitors,
a transform comes to the result or the failure it comes to without, and leaves the same tree and the
same world of the other visitors; and the calls of the others, with their replacements and the
questions about descent, are the same calls. -/
theorem transform_observed {before after : List (Visitor σ)} (hsome : before ++ after ≠ [])
    (recordPrimitives : Bool) (options : TransformOptions σ) (fuel : Nat) (root : Value) (s : Store)
    (world : σ) (log : Recorder.Log) :
    kept Prod.fst
        (transform fuel (observed before (recorder ⟨[], recordPrimitives⟩) after)
          (options.zoom Lens.fst) root ⟨s, world, log⟩) =
      transform fuel (before ++ after) options root ⟨s, world⟩ ∧
    retold (Event.without before.length) Prod.fst
        (transform fuel (traceAll (observed before (recorder ⟨[], recordPrimitives⟩) after))
          (options.zoom Lens.fst).traced root ⟨s, [], world, log⟩) =
      transform fuel (traceAll (before ++ after)) options.traced root ⟨s, [], world⟩ := by
  have htraced := transform_beside (recorder_looksOn recordPrimitives) hsome options fuel root s
    world log
  exact ⟨transform_kept_of_retold htraced, htraced⟩

def gardener : Visitor Unit :=
  .scripted
    (some (.look fun view _ =>
      if view.node.label = "weed" then .done (.replace (.text "grass"))
      else if view.node.label = "hedge" then
        .acts [.skip, .edit .parent (.append (.text "gate"))] .nothing
      else .acts [.edit .node (.set "seen" (.bool true))] .noChange))
    none

def fencer : Visitor Unit :=
  .scripted none (some (.done (.wrap (.text "fence"))))

def garden : Tree :=
  .object [("type", .text "garden"), ("children", .array [
    .object [("type", .text "weed")],
    .object [("type", .text "hedge"), ("children", .text "bird")]])]

def tendedGarden : Tree :=
  .object [("type", .text "fence"), ("children",
    .object [("type", .text "garden"), ("children", .array [.text "grass",
      .object [("type", .text "fence"), ("children",
        .object [("type", .text "hedge"), ("children", .text "bird")])], .text "gate"]),
      ("seen", .bool true)])]

theorem transform_observed_garden :
    [gardener] ++ [fencer] ≠ [] ∧ ∃ result after,
      transform 20 (observed [gardener] (recorder ⟨[], true⟩) [fencer])
        (({} : TransformOptions Unit).zoom Lens.fst) (Store.load garden {}).1
        ⟨(Store.load garden {}).2, (), {}⟩ = .ok result after ∧
      transform 20 ([gardener] ++ [fencer]) {} (Store.load garden {}).1
        ⟨(Store.load garden {}).2, ()⟩ = .ok result ⟨after.store, ()⟩ ∧
      after.store.read result = tendedGarden ∧
      after.world.2.events = #["enter-garden", "enter-hedge", "exit-hedge", "exit-garden"] := by
  have hsome : [gardener] ++ [fencer] ≠ [] := by simp
  obtain ⟨hkept, -⟩ := transform_observed hsome true {} 20 (Store.load garden {}).1
    (Store.load garden {}).2 () {}
  obtain ⟨result, after, hrun⟩ : ∃ result after,
      transform 20 (observed [gardener] (recorder ⟨[], true⟩) [fencer])
        (({} : TransformOptions Unit).zoom Lens.fst) (Store.load garden {}).1
        ⟨(Store.load garden {}).2, (), {}⟩ = .ok result after := ⟨_, _, rfl⟩
  have hend : (match transform 20 (observed [gardener] (recorder ⟨[], true⟩) [fencer])
        (({} : TransformOptions Unit).zoom Lens.fst) (Store.load garden {}).1
        ⟨(Store.load garden {}).2, (), {}⟩ with
      | .ok result after => some (after.store.read result, after.world.2.events)
      | .error _ _ => none) = some (tendedGarden,
        #["enter-garden", "enter-hedge", "exit-hedge", "exit-garden"]) := by
    decide +kernel
  rw [hrun] at hend hkept
  obtain ⟨htree, hevents⟩ := Prod.mk.inj (Option.some.inj hend)
  exact ⟨hsome, result, after, hrun, hkept.symm, htree, hevents⟩

end ViewTree
