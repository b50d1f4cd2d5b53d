import ViewTree.Proofs.Visitor.Portability
import ViewTree.Proofs.Visitor.Sharing

namespace ViewTree

open Walk (Mirrors)

inductive Event
  | call (visitor : Nat) (phase : Phase) (view : View)
  | replaced (visitor : Nat) (phase : Phase) (depth : Nat)
  | asked (view : View)

/-- A world with a trace beside it. -/
abbrev Traced (σ : Type) := List Event × σ

def Walk.trace (event : Event) : Walk (Traced σ) Unit :=
  Walk.modifyWorld fun world => (world.1 ++ [event], world.2)

def Walk.traceIf (condition : Bool) (event : Event) : Walk (Traced σ) Unit :=
  if condition then Walk.trace event else return ()

def Reply.replaces (reply : Reply Value) : Bool :=
  (reply.settle Value.isNull).replacement?.isSome

def Hook.traced (visitor : Nat) (phase : Phase) (hook : Hook σ) : Hook (Traced σ) :=
  fun node ctx => do
    let s ← Walk.store
    Walk.trace (.call visitor phase (ctx.view s node))
    let (reply, next) ← Walk.zoom Lens.snd (hook node ctx)
    Walk.traceIf reply.replaces (.replaced visitor phase ctx.depth)
    return (reply, next)

def Visitor.traced (number : Nat) (visitor : Visitor σ) : Visitor (Traced σ) :=
  { enter? := visitor.enter?.map (Hook.traced number .enter)
    exit? := visitor.exit?.map (Hook.traced number .exit) }

/-- A question that is not there is not asked. -/
def Prune.traced (prune : Prune σ) : Prune (Traced σ) :=
  .predicate fun node ctx => do
    let s ← Walk.store
    Walk.traceIf (!prune.isNull) (.asked (ctx.view s node))
    Walk.zoom Lens.snd (prune.test node ctx)

/-- Visitors traced by their number in the list. -/
def traceAll (visitors : List (Visitor σ)) : List (Visitor (Traced σ)) :=
  visitors.mapIdx Visitor.traced

def TransformOptions.traced (options : TransformOptions σ) : TransformOptions (Traced σ) :=
  { order := options.order, clone := options.clone, prune := options.prune.traced }

def Memory.traced (memory : Memory σ γ) : Memory (Traced σ) (List Event × γ) where
  move := fun base world => (world.1, memory.move base world.2)
  shown := fun s world => (world.1, memory.shown s world.2)
  shown_move := by
    intro base s world
    rw [memory.shown_move]

theorem Lens.snd_carries (memory : Memory σ γ) :
    (Lens.snd : Lens (Traced σ) σ).Carries memory.traced memory := by
  refine ⟨?_, ?_⟩
  · intro _ _
    rfl
  · intro _ _ _
    rfl

theorem Walk.trace_mirrors (memory : Memory σ γ) (base : Store) (event : Event) :
    Mirrors (memory.traced.transit base) id (Walk.trace event) (Walk.trace event) := by
  apply Mirrors.modifyWorld
  intro _
  rfl

theorem Walk.traceIf_mirrors (memory : Memory σ γ) (base : Store) (condition : Bool)
    (event : Event) :
    Mirrors (memory.traced.transit base) id (Walk.traceIf condition event)
      (Walk.traceIf condition event) := by
  apply Mirrors.ite
  · exact Walk.trace_mirrors memory base event
  · exact .pure id ()

theorem Reply.replaces_map_above (reply : Reply Value) (base : Store) :
    (reply.map (Value.above base)).replaces = reply.replaces := by
  rw [replaces, replacement?_map_above, Option.isSome_map]
  rfl

section

variable {memory : Memory σ γ} {base : Store}

theorem Hook.Mirrors.traced {hook image : Hook σ}
    (h : Hook.Mirrors (memory.transit base) hook image) (visitor : Nat) (phase : Phase) :
    Hook.Mirrors (memory.traced.transit base) (hook.traced visitor phase)
      (image.traced visitor phase) := by
  intro node ctx
  unfold Hook.traced
  apply Mirrors.store.bind
  intro s
  rw [Memory.base_transit, Context.view_above]
  apply (Walk.trace_mirrors memory base _).bind
  intro _
  apply (Walk.zoom_mirrors (Lens.snd_carries memory) (h node ctx)).bind
  rintro ⟨reply, next⟩
  have hreplaces := reply.replaces_map_above base
  simp only [Prod.map, Memory.base_transit, hreplaces]
  apply (Walk.traceIf_mirrors memory base _ _).bind
  intro _
  exact .pure _ (reply, next)

end

theorem Visitor.hook?_traced (number : Nat) (visitor : Visitor σ) (phase : Phase) :
    (visitor.traced number).hook? phase = (visitor.hook? phase).map (Hook.traced number phase) := by
  cases phase with
  | enter => rfl
  | exit => rfl

theorem Visitor.Portable.traced {memory : Memory σ γ} {visitor : Visitor σ}
    (h : visitor.Portable memory) (number : Nat) :
    (visitor.traced number).Portable memory.traced := by
  intro base phase
  rw [hook?_traced]
  exact rel_map (fun _ _ hhook => hhook.traced number phase) (h base phase)

theorem Prune.Portable.traced {memory : Memory σ γ} {prune : Prune σ}
    (h : prune.Portable memory) : prune.traced.Portable memory.traced := by
  intro base node ctx
  apply Mirrors.store.bind
  intro s
  rw [Memory.base_transit, Context.view_above]
  apply (Walk.traceIf_mirrors memory base _ _).bind
  intro _
  exact Walk.zoom_mirrors (Lens.snd_carries memory) (h base node ctx)

/-- Drops what is kept beside a world. -/
def untrace : Transit (τ × σ) σ :=
  ⟨{}, Prod.snd⟩

theorem untrace_session (s : Store) (trace : τ) (world : σ) :
    untrace.session ⟨s, trace, world⟩ = ⟨s, world⟩ :=
  partOf_session Prod.snd ⟨s, trace, world⟩

theorem Lens.get_set_snd (given : σ) (world : τ × σ) :
    Lens.snd.get (Lens.snd.set given world) = given := rfl

theorem Walk.untrace_zoom (walk : Walk σ α) :
    Mirrors (untrace : Transit (τ × σ) σ) id (Walk.zoom Lens.snd walk) walk :=
  walk.zoom_partOf Lens.get_set_snd

theorem Walk.untrace_store :
    Mirrors untrace (fun _ => ()) (Walk.store : Walk (τ × σ) Store) (pure ()) := by
  intro session
  rfl

theorem Walk.untrace_modifyWorld (change : τ → τ) :
    Mirrors untrace (fun _ => ())
      (Walk.modifyWorld fun world => (change world.1, world.2) : Walk (τ × σ) Unit) (pure ()) := by
  rintro ⟨s, trace, world⟩
  exact congrArg (EStateM.Result.ok ())
    ((untrace_session s trace world).trans (untrace_session s _ world).symm)

theorem Walk.untrace_trace (event : Event) :
    Mirrors untrace (fun _ => ()) (Walk.trace event : Walk (Traced σ) Unit) (pure ()) :=
  untrace_modifyWorld fun trace => trace ++ [event]

theorem Walk.untrace_traceIf (condition : Bool) (event : Event) :
    Mirrors untrace (fun _ => ()) (Walk.traceIf condition event : Walk (Traced σ) Unit)
      (pure ()) := by
  cases condition with
  | true => exact untrace_trace event
  | false => exact .pure _ ()

theorem Hook.traced_mirrors (hook : Hook σ) (visitor : Nat) (phase : Phase) :
    Hook.Mirrors untrace (hook.traced visitor phase) hook := by
  apply Asked.of_base rfl Reply.map_above_empty
  intro node ctx
  unfold Hook.traced
  apply Walk.untrace_store.skip
  intro s
  apply (Walk.untrace_trace _).skip
  intro _
  apply (Walk.untrace_zoom _).andThen
  rintro ⟨reply, next⟩
  apply (Walk.untrace_traceIf _ _).skip
  intro _
  exact .pure id (reply, next)

theorem Visitor.traced_mirrors (visitor : Visitor σ) (number : Nat) :
    (visitor.traced number).Mirrors untrace visitor := by
  intro phase
  rw [hook?_traced]
  exact rel_map_left (fun hook => hook.traced_mirrors number phase) _

theorem mapIdx_mirrors {f : Nat → Visitor σ → Visitor (Traced σ)}
    (h : ∀ number visitor, (f number visitor).Mirrors untrace visitor)
    (visitors : List (Visitor σ)) :
    List.Forall₂ (Visitor.Mirrors untrace) (visitors.mapIdx f) visitors := by
  induction visitors generalizing f with
  | nil => exact .nil
  | cons visitor visitors ih =>
      rw [List.mapIdx_cons]
      exact .cons (h 0 visitor) (ih fun number visitor => h (number + 1) visitor)

theorem Prune.traced_mirrors (prune : Prune σ) : prune.traced.Mirrors untrace prune := by
  apply Asked.of_base rfl fun _ => rfl
  intro node ctx
  apply Walk.untrace_store.skip
  intro s
  apply (Walk.untrace_traceIf _ _).skip
  intro _
  exact Walk.untrace_zoom _

theorem transform_untrace {visitors : List (Visitor (τ × σ))} {images : List (Visitor σ)}
    (hvisitors : Company.Mirrors untrace visitors images) {options : TransformOptions (τ × σ)}
    {image : TransformOptions σ} (hoptions : options.Mirrors untrace image) (fuel : Nat)
    (root : Value) (s : Store) (trace : τ) (world : σ) :
    transform fuel images image root ⟨s, world⟩ =
      untrace.result id (transform fuel visitors options root ⟨s, trace, world⟩) := by
  have hkept : kept Prod.snd (transform fuel visitors options root ⟨s, trace, world⟩) =
      transform fuel images image root ⟨s, world⟩ :=
    transform_kept hvisitors hoptions fuel root s (trace, world)
  rw [← hkept]
  exact (partOf_result Prod.snd (fun _ => rfl) _).symm

theorem transform_untraced (fuel : Nat) (visitors : List (Visitor σ))
    (options : TransformOptions σ) (root : Value) (s : Store) (trace : List Event) (world : σ) :
    transform fuel visitors options root ⟨s, world⟩ =
      untrace.result id (transform fuel (traceAll visitors) options.traced root
        ⟨s, trace, world⟩) := by
  have hvisitors : List.Forall₂ (Visitor.Mirrors untrace) (traceAll visitors) visitors :=
    mapIdx_mirrors (fun number visitor => visitor.traced_mirrors number) visitors
  have hoptions : options.traced.Mirrors untrace options :=
    ⟨rfl, rfl, options.prune.traced_mirrors⟩
  exact transform_untrace (Company.mirrors_of_forall₂ hvisitors) hoptions fuel root s trace world

end ViewTree
