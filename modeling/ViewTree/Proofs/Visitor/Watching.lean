import ViewTree.Proofs.Store.Outline
import ViewTree.Proofs.Visitor.Tracing

/-!
Watched companies.  A company of visitors is watched as one visitor, which notes when the phases of
the company run, what comes of them, and when the question about descent is asked.
-/

namespace ViewTree

open Walk (Mirrors)

inductive Notice
  | enter (stand : Stand)
  /-- The enter phase has ended; the node may be replaced, and the latch may be set. -/
  | entered (stand : Stand) (replaced skipping : Bool)
  | asked (stand : Stand) (cut : Bool)
  | exit (stand : Stand)

def Notice.entry? : Notice → Option Stand
  | .enter stand => some stand
  | _ => none

abbrev Watched (σ : Type) := List Notice × σ

def Walk.note (notice : Notice) : Walk (Watched σ) Unit :=
  Walk.modifyWorld fun world => (world.1 ++ [notice], world.2)

def Reply.ofReplacement : Option Value → Reply Value
  | some node => .outcome (.replace node)
  | none => .outcome .noChange

@[simp] theorem Reply.replacement?_ofReplacement (replacement : Option Value) :
    ((Reply.ofReplacement replacement).settle Value.isNull).replacement? = replacement := by
  cases replacement <;> rfl

def watchEnter (visitors : List (Visitor σ)) : Hook (Watched σ) := fun node ctx => do
  Walk.note (.enter (ctx.stand node))
  let (replacement, next) ← Walk.zoom Lens.snd (runPhase .enter visitors node ctx)
  Walk.note (.entered (ctx.stand node) replacement.isSome next.skipping)
  return (.ofReplacement replacement, next)

def watchExit (visitors : List (Visitor σ)) : Hook (Watched σ) := fun node ctx => do
  Walk.note (.exit (ctx.stand node))
  let (replacement, next) ← Walk.zoom Lens.snd (runPhase .exit visitors node ctx)
  return (.ofReplacement replacement, next)

/-- A company of visitors as one visitor that is watched. -/
def watch (visitors : List (Visitor σ)) : Visitor (Watched σ) :=
  ⟨some (watchEnter visitors), some (watchExit visitors)⟩

def Prune.watched (prune : Prune σ) : Prune (Watched σ) :=
  if prune.isNull then .setting .null
  else .predicate fun node ctx => do
    let (cut, next) ← Walk.zoom Lens.snd (prune.test node ctx)
    Walk.note (.asked (ctx.stand node) (cut || next.skipping))
    return (cut, next)

def TransformOptions.watched (options : TransformOptions σ) : TransformOptions (Watched σ) :=
  { order := options.order, clone := options.clone, prune := options.prune.watched }

def watchPhase (visitors : List (Visitor σ)) : Phase → Hook (Watched σ)
  | .enter => watchEnter visitors
  | .exit => watchExit visitors

theorem runPhase_watch (phase : Phase) (visitors : List (Visitor σ)) (node : Value)
    (ctx : Context) :
    runPhase phase [watch visitors] node ctx = (do
      let (reply, next) ← watchPhase visitors phase node ctx
      return ((reply.settle Value.isNull).replacement?, next)) := by
  have hhooks : [watch visitors].filterMap (·.hook? phase) = [watchPhase visitors phase] := by
    cases phase <;> rfl
  rw [runPhase, hhooks, runHooks]
  apply bind_congr
  intro given
  cases hreply : (given.1.settle Value.isNull).replacement? with
  | none => simp only [hreply, runHooks_nil]
  | some replacement => simp only [hreply]

theorem Walk.note_apply (notice : Notice) (s : Store) (notices : List Notice) (world : σ) :
    Walk.note notice ⟨s, notices, world⟩ = .ok () ⟨s, notices ++ [notice], world⟩ := rfl

theorem Walk.zoom_snd_apply (walk : Walk σ α) (s : Store) (trace : τ) (world : σ) :
    Walk.zoom Lens.snd walk ⟨s, trace, world⟩ =
      match walk ⟨s, world⟩ with
      | .ok value after => .ok value ⟨after.store, trace, after.world⟩
      | .error failure after => .error failure ⟨after.store, trace, after.world⟩ := by
  simp only [Walk.zoom, Lens.snd]
  cases walk ⟨s, world⟩ <;> rfl

theorem runPhase_watch_enter (visitors : List (Visitor σ)) (node : Value) (ctx : Context)
    (s : Store) (notices : List Notice) (world : σ) :
    runPhase .enter [watch visitors] node ctx ⟨s, notices, world⟩ =
      match runPhase .enter visitors node ctx ⟨s, world⟩ with
      | .ok (replacement, next) after => .ok (replacement, next)
          ⟨after.store, notices ++ [.enter (ctx.stand node)] ++
            [.entered (ctx.stand node) replacement.isSome next.skipping], after.world⟩
      | .error failure after =>
          .error failure ⟨after.store, notices ++ [.enter (ctx.stand node)], after.world⟩ := by
  rw [runPhase_watch, Walk.bind_apply, watchPhase, watchEnter, Walk.bind_apply, Walk.note_apply]
  simp only [Walk.bind_apply, Walk.zoom_snd_apply]
  cases runPhase .enter visitors node ctx ⟨s, world⟩ with
  | error failure after => rfl
  | ok given after =>
      obtain ⟨replacement, next⟩ := given
      simp only [Walk.note_apply]
      exact congrArg (fun given => EStateM.Result.ok (given, next) _)
        (Reply.replacement?_ofReplacement replacement)

theorem runPhase_watch_exit (visitors : List (Visitor σ)) (node : Value) (ctx : Context)
    (s : Store) (notices : List Notice) (world : σ) :
    runPhase .exit [watch visitors] node ctx ⟨s, notices, world⟩ =
      match runPhase .exit visitors node ctx ⟨s, world⟩ with
      | .ok given after =>
          .ok given ⟨after.store, notices ++ [.exit (ctx.stand node)], after.world⟩
      | .error failure after =>
          .error failure ⟨after.store, notices ++ [.exit (ctx.stand node)], after.world⟩ := by
  rw [runPhase_watch, Walk.bind_apply, watchPhase, watchExit, Walk.bind_apply, Walk.note_apply]
  simp only [Walk.bind_apply, Walk.zoom_snd_apply]
  cases runPhase .exit visitors node ctx ⟨s, world⟩ with
  | error failure after => rfl
  | ok given after =>
      obtain ⟨replacement, next⟩ := given
      exact congrArg (fun given => EStateM.Result.ok (given, next) _)
        (Reply.replacement?_ofReplacement replacement)

theorem Walk.untrace_note (notice : Notice) :
    Mirrors untrace (fun _ => ()) (Walk.note notice : Walk (Watched σ) Unit) (pure ()) :=
  untrace_modifyWorld fun notices => notices ++ [notice]

theorem watchPhase_mirrors (visitors : List (Visitor σ)) (phase : Phase) (node : Value)
    (ctx : Context) :
    Mirrors untrace (fun given => ((given.1.settle Value.isNull).replacement?, given.2))
      (watchPhase visitors phase node ctx) (runPhase phase visitors node ctx) := by
  have hreply : ∀ given : Option Value × Context,
      Mirrors untrace (fun given => ((given.1.settle Value.isNull).replacement?, given.2))
        (pure (Reply.ofReplacement given.1, given.2) : Walk (Watched σ) _) (pure given) := by
    intro given
    have hpure : Mirrors (untrace : Transit (Watched σ) σ) _ _ _ := .pure
      (fun given : Reply Value × Context => ((given.1.settle Value.isNull).replacement?, given.2))
      (.ofReplacement given.1, given.2)
    rwa [Reply.replacement?_ofReplacement] at hpure
  cases phase with
  | enter =>
      apply (Walk.untrace_note _).skip
      intro _
      apply (Walk.untrace_zoom _).andThen
      intro given
      apply (Walk.untrace_note _).skip
      intro _
      exact hreply given
  | exit =>
      apply (Walk.untrace_note _).skip
      intro _
      apply (Walk.untrace_zoom _).andThen
      exact hreply

theorem watch_mirrors {visitors : List (Visitor σ)} (hvisitors : visitors ≠ []) :
    Company.Mirrors untrace [watch visitors] visitors := by
  refine ⟨fun phase => Asked.of_base rfl (fun given => ?_) fun node ctx => ?_, ?_⟩
  · cases given with
    | none => rfl
    | some value => exact congrArg some value.above_empty
  · rw [runPhase_watch]
    apply (watchPhase_mirrors visitors phase node ctx).andThen
    intro given
    exact .pure id _
  · cases visitors with
    | nil => exact absurd rfl hvisitors
    | cons _ _ => rfl

theorem Prune.isNull_watched (prune : Prune σ) : prune.watched.isNull = prune.isNull := by
  unfold watched
  split
  · next hnull => exact hnull.symm
  · next hnull => exact (Bool.not_eq_true _ ▸ hnull).symm

theorem Prune.test_of_isNull {prune : Prune σ} (h : prune.isNull = true) (node : Value)
    (ctx : Context) : prune.test node ctx = pure (false, ctx) := by
  cases prune with
  | predicate ask => cases h
  | setting given =>
      have hnull : given.isNull = true := h
      simp only [test, hnull, Bool.true_or, if_true]

theorem Prune.watched_mirrors (prune : Prune σ) : prune.watched.Mirrors untrace prune := by
  apply Asked.of_base rfl fun _ => rfl
  intro node ctx
  unfold watched
  split
  · next hnull =>
      rw [test_of_isNull hnull, test_of_isNull rfl]
      exact .pure id (false, ctx)
  · apply (Walk.untrace_zoom _).andThen
    intro given
    apply (Walk.untrace_note _).skip
    intro _
    exact .pure id given

theorem transform_unwatched {visitors : List (Visitor σ)} (hvisitors : visitors ≠ [])
    (fuel : Nat) (options : TransformOptions σ) (root : Value) (s : Store)
    (notices : List Notice) (world : σ) :
    transform fuel visitors options root ⟨s, world⟩ =
      untrace.result id (transform fuel [watch visitors] options.watched root
        ⟨s, notices, world⟩) :=
  transform_untrace (watch_mirrors hvisitors) ⟨rfl, rfl, options.prune.watched_mirrors⟩ fuel root s
    notices world

end ViewTree
