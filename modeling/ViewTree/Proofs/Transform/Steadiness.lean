import ViewTree.Proofs.Transform.Scripted
import ViewTree.Proofs.Transform.SinglePhase
import ViewTree.Proofs.Visitor.Entering

/-!
Steady companies.  What those who look on make of a view may hang on the world they are in; where it
does not, a company goes by rules.  `Walk.Yields` compares a walk with what the rules say: it returns
when they do, and fails when they do, perhaps for another cause.
-/

namespace ViewTree

/-- What a course comes to in a world, whatever becomes of the world. -/
def Course.outcome (course : Course σ α) (world : σ) : Except Failure α :=
  match course world with
  | .ok result _ => .ok result
  | .error failure _ => .error failure

theorem Course.outcome_bind (course : Course σ α) (next : α → Course σ β) (world : σ) :
    (course >>= next).outcome world =
      match course world with
      | .ok result after => (next result).outcome after
      | .error failure _ => .error failure := by
  rw [outcome, Walk.bind_apply]
  cases course world <;> rfl

theorem Course.outcome_pure (result : α) (world : σ) :
    (pure result : Course σ α).outcome world = .ok result := rfl

/-- Where there is but one world, the outcomes of two courses are all that counts. -/
theorem Course.outcome_bind_unit (course : Course Unit α) (next : α → Course Unit β) :
    (course >>= next).outcome () = (do
      let result ← course.outcome ()
      (next result).outcome ()) := by
  rw [outcome_bind, outcome]
  cases course () <;> rfl

def Course.IsSteady (course : Course σ α) : Prop :=
  ∀ first second, course.outcome first = course.outcome second

theorem Course.IsSteady.pure (result : α) : (Pure.pure result : Course σ α).IsSteady :=
  fun _ _ => rfl

theorem Course.IsSteady.bind {course : Course σ α} {next : α → Course σ β} (h : course.IsSteady)
    (hnext : ∀ result, (next result).IsSteady) : (course >>= next).IsSteady := by
  intro first second
  have hsame := h first second
  rw [outcome_bind, outcome_bind]
  unfold outcome at hsame
  cases hfirst : course first with
  | ok result after =>
      rw [hfirst] at hsame
      cases hsecond : course second with
      | ok other later =>
          rw [hsecond] at hsame
          cases hsame
          exact hnext result after later
      | error cause later =>
          rw [hsecond] at hsame
          cases hsame
  | error failure after =>
      rw [hfirst] at hsame
      cases hsecond : course second with
      | ok other later =>
          rw [hsecond] at hsame
          cases hsame
      | error cause later =>
          rw [hsecond] at hsame
          cases hsame
          rfl

def Meaning.Steady (meaning : Meaning σ ρ) : Prop :=
  ∀ view, (meaning view).IsSteady

theorem Meaning.steady_runAll {meanings : List (Meaning σ (Reply Tree))}
    (h : ∀ meaning ∈ meanings, meaning.Steady) : (Meaning.runAll meanings).Steady := by
  induction meanings with
  | nil => exact fun view => .pure (none, view)
  | cons meaning rest ih =>
      intro view
      refine (h meaning List.mem_cons_self view).bind ?_
      rintro ⟨reply, seen⟩
      have hrest := ih fun other hother => h other (List.mem_cons_of_mem _ hother)
      cases hsettle : (reply.settle Tree.isNull).replacement? with
      | some replacement =>
          simp only [hsettle]
          exact .pure _
      | none =>
          simp only [hsettle]
          exact hrest seen

/-- Those who look on, on entering only and by the view alone. -/
structure Onlooker.EntersSteadily (onlooker : Onlooker σ) : Prop where
  exit : onlooker.exit? = none
  enter : ∀ glance, onlooker.enter? = some glance → glance.meaning.Steady

theorem Onlooker.meaning_steady {onlookers : List (Onlooker σ)}
    (h : ∀ onlooker ∈ onlookers, onlooker.EntersSteadily) :
    (Onlooker.meaning .enter onlookers).Steady := by
  refine Meaning.steady_runAll fun meaning hmeaning => ?_
  obtain ⟨glance, hglance, rfl⟩ := List.mem_map.mp hmeaning
  obtain ⟨onlooker, honlooker, henter⟩ := List.mem_filterMap.mp hglance
  exact (h onlooker honlooker).enter glance henter

inductive Script.Steady : Script τ ρ → Prop
  | done (result : ρ) : Steady (.done result)
  | act (action : Action τ) {rest : Script τ ρ} (hrest : Steady rest) : Steady (.act action rest)
  | look {next : View → Script τ ρ} (hnext : ∀ view, Steady (next view)) :
      Steady (.look fun view _ => next view)

theorem Action.meaning_steady (action : Action τ) (view : View) : (action.meaning view).IsSteady := by
  cases action with
  | observe note => exact fun _ _ => rfl
  | abandon text => exact fun _ _ => rfl
  | _ => exact .pure _

theorem Script.meaning_steady {script : Script τ ρ} (h : script.Steady) : script.meaning.Steady := by
  induction h with
  | done result => exact fun view => .pure (result, view)
  | act action _ ih => exact fun view => (action.meaning_steady view).bind ih
  | look _ ih => exact fun view first second => ih view view first second

theorem Answer.meaning_steady (answer : Answer) (node : Tree) :
    (answer.meaning node : Course τ (Reply Tree)).IsSteady := by
  intro first second
  unfold meaning
  split <;> try rfl
  · split <;> rfl
  · split <;> rfl

theorem Onlooker.entersSteadily_scripted {script : Script τ Answer} (hquiet : script.Quiet)
    (hsteady : script.Steady) :
    ({ enter? := some (.scripted script hquiet) } : Onlooker τ).EntersSteadily where
  exit := rfl
  enter := by
    rintro glance hglance view
    obtain rfl := Option.some.inj hglance
    refine (Script.meaning_steady hsteady view).bind ?_
    rintro ⟨answer, seen⟩
    exact (answer.meaning_steady view.node).bind fun reply => .pure (reply, seen)

namespace Walk

/-- A walk returns where an outcome says so, and fails where it says so. -/
def Yields (walk : Walk σ α) (said : Except Failure β) (session : Session σ)
    (post : α → β → Session σ → Prop) : Prop :=
  match walk session, said with
  | .ok value after, .ok result => post value result after
  | .error _ _, .error _ => True
  | _, _ => False

namespace Yields

variable {walk : Walk σ α} {said : Except Failure β} {session : Session σ}
  {post : α → β → Session σ → Prop}

theorem pure {value : α} {result : β} (h : post value result session) :
    Yields (Pure.pure value) (.ok result) session post := h

theorem of_ok {value : α} {result : β} {after : Session σ} (hwalk : walk session = .ok value after)
    (h : post value result after) : Yields walk (.ok result) session post := by
  unfold Yields
  rw [hwalk]
  exact h

theorem of_error {failure : Failure} {after : Session σ} (hwalk : walk session = .error failure after)
    (cause : Failure) : Yields walk (.error cause) session post := by
  unfold Yields
  rw [hwalk]
  trivial

theorem mono {weaker : α → β → Session σ → Prop} (h : Yields walk said session post)
    (hpost : ∀ value result after, post value result after → weaker value result after) :
    Yields walk said session weaker := by
  unfold Yields at h ⊢
  split at h
  · exact hpost _ _ _ h
  · trivial
  · exact h.elim

theorem bind {next : α → Walk σ γ} {rest : β → Except Failure δ} {goal : γ → δ → Session σ → Prop}
    (h : Yields walk said session post)
    (hnext : ∀ value result after, post value result after →
      Yields (next value) (rest result) after goal) :
    Yields (walk >>= next) (said >>= rest) session goal := by
  unfold Yields at h
  split at h
  · next value after result hwalk =>
      have hrest := hnext value result after h
      unfold Yields at hrest ⊢
      rw [bind_apply, hwalk]
      exact hrest
  · next failure after cause hwalk =>
      unfold Yields
      rw [bind_apply, hwalk]
      trivial
  · exact h.elim

theorem andThen {next : α → Walk σ γ} {goal : γ → β → Session σ → Prop}
    (h : Yields walk said session post)
    (hnext : ∀ value result after, post value result after →
      Yields (next value) (.ok result) after goal) :
    Yields (walk >>= next) said session goal := by
  have hwhole : Yields (walk >>= next) (said >>= fun result => .ok result) session goal :=
    h.bind hnext
  cases said <;> exact hwhole

theorem map {f : β → γ} {goal : α → γ → Session σ → Prop} (h : Yields walk said session post)
    (hpost : ∀ value result after, post value result after → goal value (f result) after) :
    Yields walk (f <$> said) session goal := by
  unfold Yields at h ⊢
  split at h
  · next hwalk =>
      rw [hwalk]
      exact hpost _ _ _ h
  · next hwalk =>
      rw [hwalk]
      trivial
  · exact h.elim

theorem step {next : α → Walk σ γ} {goal : γ → β → Session σ → Prop} {value : α}
    {after : Session σ} (hwalk : walk session = .ok value after)
    (hnext : Yields (next value) said after goal) : Yields (walk >>= next) said session goal := by
  unfold Yields at hnext ⊢
  rw [bind_apply, hwalk]
  exact hnext

theorem zoom_snd {s : Store} {world : σ} (h : Yields walk said ⟨s, world⟩ post)
    (notices : List Notice) : Yields (Walk.zoom Lens.snd walk) said ⟨s, notices, world⟩
      fun value result after =>
        after.world.1 = notices ∧ post value result ⟨after.store, after.world.2⟩ := by
  unfold Yields at h ⊢
  rw [zoom_snd_apply]
  split at h
  · next hwalk =>
      rw [hwalk]
      exact ⟨rfl, h⟩
  · next hwalk =>
      rw [hwalk]
      trivial
  · exact h.elim

end Yields

theorem Follows.yields {walk : Walk σ α} {course : Course σ β} {session : Session σ}
    {post : α → β → Store → Prop} (h : Follows walk course session post) :
    Yields walk (course.outcome session.world) session
      fun value result after => post value result after.store := by
  unfold Follows at h
  unfold Yields Course.outcome
  cases hwalk : walk session with
  | ok value after =>
      cases hcourse : course session.world with
      | ok result world =>
          rw [hwalk, hcourse] at h
          exact h.2
      | error cause world =>
          rw [hwalk, hcourse] at h
          exact h.elim
  | error failure after =>
      cases hcourse : course session.world with
      | ok result world =>
          rw [hwalk, hcourse] at h
          exact h.elim
      | error cause world => trivial

end Walk

/-- What is to be said of views. -/
structure Rules where
  enter : View → Except Failure (Option Tree × View)
  prune : View → Except Failure (Bool × View)

namespace Rules

def of (onlookers : List (Onlooker σ)) (caution : Caution σ) (world : σ) : Rules :=
  ⟨fun view => (Onlooker.meaning .enter onlookers view).outcome world,
    fun view => (caution.meaning view).outcome world⟩

/-- A company that is watched goes by rules; it does nothing on leaving, and its enter phases are
noted. -/
structure Governs (rules : Rules) (visitors : List (Visitor (Watched σ)))
    (prune : Prune (Watched σ)) : Prop where
  enter : ∀ {s : Store} {t : Tree} {node : Value} {cells : List Store.Cell} {ctx : Context}
    {type : Option String} (notices : List Notice) (world : σ), s.Shows t node cells →
    s.Named ctx.parent type →
    Walk.Yields (runPhase .enter visitors node ctx) (rules.enter (ctx.view s node))
      ⟨s, notices, world⟩ fun given said after => s.Extends after.store ∧
        given.2.parent = ctx.parent ∧ given.2.view s node = said.2 ∧
        Option.Rel (s.MadeOf cells after.store) given.1 said.1 ∧
        entries after.world.1 = entries notices ++ [ctx.stand node]
  prune : ∀ {s : Store} {t : Tree} {node : Value} {cells : List Store.Cell} {ctx : Context}
    (notices : List Notice) (world : σ), s.Shows t node cells →
    Walk.Yields (prune.test node ctx) (rules.prune (ctx.view s node)) ⟨s, notices, world⟩
      fun given said after => s.Extends after.store ∧ given.2.parent = ctx.parent ∧
        given.2.view s node = said.2 ∧ given.1 = said.1 ∧
        entries after.world.1 = entries notices
  exit : ∀ node ctx, runPhase .exit visitors node ctx = pure (none, ctx)

theorem governs_watchEnter {onlookers : List (Onlooker σ)} {caution : Caution σ}
    (h : ∀ onlooker ∈ onlookers, onlooker.EntersSteadily) (hcaution : caution.meaning.Steady)
    (first : σ) : (Rules.of onlookers caution first).Governs
      [.entering (watchEnter (onlookers.map Onlooker.visitor))] caution.prune.watched where
  enter := by
    intro s t node cells ctx type notices world hshows hnamed
    have hphase := (runPhase_follows .enter onlookers hshows hnamed world).yields
    have hrules : (Rules.of onlookers caution first).enter (ctx.view s node) =
        (Onlooker.meaning .enter onlookers (ctx.view s node)).outcome world :=
      Onlooker.meaning_steady h (ctx.view s node) first world
    have hsame : runPhase .enter [.entering (watchEnter (onlookers.map Onlooker.visitor))] node ctx =
        runPhase .enter [watch (onlookers.map Onlooker.visitor)] node ctx := rfl
    rw [hrules, hsame, runPhase_watch, watchPhase, watchEnter]
    simp only [bind_assoc, pure_bind, Reply.replacement?_ofReplacement]
    refine .step (Walk.note_apply _ _ _ _) ((hphase.zoom_snd _).andThen ?_)
    rintro given said ⟨after, seen, later⟩ ⟨hnotices, hextends, hparent, hview, hmade⟩
    refine .step (Walk.note_apply _ _ _ _) (.pure ⟨hextends, hparent, hview, hmade, ?_⟩)
    obtain rfl : seen = _ := hnotices
    rw [List.append_assoc, entries_append]
    rfl
  prune := by
    intro s t node cells ctx notices world hshows
    have hasked := (caution.reads s world t node cells ctx hshows).yields
    have hrules : (Rules.of onlookers caution first).prune (ctx.view s node) =
        (caution.meaning (ctx.view s node)).outcome world := hcaution (ctx.view s node) first world
    rw [hrules]
    unfold Prune.watched
    split
    · next hnull =>
        rw [Prune.test_of_isNull hnull] at hasked
        rw [Prune.test_of_isNull rfl]
        refine (hasked.zoom_snd notices).mono ?_
        rintro given said ⟨after, seen, later⟩ ⟨hnotices, hextends, hparent, hview, hcut⟩
        exact ⟨hextends, hparent, hview, hcut, congrArg entries hnotices⟩
    · refine (hasked.zoom_snd notices).andThen ?_
      rintro given said ⟨after, seen, later⟩ ⟨hnotices, hextends, hparent, hview, hcut⟩
      refine .step (Walk.note_apply _ _ _ _) (.pure ⟨hextends, hparent, hview, hcut, ?_⟩)
      obtain rfl : seen = notices := hnotices
      rw [entries_append]
      exact List.append_nil _
  exit := runPhase_of_none (by simp [Visitor.entering, Visitor.hook?])

end Rules

end ViewTree
