import ViewTree.Proofs.Transform.Transit
import ViewTree.Visitor.Ledger

namespace ViewTree

open Walk (Mirrors)

def kept (part : ρ → σ) :
    EStateM.Result Failure (Session ρ) α → EStateM.Result Failure (Session σ) α
  | .ok value after => .ok value ⟨after.store, part after.world⟩
  | .error failure after => .error failure ⟨after.store, part after.world⟩

def partOf (part : ρ → σ) : Transit ρ σ :=
  ⟨{}, part⟩

theorem partOf_session (part : ρ → σ) (session : Session ρ) :
    (partOf part).session session = ⟨session.store, part session.world⟩ := by
  rw [Transit.session, partOf, Store.above_empty]

theorem partOf_result (part : ρ → σ) {f : α → α} (hf : ∀ value, f value = value)
    (result : EStateM.Result Failure (Session ρ) α) :
    (partOf part).result f result = kept part result := by
  cases result with
  | ok value after => rw [Transit.result, partOf_session, hf, kept]
  | error failure after => rw [Transit.result, partOf_session, kept]

theorem Reply.map_above_empty (reply : Reply Value) : reply.map (Value.above {}) = reply := by
  cases reply with
  | value given => exact congrArg Reply.value given.above_empty
  | outcome result =>
      cases result with
      | replace node => exact congrArg (fun value => outcome (.replace value)) node.above_empty
      | noChange => rfl
      | plain => rfl

/-- A transit that leaves values where they are asks as its image asks. -/
theorem Asked.of_base {transit : Transit ρ σ} (hbase : transit.base = {}) {f : α → α}
    (hf : ∀ value, f value = value) {ask : Value → Context → Walk ρ (α × Context)}
    {image : Value → Context → Walk σ (α × Context)}
    (h : ∀ node ctx, Mirrors transit id (ask node ctx) (image node ctx)) :
    Asked transit f ask image := by
  intro node ctx
  have hid : Prod.map f (Context.above {}) = id := by
    funext given
    exact Prod.ext (hf given.1) (Context.above_empty given.2)
  rw [hbase, hid, Value.above_empty, Context.above_empty]
  exact h node ctx

theorem Walk.partOf_id (walk : Walk σ α) : Mirrors (partOf id) id walk walk := by
  intro session
  rw [partOf_session]
  show walk session = _
  cases walk session with
  | ok value after =>
      rw [Transit.result, partOf_session]
      rfl
  | error failure after =>
      rw [Transit.result, partOf_session]
      rfl

theorem Hook.partOf_id (hook : Hook σ) : Hook.Mirrors (partOf id) hook hook :=
  Asked.of_base rfl Reply.map_above_empty fun node ctx => Walk.partOf_id (hook node ctx)

theorem Prune.partOf_id (prune : Prune σ) : Prune.Mirrors (partOf id) prune prune :=
  Asked.of_base rfl (fun _ => rfl) fun node ctx => Walk.partOf_id (prune.test node ctx)

theorem Walk.zoom_partOf {lens : Lens ρ σ}
    (hlens : ∀ given world, lens.get (lens.set given world) = given) (walk : Walk σ α) :
    Mirrors (partOf lens.get) id (Walk.zoom lens walk) walk := by
  rintro ⟨s, world⟩
  rw [partOf_session, Walk.zoom]
  cases walk ⟨s, lens.get world⟩ with
  | ok value after => simp only [Transit.result, partOf_session, hlens, id_eq]
  | error failure after => simp only [Transit.result, partOf_session, hlens]

theorem Hook.zoom_partOf {lens : Lens ρ σ}
    (hlens : ∀ given world, lens.get (lens.set given world) = given) (hook : Hook σ) :
    Hook.Mirrors (partOf lens.get) (hook.zoom lens) hook := by
  apply Asked.of_base rfl Reply.map_above_empty
  intro node ctx
  exact Walk.zoom_partOf hlens (hook node ctx)

theorem Prune.zoom_partOf {lens : Lens ρ σ}
    (hlens : ∀ given world, lens.get (lens.set given world) = given) (prune : Prune σ) :
    Prune.Mirrors (partOf lens.get) (prune.zoom lens) prune := by
  apply Asked.of_base rfl fun _ => rfl
  intro node ctx
  cases prune with
  | predicate test => exact Walk.zoom_partOf hlens (test node ctx)
  | setting given => exact .ite (.pure id (false, ctx)) (.throw id .notCallable)

theorem Visitor.zoom_partOf {lens : Lens ρ σ}
    (hlens : ∀ given world, lens.get (lens.set given world) = given) (visitor : Visitor σ) :
    Visitor.Mirrors (partOf lens.get) (visitor.zoom lens) visitor := by
  intro phase
  rw [hook?_zoom]
  exact rel_map_left (Hook.zoom_partOf hlens) _

theorem transform_kept {part : ρ → σ} {visitors : List (Visitor ρ)} {images : List (Visitor σ)}
    (hvisitors : Company.Mirrors (partOf part) visitors images) {options : TransformOptions ρ}
    {image : TransformOptions σ} (hoptions : options.Mirrors (partOf part) image) (fuel : Nat)
    (root : Value) (s : Store) (world : ρ) :
    kept part (transform fuel visitors options root ⟨s, world⟩) =
      transform fuel images image root ⟨s, part world⟩ := by
  have hmirrors := transform_mirrors hvisitors hoptions fuel root ⟨s, world⟩
  have hbase : (partOf part).base = {} := rfl
  rw [partOf_session, hbase, Value.above_empty] at hmirrors
  rw [hmirrors, partOf_result part Value.above_empty]

end ViewTree
