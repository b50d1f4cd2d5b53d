import ViewTree.Proofs.Visitor.Tracing

/-!
Traces told anew.  Of two traced walks one may note down other events than the other, and remember
more, and yet do the same.  What the first leaves, told anew event by event and with a part of the
world only, is then what the second leaves.
-/

namespace ViewTree

open Walk (Mirrors)

def retold (retell : Event → Option Event) (part : ρ → σ) :
    EStateM.Result Failure (Session (Traced ρ)) α → EStateM.Result Failure (Session (Traced σ)) α :=
  kept (Prod.map (List.filterMap retell) part)

/-- Tells a trace anew, and keeps a part of the world beside it. -/
def retelling (retell : Event → Option Event) (part : ρ → σ) : Transit (Traced ρ) (Traced σ) :=
  partOf (Prod.map (List.filterMap retell) part)

theorem kept_untrace (retell : Event → Option Event) (part : ρ → σ)
    (result : EStateM.Result Failure (Session (Traced ρ)) α) :
    kept part (untrace.result id result) = untrace.result id (retold retell part result) := by
  have huntrace : ∀ {τ : Type} (result : EStateM.Result Failure (Session (Traced τ)) α),
      untrace.result id result = kept Prod.snd result := partOf_result Prod.snd fun _ => rfl
  rw [huntrace, huntrace]
  cases result with
  | ok value after => rfl
  | error failure after => rfl

section

variable {part : ρ → σ} {retell : Event → Option Event}

theorem Walk.trace_told {event other : Event} (h : retell event = some other) :
    Mirrors (retelling retell part) id (Walk.trace event) (Walk.trace other) := by
  apply Mirrors.modifyWorld
  rintro ⟨trace, world⟩
  show (trace.filterMap retell ++ [other], part world) =
    ((trace ++ [event]).filterMap retell, part world)
  rw [List.filterMap_append, List.filterMap_cons_some h, List.filterMap_nil]

theorem Walk.traceIf_told {event other : Event} (h : retell event = some other)
    (condition : Bool) :
    Mirrors (retelling retell part) id (Walk.traceIf condition event)
      (Walk.traceIf condition other) := by
  apply Mirrors.ite
  · exact Walk.trace_told h
  · exact .pure id ()

theorem Walk.zoom_retelling {f : α → β} {walk : Walk ρ α} {image : Walk σ β}
    (h : Mirrors (partOf part) f walk image) :
    Mirrors (retelling retell part) f (Walk.zoom Lens.snd walk) (Walk.zoom Lens.snd image) := by
  rintro ⟨s, trace, world⟩
  have hpart := h ⟨s, world⟩
  rw [partOf_session] at hpart
  rw [retelling, partOf_session]
  simp only [Walk.zoom, Lens.snd, Prod.map, hpart]
  cases walk ⟨s, world⟩ with
  | ok value after => simp only [Transit.result, partOf_session, Prod.map]
  | error failure after => simp only [Transit.result, partOf_session, Prod.map]

/-- A hook goes by a number and a phase in one trace, and by others in the trace told anew. -/
structure Retells (retell : Event → Option Event) (number : Nat) (phase : Phase) (other : Nat)
    (otherPhase : Phase) : Prop where
  call : ∀ view, retell (.call number phase view) = some (.call other otherPhase view)
  replaced : ∀ depth,
    retell (.replaced number phase depth) = some (.replaced other otherPhase depth)

theorem Hook.traced_told {hook : Hook ρ} {image : Hook σ} {number other : Nat}
    {phase otherPhase : Phase} (hretells : Retells retell number phase other otherPhase)
    (h : Hook.Mirrors (partOf part) hook image) :
    Hook.Mirrors (retelling retell part) (hook.traced number phase)
      (image.traced other otherPhase) := by
  intro node ctx
  unfold Hook.traced
  apply Mirrors.store.bind
  intro s
  have hbase : (retelling retell part).base = {} := rfl
  rw [hbase, Context.view_above]
  apply (Walk.trace_told (hretells.call _)).bind
  intro _
  apply (Walk.zoom_retelling (h node ctx)).bind
  rintro ⟨reply, next⟩
  have hreplaces := reply.replaces_map_above {}
  have hempty : (partOf part).base = {} := rfl
  simp only [Prod.map, hempty, hreplaces]
  apply (Walk.traceIf_told (hretells.replaced _) _).bind
  intro _
  exact .pure _ (reply, next)

theorem Visitor.traced_told {visitor : Visitor ρ} {image : Visitor σ} {number other : Nat}
    (hretells : ∀ phase, Retells retell number phase other phase)
    (h : Visitor.Mirrors (partOf part) visitor image) :
    Visitor.Mirrors (retelling retell part) (visitor.traced number) (image.traced other) := by
  intro phase
  rw [hook?_traced, hook?_traced]
  exact rel_map (fun _ _ hhook => Hook.traced_told (hretells phase) hhook) (h phase)

theorem Prune.traced_told (hasked : ∀ view, retell (.asked view) = some (.asked view))
    {prune : Prune ρ} {image : Prune σ} (hnull : prune.isNull = image.isNull)
    (h : prune.Mirrors (partOf part) image) :
    prune.traced.Mirrors (retelling retell part) image.traced := by
  intro node ctx
  apply Mirrors.store.bind
  intro s
  have hbase : (retelling retell part).base = {} := rfl
  rw [hbase, Context.view_above, hnull]
  apply (Walk.traceIf_told (hasked _) _).bind
  intro _
  exact Walk.zoom_retelling (h node ctx)

end

theorem forall₂_mapIdx {R : α → β → Prop} {S : γ → δ → Prop} {xs : List α} {ys : List β}
    (hitems : List.Forall₂ R xs ys) :
    ∀ {f : Nat → α → γ} {g : Nat → β → δ},
      (∀ number < xs.length, ∀ x y, R x y → S (f number x) (g number y)) →
      List.Forall₂ S (xs.mapIdx f) (ys.mapIdx g) := by
  induction hitems with
  | nil =>
      intro f g _
      exact .nil
  | cons hhead _ ih =>
      intro f g h
      rw [List.mapIdx_cons, List.mapIdx_cons]
      refine .cons (h 0 (Nat.zero_lt_succ _) _ _ hhead) (ih ?_)
      intro number hnumber
      exact h (number + 1) (Nat.succ_lt_succ hnumber)

/-- A traced transform, told anew, is another transform when visitors and questions about descent are
told anew one by one. -/
theorem transform_retold {retell : Event → Option Event} {part : ρ → σ}
    {visitors : List (Visitor (Traced ρ))} {images : List (Visitor (Traced σ))}
    (hvisitors : Company.Mirrors (retelling retell part) visitors images)
    {options : TransformOptions (Traced ρ)} {image : TransformOptions (Traced σ)}
    (hoptions : options.Mirrors (retelling retell part) image) (fuel : Nat) (root : Value)
    (s : Store) (world : ρ) :
    retold retell part (transform fuel visitors options root ⟨s, [], world⟩) =
      transform fuel images image root ⟨s, [], part world⟩ :=
  transform_kept hvisitors hoptions fuel root s ([], world)

theorem transform_kept_of_retold {retell : Event → Option Event} {part : ρ → σ} {fuel : Nat}
    {visitors : List (Visitor ρ)} {images : List (Visitor σ)} {options : TransformOptions ρ}
    {image : TransformOptions σ} {root : Value} {s : Store} {world : ρ} {other : σ}
    (h : retold retell part
        (transform fuel (traceAll visitors) options.traced root ⟨s, [], world⟩) =
      transform fuel (traceAll images) image.traced root ⟨s, [], other⟩) :
    kept part (transform fuel visitors options root ⟨s, world⟩) =
      transform fuel images image root ⟨s, other⟩ := by
  rw [transform_untraced fuel visitors options root s [] world,
    transform_untraced fuel images image root s [] other, kept_untrace retell, h]

end ViewTree
