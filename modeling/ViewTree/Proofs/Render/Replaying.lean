import ViewTree.Render.Renderer

/-!
Renders as replays.  Whatever a render tells does not depend on what the policy has made of what it
told before, so a render is the replay of a list of diagnostics followed by a result.  The policy
only decides where the replay breaks off.
-/

namespace ViewTree

namespace Rendering

/-- A render tells these diagnostics in order and then comes to this result; a policy that fails
breaks it off. -/
def Replays (rendering : Rendering α) (told : List (Diagnostic Tree))
    (result : Except Failure α) : Prop :=
  rendering = (do
    told.forM Policy.report
    Renderer.ofExcept result)

def Replayable (rendering : Rendering α) : Prop :=
  ∃ told result, Replays rendering told result

namespace Replays

variable {rendering : Rendering α} {next : α → Rendering β}
  {told more : List (Diagnostic Tree)}

theorem pure (value : α) : Replays (Pure.pure value) [] (.ok value) :=
  (pure_bind _ _).symm

theorem throw (failure : Failure) :
    Replays (MonadExcept.throw failure : Rendering α) [] (.error failure) :=
  (pure_bind _ _).symm

theorem report (diagnostic : Diagnostic Tree) :
    Replays (Policy.report diagnostic) [diagnostic] (.ok ()) := by
  show Policy.report diagnostic = (Policy.report diagnostic >>= fun _ => Pure.pure ()) >>= Pure.pure
  rw [bind_pure, bind_pure]

theorem bind {value : α} {result : Except Failure β} (h : Replays rendering told (.ok value))
    (hnext : Replays (next value) more result) :
    Replays (rendering >>= next) (told ++ more) result := by
  unfold Replays at h hnext ⊢
  have happend : ((told ++ more).forM Policy.report : Rendering PUnit) =
      (told.forM Policy.report >>= fun _ => more.forM Policy.report) := List.forM_append
  calc rendering >>= next
      = told.forM Policy.report >>= fun _ => Pure.pure value >>= next := by rw [h, bind_assoc]; rfl
    _ = told.forM Policy.report >>= fun _ =>
          more.forM Policy.report >>= fun _ => Renderer.ofExcept result := by
        simp only [pure_bind, hnext]
    _ = (told ++ more).forM Policy.report >>= fun _ => Renderer.ofExcept result := by
        rw [happend, bind_assoc]

theorem andPure {value : α} (h : Replays rendering told (.ok value)) (f : α → β) :
    Replays (rendering >>= fun value => Pure.pure (f value)) told (.ok (f value)) := by
  have hwhole : Replays (rendering >>= fun value => Pure.pure (f value)) (told ++ [])
      (.ok (f value)) := h.bind (.pure (f value))
  rwa [List.append_nil] at hwhole

/-- What would come after a failure is neither told nor done. -/
theorem bind_error {failure : Failure} (h : Replays rendering told (.error failure)) :
    Replays (rendering >>= next) told (.error failure) := by
  unfold Replays at h ⊢
  rw [h, bind_assoc]
  rfl

end Replays

namespace Replayable

variable {rendering : Rendering α}

theorem pure (value : α) : Replayable (Pure.pure value) :=
  ⟨[], _, .pure value⟩

theorem throw (failure : Failure) : Replayable (MonadExcept.throw failure : Rendering α) :=
  ⟨[], _, .throw failure⟩

theorem report (diagnostic : Diagnostic Tree) : Replayable (Policy.report diagnostic) :=
  ⟨[diagnostic], _, .report diagnostic⟩

theorem bind {next : α → Rendering β} (h : Replayable rendering)
    (hnext : ∀ value, Replayable (next value)) : Replayable (rendering >>= next) := by
  obtain ⟨told, result, h⟩ := h
  cases result with
  | error failure => exact ⟨told, _, h.bind_error⟩
  | ok value =>
      obtain ⟨more, result, hmore⟩ := hnext value
      exact ⟨told ++ more, result, h.bind hmore⟩

theorem map (f : α → β) (h : Replayable rendering) : Replayable (f <$> rendering) := by
  rw [map_eq_pure_bind]
  exact h.bind fun value => pure (f value)

theorem reporting (diagnostic : Diagnostic Tree) {next : Rendering α} (h : Replayable next) :
    Replayable (do
      Policy.report diagnostic
      next) :=
  (report diagnostic).bind fun _ => h

theorem ofExcept (given : Except Failure α) : Replayable (Renderer.ofExcept given) := by
  cases given with
  | ok value => exact pure value
  | error failure => exact throw failure

theorem mapM {xs : List α} {step : α → Rendering β} (h : ∀ x, Replayable (step x)) :
    Replayable (xs.mapM step) := by
  induction xs with
  | nil => exact pure []
  | cons x xs ih =>
      rw [List.mapM_cons]
      apply (h x).bind
      intro first
      apply ih.bind
      intro others
      exact pure (first :: others)

end Replayable

end Rendering

namespace Renderer

open Rendering (Replayable)

variable (renderer : Renderer)

theorem resolveProp_replayable (node : Tree) (name : String) (value : Tree) :
    Replayable (renderer.resolveProp node name value) := by
  unfold resolveProp
  apply (Replayable.ofExcept _).bind
  intro begins
  cases begins with
  | false => exact .pure (name, value)
  | true =>
      cases value.text? with
      | none => exact .pure (name, value)
      | some handlerName =>
          apply (Replayable.ofExcept _).bind
          intro found
          cases found with
          | some handler => exact .pure _
          | none => exact .reporting _ (.pure _)

theorem processProps_replayable (node props : Tree) :
    Replayable (renderer.processProps node props) := by
  cases props with
  | object members =>
      apply Replayable.mapM
      intro member
      exact renderer.resolveProp_replayable node member.1 member.2
  | _ => exact .throw _

theorem containerFor_replayable (node container : Tree) :
    Replayable (renderer.containerFor node container) := by
  unfold containerFor
  split
  · exact .pure _
  · next selector =>
      show Replayable (if (renderer.host.find selector).isNull then _ else _)
      split
      · exact .reporting _ (.pure _)
      · exact .pure _
  · exact .pure _

theorem build_replayable (node component : Tree) (props : Members Tree) (children : List Output)
    (key : Option Tree) : Replayable (renderer.build node component props children key) := by
  unfold build
  split
  · exact .pure _
  · apply (renderer.containerFor_replayable node _).bind
    intro container
    exact .pure _
  · exact .pure _

theorem renderAtom_replayable (node : Tree) (a : Atom) : Replayable (renderAtom node a) := by
  unfold renderAtom
  split
  · exact .reporting _ (.pure _)
  · split
    · exact .pure _
    · exact .pure _
    · exact .pure _

mutual
theorem render_replayable (t : Tree) : Replayable (renderer.render t) := by
  cases t with
  | atom a => exact renderAtom_replayable _ a
  | tuple items => exact .reporting _ (.pure _)
  | array items => exact .map _ (renderAll_replayable items)
  | object members =>
      rw [render]
      split
      · exact .reporting _ (.pure _)
      · apply (Replayable.ofExcept _).bind
        intro found
        cases found with
        | none => exact .reporting _ (.pure _)
        | some component =>
            apply (renderer.processProps_replayable _ _).bind
            intro props
            apply (renderBelow_replayable members).bind
            intro children
            exact renderer.build_replayable _ _ _ _ _

theorem renderAll_replayable (items : List Tree) : Replayable (renderer.renderAll items) := by
  cases items with
  | nil => exact .pure []
  | cons item rest =>
      rw [renderAll]
      apply (render_replayable item).bind
      intro output
      apply (renderAll_replayable rest).bind
      intro outputs
      exact .pure _

theorem renderBelow_replayable (members : List (String × Tree)) :
    Replayable (renderer.renderBelow members) := by
  cases members with
  | nil => exact .pure []
  | cons member rest =>
      obtain ⟨name, value⟩ := member
      rw [renderBelow]
      split
      · apply (render_replayable value).bind
        intro output
        exact .pure _
      · exact renderBelow_replayable rest
end

end Renderer

end ViewTree
