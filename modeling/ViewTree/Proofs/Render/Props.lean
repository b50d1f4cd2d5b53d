import ViewTree.Proofs.Render.Replaying
import ViewTree.Proofs.Tree.Binding

namespace ViewTree

def Roster.missing? (roster : Roster) (name : String) (text? : Option String) : Option String :=
  if roster.start.covers name then
    text?.filter fun handler => (Handler.among roster.entries handler).isNone
  else none

/-- What is told of the handlers of a node that are not there. -/
def Roster.misses (roster : Roster) (node : Tree) (props : Members Tree) :
    List (Diagnostic Tree) :=
  props.flatMap fun member =>
    ((roster.missing? member.1 member.2.text?).map
      (Diagnostic.unresolvedHandler node member.1)).toList

theorem Tree.text?_eq_some_iff {t : Tree} {text : String} :
    t.text? = some text ↔ t = .text text := by
  constructor
  · intro h
    cases t with
    | atom a =>
        cases a with
        | text value => exact congrArg Tree.text (Option.some.inj h)
        | _ => cases h
    | _ => cases h
  · rintro rfl
    rfl

namespace Roster

variable {roster : Roster}

theorem missing?_eq_none_iff {name : String} {text? : Option String} :
    roster.missing? name text? = none ↔ ∀ handler, text? = some handler →
      roster.start.covers name = true → Handler.among roster.entries handler ≠ none := by
  rw [missing?]
  cases roster.start.covers name with
  | false => simp
  | true => cases text? <;> simp [Option.filter_some]

theorem misses_eq_nil_iff {node : Tree} {props : Members Tree} :
    roster.misses node props = [] ↔ ∀ name handler, (name, Tree.text handler) ∈ props →
      roster.start.covers name = true → Handler.among roster.entries handler ≠ none := by
  simp only [misses, List.flatMap_eq_nil_iff, Option.toList_eq_nil_iff, Option.map_eq_none_iff,
    missing?_eq_none_iff, Tree.text?_eq_some_iff]
  constructor
  · intro h name handler hprop
    exact h _ hprop handler rfl
  · rintro h ⟨name, value⟩ hprop handler rfl
    exact h name handler hprop

end Roster

namespace Renderer

/-- A renderer that looks up handlers as a roster has them. -/
structure LooksUp (renderer : Renderer) (roster : Roster) : Prop where
  handler : ∀ name, renderer.handler? name = .ok (Handler.among roster.entries name)
  start : renderer.start = roster.start
  textsOnly : roster.start.textsOnly = true

variable {renderer : Renderer} {roster : Roster}

theorem LooksUp.resolveProp_eq (h : renderer.LooksUp roster) (node : Tree) (name : String)
    (value : Tree) :
    renderer.resolveProp node name value =
      match if roster.start.covers name then value.text? else none with
      | none => pure (name, value)
      | some handlerName =>
        match Handler.among roster.entries handlerName with
        | some handler => pure (name, .atom handler)
        | none => do
          Policy.report (.unresolvedHandler node name handlerName)
          return (name, value) := by
  unfold resolveProp
  rw [h.start, NameStart.begins_of_textsOnly h.textsOnly]
  cases hcovers : roster.start.covers name with
  | false => rfl
  | true =>
      cases htext : value.text? with
      | none => simp only [ofExcept, pure_bind, if_true]
      | some handlerName =>
          have hhandler := h.handler handlerName
          cases hamong : Handler.among roster.entries handlerName with
          | none => simp only [ofExcept, pure_bind, if_true, hhandler, hamong]
          | some handler => simp only [ofExcept, pure_bind, if_true, hhandler, hamong]

open Rendering (Replays)

theorem LooksUp.resolveProp_replays (h : renderer.LooksUp roster) (node : Tree) (name : String)
    (value : Tree) :
    Replays (renderer.resolveProp node name value)
      ((roster.missing? name value.text?).map (Diagnostic.unresolvedHandler node name)).toList
      (.ok (name, ((roster.handler? name value.text?).map Tree.atom).getD value)) := by
  rw [h.resolveProp_eq, Roster.missing?, Roster.handler?]
  cases roster.start.covers name with
  | false => exact .pure _
  | true =>
      simp only [if_true]
      cases value.text? with
      | none => exact .pure _
      | some handlerName =>
          simp only [Option.bind_some]
          cases hamong : Handler.among roster.entries handlerName with
          | none =>
              simp only [Option.filter_some, hamong]
              exact (Replays.report _).bind (.pure _)
          | some handler =>
              simp only [Option.filter_some, hamong]
              exact .pure _

theorem LooksUp.resolveProps_replays (h : renderer.LooksUp roster) (node : Tree)
    (props : Members Tree) :
    Replays (renderer.resolveProps node props) (roster.misses node props)
      (.ok (roster.bind Tree.text? .atom props)) := by
  induction props with
  | nil => exact .pure []
  | cons member rest ih =>
      rw [resolveProps, List.mapM_cons, Roster.misses, List.flatMap_cons]
      exact (h.resolveProp_replays node member.1 member.2).bind (ih.andPure _)

end Renderer

end ViewTree
