import ViewTree.Proofs.Diagnostic.Mapping
import ViewTree.Proofs.Render.Props

namespace ViewTree

def Desk.blurred (desk : Desk ν) : Desk Unit :=
  desk.mapNode fun _ => ()

namespace Rendering

def blurred : EStateM.Result Failure (Desk Tree) α → EStateM.Result Failure (Desk Unit) α
  | .ok value desk => .ok value desk.blurred
  | .error failure desk => .error failure desk.blurred

/-- Two renders come to the same on desks that are the same but for nodes. -/
def Alike (first second : Rendering α) : Prop :=
  ∀ desk other : Desk Tree, desk.blurred = other.blurred →
    blurred (first desk) = blurred (second other)

namespace Alike

variable {first second : Rendering α}

theorem pure (value : α) : Alike (Pure.pure value) (Pure.pure value) :=
  fun _ _ h => congrArg (EStateM.Result.ok value) h

theorem throw (failure : Failure) :
    Alike (MonadExcept.throw failure : Rendering α) (MonadExcept.throw failure) :=
  fun _ _ h => congrArg (EStateM.Result.error failure) h

theorem ofExcept (given : Except Failure α) :
    Alike (Renderer.ofExcept given) (Renderer.ofExcept given) := by
  cases given with
  | ok value => exact pure value
  | error failure => exact throw failure

theorem bind {next rest : α → Rendering β} (h : Alike first second)
    (hnext : ∀ value, Alike (next value) (rest value)) :
    Alike (first >>= next) (second >>= rest) := by
  intro desk other hdesk
  have hfirst := h desk other hdesk
  show blurred (EStateM.bind first next desk) = blurred (EStateM.bind second rest other)
  unfold EStateM.bind
  cases hrun : first desk with
  | ok value after =>
      rw [hrun] at hfirst
      cases hother : second other with
      | ok result last =>
          rw [hother] at hfirst
          obtain ⟨rfl, hafter⟩ := EStateM.Result.ok.inj hfirst
          exact hnext value after last hafter
      | error failure last =>
          rw [hother] at hfirst
          cases hfirst
  | error failure after =>
      rw [hrun] at hfirst
      cases hother : second other with
      | ok result last =>
          rw [hother] at hfirst
          cases hfirst
      | error cause last =>
          rw [hother] at hfirst
          obtain ⟨rfl, hafter⟩ := EStateM.Result.error.inj hfirst
          exact congrArg (EStateM.Result.error failure) hafter

theorem map {f : α → β} (h : Alike first second) : Alike (f <$> first) (f <$> second) := by
  rw [map_eq_pure_bind, map_eq_pure_bind]
  exact h.bind fun value => pure (f value)

theorem report {told other : Diagnostic Tree}
    (h : told.mapNode (fun _ => ()) = other.mapNode fun _ => ()) :
    Alike (Policy.report told) (Policy.report other) := by
  intro desk last hdesk
  have hfirst := Policy.report_mapNode (fun _ => ()) told desk
  have hsecond := Policy.report_mapNode (fun _ => ()) other last
  have hends : Desk.mapEnd (fun _ => ()) (Policy.report told desk) =
      Desk.mapEnd (fun _ => ()) (Policy.report other last) := by
    rw [← hfirst, ← hsecond, h]
    exact congrArg _ hdesk
  have hblur : ∀ result : EStateM.Result Failure (Desk Tree) Unit,
      blurred result = Desk.mapEnd (fun _ => ()) result := by
    intro result
    cases result <;> rfl
  rw [hblur, hblur, hends]

theorem reporting {told other : Diagnostic Tree} (value : α)
    (h : told.mapNode (fun _ => ()) = other.mapNode fun _ => ()) :
    Alike (do Policy.report told; return value : Rendering α)
      (do Policy.report other; return value) :=
  (report h).bind fun _ => pure value

theorem mapM {xs ys : List γ} {step rest : γ → Rendering β} {f : γ → γ} (hmap : ys.map f = xs)
    (h : ∀ y, Alike (step (f y)) (rest y)) : Alike (xs.mapM step) (ys.mapM rest) := by
  subst hmap
  induction ys with
  | nil => exact pure []
  | cons y ys ih =>
      rw [List.map_cons, List.mapM_cons, List.mapM_cons]
      apply (h y).bind
      intro value
      apply ih.bind
      intro values
      exact pure (value :: values)

end Alike

end Rendering

namespace Renderer

open Rendering (Alike)

def bare (renderer : Renderer) : Renderer :=
  { renderer with handlers := .object [] }

structure GoesBy (renderer : Renderer) (roster : Roster) : Prop where
  handlers : renderer.handlers = .object roster.entries
  start : renderer.start = roster.start
  textsOnly : roster.start.textsOnly = true

theorem GoesBy.looksUp {renderer : Renderer} {roster : Roster} (h : renderer.GoesBy roster) :
    renderer.LooksUp roster := by
  refine ⟨?_, h.start, h.textsOnly⟩
  intro name
  rw [handler?, h.handlers]
  cases hentries : roster.entries with
  | nil => rfl
  | cons entry rest => exact Handler.find?_object _ name

variable {renderer : Renderer} {roster : Roster}

theorem GoesBy.bare (h : renderer.GoesBy roster) :
    renderer.bare.GoesBy { roster with entries := [] } :=
  ⟨rfl, h.start, h.textsOnly⟩

/-- A prop that is bound already comes to what it would be bound to, and a name without a handler is
told either way. -/
theorem resolveProp_bound (h : renderer.GoesBy roster) (node other : Tree) (name : String)
    (value : Tree) :
    Alike (renderer.bare.resolveProp node name
        (((roster.handler? name value.text?).map Tree.atom).getD value))
      (renderer.resolveProp other name value) := by
  rw [h.bare.looksUp.resolveProp_eq, h.looksUp.resolveProp_eq, Roster.handler?]
  cases roster.start.covers name with
  | false => exact .pure _
  | true =>
      simp only [if_true]
      cases htext : value.text? with
      | none =>
          simp only [Option.bind_none, Option.map_none, Option.getD_none, htext]
          exact .pure _
      | some handlerName =>
          simp only [Option.bind_some]
          cases hamong : Handler.among roster.entries handlerName with
          | none =>
              simp only [Option.map_none, Option.getD_none, htext]
              exact .reporting _ rfl
          | some handler =>
              have hatom : (Tree.atom handler).text? = none := Handler.text?_of_among hamong
              simp only [Option.map_some, Option.getD_some, hatom]
              exact .pure _

theorem processProps_bound (h : renderer.GoesBy roster) (node other props : Tree) :
    Alike (renderer.bare.processProps node (roster.bindProps props))
      (renderer.processProps other props) := by
  cases props with
  | object members => exact .mapM rfl fun member => resolveProp_bound h node other member.1 member.2
  | _ => exact .throw _

theorem propsOf_boundMembers (roster : Roster) (members : Members Tree) :
    propsOf (Tree.boundMembers roster members) = roster.bindProps (propsOf members) := by
  have hlookup : ((Tree.boundMembers roster members).lookup "props").getD .null =
      roster.bindProps ((members.lookup "props").getD .null) := by
    rw [Tree.lookup_boundMembers]
    cases members.lookup "props" <;> rfl
  have htruthy : ∀ props : Tree, (roster.bindProps props).isTruthy = props.isTruthy := by
    intro props
    cases props with
    | object members => cases members <;> rfl
    | _ => rfl
  unfold propsOf
  simp only [hlookup, htruthy]
  split <;> rfl

theorem keyOf_boundMembers (roster : Roster) (members props : Members Tree) :
    keyOf (Tree.boundMembers roster members) props = keyOf members props := by
  rw [keyOf, keyOf, Tree.lookup_boundMembers_of_ne roster members (by decide) (by decide),
    Tree.lookup_boundMembers_of_ne roster members (by decide) (by decide)]

theorem build_alike (renderer : Renderer) (node other component : Tree) (props : Members Tree)
    (children : List Output) (key : Option Tree) :
    Alike (renderer.build node component props children key)
      (renderer.build other component props children key) := by
  have hcontainer : ∀ container, Alike (renderer.containerFor node container)
      (renderer.containerFor other container) := by
    intro container
    unfold containerFor
    split
    · exact .pure _
    · next selector =>
        show Alike (if (renderer.host.find selector).isNull then _ else _)
          (if (renderer.host.find selector).isNull then _ else _)
        split
        · exact .reporting _ rfl
        · exact .pure _
    · exact .pure _
  unfold build
  split
  · exact .pure _
  · exact (hcontainer _).bind fun container => .pure _
  · exact .pure _

theorem renderAtom_alike (node : Tree) (a : Atom) :
    Alike (renderAtom node a) (renderAtom node a) := by
  unfold renderAtom
  cases a.classify with
  | error cause => exact .reporting _ rfl
  | ok kind => cases a <;> exact .pure _

mutual
/-- A bound tree is rendered without handlers as the tree is with them. -/
theorem render_bound (h : renderer.GoesBy roster) (t : Tree) :
    Alike (renderer.bare.render (t.bound roster)) (renderer.render t) := by
  cases t with
  | atom a =>
      rw [Tree.bound, render, render]
      exact renderAtom_alike _ a
  | tuple items =>
      rw [Tree.bound, render, render]
      exact .reporting _ rfl
  | array items =>
      rw [Tree.bound, render, render]
      exact (renderAll_bound h items).map
  | object members =>
      rw [Tree.bound]
      cases htype : (Tree.object members).nodeType? with
      | none =>
          have hopen : (Tree.object members).isStructured = false := by
            rw [Tree.isStructured, htype]
            rfl
          rw [hopen, if_neg Bool.false_ne_true, render, render]
          simp only [htype]
          exact .reporting _ rfl
      | some type =>
          have hstructured : (Tree.object members).isStructured = true := by
            rw [Tree.isStructured, htype]
            rfl
          have hbound := (Tree.nodeType?_boundMembers roster members).trans htype
          rw [hstructured, if_pos rfl, render, render]
          simp only [htype, hbound]
          apply (Alike.ofExcept _).bind
          intro component
          cases component with
          | none => exact .reporting _ rfl
          | some component =>
              simp only [propsOf_boundMembers, keyOf_boundMembers]
              apply (processProps_bound h _ _ _).bind
              intro props
              apply (renderBelow_bound h members).bind
              intro children
              exact build_alike renderer _ _ component _ children _

theorem renderAll_bound (h : renderer.GoesBy roster) (items : List Tree) :
    Alike (renderer.bare.renderAll (Tree.boundItems roster items)) (renderer.renderAll items) := by
  cases items with
  | nil => exact .pure []
  | cons item rest =>
      rw [Tree.boundItems, renderAll, renderAll]
      apply (render_bound h item).bind
      intro output
      apply (renderAll_bound h rest).bind
      intro outputs
      exact .pure _

theorem renderBelow_bound (h : renderer.GoesBy roster) (members : List (String × Tree)) :
    Alike (renderer.bare.renderBelow (Tree.boundMembers roster members))
      (renderer.renderBelow members) := by
  cases members with
  | nil => exact .pure []
  | cons member rest =>
      obtain ⟨name, value⟩ := member
      rw [Tree.boundMembers, renderBelow, renderBelow]
      by_cases hname : name = "children"
      · simp only [hname, if_true]
        exact (render_bound h value).bind fun output => .pure _
      · simp only [hname, if_false]
        exact renderBelow_bound h rest
end

end Renderer

end ViewTree
