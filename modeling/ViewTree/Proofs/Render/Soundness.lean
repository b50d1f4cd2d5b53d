import ViewTree.Proofs.Render.Outcome
import ViewTree.Proofs.Walk.Course

namespace ViewTree

namespace Rendering

/-- Where a render comes to an end, it comes to this value. -/
def Returns (rendering : Rendering α) (value : α) : Prop :=
  ∀ desk result after, rendering desk = .ok result after → result = value

namespace Returns

variable {rendering : Rendering α} {value : α}

theorem pure (value : α) : Returns (Pure.pure value) value := by
  intro desk result after h
  cases h
  rfl

theorem throw (failure : Failure) (value : α) :
    Returns (MonadExcept.throw failure : Rendering α) value := by
  intro desk result after h
  cases h

theorem bind {next : α → Rendering β} {result : β} (h : Returns rendering value)
    (hnext : Returns (next value) result) : Returns (rendering >>= next) result := by
  intro desk last after hrun
  rw [Walk.bind_apply] at hrun
  cases hfirst : rendering desk with
  | error failure middle =>
      rw [hfirst] at hrun
      cases hrun
  | ok given middle =>
      rw [hfirst] at hrun
      rw [h desk given middle hfirst] at hrun
      exact hnext middle last after hrun

theorem map (h : Returns rendering value) (f : α → β) : Returns (f <$> rendering) (f value) := by
  rw [map_eq_pure_bind]
  exact h.bind (pure (f value))

theorem andPure (h : Returns rendering value) (f : α → β) :
    Returns (rendering >>= fun given => Pure.pure (f given)) (f value) :=
  h.bind (pure (f value))

theorem ofExcept {given : Except Failure α} {next : α → Rendering β} {result : β}
    (h : ∀ value, given = .ok value → Returns (next value) result) :
    Returns (Renderer.ofExcept given >>= next) result := by
  cases given with
  | ok value =>
      rw [Renderer.ofExcept, pure_bind]
      exact h value rfl
  | error failure =>
      intro desk last after hrun
      cases hrun

theorem reporting (diagnostic : Diagnostic Tree) (value : α) :
    Returns (do Policy.report diagnostic; return value) value := by
  have hreport : Returns (Policy.report diagnostic) () := fun _ _ _ _ => rfl
  exact hreport.bind (pure value)

end Returns

theorem Replays.returns {rendering : Rendering α} {told : List (Diagnostic Tree)} {value : α}
    (h : Replays rendering told (.ok value)) : Returns rendering value := by
  have htold : Returns (told.forM Policy.report) () := fun _ _ _ _ => rfl
  rw [h]
  exact htold.bind (.pure value)

end Rendering

theorem NameStart.covers_of_begins {start : NameStart} {name : String} {covered : Bool}
    (h : start.begins name = .ok covered) : start.covers name = covered := by
  unfold begins at h
  unfold covers
  cases hany : start.texts.any fun text => text.toList.isPrefixOf name.toList with
  | true =>
      rw [hany, if_pos rfl] at h
      exact Except.ok.inj h
  | false =>
      rw [hany, if_neg Bool.false_ne_true] at h
      split at h
      · exact Except.ok.inj h
      · cases h

theorem Host.find_named_or_null (host : Host) (selector : String) :
    (∃ name, host.containers.lookup name = some (host.find selector)) ∨
      host.find selector = .null := by
  unfold find
  split
  · next hselector => exact .inl ⟨selector, hselector⟩
  · split
    · next name _ =>
        cases hname : host.containers.lookup (String.ofList name) with
        | some container => exact .inl ⟨_, hname⟩
        | none => exact .inr rfl
    · exact .inr rfl

namespace Renderer

open Rendering (Returns)

variable {renderer : Renderer}

theorem among_of_handler? {name : String} {handler : Option Atom}
    (h : renderer.handler? name = .ok handler) :
    Handler.among renderer.roster.entries name = handler := by
  unfold handler? at h
  unfold roster
  cases hhandlers : renderer.handlers with
  | object entries =>
      rw [hhandlers] at h
      cases entries with
      | nil => exact Except.ok.inj h
      | cons entry rest => exact Except.ok.inj ((Handler.find?_object _ name).symm.trans h)
  | _ =>
      rw [hhandlers] at h
      split at h
      · cases h
      · exact Except.ok.inj h

theorem resolveProp_returns (node : Tree) (name : String) (value : Tree) :
    Returns (renderer.resolveProp node name value)
      (name, ((renderer.roster.handler? name value.text?).map Tree.atom).getD value) := by
  unfold resolveProp
  apply Returns.ofExcept
  intro covered hbegins
  rw [Roster.handler?]
  have hcovers : renderer.roster.start.covers name = covered := NameStart.covers_of_begins hbegins
  rw [hcovers]
  cases covered with
  | false => exact .pure _
  | true =>
      simp only [if_true]
      cases value.text? with
      | none => exact .pure _
      | some handlerName =>
          apply Returns.ofExcept
          intro handler hhandler
          rw [Option.bind_some, among_of_handler? hhandler]
          cases handler with
          | none => exact .reporting _ _
          | some handler => exact .pure _

theorem resolveProps_returns (node : Tree) (props : Members Tree) :
    Returns (renderer.resolveProps node props) (renderer.roster.bind Tree.text? .atom props) := by
  induction props with
  | nil => exact .pure []
  | cons member rest ih =>
      rw [resolveProps, List.mapM_cons]
      exact (resolveProp_returns node member.1 member.2).bind (ih.andPure _)

theorem props_of_propsOf {members props : Members Tree} (h : propsOf members = .object props) :
    (Tree.object members).props = props := by
  rw [Tree.props, Tree.member]
  generalize hgiven : (members.lookup "props").getD .null = given
  have h : (if given.isTruthy then given else .object []) = .object props := hgiven ▸ h
  split at h
  · rw [h]
  · next hfalse =>
      obtain rfl : [] = props := Tree.object.inj h
      cases given with
      | object props => simpa [Tree.isTruthy] using hfalse
      | _ => rfl

theorem processProps_returns (members : Members Tree) :
    Returns (renderer.processProps (.object members) (propsOf members))
      (renderer.boundProps (.object members)) := by
  cases hprops : propsOf members with
  | object props =>
      rw [boundProps, props_of_propsOf hprops]
      exact resolveProps_returns _ props
  -- other props that do not count as false break a render off
  | _ => exact .throw _ _

mutual
theorem render_returns (t : Tree) : Returns (renderer.render t) (renderer.outcome t) := by
  cases t with
  | atom a => exact (renderAtom_replays a).returns
  | tuple items => exact .reporting _ _
  | array items =>
      rw [render, outcome]
      exact (renderAll_returns items).map _
  | object members =>
      rw [render, outcome, component?]
      cases htype : (Tree.object members).nodeType? with
      | none => exact .reporting _ _
      | some type =>
          simp only [Option.bind_some]
          apply Returns.ofExcept
          intro component hresolve
          -- an unusable resolver has broken the render off by now
          have hresolver : renderer.resolver ≠ .unusable := by
            intro hunusable
            rw [hunusable] at hresolve
            cases hresolve
          rw [Resolver.resolve_text hresolver] at hresolve
          rw [Except.ok.inj hresolve]
          cases component with
          | none => exact .reporting _ _
          | some component =>
              apply (processProps_returns members).bind
              apply (renderBelow_returns members).bind
              exact (build_replays members component _).returns

theorem renderAll_returns (items : List Tree) :
    Returns (renderer.renderAll items) (renderer.outcomes items) := by
  cases items with
  | nil => exact .pure []
  | cons item rest =>
      rw [renderAll, outcomes]
      exact (render_returns item).bind ((renderAll_returns rest).andPure _)

theorem renderBelow_returns (members : List (String × Tree)) :
    Returns (renderer.renderBelow members) (renderer.outcomesBelow members) := by
  cases members with
  | nil => exact .pure []
  | cons member rest =>
      obtain ⟨name, value⟩ := member
      rw [renderBelow, outcomesBelow]
      split
      · exact (render_returns value).andPure _
      · exact renderBelow_returns rest
end

/-- A portal of a node leads to a container: the fallback, one the host has under some name, or one
the node gives itself instead of a name. -/
inductive Leads (renderer : Renderer) (node : Tree) : Tree → Prop
  | fallback : Leads renderer node renderer.host.fallback
  | named {name : String} {container : Tree}
    (h : renderer.host.containers.lookup name = some container) : Leads renderer node container
  | given (hnull : (renderer.target node).isNull = false)
    (htext : (renderer.target node).text? = none) : Leads renderer node (renderer.target node)

/-- What may stand in a list, of all that a render of a tree comes to: a text or a number of the
tree, and an element or a portal of one of its nodes with pieces of what is below that node. -/
inductive Piece (renderer : Renderer) : Tree → Output → Prop
  | text {t : Tree} {value : String} (h : renderer.Reaches t (.atom (.text value))) :
    Piece renderer t (.leaf (.text value))
  | int {t : Tree} {value : Int} (h : renderer.Reaches t (.atom (.int value))) :
    Piece renderer t (.leaf (.int value))
  | float {t : Tree} {value : Double} (h : renderer.Reaches t (.atom (.float value))) :
    Piece renderer t (.leaf (.float value))
  | element {t node component : Tree} {props : Members Tree} {children : List Output}
    {key : Option Tree} (hnode : renderer.Reaches t node)
    (hcomponent : renderer.component? node = some component)
    (hchildren : ∀ child ∈ children, Piece renderer (node.member "children") child) :
    Piece renderer t (.element component props children key)
  | portal {t node container : Tree} {children : List Output} {key : Option Tree}
    (hnode : renderer.Reaches t node)
    (hcomponent : renderer.component? node = some Marker.portal.component)
    (hcontainer : renderer.Leads node container)
    (hchildren : ∀ child ∈ children, Piece renderer (node.member "children") child) :
    Piece renderer t (.portal container children key)

inductive Sound (renderer : Renderer) (t : Tree) : Output → Prop
  | nothing : Sound renderer t .nothing
  | piece {output : Output} (h : renderer.Piece t output) : Sound renderer t output
  | list {items : List Output} (h : ∀ item ∈ items, renderer.Piece t item) :
    Sound renderer t (.list items)

theorem Reaches.trans {t middle node : Tree} (h : renderer.Reaches t middle)
    (hnode : renderer.Reaches middle node) : renderer.Reaches t node := by
  induction h with
  | self => exact hnode
  | item hitem _ ih => exact .item hitem (ih hnode)
  | child hcomponent hvalue _ ih => exact .child hcomponent hvalue (ih hnode)

theorem Piece.above {t part : Tree} {output : Output} (h : renderer.Piece part output)
    (hpart : renderer.Reaches t part) : renderer.Piece t output := by
  cases h with
  | text h => exact .text (hpart.trans h)
  | int h => exact .int (hpart.trans h)
  | float h => exact .float (hpart.trans h)
  | element hnode hcomponent hchildren => exact .element (hpart.trans hnode) hcomponent hchildren
  | portal hnode hcomponent hcontainer hchildren =>
      exact .portal (hpart.trans hnode) hcomponent hcontainer hchildren

theorem Sound.splice {t : Tree} {output : Output} (h : renderer.Sound t output) :
    ∀ piece ∈ output.splice, renderer.Piece t piece := by
  cases h with
  | nothing => simp
  | list h => exact h
  | piece h => cases h <;> exact List.forall_mem_singleton.mpr (by constructor <;> assumption)

theorem leads_destination (node : Tree) :
    renderer.Leads node (renderer.destination (renderer.target node)) := by
  unfold destination
  split
  · exact .fallback
  · next selector htarget =>
      split
      · exact .fallback
      · next hfound =>
          rcases renderer.host.find_named_or_null selector with ⟨name, hname⟩ | hnull
          · exact .named hname
          · exact absurd (hnull ▸ Tree.isNull_null) hfound
  · next hnull htext =>
      refine .given ?_ ?_
      · cases hempty : (renderer.target node).isNull with
        | false => rfl
        | true => exact absurd (Tree.eq_null_of_isNull hempty) hnull
      · cases hgiven : (renderer.target node).text? with
        | none => rfl
        | some selector => exact absurd (Tree.text?_eq_some_iff.mp hgiven) (htext selector)

theorem sound_showAtom (a : Atom) : renderer.Sound (.atom a) (showAtom a) := by
  cases a with
  | int value => exact .piece (.int (.self _))
  | float value => exact .piece (.float (.self _))
  | text value => exact .piece (.text (.self _))
  | _ => exact .nothing

theorem sound_shape {members : Members Tree} {component : Tree}
    (hcomponent : renderer.component? (.object members) = some component)
    {children : List Output} (hchildren : ∀ child ∈ children, ∃ value,
      members.lookup "children" = some value ∧ renderer.Piece value child) :
    renderer.Sound (.object members) (renderer.shape members component children) := by
  have hself : renderer.Reaches (.object members) (.object members) := .self _
  have hpieces : ∀ child ∈ children,
      renderer.Piece ((Tree.object members).member "children") child := by
    intro child hchild
    obtain ⟨value, hvalue, hpiece⟩ := hchildren child hchild
    rwa [Tree.member, hvalue]
  unfold shape
  split
  · refine .list fun child hchild => ?_
    obtain ⟨value, hvalue, hpiece⟩ := hchildren child hchild
    exact hpiece.above (.child hcomponent hvalue (.self value))
  · exact .piece (.portal hself hcomponent (leads_destination _) hpieces)
  · exact .piece (.element hself hcomponent hpieces)

mutual
theorem sound_outcome (t : Tree) : renderer.Sound t (renderer.outcome t) := by
  cases t with
  | atom a => exact sound_showAtom a
  | tuple items => exact .nothing
  | array items =>
      rw [outcome]
      refine .list fun output houtput => ?_
      obtain ⟨item, hitem, hpiece⟩ := pieces_outcomes items output houtput
      exact hpiece.above (.item hitem (.self item))
  | object members =>
      rw [outcome]
      split
      · exact .nothing
      · next hcomponent => exact sound_shape hcomponent (pieces_outcomesBelow members)

theorem pieces_outcomes (items : List Tree) : ∀ output ∈ renderer.outcomes items,
    ∃ item ∈ items, renderer.Piece item output := by
  cases items with
  | nil => simp [outcomes]
  | cons item rest =>
      intro output houtput
      rw [outcomes, List.mem_append] at houtput
      rcases houtput with houtput | houtput
      · exact ⟨item, List.mem_cons_self, (sound_outcome item).splice output houtput⟩
      · obtain ⟨other, hother, hpiece⟩ := pieces_outcomes rest output houtput
        exact ⟨other, List.mem_cons_of_mem _ hother, hpiece⟩

theorem pieces_outcomesBelow (members : List (String × Tree)) :
    ∀ output ∈ renderer.outcomesBelow members, ∃ value,
      members.lookup "children" = some value ∧ renderer.Piece value output := by
  cases members with
  | nil => simp [outcomesBelow]
  | cons member rest =>
      obtain ⟨name, value⟩ := member
      intro output houtput
      rw [outcomesBelow] at houtput
      by_cases hname : name = "children"
      · subst hname
        rw [if_pos rfl] at houtput
        exact ⟨value, by simp, (sound_outcome value).splice output houtput⟩
      · rw [if_neg hname] at houtput
        rw [List.lookup_cons, beq_eq_false_iff_ne.mpr (Ne.symm hname)]
        exact pieces_outcomesBelow rest output houtput
end

/-- Whenever a render comes to an end, whatever its settings, its policy and the value it was given,
what it comes to is sound. -/
theorem render_sound {renderer : Renderer} {t : Tree} {desk after : Desk Tree} {output : Output}
    (h : renderer.render t desk = .ok output after) : renderer.Sound t output := by
  rw [render_returns t desk output after h]
  exact sound_outcome t

def showman : Renderer where
  resolver := .layered (.ofEntries [("stall", .atom (.marker .fragment)), ("ghost", .null)])
  handlers := .object [("big top", .atom (.callable "pitch"))]
  start := .text "con"
  host := { containers := [("meadow", .atom (.token "grass"))] }

def fairground : Tree :=
  .array [.null, .array [.text "open", .array [.bool true, .int 3]], .tuple [.text "lost"],
    .object [("type", .text "stall"), ("children", .array [.text "nuts",
      .object [("type", .text "stall"), ("children", .text "figs")], .object []])],
    .object [("type", .text "ghost"), ("children", .text "boo")],
    .object [("type", .text "Portal"), ("props", .object [("container", .text "#meadow")]),
      ("children", .array [.array [.object [("type", .text "ride")]]])],
    .object [("type", .text "Portal"), ("props", .object [("container", .text "big top")])],
    .object [("type", .text "Portal"), ("props", .object [("container", .text "river")])]]

theorem render_sound_fairground :
    ∃ output after, showman.render fairground ⟨.ofHandling .gather, []⟩ = .ok output after ∧
      showman.Sound fairground output ∧
      output = .list [.leaf (.text "open"), .leaf (.int 3), .leaf (.text "nuts"),
        .leaf (.text "figs"),
        .portal (.atom (.token "grass")) [.element (.text "ride") [] [] none] none,
        .portal (.atom (.callable "pitch")) [] none, .portal (.text "body") [] none] := by
  obtain ⟨output, after, hrender, houtput⟩ : ∃ output after,
      showman.render fairground ⟨.ofHandling .gather, []⟩ = .ok output after ∧ output = _ :=
    ⟨_, _, rfl, rfl⟩
  exact ⟨output, after, hrender, render_sound hrender, houtput⟩

end Renderer

end ViewTree
