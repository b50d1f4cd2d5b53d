import ViewTree.Proofs.Render.Props
import ViewTree.Proofs.Tree.Validity

/-!
What a render comes to.  Of a tree alone, without a policy, it is settled which output a render gives
and which defects it tells on the way; the policy only listens.
-/

namespace ViewTree

def Resolver.component? (resolver : Resolver) (type : String) : Option Tree :=
  match resolver with
  | .layered registry => registry.resolve (.text type)
  | .strict entries => strictComponent entries type
  | .unusable => none

theorem Resolver.resolve_text {resolver : Resolver} (h : resolver ≠ .unusable) (type : String) :
    resolver.resolve (.text type) = .ok (resolver.component? type) := by
  cases resolver with
  | layered registry => rfl
  | strict entries => rfl
  | unusable => exact absurd rfl h

namespace Renderer

section

variable (renderer : Renderer)

def component? (node : Tree) : Option Tree :=
  node.nodeType?.bind renderer.resolver.component?

def roster : Roster where
  entries :=
    match renderer.handlers with
    | .object entries => entries
    | _ => []
  start := renderer.start

/-- The props of a node with handlers in place of their names. -/
def boundProps (node : Tree) : Members Tree :=
  renderer.roster.bind Tree.text? .atom node.props

/-- Where a node wants its children to be shown, if it is a portal. -/
def target (node : Tree) : Tree :=
  ((renderer.boundProps node).lookup "container").getD .null

/-- The container that a target stands for. -/
def destination (target : Tree) : Tree :=
  match target with
  | .atom .null => renderer.host.fallback
  | .atom (.text selector) =>
    if (renderer.host.find selector).isNull then renderer.host.fallback
    else renderer.host.find selector
  | target => target

/-- What comes of a component, with the children that were rendered. -/
def shape (members : Members Tree) (component : Tree) (children : List Output) : Output :=
  let node := Tree.object members
  let key := keyOf members (renderer.boundProps node)
  match component with
  | .atom (.marker .fragment) => .list children
  | .atom (.marker .portal) => .portal (renderer.destination (renderer.target node)) children key
  | component => .element component (Members.remove "key" (renderer.boundProps node)) children key

def showAtom (a : Atom) : Output :=
  match a with
  | .int _ | .float _ | .text _ => .leaf a
  | _ => .nothing

mutual
/-- What a tree is rendered to. -/
def outcome : Tree → Output
  | .atom a => showAtom a
  | .tuple _ => .nothing
  | .array items => .list (outcomes items)
  | .object members =>
    match renderer.component? (.object members) with
    | none => .nothing
    | some component => renderer.shape members component (outcomesBelow members)

def outcomes : List Tree → List Output
  | [] => []
  | item :: rest => (outcome item).splice ++ outcomes rest

def outcomesBelow : List (String × Tree) → List Output
  | [] => []
  | (name, value) :: rest =>
    if name = "children" then (outcome value).splice else outcomesBelow rest
end

def misfits (node : Tree) : List (Diagnostic Tree) :=
  match node.classify with
  | .error cause => [.notRendered node cause]
  | .ok _ => []

def lost (node target : Tree) : List (Diagnostic Tree) :=
  match target with
  | .atom (.text selector) =>
    if (renderer.host.find selector).isNull then [.unresolvedContainer node selector] else []
  | _ => []

def strays (node component : Tree) : List (Diagnostic Tree) :=
  match component with
  | .atom (.marker .portal) => renderer.lost node (renderer.target node)
  | _ => []

mutual
/-- The defects met in a tree: of a value that is no node, of a node without a component, and of a
node that is built first those of its handlers, then those below it, then that of its container. -/
def defects : Tree → List (Diagnostic Tree)
  | .atom a => misfits (.atom a)
  | .tuple items => misfits (.tuple items)
  | .array items => allDefects items
  | .object members =>
    let node := Tree.object members
    match node.nodeType? with
    | none => misfits node
    | some type =>
      match renderer.resolver.component? type with
      | none => [.unknownComponent node type]
      | some component =>
        renderer.roster.misses node node.props ++ defectsBelow members ++
          renderer.strays node component

def allDefects : List Tree → List (Diagnostic Tree)
  | [] => []
  | item :: rest => defects item ++ allDefects rest

def defectsBelow : List (String × Tree) → List (Diagnostic Tree)
  | [] => []
  | (name, value) :: rest => if name = "children" then defects value else defectsBelow rest
end

/-- The nodes a render gets to: it goes through arrays, and below nodes that have a component. -/
inductive Reaches : Tree → Tree → Prop
  | self (node : Tree) : Reaches node node
  | item {items : List Tree} {item node : Tree} (hitem : item ∈ items) (h : Reaches item node) :
    Reaches (.array items) node
  | child {members : List (String × Tree)} {component value node : Tree}
    (hcomponent : renderer.component? (.object members) = some component)
    (hvalue : members.lookup "children" = some value) (h : Reaches value node) :
    Reaches (.object members) node

/-- Whether the props of all structured nodes a render gets to are objects or count as false. -/
def Fits (t : Tree) : Prop :=
  ∀ node, renderer.Reaches t node → node.isStructured = true →
    (node.member "props").fitsProps = true

/-- A renderer with settings of the types they should have. -/
structure IsFit : Prop where
  handlers : renderer.handlers.isTruthy = false ∨ ∃ entries, renderer.handlers = .object entries
  start : renderer.start.textsOnly = true
  resolver : renderer.resolver ≠ .unusable

end

variable {renderer : Renderer}

theorem isStructured_of_component? {node component : Tree}
    (h : renderer.component? node = some component) : node.isStructured = true := by
  obtain ⟨type, htype, -⟩ := Option.bind_eq_some_iff.mp h
  rw [Tree.isStructured, htype]
  rfl

theorem Reaches.everyNode {t node : Tree} (h : renderer.Reaches t node) {test : Tree → Bool}
    (ht : t.everyNode test = true) : node.everyNode test = true := by
  induction h with
  | self => exact ht
  | item hitem _ ih => exact ih (Tree.everyNode_of_mem ht hitem)
  | child _ hvalue _ ih => exact ih (Tree.everyNode_of_lookup (Tree.everyNode_object.mp ht).2 hvalue)

theorem fits_of_everyNode {t : Tree}
    (h : t.everyNode (fun node => (node.member "props").fitsProps) = true) : renderer.Fits t := by
  intro node hnode hstructured
  have hevery := hnode.everyNode h
  cases node with
  | object members => exact (Tree.everyNode_object.mp hevery).1
  | _ => cases hstructured

theorem IsFit.looksUp (h : renderer.IsFit) : renderer.LooksUp renderer.roster := by
  refine ⟨?_, rfl, h.start⟩
  intro name
  rw [handler?]
  rcases h.handlers with hfalse | ⟨entries, hentries⟩
  · rw [hfalse, if_neg Bool.false_ne_true]
    have hroster : renderer.roster.entries = [] := by
      show (match renderer.handlers with | .object entries => entries | _ => []) = []
      cases hhandlers : renderer.handlers with
      | object entries =>
          rw [hhandlers, Tree.isTruthy, Bool.not_eq_false', List.isEmpty_iff] at hfalse
          exact hfalse
      | _ => rfl
    rw [hroster]
    rfl
  · have hroster : renderer.roster.entries = entries := by
      show (match renderer.handlers with | .object entries => entries | _ => []) = entries
      rw [hentries]
    rw [hentries, hroster, Handler.find?_object]
    cases entries with
    | nil => rfl
    | cons entry rest => rfl

open Rendering (Replays)

theorem containerFor_replays (node target : Tree) :
    Replays (renderer.containerFor node target) (renderer.lost node target)
      (.ok (renderer.destination target)) := by
  cases target with
  | atom a =>
      cases a with
      | text selector =>
          show Replays (if (renderer.host.find selector).isNull then _ else _)
            (if (renderer.host.find selector).isNull then _ else _)
            (.ok (if (renderer.host.find selector).isNull then _ else _))
          cases (renderer.host.find selector).isNull with
          | true => exact (Replays.report _).bind (.pure _)
          | false => exact .pure _
      | _ => exact .pure _
  | _ => exact .pure _

theorem propsOf_eq {members : Members Tree}
    (h : ((Tree.object members).member "props").fitsProps = true) :
    propsOf members = .object (Tree.object members).props := by
  rw [Tree.props]
  show (if ((Tree.object members).member "props").isTruthy then
    (Tree.object members).member "props" else .object []) = _
  generalize (Tree.object members).member "props" = props at h ⊢
  cases props with
  | object props => cases props <;> rfl
  | _ =>
      rw [if_neg]
      simpa [Tree.fitsProps] using h

theorem processProps_replays (h : renderer.IsFit) {members : Members Tree}
    (hprops : ((Tree.object members).member "props").fitsProps = true) :
    Replays (renderer.processProps (.object members) (propsOf members))
      (renderer.roster.misses (.object members) (Tree.object members).props)
      (.ok (renderer.boundProps (.object members))) := by
  rw [propsOf_eq hprops]
  exact h.looksUp.resolveProps_replays _ _

theorem build_replays (members : Members Tree) (component : Tree) (children : List Output) :
    Replays
      (renderer.build (.object members) component
        (Members.remove "key" (renderer.boundProps (.object members))) children
        (keyOf members (renderer.boundProps (.object members))))
      (renderer.strays (.object members) component)
      (.ok (renderer.shape members component children)) := by
  cases component with
  | atom a =>
      cases a with
      | marker marker =>
          cases marker with
          | fragment => exact .pure _
          | portal =>
              have htarget : ((Members.remove "key" (renderer.boundProps (.object members))).lookup
                  "container").getD .null = renderer.target (.object members) := by
                rw [Members.lookup_remove_of_ne (by decide), target]
              rw [build, strays, shape, htarget]
              exact (containerFor_replays _ _).andPure _
      | _ => exact .pure _
  | _ => exact .pure _

theorem renderAtom_replays (a : Atom) :
    Replays (renderAtom (.atom a) a) (misfits (.atom a)) (.ok (showAtom a)) := by
  cases a with
  | null => exact .pure _
  | bool value => exact .pure _
  | int value => exact .pure _
  | float value => exact .pure _
  | text value => exact .pure _
  | _ => exact (Replays.report _).bind (.pure _)

theorem Fits.item {items : List Tree} (h : renderer.Fits (.array items)) :
    ∀ item ∈ items, renderer.Fits item :=
  fun _ hitem node hnode => h node (.item hitem hnode)

theorem Fits.child {members : List (String × Tree)} {component : Tree}
    (h : renderer.Fits (.object members))
    (hcomponent : renderer.component? (.object members) = some component) {value : Tree}
    (hvalue : members.lookup "children" = some value) : renderer.Fits value :=
  fun node hnode => h node (.child hcomponent hvalue hnode)

mutual
theorem render_replays (h : renderer.IsFit) {t : Tree} (hprops : renderer.Fits t) :
    Replays (renderer.render t) (renderer.defects t) (.ok (renderer.outcome t)) := by
  cases t with
  | atom a => exact renderAtom_replays a
  | tuple items => exact (Replays.report _).bind (.pure _)
  | array items =>
      rw [render, map_eq_pure_bind, defects, outcome]
      exact (renderAll_replays h hprops.item).andPure Output.list
  | object members =>
      rw [render, defects, outcome, component?]
      cases htype : (Tree.object members).nodeType? with
      | none =>
          have hkind : (Tree.object members).classify = .error (.untyped (.object members)) := by
            rw [Tree.classify]
            rw [Tree.nodeType?] at htype
            rw [htype]
          rw [misfits, hkind]
          exact (Replays.report _).bind (.pure _)
      | some type =>
          simp only [Resolver.resolve_text h.resolver, ofExcept, pure_bind, Option.bind_some]
          cases hcomponent : renderer.resolver.component? type with
          | none => exact (Replays.report _).bind (.pure _)
          | some component =>
              have hbuilt : renderer.component? (.object members) = some component := by
                rw [component?, htype]
                exact hcomponent
              have hself : ((Tree.object members).member "props").fitsProps = true :=
                hprops _ (.self _) (by rw [Tree.isStructured, htype]; rfl)
              simp only [List.append_assoc]
              apply (processProps_replays h hself).bind
              apply (renderBelow_replays h fun value => hprops.child hbuilt).bind
              exact build_replays members component _

theorem renderAll_replays (h : renderer.IsFit) {items : List Tree}
    (hprops : ∀ item ∈ items, renderer.Fits item) :
    Replays (renderer.renderAll items) (renderer.allDefects items)
      (.ok (renderer.outcomes items)) := by
  cases items with
  | nil => exact .pure []
  | cons item rest =>
      obtain ⟨hitem, hrest⟩ := List.forall_mem_cons.mp hprops
      rw [renderAll, allDefects, outcomes]
      exact (render_replays h hitem).bind ((renderAll_replays h hrest).andPure _)

theorem renderBelow_replays (h : renderer.IsFit) {members : List (String × Tree)}
    (hprops : ∀ value, members.lookup "children" = some value → renderer.Fits value) :
    Replays (renderer.renderBelow members) (renderer.defectsBelow members)
      (.ok (renderer.outcomesBelow members)) := by
  cases members with
  | nil => exact .pure []
  | cons member rest =>
      obtain ⟨name, value⟩ := member
      rw [renderBelow, defectsBelow, outcomesBelow]
      by_cases hname : name = "children"
      · subst hname
        have hvalue := hprops value (by simp)
        simp only [if_true]
        exact (render_replays h hvalue).andPure Output.splice
      · simp only [hname, if_false]
        refine renderBelow_replays h fun value hvalue => hprops value ?_
        rwa [List.lookup_cons, beq_eq_false_iff_ne.mpr (Ne.symm hname)]
end

end Renderer

end ViewTree
