import ViewTree.Proofs.Render.Outcome
import ViewTree.Proofs.Render.Policies

namespace ViewTree

namespace Renderer

/-- What can be wrong with a node. -/
inductive Defective (renderer : Renderer) (node : Tree) : Prop
  | misfit {cause : Misfit} (h : node.classify = .error cause)
  | unknown {type : String} (htype : node.nodeType? = some type)
    (h : renderer.resolver.component? type = none)
  | handler {component : Tree} {name handler : String}
    (hcomponent : renderer.component? node = some component)
    (hprop : (name, .text handler) ∈ node.props) (hcovers : renderer.start.covers name = true)
    (h : Handler.among renderer.roster.entries handler = none)
  | container {selector : String}
    (hcomponent : renderer.component? node = some Marker.portal.component)
    (htarget : renderer.target node = .text selector)
    (h : (renderer.host.find selector).isNull = true)

variable {renderer : Renderer}

theorem lost_eq_nil_iff {node target : Tree} :
    renderer.lost node target = [] ↔ ∀ selector, target = .text selector →
      (renderer.host.find selector).isNull ≠ true := by
  constructor
  · rintro h selector rfl hnull
    have hlost : (if (renderer.host.find selector).isNull then _ else _) = [] := h
    rw [if_pos hnull] at hlost
    cases hlost
  · intro h
    unfold lost
    split
    · next selector => rw [if_neg (h selector rfl)]
    · rfl

theorem defective_iff_of_untyped {node : Tree} (h : node.nodeType? = none) :
    renderer.Defective node ↔ ∃ cause, node.classify = .error cause := by
  have hcomponent : renderer.component? node = none := by rw [component?, h, Option.bind_none]
  constructor
  · intro hdefective
    cases hdefective with
    | misfit hcause => exact ⟨_, hcause⟩
    | unknown htype => rw [h] at htype; cases htype
    | handler hbuilt => rw [hcomponent] at hbuilt; cases hbuilt
    | container hbuilt => rw [hcomponent] at hbuilt; cases hbuilt
  · rintro ⟨cause, hcause⟩
    exact .misfit hcause

theorem misfits_eq_nil_iff {node : Tree} (h : node.nodeType? = none) :
    misfits node = [] ↔ ¬ renderer.Defective node := by
  rw [misfits, defective_iff_of_untyped h]
  cases node.classify with
  | ok kind => simp
  | error cause => simp

theorem misses_append_strays_eq_nil_iff {node component : Tree}
    (h : renderer.component? node = some component) :
    renderer.roster.misses node node.props = [] ∧ renderer.strays node component = [] ↔
      ¬ renderer.Defective node := by
  have hkind := node.isStructured_iff_classify.mp (isStructured_of_component? h)
  constructor
  · rintro ⟨hmisses, hstrays⟩ hdefective
    cases hdefective with
    | misfit hcause =>
        rw [hkind] at hcause
        cases hcause
    | unknown htype hnone =>
        rw [component?, htype, Option.bind_some, hnone] at h
        cases h
    | handler _ hprop hcovers hnone =>
        exact Roster.misses_eq_nil_iff.mp hmisses _ _ hprop hcovers hnone
    | container hportal htarget hnull =>
        obtain rfl := Option.some.inj (h.symm.trans hportal)
        exact lost_eq_nil_iff.mp hstrays _ htarget hnull
  · intro hsound
    refine ⟨Roster.misses_eq_nil_iff.mpr ?_, ?_⟩
    · intro name handler hprop hcovers hnone
      exact hsound (.handler h hprop hcovers hnone)
    · unfold strays
      split
      · refine lost_eq_nil_iff.mpr ?_
        intro selector htarget hnull
        exact hsound (.container h htarget hnull)
      · rfl

section

variable {p : Tree → Prop}

theorem forall_reaches_self {t : Tree} (h : ∀ node, renderer.Reaches t node → node = t) :
    (∀ node, renderer.Reaches t node → p node) ↔ p t := by
  constructor
  · intro hall
    exact hall t (.self t)
  · intro hself node hnode
    rwa [h node hnode]

theorem forall_reaches_array {items : List Tree} :
    (∀ node, renderer.Reaches (.array items) node → p node) ↔
      p (.array items) ∧ ∀ item ∈ items, ∀ node, renderer.Reaches item node → p node := by
  constructor
  · intro hall
    exact ⟨hall _ (.self _), fun item hitem node hnode => hall node (.item hitem hnode)⟩
  · rintro ⟨hself, hitems⟩ node hnode
    cases hnode with
    | self => exact hself
    | item hitem hnode => exact hitems _ hitem node hnode

theorem forall_reaches_built {members : List (String × Tree)} {component : Tree}
    (h : renderer.component? (.object members) = some component) :
    (∀ node, renderer.Reaches (.object members) node → p node) ↔
      p (.object members) ∧ ∀ value, members.lookup "children" = some value →
        ∀ node, renderer.Reaches value node → p node := by
  constructor
  · intro hall
    exact ⟨hall _ (.self _), fun value hvalue node hnode => hall node (.child h hvalue hnode)⟩
  · rintro ⟨hself, hbelow⟩ node hnode
    cases hnode with
    | self => exact hself
    | child _ hvalue hnode => exact hbelow _ hvalue node hnode

theorem reaches_of_component?_none {members : List (String × Tree)}
    (h : renderer.component? (.object members) = none) (node : Tree)
    (hnode : renderer.Reaches (.object members) node) : node = .object members := by
  cases hnode with
  | self => rfl
  | child hcomponent _ _ =>
      rw [h] at hcomponent
      cases hcomponent

end

mutual
/-- Nothing is told of a tree exactly if none of the nodes reached is defective. -/
theorem defects_eq_nil_iff (t : Tree) :
    renderer.defects t = [] ↔ ∀ node, renderer.Reaches t node → ¬ renderer.Defective node := by
  cases t with
  | atom a =>
      rw [defects, forall_reaches_self fun node hnode => by cases hnode; rfl]
      exact misfits_eq_nil_iff rfl
  | tuple items =>
      rw [defects, forall_reaches_self fun node hnode => by cases hnode; rfl]
      exact misfits_eq_nil_iff rfl
  | array items =>
      have harray : ¬ renderer.Defective (.array items) := (misfits_eq_nil_iff rfl).mp rfl
      rw [defects, forall_reaches_array, allDefects_eq_nil_iff items, and_iff_right harray]
  | object members =>
      rw [defects]
      cases htype : (Tree.object members).nodeType? with
      | none =>
          have hnone : renderer.component? (.object members) = none := by
            rw [component?, htype, Option.bind_none]
          rw [forall_reaches_self (reaches_of_component?_none hnone)]
          exact misfits_eq_nil_iff htype
      | some type =>
          cases hcomponent : renderer.resolver.component? type with
          | none =>
              have hnone : renderer.component? (.object members) = none := by
                rw [component?, htype, Option.bind_some, hcomponent]
              have hdefective : renderer.Defective (.object members) := .unknown htype hcomponent
              rw [forall_reaches_self (reaches_of_component?_none hnone)]
              simp [hcomponent, hdefective]
          | some component =>
              have hbuilt : renderer.component? (.object members) = some component := by
                rw [component?, htype, Option.bind_some, hcomponent]
              simp only [hcomponent, List.append_eq_nil_iff]
              rw [forall_reaches_built hbuilt, ← misses_append_strays_eq_nil_iff hbuilt,
                defectsBelow_eq_nil_iff members]
              exact and_right_comm

theorem allDefects_eq_nil_iff (items : List Tree) :
    renderer.allDefects items = [] ↔
      ∀ item ∈ items, ∀ node, renderer.Reaches item node → ¬ renderer.Defective node := by
  cases items with
  | nil => simp [allDefects]
  | cons item rest =>
      rw [allDefects, List.append_eq_nil_iff, List.forall_mem_cons, defects_eq_nil_iff item,
        allDefects_eq_nil_iff rest]

theorem defectsBelow_eq_nil_iff (members : List (String × Tree)) :
    renderer.defectsBelow members = [] ↔ ∀ value, members.lookup "children" = some value →
      ∀ node, renderer.Reaches value node → ¬ renderer.Defective node := by
  cases members with
  | nil => simp [defectsBelow]
  | cons member rest =>
      obtain ⟨name, value⟩ := member
      rw [defectsBelow]
      by_cases hname : name = "children"
      · subst hname
        simpa using defects_eq_nil_iff value
      · rw [if_neg hname, List.lookup_cons, beq_eq_false_iff_ne.mpr (Ne.symm hname)]
        exact defectsBelow_eq_nil_iff rest
end

/-- The diagnostics of a render are the defects it meets.  Under a policy that gathers, a render with
fit settings never breaks off, and what is recorded on top is the list of defects; it is empty exactly
if no node reached is defective. -/
theorem render_gathers_defects (h : renderer.IsFit) {t : Tree} (hprops : renderer.Fits t)
    (recorded : List (Diagnostic Tree)) (stream console : List String) :
    (∃ output, renderer.render t ⟨⟨.gather, recorded, stream⟩, console⟩ =
      .ok output ⟨⟨.gather, recorded ++ renderer.defects t, stream⟩, console⟩) ∧
    (renderer.defects t = [] ↔
      ∀ node, renderer.Reaches t node → ¬ renderer.Defective node) := by
  refine ⟨⟨renderer.outcome t, ?_⟩, defects_eq_nil_iff t⟩
  rw [render_replays h hprops, Walk.bind_apply, Policy.forM_report_gather]
  rfl

def thrifty : Renderer :=
  { resolver := .layered (.ofEntries [("gnome", .null)])
    handlers := .object [("ring", .atom (.callable "ring")), ("sing", .text "la")] }

def cottage : Tree :=
  .object [("type", .text "cottage"),
    ("props", .object [("onKnock", .text "ring"), ("onDusk", .text "sing"), ("title", .text "home")]),
    ("children", .array [
      .object [("type", .text "gnome"), ("props", .object [("onKnock", .text "hide")])],
      .array [.object [("type", .text "Portal"), ("props", .object [("container", .text "#attic")]),
        ("children", .array [.text "owl", .tuple [.text "mouse"]])]],
      .null])]

theorem render_gathers_defects_cottage :
    thrifty.IsFit ∧ thrifty.Fits cottage ∧
    (∃ output, thrifty.render cottage (.fresh .gather []) =
      .ok output ⟨⟨.gather, thrifty.defects cottage, []⟩, []⟩) ∧
    (thrifty.defects cottage).map Diagnostic.message =
      ["Event handler not found: sing", "Unknown component type: gnome",
        "Cannot render node: Not a tree node: tuple", "Portal container not found: #attic"] ∧
    ∃ node, thrifty.Reaches cottage node ∧ thrifty.Defective node := by
  have hfit : thrifty.IsFit := ⟨.inr ⟨_, rfl⟩, rfl, nofun⟩
  have hprops : thrifty.Fits cottage := fits_of_everyNode (by decide +kernel)
  obtain ⟨hrender, hdefects⟩ := render_gathers_defects hfit hprops [] [] []
  have hmessages : (thrifty.defects cottage).map Diagnostic.message =
      ["Event handler not found: sing", "Unknown component type: gnome",
        "Cannot render node: Not a tree node: tuple", "Portal container not found: #attic"] := by
    decide +kernel
  have hsome : thrifty.defects cottage ≠ [] := by
    intro hnone
    rw [hnone] at hmessages
    cases hmessages
  refine ⟨hfit, hprops, hrender, hmessages, ?_⟩
  by_contra hsound
  exact hsome (hdefects.mpr fun node hnode hdefective => hsound ⟨node, hnode, hdefective⟩)

end Renderer

end ViewTree
