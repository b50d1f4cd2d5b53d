import ViewTree.Proofs.Render.Outcome
import ViewTree.Proofs.Render.Policies
import ViewTree.Proofs.Traverse.Listing

namespace ViewTree

/-- What a walk through an output meets. -/
inductive Mark
  | leaf (value : Atom)
  | element (component : Tree)
  | portal
deriving DecidableEq

namespace Mark

def ofAtom? : Atom → Option Mark
  | .text value => some (.leaf (.text value))
  | .int value => some (.leaf (.int value))
  | .float value => some (.leaf (.float value))
  | _ => none

def ofComponent? : Tree → Option Mark
  | .atom (.marker .fragment) => none
  | .atom (.marker .portal) => some .portal
  | component => some (.element component)

end Mark

namespace Output

mutual
/-- All there is to meet in an output, each element before what its children hold. -/
def marks : Output → List Mark
  | .nothing => []
  | .leaf value => [.leaf value]
  | .element component _ children _ => .element component :: allMarks children
  | .portal _ children _ => .portal :: allMarks children
  | .list items => allMarks items

def allMarks : List Output → List Mark
  | [] => []
  | output :: rest => output.marks ++ allMarks rest
end

theorem allMarks_append (outputs more : List Output) :
    allMarks (outputs ++ more) = allMarks outputs ++ allMarks more := by
  induction outputs with
  | nil => rfl
  | cons output rest ih => rw [List.cons_append, allMarks, allMarks, ih, List.append_assoc]

theorem allMarks_splice (output : Output) : allMarks output.splice = output.marks := by
  cases output with
  | nothing => rfl
  | list items => rfl
  | _ => exact List.append_nil _

end Output

namespace Renderer

/-- What a node leaves in the output: texts and numbers themselves, a structured node what its
component leaves. -/
def mark? (renderer : Renderer) : Tree → Option Mark
  | .atom a => Mark.ofAtom? a
  | node => (renderer.component? node).bind Mark.ofComponent?

/-- Whether a value is a primitive, or a structured node that can be built: its type has a component,
and its props are an object or count as false. -/
def isRenderable (renderer : Renderer) (node : Tree) : Bool :=
  node.isPrimitive || ((renderer.component? node).isSome && (node.member "props").fitsProps)

variable {renderer : Renderer}

theorem isNode_of_isRenderable {node : Tree} (h : renderer.isRenderable node = true) :
    node.isNode = true := by
  rw [isRenderable, Bool.or_eq_true, Bool.and_eq_true] at h
  rw [Tree.isNode, Bool.or_eq_true]
  refine h.imp_right fun hbuilt => ?_
  obtain ⟨component, hcomponent⟩ := Option.isSome_iff_exists.mp hbuilt.1
  exact isStructured_of_component? hcomponent

theorem fitsProps_of_isRenderable {node : Tree} (h : renderer.isRenderable node = true) :
    (node.member "props").fitsProps = true := by
  rw [isRenderable, Bool.or_eq_true, Bool.and_eq_true] at h
  rcases h with hprimitive | hbuilt
  · cases node with
    | atom a => rfl
    | _ => cases hprimitive
  · exact hbuilt.2

theorem component?_of_isRenderable {members : List (String × Tree)}
    (h : renderer.isRenderable (.object members) = true) :
    ∃ component, renderer.component? (.object members) = some component := by
  rw [isRenderable, Bool.or_eq_true, Bool.and_eq_true] at h
  rcases h with hprimitive | hbuilt
  · cases hprimitive
  · exact Option.isSome_iff_exists.mp hbuilt.1

theorem marks_showAtom (a : Atom) : (showAtom a).marks = (Mark.ofAtom? a).toList := by
  cases a <;> rfl

theorem marks_shape (members : Members Tree) (component : Tree) (children : List Output) :
    (renderer.shape members component children).marks =
      (Mark.ofComponent? component).toList ++ Output.allMarks children := by
  cases component with
  | atom a =>
      cases a with
      | marker marker => cases marker <;> rfl
      | _ => rfl
  | _ => rfl

theorem filterMap_cons_toList (f : α → Option β) (x : α) (xs : List α) :
    (x :: xs).filterMap f = (f x).toList ++ xs.filterMap f := by
  rw [List.filterMap_cons]
  cases f x <;> rfl

mutual
theorem marks_outcome {t : Tree} (h : t.everyNode renderer.isRenderable = true) :
    (renderer.outcome t).marks = t.nodes.filterMap renderer.mark? := by
  cases t with
  | atom a =>
      rw [outcome, marks_showAtom, Tree.nodes, filterMap_cons_toList, List.filterMap_nil,
        List.append_nil, mark?]
  | tuple items => cases h
  | array items => exact allMarks_outcomes h
  | object members =>
      obtain ⟨hnode, hbelow⟩ := Tree.everyNode_object.mp h
      obtain ⟨component, hcomponent⟩ := component?_of_isRenderable hnode
      have hmark : renderer.mark? (.object members) = Mark.ofComponent? component := by
        show (renderer.component? (.object members)).bind Mark.ofComponent? = _
        rw [hcomponent, Option.bind_some]
      have houtcome : renderer.outcome (.object members) =
          renderer.shape members component (renderer.outcomesBelow members) := by
        rw [outcome, hcomponent]
      rw [houtcome, marks_shape, Tree.nodes, filterMap_cons_toList, hmark,
        allMarks_outcomesBelow hbelow]

theorem allMarks_outcomes {items : List Tree}
    (h : Tree.everyItem renderer.isRenderable items = true) :
    Output.allMarks (renderer.outcomes items) =
      (Tree.nodesOf items).filterMap renderer.mark? := by
  cases items with
  | nil => rfl
  | cons item rest =>
      rw [Tree.everyItem, Bool.and_eq_true] at h
      rw [outcomes, Output.allMarks_append, Output.allMarks_splice, marks_outcome h.1,
        allMarks_outcomes h.2, Tree.nodesOf, List.filterMap_append]

theorem allMarks_outcomesBelow {members : List (String × Tree)}
    (h : Tree.everyChild renderer.isRenderable members = true) :
    Output.allMarks (renderer.outcomesBelow members) =
      (Tree.nodesBelow members).filterMap renderer.mark? := by
  cases members with
  | nil => rfl
  | cons member rest =>
      obtain ⟨name, value⟩ := member
      rw [Tree.everyChild] at h
      rw [outcomesBelow, Tree.nodesBelow]
      by_cases hname : name = "children"
      · rw [if_pos hname] at h ⊢
        rw [if_pos hname, Output.allMarks_splice, marks_outcome h]
        split
        · next hnull =>
            rw [Tree.eq_null_of_isNull hnull]
            rfl
        · rfl
      · rw [if_neg hname] at h ⊢
        rw [if_neg hname]
        exact allMarks_outcomesBelow h
end

/-- Rendering loses nothing, doubles nothing and keeps the order.  Of a tree of nodes that can all be
built, a traversal in pre-order shows every node, and a render with fit settings, unless its policy
refuses a report, comes to an output that holds in the same order what these nodes leave: the texts
and numbers, and an element or a portal for each structured node that is no fragment, before what is
below it. -/
theorem render_keeps_contents (h : renderer.IsFit) {t : Tree}
    (hnodes : t.everyNode renderer.isRenderable = true) {s : Store} {root : Value}
    {cells : List Store.Cell} (hshows : s.Shows t root cells) {fuel : Nat} (hfuel : t.size ≤ fuel)
    (clone : Tree) (desk : Desk Tree) :
    ∃ seen, Sight.ofTraversal fuel .preOrder Sight.everywhere clone root s = (seen, none) ∧
      ((∃ output after, renderer.render t desk = .ok output after ∧
          output.marks = (seen.map Sight.node).filterMap renderer.mark?) ∨
        ∃ failure after, renderer.render t desk = .error failure after ∧
          desk.policy.handling.Refuses failure after) := by
  have hvalid : t.isValid = true := Tree.everyNode_mono (fun _ => isNode_of_isRenderable) hnodes
  have hprops : renderer.Fits t :=
    fits_of_everyNode (Tree.everyNode_mono (fun _ => fitsProps_of_isRenderable) hnodes)
  obtain ⟨seen, hseen, hlisted⟩ := Tree.seen_preOrder hvalid
  refine ⟨seen, (Sight.ofTraversal_eq hshows hfuel _ _ _).trans hseen, ?_⟩
  rw [render_replays h hprops, Walk.bind_apply, hlisted]
  rcases Policy.forM_report_or_refused (renderer.defects t) desk with
    ⟨after, htold⟩ | ⟨failure, after, htold, hrefused⟩
  · rw [htold]
    exact .inl ⟨renderer.outcome t, after, rfl, marks_outcome hnodes⟩
  · rw [htold]
    exact .inr ⟨failure, after, rfl, hrefused⟩

def usherette : Renderer :=
  { resolver := .layered (.ofEntries [("act", Marker.fragment.component),
      ("poster", Marker.portal.component)]) }

def playbill : Tree :=
  .array [.text "tonight", .object [("type", .text "play"), ("children", .array [
    .object [("type", .text "act"), ("props", .bool false),
      ("children", .array [.int 1, .array [.null, .text "enter"], .bool true])],
    .object [("type", .text "poster"), ("props", .object [("container", .text "wall")]),
      ("children", .object [("type", .text "star"), ("children", .text "Ada")])],
    .text "curtain"])]]

theorem render_keeps_contents_playbill :
    usherette.IsFit ∧ playbill.everyNode usherette.isRenderable = true ∧ playbill.size ≤ 40 ∧
    ∃ cells, (Store.load playbill {}).2.Shows playbill (Store.load playbill {}).1 cells ∧
      ∃ seen output after,
        Sight.ofTraversal 40 .preOrder Sight.everywhere .null (Store.load playbill {}).1
          (Store.load playbill {}).2 = (seen, none) ∧
        usherette.render playbill (.fresh (.warn true false) []) = .ok output after ∧
        output.marks = (seen.map Sight.node).filterMap usherette.mark? ∧
        output.marks = [.leaf (.text "tonight"), .element (.text "play"), .leaf (.int 1),
          .leaf (.text "enter"), .portal, .element (.text "star"), .leaf (.text "Ada"),
          .leaf (.text "curtain")] := by
  have hfit : usherette.IsFit := ⟨.inl rfl, rfl, nofun⟩
  have hnodes : playbill.everyNode usherette.isRenderable = true := by decide +kernel
  have hsize : playbill.size ≤ 40 := by decide
  obtain ⟨-, cells, hshows, -⟩ := Store.load_shows playbill {}
  obtain ⟨seen, hseen, hrender⟩ := render_keeps_contents hfit hnodes hshows hsize .null
    (.fresh (.warn true false) [])
  refine ⟨hfit, hnodes, hsize, cells, hshows, seen, ?_⟩
  rcases hrender with ⟨output, after, hrender, hmarks⟩ | ⟨failure, after, -, hrefused⟩
  · refine ⟨output, after, hseen, hrender, hmarks, ?_⟩
    have hshown : (match usherette.render playbill (.fresh (.warn true false) []) with
        | .ok output _ => output.marks
        | .error _ _ => []) = [.leaf (.text "tonight"), .element (.text "play"), .leaf (.int 1),
          .leaf (.text "enter"), .portal, .element (.text "star"), .leaf (.text "Ada"),
          .leaf (.text "curtain")] := by
      decide +kernel
    rwa [hrender] at hshown
  · rcases Handling.refuses_only hrefused with hwarn | ⟨limit, verbose, hwarn⟩
    · cases hwarn
    · cases hwarn

end Renderer

end ViewTree
