import ViewTree.Proofs.Store.Bindable
import ViewTree.Proofs.Tree.Calls

namespace ViewTree

namespace Store

variable {roster : Roster} {s after : Store} {chosen : ObjectRef → Prop} {kept : Cell → Prop}
  {plot : Plot} {plots below : List Plot}

/-- The props of a node that still go by a name once they are bound. -/
def leftover (roster : Roster) (s : Store) : Value → List (String × String)
  | .object ref =>
    match s.member ref "props" with
    | .object props => roster.start.called Value.text? (roster.bindValues (s.members props))
    | _ => []
  | _ => []

theorem ShowsMembers.called (start : NameStart) {trees : List (String × Tree)}
    {values : Members Value} {cells : List Cell} (h : s.ShowsMembers trees values cells) :
    start.called Value.text? values = start.called Tree.text? trees := by
  induction trees generalizing values cells with
  | nil =>
      cases h
      rfl
  | cons member trees ih =>
      cases h with
      | @cons name tree _ value values _ _ head tail =>
          have hhead : start.called Value.text? [(name, value)] =
              start.called Tree.text? [(name, tree)] := by
            rw [NameStart.called, NameStart.called]
            simp only [List.filterMap_cons, List.filterMap_nil, head.text?]
          rw [NameStart.called_cons _ _ _ trees, NameStart.called_cons _ _ _ values, hhead, ih tail]

theorem Shows.leftover {t : Tree} {node : Value} {cells : List Cell} (h : s.Shows t node cells) :
    s.leftover roster node =
      roster.start.called Tree.text? (roster.bind Tree.text? .atom t.props) := by
  cases h with
  | @object trees ref rest has members =>
      obtain ⟨parts, hprops, -⟩ := members.member "props"
      rw [Store.leftover, Tree.props]
      generalize (Tree.object trees).member "props" = tree at hprops
      generalize s.member ref "props" = value at hprops
      cases hprops with
      | object _ props => exact (props.bind roster).called roster.start
      | _ => rfl
  | _ => rfl

theorem Bound.leftover (h : s.Bound roster chosen after) {node : Value}
    (hnode : ∀ ref, node = .object ref → s.Bindable ref ∧ after.members ref = s.members ref) :
    after.leftover roster node = s.leftover roster node := by
  cases node with
  | object ref =>
      obtain ⟨hbindable, hmembers⟩ := hnode ref rfl
      have hmember : after.member ref "props" = s.member ref "props" := by
        rw [Store.member, hmembers]
        rfl
      rw [Store.leftover, Store.leftover, hmember]
      cases hprops : s.member ref "props" with
      | object props =>
          have has : s.Contains (.object props) := hbindable.held (.object props) hprops
          simp only [h.bindValues has]
      | _ => rfl
  | _ => rfl

theorem Ready.trees_below (h : s.Ready kept (plot :: plots))
    (hslots : s.childSlots plot.slot.node = below.map Plot.slot)
    (hbelow : ∀ child ∈ below, s.Shows child.tree child.slot.node child.cells) :
    below.map Plot.tree = plot.tree.children.map Prod.fst := by
  have hread : ∀ shown : List Plot,
      (∀ child ∈ shown, s.Shows child.tree child.slot.node child.cells) →
      shown.map Plot.tree = (shown.map Plot.slot).map fun slot => s.read slot.node := by
    intro shown hshown
    rw [List.map_map]
    exact List.map_congr_left fun child hchild => (hshown child hchild).read_eq.symm
  have hshows := h.shows plot List.mem_cons_self
  obtain ⟨⟨node, parent, index, place⟩, tree, cells⟩ := plot
  cases hshows with
  | object has members =>
      obtain ⟨others, parts, hothers, htrees, hlaid, -, -⟩ := members.childPlots
      rw [hread below hbelow, ← hslots, hothers, ← hread others hlaid.shows, ← htrees, List.map_map]
      rfl
  | _ =>
      rw [hread below hbelow, ← hslots]
      rfl

theorem Ready.leftover (h : s.Ready kept (plot :: plots))
    (htest : plot.tree.everyNode Tree.isBindable = true)
    (hslots : s.childSlots plot.slot.node = below.map Plot.slot)
    (hbelow : ∀ child ∈ below, s.Shows child.tree child.slot.node child.cells) :
    roster.leftover plot.tree = s.leftover roster plot.slot.node ++
      below.flatMap fun child => roster.leftover child.tree := by
  have hshows := h.shows plot List.mem_cons_self
  have htrees := h.trees_below hslots hbelow
  have hchildren : below.flatMap (fun child => roster.leftover child.tree) =
      plot.tree.children.flatMap fun child => roster.leftover child.1 := by
    rw [← List.flatMap_map (f := Plot.tree), htrees, List.flatMap_map]
  rw [hshows.leftover, hchildren]
  have hnode := h.nodes plot List.mem_cons_self
  -- a plot in turn is not an array, since arrays are spread before their items are queued
  obtain ⟨⟨node, parent, index, place⟩, tree, cells⟩ := plot
  cases hshows with
  | object has members =>
      have hstructured := (Tree.isBindable_iff.mp (Tree.everyNode_object.mp htest).1).1
      exact roster.leftover_object hstructured
  | @array trees ref rest has items => exact absurd rfl (hnode ref)
  | _ => rfl

end Store

end ViewTree
