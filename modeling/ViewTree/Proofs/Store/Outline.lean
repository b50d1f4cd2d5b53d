import ViewTree.Proofs.Store.Plots
import ViewTree.Visit.Context

namespace ViewTree

/-- Where a node stands in a walk. -/
structure Stand where
  node : Value
  parent : Option ObjectRef
  depth : Nat
  index : Nat

def Context.stand (ctx : Context) (node : Value) : Stand :=
  ⟨node, ctx.parent, ctx.depth, ctx.index⟩

def Slot.stand (slot : Slot) (depth : Nat) : Stand :=
  ⟨slot.node, slot.parent, depth, slot.index⟩

/-- A value with any number of others below it. -/
inductive Rose (α : Type)
  | mk (value : α) (below : List (Rose α))

namespace Rose

mutual
def postOrder : Rose α → List α
  | .mk value below => postOrders below ++ [value]

def postOrders : List (Rose α) → List α
  | [] => []
  | rose :: rest => rose.postOrder ++ postOrders rest
end

theorem postOrders_append (roses others : List (Rose α)) :
    postOrders (roses ++ others) = postOrders roses ++ postOrders others := by
  induction roses with
  | nil => rfl
  | cons rose rest ih => simp only [List.cons_append, postOrders, ih, List.append_assoc]

end Rose

namespace Store

/-- The outline of a node down to a number of levels. -/
def outlineTo (s : Store) : Nat → Stand → Rose Stand
  | 0, stand => .mk stand []
  | level + 1, stand => .mk stand <| (s.childSlots stand.node).map fun child =>
      s.outlineTo level (child.stand (stand.depth + 1))

def outlinesTo (s : Store) : Nat → Value → List (Rose Stand)
  | 0, .array _ => []
  | level + 1, .array ref => (s.items ref).flatMap (s.outlinesTo level)
  | level, node => [s.outlineTo level (Context.alone.stand node)]

/-- The outlines of a tree.  No path passes more cells than there are. -/
def outlines (s : Store) (root : Value) : List (Rose Stand) :=
  s.outlinesTo s.cellCount root

variable {s next : Store}

theorem outlinesTo_of_ne_array {node : Value} (h : ∀ ref, node ≠ .array ref) (level : Nat) :
    s.outlinesTo level node = [s.outlineTo level (Context.alone.stand node)] := by
  cases node with
  | array ref => exact absurd rfl (h ref)
  | _ => cases level <;> rfl

theorem childSlots_of_ne_object {node : Value} (h : ∀ ref, node ≠ .object ref) :
    s.childSlots node = [] := by
  cases node with
  | object ref => exact absurd rfl (h ref)
  | _ => rfl

theorem outlineTo_of_ne_object {stand : Stand} (h : ∀ ref, stand.node ≠ .object ref)
    (level : Nat) : s.outlineTo level stand = .mk stand [] := by
  cases level with
  | zero => rfl
  | succ level => rw [outlineTo, childSlots_of_ne_object h, List.map_nil]

theorem ShowsMembers.childSlots_frame {trees : List (String × Tree)} {ref : ObjectRef}
    {cells : List Cell} (h : s.ShowsMembers trees (s.members ref) cells) (hgrows : s.Grows next)
    (hagrees : AgreesOn (· ∈ Cell.object ref :: cells) s next) :
    next.childSlots (.object ref) = s.childSlots (.object ref) := by
  have hsame : next.members ref = s.members ref := hagrees.members ref List.mem_cons_self
  have hlater : next.ShowsMembers trees (next.members ref) cells :=
    hsame ▸ h.frame hgrows (hagrees.mono fun _ => List.mem_cons_of_mem _)
  have hmember : next.member ref "children" = s.member ref "children" := by
    rw [Store.member, Store.member, hsame]
  obtain ⟨parts, hshows, hparts⟩ := h.member "children"
  have hparts' : ∀ cell ∈ parts, cell ∈ Cell.object ref :: cells :=
    fun cell hcell => List.mem_cons_of_mem _ (hparts.subset hcell)
  rw [hlater.childSlots, h.childSlots, hmember]
  split
  · exact hshows.expand_frame hgrows (hagrees.mono hparts')
  · rfl

theorem Shows.childSlots_extended {t : Tree} {node : Value} {cells : List Cell}
    (h : s.Shows t node cells) (hextends : s.Extends next) :
    next.childSlots node = s.childSlots node := by
  have hagrees := hextends.agrees.mono h.contains
  cases h with
  | object has members => exact members.childSlots_frame hextends.grows hagrees
  | _ => rfl

theorem sublist_area {plot : Plot} {plots : List Plot} (h : plot ∈ plots) :
    plot.cells.Sublist (area plots) :=
  List.sublist_flatten_of_mem (List.mem_map_of_mem h)

theorem Shows.outlineTo_frame {t : Tree} {stand : Stand} {cells : List Cell}
    (h : s.Shows t stand.node cells) (hgrows : s.Grows next)
    (hagrees : AgreesOn (· ∈ cells) s next) {level later : Nat} (hlevel : cells.length ≤ level)
    (hlater : cells.length ≤ later) : next.outlineTo later stand = s.outlineTo level stand := by
  induction level generalizing t stand cells later with
  | zero =>
      have hnode : ∀ ref, stand.node ≠ .object ref := by
        intro ref href
        rw [href] at h
        cases h
        cases hlevel
      rw [outlineTo_of_ne_object hnode, outlineTo_of_ne_object hnode]
  | succ level ih =>
      obtain ⟨node, parent, depth, index⟩ := stand
      cases h with
      | @object trees ref rest has members =>
          obtain ⟨later, rfl⟩ : ∃ fewer, later = fewer + 1 :=
            ⟨later - 1, by rw [List.length_cons] at hlater; omega⟩
          obtain ⟨plots, parts, hslots, -, hlaid, -, hparts⟩ := members.childPlots
          rw [outlineTo, outlineTo, members.childSlots_frame hgrows hagrees]
          refine congrArg _ (List.map_congr_left fun child hchild => ?_)
          rw [hslots] at hchild
          obtain ⟨plot, hplot, rfl⟩ := List.mem_map.mp hchild
          have hsub := ((sublist_area hplot).trans hlaid.within).trans hparts
          have hlength : plot.cells.length ≤ rest.length := hsub.length_le
          have hplotShows := hlaid.shows plot hplot
          rw [List.length_cons] at hlevel hlater
          exact ih hplotShows
            (hagrees.mono fun cell hcell => List.mem_cons_of_mem _ (hsub.subset hcell))
            (by omega) (by omega)
      | _ => rw [outlineTo_of_ne_object (by simp), outlineTo_of_ne_object (by simp)]

theorem Shows.outlineTo_succ {t : Tree} {stand : Stand} {cells : List Cell}
    (h : s.Shows t stand.node cells) {level : Nat} (hlevel : cells.length ≤ level) :
    s.outlineTo level stand = s.outlineTo (level + 1) stand :=
  h.outlineTo_frame (Grows.refl s) (AgreesOn.refl _ s) (Nat.le_succ_of_le hlevel) hlevel

mutual
theorem Shows.outlinesTo_frame {t : Tree} {value : Value} {cells : List Cell}
    (h : s.Shows t value cells) (hgrows : s.Grows next) (hagrees : AgreesOn (· ∈ cells) s next)
    {level later : Nat} (hlevel : cells.length ≤ level) (hlater : cells.length ≤ later) :
    next.outlinesTo later value = s.outlinesTo level value := by
  cases h with
  | @array trees ref rest has items =>
      rw [List.length_cons] at hlevel hlater
      obtain ⟨level, rfl⟩ : ∃ fewer, level = fewer + 1 := ⟨level - 1, by omega⟩
      obtain ⟨later, rfl⟩ : ∃ fewer, later = fewer + 1 := ⟨later - 1, by omega⟩
      rw [outlinesTo, outlinesTo, hagrees.items ref List.mem_cons_self]
      exact items.outlinesTo_frame hgrows (hagrees.mono fun _ => List.mem_cons_of_mem _)
        (by omega) (by omega)
  | object has members =>
      rw [outlinesTo_of_ne_array (by simp), outlinesTo_of_ne_array (by simp),
        Shows.outlineTo_frame (.object has members) hgrows hagrees hlevel hlater]
  | atom a =>
      rw [outlinesTo_of_ne_array (by simp), outlinesTo_of_ne_array (by simp),
        outlineTo_of_ne_object (by simp [Context.stand]),
        outlineTo_of_ne_object (by simp [Context.stand])]
  | tuple items =>
      rw [outlinesTo_of_ne_array (by simp), outlinesTo_of_ne_array (by simp),
        outlineTo_of_ne_object (by simp [Context.stand]),
        outlineTo_of_ne_object (by simp [Context.stand])]

theorem ShowsItems.outlinesTo_frame {trees : List Tree} {values : List Value} {cells : List Cell}
    (h : s.ShowsItems trees values cells) (hgrows : s.Grows next)
    (hagrees : AgreesOn (· ∈ cells) s next) {level later : Nat} (hlevel : cells.length ≤ level)
    (hlater : cells.length ≤ later) :
    values.flatMap (next.outlinesTo later) = values.flatMap (s.outlinesTo level) := by
  cases h with
  | nil => rfl
  | cons head tail =>
      rw [List.length_append] at hlevel hlater
      have hhead := head.outlinesTo_frame hgrows
        (hagrees.mono fun _ => List.mem_append_left _) (Nat.le_of_add_right_le hlevel)
        (Nat.le_of_add_right_le hlater)
      have htail := tail.outlinesTo_frame hgrows
        (hagrees.mono fun _ => List.mem_append_right _) (Nat.le_of_add_left_le hlevel)
        (Nat.le_of_add_left_le hlater)
      rw [List.flatMap_cons, List.flatMap_cons, hhead, htail]
end

theorem Shows.length_le_cellCount {t : Tree} {value : Value} {cells : List Cell}
    (h : s.Shows t value cells) (hnodup : cells.Nodup) : cells.length ≤ s.cellCount :=
  IsPath.length_le ⟨hnodup, h.contains⟩

end Store

end ViewTree
