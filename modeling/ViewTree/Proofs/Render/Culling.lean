import ViewTree.Proofs.Render.Flattening
import ViewTree.Proofs.Transform.Culling

namespace ViewTree

namespace Renderer

open Rendering (Alike)

variable {renderer : Renderer} {test : Tree → Bool}

theorem renderAll_null_cons (items : List Tree) :
    renderer.renderAll (.null :: items) = renderer.renderAll items := by
  have hnull : renderer.render .null = pure .nothing := by
    rw [Tree.null, render]
    rfl
  simp only [renderAll, hnull, pure_bind, Output.splice_nothing, List.nil_append, bind_pure]

mutual
theorem render_nulled {t : Tree} (h : t.isValid = true) :
    Alike (renderer.render (t.nulled test)) (renderer.render (t.without test)) := by
  have hnull : Alike (renderer.render .null) (renderer.render .null) := by
    rw [Tree.null, render]
    exact renderAtom_alike _ _
  cases t with
  | atom a =>
      rw [Tree.nulled, Tree.without, Tree.culled, Tree.culled]
      split
      · exact hnull
      · rw [render]
        exact renderAtom_alike _ a
  | tuple items =>
      rw [Tree.nulled, Tree.without, Tree.culled, Tree.culled]
      split
      · exact hnull
      · rw [render]
        exact .reporting _ rfl
  | array items =>
      rw [Tree.nulled, Tree.without, Tree.culled, Tree.culled, render, render]
      exact (renderAll_nulled h).map
  | object members =>
      rw [Tree.nulled, Tree.without, Tree.culled, Tree.culled]
      split
      · exact hnull
      · obtain ⟨hnode, hbelow⟩ := Tree.everyNode_object.mp h
        have hstructured : (Tree.object (Tree.culledMembers test [] members)).isStructured = true :=
          (Tree.isStructured_culledMembers members).trans hnode
        refine render_object_alike (fun name hname => ?_) hstructured (renderBelow_nulled hbelow)
        rw [Tree.lookup_culledMembers members hname, Tree.lookup_culledMembers members hname]

theorem renderAll_nulled {items : List Tree} (h : Tree.everyItem Tree.isNode items = true) :
    Alike (renderer.renderAll (Tree.culledItems test [.null] items))
      (renderer.renderAll (Tree.culledItems test [] items)) := by
  cases items with
  | nil => exact .pure []
  | cons item rest =>
      rw [Tree.everyItem, Bool.and_eq_true] at h
      rw [Tree.culledItems, Tree.culledItems]
      split
      · rw [List.singleton_append, renderAll_null_cons]
        exact renderAll_nulled h.2
      · simp only [List.singleton_append, renderAll]
        apply (render_nulled h.1).bind
        intro output
        apply (renderAll_nulled h.2).bind
        intro outputs
        exact .pure _

theorem renderBelow_nulled {members : List (String × Tree)}
    (h : Tree.everyChild Tree.isNode members = true) :
    Alike (renderer.renderBelow (Tree.culledMembers test [.null] members))
      (renderer.renderBelow (Tree.culledMembers test [] members)) := by
  cases members with
  | nil => exact .pure []
  | cons member rest =>
      obtain ⟨name, value⟩ := member
      rw [Tree.everyChild] at h
      by_cases hname : name = "children"
      · rw [if_pos hname] at h
        rw [Tree.culledMembers, if_pos hname, Tree.culledMembers, if_pos hname, renderBelow,
          if_pos hname, renderBelow, if_pos hname]
        exact (render_nulled h).bind fun output => .pure _
      · rw [if_neg hname] at h
        rw [Tree.culledMembers, if_neg hname, Tree.culledMembers, if_neg hname, renderBelow,
          if_neg hname, renderBelow, if_neg hname]
        exact renderBelow_nulled h
end

end Renderer

/-- What is made null on the way down is as good as deleted.  If a visitor replaces the values that
pass a test by null, parents first, then the tree is rendered to what it is rendered to without
them, and the same is told but for the nodes that are told of.  In lists the others keep their
order. -/
theorem render_transform_culling (test : Tree → Bool) {order : Order} (horder : order ≠ .postOrder)
    (clone : Tree) {t : Tree} (hvalid : t.isValid = true) {fuel : Nat} (hfuel : t.size < fuel)
    (world : σ) :
    (∃ result,
      (t.transform fuel [.scripted (some (culling test)) none]
        { order := order.setting, clone := clone } world).1 = .ok result ∧
      ∀ renderer : Renderer,
        Rendering.Alike (renderer.render result) (renderer.render (t.without test))) ∧
    ∀ items, (Tree.array items).without test =
      .array ((items.filter fun item => !item.isCulled test).map (Tree.without test)) := by
  refine ⟨⟨t.nulled test, ?_, fun renderer => Renderer.render_nulled hvalid⟩, fun items => ?_⟩
  · exact Tree.transform_culler test horder clone hvalid hfuel world
  · rw [Tree.without, Tree.culled, Tree.culledItems_nil]

def isThorny (t : Tree) : Bool :=
  t.nodeType? == some "thorn" || t.text? == some "bramble"

def hedge : Tree :=
  .array [.object [("type", .text "thorn"), ("children", .text "sting")],
    .object [("type", .text "hedge"), ("id", .int 4), ("children", .array [.text "rose",
      .array [.object [("type", .text "thorn")], .text "bramble"],
      .object [("type", .text "nest"), ("children", .text "bramble")],
      .array [.text "ivy", .object [("type", .text "thorn"), ("children", .array [
        .object [("type", .text "thorn")], .text "moss"])]], .text "bramble"])], .text "bramble"]

def clearedHedge : Tree :=
  .array [.object [("type", .text "hedge"), ("id", .int 4), ("children", .array [.text "rose",
    .array [], .object [("type", .text "nest"), ("children", .null)], .array [.text "ivy"]])]]

theorem render_transform_culling_hedge :
    hedge.isValid = true ∧ hedge.size < 40 ∧ hedge.without isThorny = clearedHedge ∧
    ∃ result,
      (hedge.transform 40 [.scripted (some (culling isThorny)) none]
        { order := Order.breadthFirst.setting } ()).1 = .ok result ∧
      ∀ desk other : Desk Tree, desk.blurred = other.blurred →
        Rendering.blurred (({} : Renderer).render result desk) =
          Rendering.blurred (({} : Renderer).render clearedHedge other) := by
  have hvalid : hedge.isValid = true := by decide
  have hsize : hedge.size < 40 := by decide
  have hcleared : hedge.without isThorny = clearedHedge := rfl
  obtain ⟨⟨result, hresult, hrender⟩, -⟩ := render_transform_culling isThorny
    (by decide : Order.breadthFirst ≠ .postOrder) (.bool true) hvalid hsize ()
  exact ⟨hvalid, hsize, hcleared, result, hresult, hcleared ▸ hrender {}⟩

end ViewTree
