import ViewTree.Proofs.Render.Binding
import ViewTree.Proofs.Tree.Flattening

namespace ViewTree

namespace Renderer

open Rendering (Alike)

/-- Groups are built in, and props that count as none are none to a renderer. -/
structure Splices (renderer : Renderer) (bare : Tree → Bool) : Prop where
  group : renderer.resolver.resolve (.text Marker.fragment.name) =
    .ok (some Marker.fragment.component)
  bare : ∀ props, bare props = true → props.isTruthy = false

variable {renderer : Renderer} {bare : Tree → Bool}

theorem renderChildren_array (items : List Tree) :
    renderer.renderChildren (.array items) = renderer.renderAll items := by
  rw [renderChildren, render, ← comp_map]
  exact id_map _

theorem renderAll_singleton (t : Tree) :
    renderer.renderAll [t] = Output.splice <$> renderer.render t := by
  rw [renderAll, renderAll, map_eq_pure_bind]
  simp only [pure_bind, List.append_nil]

theorem renderAll_append (items others : List Tree) :
    renderer.renderAll (items ++ others) = (do
      let outputs ← renderer.renderAll items
      let more ← renderer.renderAll others
      return outputs ++ more) := by
  induction items with
  | nil => simp only [List.nil_append, renderAll, pure_bind, bind_pure]
  | cons item rest ih =>
      simp only [List.cons_append, renderAll, ih, bind_assoc, pure_bind, List.append_assoc]

theorem splice_render_gather (value : Tree) (parts : List Tree) :
    Output.splice <$> renderer.render (value.gather parts) = renderer.renderAll parts := by
  have hmany : Output.splice <$> renderer.render (.array parts) = renderer.renderAll parts :=
    renderChildren_array parts
  cases value with
  | array items => exact hmany
  | _ =>
      match parts with
      | [] => exact hmany
      | [part] => exact (renderAll_singleton part).symm
      | _ :: _ :: _ => exact hmany

theorem resolveProp_alike (node other : Tree) (name : String) (value : Tree) :
    Alike (renderer.resolveProp node name value) (renderer.resolveProp other name value) := by
  unfold resolveProp
  apply (Alike.ofExcept _).bind
  intro begins
  split
  · cases value.text? with
    | none => exact .pure _
    | some handlerName =>
        apply (Alike.ofExcept _).bind
        intro handler
        cases handler with
        | none => exact .reporting _ rfl
        | some handler => exact .pure _
  · exact .pure _

theorem processProps_alike (node other props : Tree) :
    Alike (renderer.processProps node props) (renderer.processProps other props) := by
  cases props with
  | object members =>
      exact .mapM (List.map_id members) fun member => resolveProp_alike node other member.1 member.2
  | _ => exact .throw _

/-- Nodes that differ in their children alone render alike if what is below them does. -/
theorem render_object_alike {members others : Members Tree}
    (hsame : ∀ name ≠ "children", members.lookup name = others.lookup name)
    (hstructured : (Tree.object others).isStructured = true)
    (hbelow : Alike (renderer.renderBelow members) (renderer.renderBelow others)) :
    Alike (renderer.render (.object members)) (renderer.render (.object others)) := by
  have hnodeType : (Tree.object members).nodeType? = (Tree.object others).nodeType? := by
    simp only [Tree.nodeType?, Members.nodeType?, hsame "type" (by decide)]
  have hpropsOf : propsOf members = propsOf others := by
    rw [propsOf, propsOf, hsame "props" (by decide)]
  have hkeyOf : ∀ props, keyOf members props = keyOf others props := by
    intro props
    rw [keyOf, keyOf, hsame "key" (by decide), hsame "id" (by decide)]
  obtain ⟨type, htype⟩ := Option.isSome_iff_exists.mp hstructured
  rw [render, render]
  simp only [hnodeType, htype, hpropsOf, hkeyOf]
  apply (Alike.ofExcept _).bind
  intro component
  cases component with
  | none => exact .reporting _ rfl
  | some component =>
      apply (processProps_alike _ _ _).bind
      intro props
      apply hbelow.bind
      intro children
      exact build_alike renderer _ _ component _ children _

theorem splice_render_group (hspliced : renderer.Splices bare) {members : Members Tree}
    (h : (Tree.object members).isBareGroup bare = true) :
    Output.splice <$> renderer.render (.object members) = renderer.renderBelow members := by
  obtain ⟨htype, hprops⟩ : (Tree.object members).nodeType? = some Marker.fragment.name ∧
      bare ((Tree.object members).member "props") = true := by
    rw [Tree.isBareGroup, Bool.and_eq_true] at h
    exact ⟨beq_iff_eq.mp h.1, h.2⟩
  have hnone : propsOf members = .object [] := by
    have hfalse : ((members.lookup "props").getD .null).isTruthy = false := hspliced.bare _ hprops
    rw [propsOf, hfalse]
    rfl
  rw [render]
  simp only [htype, hspliced.group, ofExcept, hnone, processProps, resolveProps, List.mapM_nil, pure_bind,
    map_bind]
  refine Eq.trans (bind_congr fun children => ?_) (bind_pure _)
  rfl

mutual
theorem renderAll_flat (h : renderer.Splices bare) (t : Tree) :
    Alike (renderer.renderAll (t.flat bare)) (Output.splice <$> renderer.render t) := by
  cases t with
  | atom a =>
      rw [Tree.flat, renderAll_singleton, render]
      exact (renderAtom_alike _ a).map
  | tuple items =>
      rw [Tree.flat, renderAll_singleton, render]
      exact (Alike.reporting _ rfl).map
  | array items =>
      have hwhole : Output.splice <$> renderer.render (.array items) = renderer.renderAll items :=
        renderChildren_array items
      rw [Tree.flat, hwhole]
      exact renderAll_flatItems h items
  | object members =>
      rw [Tree.flat]
      cases htype : (Tree.object members).nodeType? with
      | none =>
          have hopen : (Tree.object members).isStructured = false := by
            rw [Tree.isStructured, htype, Option.isSome_none]
          rw [hopen, if_neg Bool.false_ne_true, renderAll_singleton, render]
          simp only [htype]
          exact (Alike.reporting _ rfl).map
      | some type =>
          have hstructured : (Tree.object members).isStructured = true := by
            rw [Tree.isStructured, htype, Option.isSome_some]
          rw [if_pos hstructured]
          split
          · next hgroup =>
              rw [splice_render_group h hgroup]
              exact renderAll_flatBelow h members
          · rw [renderAll_singleton]
            exact (render_object_alike (fun _ hname => Tree.lookup_flatMembers hname members)
              hstructured (renderBelow_flatMembers h members)).map

theorem renderAll_flatItems (h : renderer.Splices bare) (items : List Tree) :
    Alike (renderer.renderAll (Tree.flatItems bare items)) (renderer.renderAll items) := by
  cases items with
  | nil => exact .pure []
  | cons item rest =>
      have hsplit : renderer.renderAll (item :: rest) = (do
          let outputs ← Output.splice <$> renderer.render item
          let others ← renderer.renderAll rest
          return outputs ++ others) := by
        rw [renderAll, bind_map_left]
      rw [Tree.flatItems, renderAll_append, hsplit]
      apply (renderAll_flat h item).bind
      intro outputs
      apply (renderAll_flatItems h rest).bind
      intro others
      exact .pure _

theorem renderAll_flatBelow (h : renderer.Splices bare) (members : List (String × Tree)) :
    Alike (renderer.renderAll (Tree.flatBelow bare members)) (renderer.renderBelow members) := by
  cases members with
  | nil => exact .pure []
  | cons member rest =>
      obtain ⟨name, value⟩ := member
      rw [Tree.flatBelow, renderBelow]
      by_cases hname : name = "children"
      · rw [if_pos hname, if_pos hname, ← map_eq_pure_bind]
        split
        · next hnull =>
            rw [Tree.eq_null_of_isNull hnull]
            exact .pure []
        · exact renderAll_flat h value
      · rw [if_neg hname, if_neg hname]
        exact renderAll_flatBelow h rest

theorem renderBelow_flatMembers (h : renderer.Splices bare) (members : List (String × Tree)) :
    Alike (renderer.renderBelow (Tree.flatMembers bare members))
      (renderer.renderBelow members) := by
  cases members with
  | nil => exact .pure []
  | cons member rest =>
      obtain ⟨name, value⟩ := member
      by_cases hname : name = "children"
      · rw [Tree.flatMembers, if_pos hname, renderBelow, if_pos hname, renderBelow, if_pos hname,
          ← map_eq_pure_bind, ← map_eq_pure_bind, splice_render_gather]
        exact renderAll_flat h value
      · rw [Tree.flatMembers, if_neg hname, renderBelow, if_neg hname, renderBelow, if_neg hname]
        exact renderBelow_flatMembers h rest
end

theorem renderBelow_put_key (members : Members Tree) (key : Tree) :
    renderer.renderBelow (members.put "key" key) = renderer.renderBelow members := by
  induction members with
  | nil => rfl
  | cons member rest ih =>
      obtain ⟨name, value⟩ := member
      by_cases hname : name = "key"
      · subst hname
        rfl
      · simp only [Members.put, hname, if_false, renderBelow, ih]

/-- Whether arrays and groups are nested cannot be seen from what a renderer makes of a list.  A list
and the flat values that stand for it come to the same output and tell the same but for the nodes
that are told of; lists in a row are rendered in a row; and a group without props renders the same
under any key. -/
theorem renderChildren_flattened (h : renderer.Splices bare) :
    (∀ t : Tree, (∀ part ∈ t.flat bare, part.isFlat bare = true) ∧
      Alike (renderer.renderChildren (.array [t.flattened bare]))
        (renderer.renderChildren (.array [t]))) ∧
    (∀ items, Alike (renderer.renderChildren (.array (Tree.flatItems bare items)))
      (renderer.renderChildren (.array items))) ∧
    (∀ items others, renderer.renderChildren (.array (items ++ others)) = (do
      let outputs ← renderer.renderChildren (.array items)
      let more ← renderer.renderChildren (.array others)
      return outputs ++ more)) ∧
    ∀ members : Members Tree, (Tree.object members).isBareGroup bare = true → ∀ key,
      (Tree.object (members.put "key" key)).flat bare = (Tree.object members).flat bare ∧
      ∀ before after,
        renderer.renderChildren (.array (before ++ .object (members.put "key" key) :: after)) =
          renderer.renderChildren (.array (before ++ .object members :: after)) := by
  refine ⟨fun t => ⟨Tree.areFlat_iff.mp (Tree.areFlat_flat t), ?_⟩, fun items => ?_,
    fun items others => ?_, fun members hgroup key => ⟨Tree.flat_put_key hgroup key, ?_⟩⟩
  · rw [renderChildren_array, renderChildren_array, renderAll_singleton, renderAll_singleton,
      Tree.flattened, splice_render_gather]
    exact renderAll_flat h t
  · rw [renderChildren_array, renderChildren_array]
    exact renderAll_flatItems h items
  · simp only [renderChildren_array]
    exact renderAll_append items others
  · intro before after
    have hkeyed := Tree.isBareGroup_put_key hgroup key
    have hone : renderer.renderAll [.object (members.put "key" key)] =
        renderer.renderAll [.object members] := by
      rw [renderAll_singleton, renderAll_singleton, splice_render_group h hkeyed,
        splice_render_group h hgroup, renderBelow_put_key]
    have hmiddle : ∀ t : Tree, before ++ t :: after = before ++ ([t] ++ after) := fun _ => rfl
    simp only [renderChildren_array, hmiddle, renderAll_append, hone]

def emptyProps (props : Tree) : Bool :=
  !props.isTruthy

def bouquet : Tree :=
  .array [.array [.text "rose", .object [("type", .text "Fragment"), ("key", .int 1),
    ("children", .array [.object [("type", .text "Fragment"), ("children", .text "ivy")], .null])]],
    .object [("type", .text "vase"), ("children", .array [.array [.array []], .text "moss"])],
    .object [("name", .text "thorn")]]

theorem renderChildren_flattened_bouquet :
    ({} : Renderer).Splices emptyProps ∧
      bouquet.flattened emptyProps = .array [.text "rose", .text "ivy", .null,
        .object [("type", .text "vase"), ("children", .array [.text "moss"])],
        .object [("name", .text "thorn")]] ∧
      ∀ first second : Desk Tree, first.blurred = second.blurred →
        Rendering.blurred
            (({} : Renderer).renderChildren (.array [bouquet.flattened emptyProps]) first) =
          Rendering.blurred (({} : Renderer).renderChildren (.array [bouquet]) second) := by
  have hsplices : ({} : Renderer).Splices emptyProps := by
    refine ⟨rfl, fun props hprops => ?_⟩
    simpa [emptyProps] using hprops
  exact ⟨hsplices, rfl, (renderChildren_flattened hsplices).1 bouquet |>.2⟩

end Renderer

end ViewTree
