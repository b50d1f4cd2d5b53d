import ViewTree.Proofs.Store.Expansion
import ViewTree.Proofs.Traverse.Sight
import ViewTree.Transform
import ViewTree.Traverse

namespace ViewTree

open Store (Cell)

namespace Sight

def ofVisit (s : Store) (node : Value) (ctx : Context) : Sight :=
  ⟨s.read node, ctx.depth, ctx.index, ctx.parent.map fun ref => s.read (.object ref)⟩

/-- Notes what it is shown, and sets the latch where it so chooses. -/
def consumer (skips : Choice) : Consumer (List Sight) := fun node ctx => do
  let sight := ofVisit (← Walk.store) node ctx
  Walk.modifyWorld (· ++ [sight])
  return if skips sight.node sight.depth sight.index then ctx.skipChildren else ctx

def visitor (skips : Choice) : Visitor (List Sight) :=
  { enter? := some fun node ctx => do return (.nothing, ← consumer skips node ctx) }

/-- A slot to be visited at a depth presents a sight. -/
structure Presented (s : Store) (slot : Slot) (depth : Nat) (sight : Sight) : Prop where
  node : ∃ cells, s.Shows sight.node slot.node cells
  depth : depth = sight.depth
  index : slot.index = sight.index
  parent : (slot.parent.map fun ref => s.read (.object ref)) = sight.parent

theorem Presented.ofVisit_eq {s : Store} {slot : Slot} {depth : Nat} {sight : Sight}
    (h : Presented s slot depth sight) : ofVisit s slot.node (slot.context depth) = sight := by
  obtain ⟨cells, hshows⟩ := h.node
  cases sight
  simp only [ofVisit, Slot.context, hshows.read_eq, h.depth, h.index, h.parent]

mutual
theorem expand_presented {s : Store} {tree : Tree} {value : Value} {cells : List Cell}
    (h : s.Shows tree value cells) {parent : Option ObjectRef} {above : Option Tree}
    (hparent : (parent.map fun ref => s.read (.object ref)) = above)
    (depth index : Nat) (place : Place) :
    List.Forall₂ (fun slot sight => Presented s slot depth sight)
      (s.expand ⟨value, parent, index, place⟩)
      ((tree.spread index).map fun value => ⟨value.1, depth, value.2, above⟩) := by
  cases h with
  | atom a =>
      rw [Store.expand_of_ne_array (by simp)]
      exact .cons ⟨⟨_, .atom a⟩, rfl, rfl, hparent⟩ .nil
  | tuple items =>
      rw [Store.expand_of_ne_array (by simp)]
      exact .cons ⟨⟨_, .tuple items⟩, rfl, rfl, hparent⟩ .nil
  | object has members =>
      rw [Store.expand_of_ne_array (by simp)]
      exact .cons ⟨⟨_, .object has members⟩, rfl, rfl, hparent⟩ .nil
  | array has items =>
      rw [items.expand_eq has]
      exact flatMap_expand_presented items hparent depth _ 0

theorem flatMap_expand_presented {s : Store} {trees : List Tree} {values : List Value}
    {cells : List Cell} (h : s.ShowsItems trees values cells) {parent : Option ObjectRef}
    {above : Option Tree} (hparent : (parent.map fun ref => s.read (.object ref)) = above)
    (depth : Nat) (ref : ArrayRef) (start : Nat) :
    List.Forall₂ (fun slot sight => Presented s slot depth sight)
      ((values.zipIdx start).flatMap fun (value, position) =>
        s.expand ⟨value, parent, position, .element ref position⟩)
      ((Tree.spreadItems trees start).map fun value => ⟨value.1, depth, value.2, above⟩) := by
  cases h with
  | nil => exact .nil
  | cons head tail =>
      simp only [List.zipIdx_cons, List.flatMap_cons, Tree.spreadItems, List.map_append]
      exact List.rel_append (expand_presented head hparent depth _ _)
        (flatMap_expand_presented tail hparent depth ref (start + 1))
end

theorem Presented.childSlots {s : Store} {slot : Slot} {depth : Nat} {sight : Sight}
    (h : Presented s slot depth sight) :
    List.Forall₂ (fun child below => Presented s child (depth + 1) below)
      (s.childSlots slot.node) sight.children := by
  obtain ⟨cells, hshows⟩ := h.node
  have hread := hshows.read_eq
  obtain ⟨node, sightDepth, sightIndex, above⟩ := sight
  obtain ⟨value, parent, index, place⟩ := slot
  obtain rfl := h.depth
  cases hshows with
  | @object trees ref cells has members =>
      rw [members.childSlots, children, Tree.children]
      by_cases hopen : (Tree.object trees).hasChildren
      · obtain ⟨parts, hmember, -⟩ := members.member "children"
        have habove : ((some ref).map fun ref => s.read (.object ref)) = some (.object trees) :=
          congrArg some hread
        simp only [hopen, if_true]
        exact expand_presented hmember habove (depth + 1) 0 _
      · simp only [hopen]
        exact .nil
  | _ => exact .nil

theorem consumer_apply (skips : Choice) (node : Value) (ctx : Context)
    (session : Session (List Sight)) :
    consumer skips node ctx session =
      .ok (if skips (session.store.read node) ctx.depth ctx.index then ctx.skipChildren else ctx)
        ⟨session.store, session.world ++ [ofVisit session.store node ctx]⟩ := rfl

theorem offer_all (consumer : Consumer σ) (kind : Kind) (slot : Slot) (ctx : Context) :
    Traverse.offer .all consumer kind slot ctx = consumer slot.node ctx := rfl

theorem tour_eq (skips : Choice) (order : Order) :
    Transform.tour [visitor skips] (.setting .null) order =
      Traverse.tour .all (consumer skips) order := by
  cases order <;> rfl

theorem descend_of_no_prune (tour : Tour σ) (hprune : tour.prune = fun _ ctx => pure (false, ctx))
    (kind : Kind) (node : Value) (ctx : Context) (session : Session σ) :
    tour.descend kind node ctx session =
      .ok (if kind = .structured ∧ ctx.skipping = false then session.store.childSlots node else [],
        ctx) session := by
  unfold Tour.descend
  split
  · next h =>
      rw [hprune, Walk.bind_apply]
      show (if (false || ctx.skipping) = true then _ else _ : Walk σ _) session = _
      simp only [h.2, Bool.or_self]
      rfl
  · rfl

abbrev tour (skips : Choice) (order : Order) : Tour (List Sight) :=
  Traverse.tour .all (consumer skips) order

theorem Presented.consumer_eq {s : Store} {slot : Slot} {depth : Nat} {sight : Sight}
    (h : Presented s slot depth sight) (skips : Choice) (world : List Sight) :
    ∃ ctx, consumer skips slot.node (slot.context depth) ⟨s, world⟩ =
        .ok ctx ⟨s, world ++ [sight]⟩ ∧
      ctx.skipping = skips sight.node sight.depth sight.index := by
  obtain ⟨cells, hshows⟩ := h.node
  refine ⟨_, by rw [consumer_apply, h.ofVisit_eq], ?_⟩
  simp only [hshows.read_eq, Slot.context, h.depth, h.index]
  split
  · next hskip => exact hskip.symm
  · next hskip => exact (Bool.eq_false_iff.mpr hskip).symm

theorem children_of_ne_structured {sight : Sight} {kind : Kind}
    (hkind : sight.node.classify = .ok kind) (hne : kind ≠ .structured) :
    sight.children = [] := by
  have hplain : sight.node.isStructured = false := by
    rw [Bool.eq_false_iff, ne_eq, Tree.isStructured_iff_classify, hkind]
    exact fun heq => hne (Except.ok.inj heq)
  simp [children, Tree.children, Tree.hasChildren, hplain]

theorem descend_presented (tour : Tour σ) (hprune : tour.prune = fun _ ctx => pure (false, ctx))
    {s : Store} {slot : Slot} {depth : Nat} {sight : Sight} (h : Presented s slot depth sight)
    {kind : Kind} (hkind : sight.node.classify = .ok kind) {ctx : Context}
    (hclear : ctx.skipping = false) (world : σ) :
    ∃ slots, tour.descend kind slot.node ctx ⟨s, world⟩ = .ok (slots, ctx) ⟨s, world⟩ ∧
      List.Forall₂ (fun child below => Presented s child (depth + 1) below)
        slots sight.children := by
  refine ⟨_, descend_of_no_prune tour hprune kind slot.node ctx ⟨s, world⟩, ?_⟩
  by_cases hopen : kind = .structured
  · simpa only [hopen, hclear, and_self, if_true] using h.childSlots
  · simp only [hopen, false_and, if_false, children_of_ne_structured hkind hopen]
    exact .nil

theorem arrive_tour (skips : Choice) (order : Order) (horder : order ≠ .postOrder) (kind : Kind)
    {slot : Slot} {ctx next : Context} {session after : Session (List Sight)}
    (h : consumer skips slot.node ctx session = .ok next after) :
    (tour skips order).arrive kind slot ctx session = .ok (some next) after := by
  have harrive : (tour skips order).arrive kind slot ctx =
      some <$> Traverse.offer .all (consumer skips) kind slot ctx := by
    cases order <;> first | rfl | contradiction
  rw [harrive, offer_all, map_eq_pure_bind, Walk.bind_apply, h]
  rfl

theorem leave_tour (skips : Choice) (kind : Kind) {slot : Slot} {ctx next : Context}
    {session after : Session (List Sight)}
    (h : consumer skips slot.node ctx session = .ok next after) :
    (tour skips .postOrder).leave kind slot ctx session = .ok () after := by
  show ((fun _ => ()) <$> Traverse.offer .all (consumer skips) kind slot ctx) session = _
  rw [offer_all, map_eq_pure_bind, Walk.bind_apply, h]
  rfl

theorem forM_children_follows {visit : Slot → Walk (List Sight) Unit}
    {course : Sight → Course (List Sight) Unit} {s : Store} {sight : Sight} {slots : List Slot}
    {depth : Nat}
    (hslots : List.Forall₂ (fun child below => Presented s child depth below)
      slots sight.children)
    (hvisit : ∀ child below world, below.node.size < sight.node.size →
      Presented s child depth below →
      Walk.Follows (visit child) (course below) ⟨s, world⟩ fun _ _ after => after = s)
    (world : List Sight) :
    Walk.Follows (slots.forM visit) (sight.children.forM course) ⟨s, world⟩
      fun _ _ after => after = s := by
  refine .forM hslots (fun child below hbelow hpresented ⟨store, world⟩ hstore => ?_) rfl
  obtain rfl : s = store := hstore.symm
  exact hvisit child below world (size_lt_of_mem_children hbelow) hpresented

theorem preOrder_follows (skips : Choice) (s : Store) (fuel : Nat) :
    ∀ {slot : Slot} {depth : Nat} {sight : Sight} (world : List Sight),
      Presented s slot depth sight → sight.node.size ≤ fuel →
      Walk.Follows ((tour skips .preOrder).depthFirst fuel slot depth) (sight.preOrder skips)
        ⟨s, world⟩ fun _ _ after => after = s := by
  induction fuel with
  | zero =>
      intro slot depth sight world _ hsize
      have := sight.node.size_pos
      omega
  | succ fuel ih =>
      intro slot depth sight world h hsize
      obtain ⟨cells, hshows⟩ := h.node
      rw [preOrder_eq]
      refine (Walk.classify_follows hshows).bind fun kind _ ⟨store, world⟩ hafter => ?_
      obtain ⟨-, hstore, hkind⟩ := hafter
      obtain rfl : s = store := hstore.symm
      obtain ⟨ctx, hconsumer, hlatch⟩ := h.consumer_eq skips world
      refine .bind_ok (arrive_tour skips .preOrder (by decide) kind hconsumer) rfl ?_
      cases hcut : skips sight.node sight.depth sight.index with
      | true =>
          have hdescend := descend_of_no_prune (tour skips .preOrder) rfl kind slot.node ctx
            ⟨s, world ++ [sight]⟩
          simp only [hlatch, hcut, Bool.true_eq_false, and_false, if_false] at hdescend
          exact .step hdescend rfl (.pure rfl)
      | false =>
          obtain ⟨slots, hdescend, hslots⟩ := descend_presented (tour skips .preOrder) rfl h hkind
            (hlatch.trans hcut) (world ++ [sight])
          have hloop := forM_children_follows hslots (fun child below world hsmaller hpresented =>
            ih world hpresented (by omega)) (world ++ [sight])
          exact .step hdescend rfl (hloop.andThen fun _ _ _ hafter => .pure hafter)

theorem postOrder_follows (skips : Choice) (s : Store) (fuel : Nat) :
    ∀ {slot : Slot} {depth : Nat} {sight : Sight} (world : List Sight),
      Presented s slot depth sight → sight.node.size ≤ fuel →
      Walk.Follows ((tour skips .postOrder).depthFirst fuel slot depth) sight.postOrder
        ⟨s, world⟩ fun _ _ after => after = s := by
  induction fuel with
  | zero =>
      intro slot depth sight world _ hsize
      have := sight.node.size_pos
      omega
  | succ fuel ih =>
      intro slot depth sight world h hsize
      obtain ⟨cells, hshows⟩ := h.node
      rw [postOrder_eq]
      refine (Walk.classify_follows hshows).bind fun kind _ ⟨store, world⟩ hafter => ?_
      obtain ⟨-, hstore, hkind⟩ := hafter
      obtain rfl : s = store := hstore.symm
      refine .step rfl rfl ?_
      obtain ⟨slots, hdescend, hslots⟩ := descend_presented (tour skips .postOrder) rfl h hkind
        (Slot.skipping_context slot depth) world
      have hloop := forM_children_follows hslots (fun child below world hsmaller hpresented =>
        ih world hpresented (by omega)) world
      refine .step hdescend rfl (hloop.bind fun _ _ ⟨store, world⟩ hstore => ?_)
      obtain rfl : s = store := hstore.symm
      obtain ⟨ctx, hconsumer, -⟩ := h.consumer_eq skips world
      exact .of_ok (leave_tour skips kind hconsumer) rfl rfl

theorem breadthFirst_follows (skips : Choice) (s : Store) (fuel : Nat) :
    ∀ {queue : List (Slot × Nat)} {sights : List Sight} (world : List Sight),
      List.Forall₂ (fun entry sight => Presented s entry.1 entry.2 sight) queue sights →
      totalSize sights ≤ fuel →
      Walk.Follows ((tour skips .breadthFirst).breadthFirst fuel queue)
        (breadthFirst skips sights) ⟨s, world⟩ fun _ _ after => after = s := by
  induction fuel with
  | zero =>
      intro queue sights world h hsize
      cases h with
      | nil =>
          rw [breadthFirst]
          exact .pure rfl
      | @cons _ sight _ _ _ _ =>
          have := sight.node.size_pos
          rw [totalSize_cons] at hsize
          omega
  | succ fuel ih =>
      intro queue sights world h hsize
      cases h with
      | nil =>
          rw [breadthFirst]
          exact .pure rfl
      | @cons entry sight queue sights hhead htail =>
          obtain ⟨slot, depth⟩ := entry
          obtain ⟨cells, hshows⟩ := hhead.node
          have hpos := sight.node.size_pos
          have hchildren := sight.totalSize_children_lt
          rw [totalSize_cons] at hsize
          rw [breadthFirst]
          refine (Walk.classify_follows hshows).bind fun kind _ after hafter => ?_
          obtain ⟨store, world⟩ := after
          obtain ⟨-, hstore, hkind⟩ := hafter
          obtain rfl : s = store := hstore.symm
          obtain ⟨ctx, hconsumer, hlatch⟩ := hhead.consumer_eq skips world
          refine .bind_ok (arrive_tour skips .breadthFirst (by decide) kind hconsumer) rfl ?_
          cases hcut : skips sight.node sight.depth sight.index with
          | true =>
              have hdescend := descend_of_no_prune (tour skips .breadthFirst) rfl kind slot.node ctx
                ⟨s, world ++ [sight]⟩
              simp only [hlatch, hcut, Bool.true_eq_false, and_false, if_false] at hdescend
              refine .step hdescend rfl ?_
              simp only [List.map_nil, List.append_nil]
              exact ih _ htail (by omega)
          | false =>
              obtain ⟨slots, hdescend, hslots⟩ := descend_presented (tour skips .breadthFirst) rfl
                hhead hkind (hlatch.trans hcut) (world ++ [sight])
              refine .step hdescend rfl ?_
              refine ih _ (List.rel_append htail ?_) ?_
              · exact List.forall₂_map_left_iff.mpr hslots
              · rw [totalSize_append]
                omega

theorem run_follows (order : Order) (skips : Choice) {s : Store} {slots : List Slot}
    {nodes : List Tree}
    (h : List.Forall₂ (fun slot node => Presented s slot 0 (top node)) slots nodes) {fuel : Nat}
    (hsize : ∀ node ∈ nodes, node.size ≤ fuel) (world : List Sight) :
    Walk.Follows ((tour skips order).run order fuel slots) (nodes.forM (fromTop order skips))
      ⟨s, world⟩ fun _ _ after => after = s := by
  refine .forM h (fun slot node hnode hpresented ⟨store, world⟩ hstore => ?_) rfl
  obtain rfl : s = store := hstore.symm
  have hfuel : node.size ≤ fuel := hsize node hnode
  cases order with
  | preOrder => exact preOrder_follows skips s fuel world hpresented hfuel
  | postOrder => exact postOrder_follows skips s fuel world hpresented hfuel
  | breadthFirst =>
      have hqueue : totalSize [top node] ≤ fuel := by
        simpa [totalSize, top, Tree.sizes] using hfuel
      exact breadthFirst_follows skips s fuel world (.cons hpresented .nil) hqueue

end Sight

end ViewTree
