import ViewTree.Proofs.Transform.Entry
import ViewTree.Proofs.Transform.Scripted
import ViewTree.Proofs.Transform.Visiting

namespace ViewTree

open Store (Cell)

def Tour.below (tour : Tour σ) (fuel : Nat) (kind : Kind) (slot : Slot) (ctx : Context)
    (depth : Nat) : Walk σ Context := do
  let (children, ctx) ← tour.descend kind slot.node ctx
  children.forM fun child => tour.depthFirst fuel child (depth + 1)
  return ctx

theorem Tour.depthFirst_succ (tour : Tour σ) (fuel : Nat) (slot : Slot) (depth : Nat) :
    tour.depthFirst (fuel + 1) slot depth = (do
      let kind ← Walk.classify slot.node
      match ← tour.arrive kind slot (slot.context depth) with
      | none => return ()
      | some ctx =>
        let ctx ← tour.below fuel kind slot ctx depth
        tour.leave kind slot ctx) := by
  rw [Tour.depthFirst]
  refine congrArg (Walk.classify slot.node >>= ·) (funext fun kind => ?_)
  refine congrArg (tour.arrive kind slot (slot.context depth) >>= ·) (funext fun next => ?_)
  cases next with
  | none => rfl
  | some ctx => simp only [Tour.below, bind_assoc, pure_bind]

/-- A tour revises the nodes it visits, so long as their size is within a bound. -/
structure Tour.Revises (tour : Tour σ) (visit : View → Course σ Tree → Course σ Tree)
    (fuel : Nat) : Prop where
  follows : ∀ {s : Store} {slot : Slot} {type : Option String} {t : Tree} {cells : List Cell} (depth : Nat)
    (world : σ), s.Held slot type t cells → cells.Nodup → t.isArray = false → t.size ≤ fuel →
    Walk.Follows (tour.depthFirst fuel slot depth) (t.revise visit type depth slot.index) ⟨s, world⟩
      fun _ result after => s.Placed slot.place cells result after

variable {tour : Tour σ} {visit : View → Course σ Tree → Course σ Tree} {fuel : Nat}

mutual
theorem expand_follows (hvisit : tour.Revises visit fuel) {s : Store} {type : Option String}
    {t : Tree} {value : Value} {cells : List Cell} (h : s.Shows t value cells)
    (hnodup : cells.Nodup) {parent : Option ObjectRef} {index : Nat} {place : Place}
    (hheld : s.Held ⟨value, parent, index, place⟩ type t cells) (hsize : t.size ≤ fuel)
    (depth : Nat) (world : σ) :
    Walk.Follows ((s.expand ⟨value, parent, index, place⟩).forM fun child =>
        tour.depthFirst fuel child depth) (t.revise visit type depth index) ⟨s, world⟩
      fun _ result after => s.Placed place cells result after := by
  cases h with
  | atom a =>
      rw [Store.expand_of_ne_array (by simp)]
      exact (hvisit.follows depth world hheld hnodup rfl hsize).andThen fun _ _ _ h => .pure h
  | tuple items =>
      rw [Store.expand_of_ne_array (by simp)]
      exact (hvisit.follows depth world hheld hnodup rfl hsize).andThen fun _ _ _ h => .pure h
  | object has members =>
      rw [Store.expand_of_ne_array (by simp)]
      exact (hvisit.follows depth world hheld hnodup rfl hsize).andThen fun _ _ _ h => .pure h
  | @array trees ref rest has items =>
      obtain ⟨hself, hrest⟩ := List.nodup_cons.mp hnodup
      have hitems := flatMap_expand_follows hvisit ⟨has, List.drop_zero, items, hrest, hself⟩
        hheld.named (fun other hother hmem => hheld.above other hother (List.mem_cons_of_mem _ hmem))
        (by simp only [Tree.size] at hsize; omega) depth world
      rw [items.expand_eq has, Tree.revise]
      refine hitems.map fun _ results after hdone => ?_
      refine ⟨.array ref, ?_, (hdone.madeOf has).2⟩
      rw [Store.write_of_at? hheld.place]
      exact (hdone.madeOf has).1

theorem flatMap_expand_follows (hvisit : tour.Revises visit fuel) {s : Store}
    {type : Option String} {trees : List Tree} {ref : ArrayRef} {start : Nat}
    {values : List Value} {cells : List Cell} (h : s.Pending ref start trees values cells)
    {parent : Option ObjectRef} (hnamed : s.Named parent type)
    (habove : ∀ other, parent = some other → .object other ∉ cells)
    (hsize : Tree.sizes trees ≤ fuel) (depth : Nat) (world : σ) :
    Walk.Follows
      (((values.zipIdx start).flatMap fun (value, position) =>
        s.expand ⟨value, parent, position, .element ref position⟩).forM fun child =>
          tour.depthFirst fuel child depth)
      (Tree.reviseItems visit type depth trees start) ⟨s, world⟩
      fun _ results after => s.Done ref start cells results after := by
  have hshows := h.shows
  cases hshows with
  | nil => exact .pure h.done_nil
  | @cons tree trees value values headCells rest head tail =>
      simp only [Tree.sizes] at hsize
      have hheld : s.Held ⟨value, parent, start, .element ref start⟩ type tree headCells :=
        ⟨head, h.at?, fun hmem => h.apart (List.mem_append_left _ hmem), hnamed,
          fun other hother hmem => habove other hother (List.mem_append_left _ hmem)⟩
      have hhead := expand_follows hvisit head (List.nodup_append.mp h.nodup).1 hheld (by omega)
        depth world
      rw [List.zipIdx_cons, List.flatMap_cons, forM_append_eq, Tree.reviseItems]
      refine hhead.bind fun _ first ⟨middle, world⟩ hplaced => ?_
      have hchanges := hplaced.changesOnly
      have hmiddle : middle.Named parent type := hnamed.frame fun other hother =>
        hchanges.members (Store.Named.contains (hother ▸ hnamed)) fun hmem =>
          (List.mem_cons.mp hmem).elim (fun heq => by cases heq) (hheld.above other hother)
      -- the slots were listed before the first item was visited
      rw [← tail.expand_frame hchanges.grows (hchanges.agreesOn tail.contains h.rest_apart)]
      have htail := flatMap_expand_follows hvisit (h.next tail hplaced) hmiddle
        (fun other hother hmem => habove other hother (List.mem_append_right _ hmem)) (by omega)
        depth world
      exact htail.map fun _ others after hdone => .cons h tail hplaced hdone
end

theorem Tree.eq_object_of_classify {t : Tree} (h : t.classify = .ok .structured) :
    ∃ members name, t = .object members ∧ t.nodeType? = some name := by
  have hstructured := t.isStructured_iff_classify.mpr h
  obtain ⟨name, hname⟩ := Option.isSome_iff_exists.mp hstructured
  cases t with
  | object members => exact ⟨members, name, rfl, hname⟩
  | _ => cases hname

theorem Store.ShowsMembers.named {s : Store} {trees : List (String × Tree)} {ref : ObjectRef}
    {cells : List Cell} (h : s.ShowsMembers trees (s.members ref) cells) {name : String}
    (hname : (Tree.object trees).nodeType? = some name) : s.Named (some ref) (some name) := by
  rw [Tree.nodeType?, ← h.nodeType?] at hname
  obtain ⟨htype, -⟩ := Option.filter_eq_some_iff.mp hname
  obtain ⟨value, hlookup, htext⟩ := Option.bind_eq_some_iff.mp htype
  refine .some ?_
  rw [hlookup]
  cases value with
  | atom a =>
      cases a with
      | text text =>
          cases htext
          rfl
      | _ => cases htext
  | _ => cases htext

theorem childSlots_follows (hvisit : tour.Revises visit fuel) {s : Store} {slot : Slot}
    {type : Option String} {t : Tree} {cells : List Cell} (h : s.Held slot type t cells)
    (hnodup : cells.Nodup) (hkind : t.classify = .ok .structured) (hsize : t.size ≤ fuel + 1)
    {ctx : Context} (hparent : ctx.parent = slot.parent) {view : View}
    (hview : ctx.view s slot.node = view) (depth : Nat) (world : σ) :
    Walk.Follows (do
        (s.childSlots slot.node).forM fun child => tour.depthFirst fuel child (depth + 1)
        return ctx) (do
        return { view with node := ← t.reviseBelow visit depth }) ⟨s, world⟩
      fun next seen after => s.Rebuilt slot type cells next seen after := by
  obtain ⟨value, parent, index, place⟩ := slot
  obtain ⟨trees, name, rfl, hname⟩ := Tree.eq_object_of_classify hkind
  have hshows := h.shows
  cases hshows with
  | @object _ ref rest has members =>
      have hsame := h.rebuilt_same (.refl s) hparent
      have hnode : view.node = .object trees := by
        rw [← hview]
        exact h.shows.read_eq
      have hview' : { view with node := Tree.object trees } = view := by
        cases view
        cases hnode
        rfl
      have hstructured : (Tree.object trees).isStructured = true := by
        rw [Tree.isStructured, hname]
        rfl
      rw [members.childSlots, Tree.hasChildren, hstructured, Bool.true_and,
        Tree.reviseBelow_object]
      rcases members.lookup "children" with
        ⟨htree, hvalue⟩ | ⟨item, value, old, htree, hvalue, hold, hsub⟩
      · have hnull : ((Tree.object trees).member "children").isNull = true := by
          rw [Tree.member, htree]
          rfl
        simp only [hnull, htree, Bool.not_true, Bool.false_eq_true, if_false, pure_bind, hview']
        exact .pure (hview ▸ hsame)
      · have hitem : (Tree.object trees).member "children" = item := by
          rw [Tree.member, htree, Option.getD_some]
        have hmember : s.member ref "children" = value := by
          rw [Store.member, hvalue, Option.getD_some]
        rw [hitem, hmember]
        cases hnull : item.isNull with
        | true =>
            simp only [htree, hnull, Bool.not_true, Bool.false_eq_true, if_false, if_true,
              pure_bind, hview']
            exact .pure (hview ▸ hsame)
        | false =>
            obtain ⟨hself, hrest⟩ := List.nodup_cons.mp hnodup
            have hheld : s.Held ⟨value, some ref, 0, .member ref "children"⟩ (some name) item old :=
              { shows := hold
                place := hvalue
                apart := fun hmem => hself (hsub.subset hmem)
                named := members.named hname
                above := by
                  rintro other hother hmem
                  cases hother
                  exact hself (hsub.subset hmem) }
            have hitemSize : item.size ≤ fuel := by
              have := Tree.size_le_memberSizes htree
              simp only [Tree.size] at hsize
              omega
            have hchild := expand_follows hvisit hold (hsub.nodup hrest) hheld hitemSize (depth + 1)
              world
            simp only [htree, hnull, hname, Bool.not_false, Bool.false_eq_true, if_false, if_true,
              bind_assoc, pure_bind]
            refine hchild.bind fun _ result after hplaced => .pure ?_
            obtain ⟨parts, hrebuilt, hparts, hchanges⟩ :=
              hplaced.object has members hnodup htree hvalue hold
            have hlater := h.later hchanges hrebuilt hparts
            refine ⟨_, parts, hlater, hparts, hchanges, hparent, ?_⟩
            rw [← hview, Context.view_eq hlater.shows (hparent ▸ hlater.named),
              Context.view_eq h.shows (hparent ▸ h.named)]

theorem below_follows (hvisit : tour.Revises visit fuel) (onlookers : List (Onlooker σ))
    (caution : Caution σ) (hprune : tour.prune = caution.prune.test) {s : Store} {slot : Slot}
    {type : Option String} {t : Tree} {cells : List Cell} (h : s.Held slot type t cells)
    (hnodup : cells.Nodup) {kind : Kind} (hkind : t.classify = .ok kind)
    (hsize : t.size ≤ fuel + 1) {ctx : Context} (hparent : ctx.parent = slot.parent) {view : View}
    (hview : ctx.view s slot.node = view) (depth : Nat) (world : σ) :
    Walk.Follows (tour.below fuel kind slot ctx depth)
      ((Team.of onlookers caution).descend kind view (t.reviseBelow visit depth)) ⟨s, world⟩
      fun next seen after => s.Rebuilt slot type cells next seen after := by
  have hlatch : view.skipping = ctx.skipping := by
    rw [← hview]
    rfl
  rw [Tour.below, Tour.descend, Team.descend, hlatch]
  split
  · next hopen =>
      have hasked := caution.reads s world t slot.node cells ctx h.shows
      rw [hview] at hasked
      rw [hprune, bind_assoc]
      refine hasked.bind ?_
      rintro ⟨cut, next⟩ ⟨said, seen⟩ ⟨middle, world⟩ ⟨hextends, hsame, hseen, hcut⟩
      simp only at hextends hsame hseen hcut ⊢
      subst hcut
      have hnext := hsame.trans hparent
      have hafter := (Context.view_extends h.shows (hnext ▸ h.named) hextends).trans hseen
      have hlater : seen.skipping = next.skipping := by
        rw [← hseen]
        rfl
      rw [← hlater]
      split
      · refine .of_ok rfl rfl ?_
        have hskipped : next.skipChildren.parent = slot.parent := hnext
        exact hseen ▸ h.rebuilt_same hextends hskipped
      · have hkind' : t.classify = .ok .structured := hopen.1 ▸ hkind
        have hchildren := childSlots_follows hvisit (h.extends hextends) hnodup hkind' hsize hnext
          hafter depth world
        exact .step rfl rfl (hchildren.mono fun _ _ _ hrebuilt => hrebuilt.earlier hextends)
  · exact .of_ok rfl rfl (hview ▸ h.rebuilt_same (.refl s) hparent)

theorem preOrder_revises (onlookers : List (Onlooker σ)) (caution : Caution σ) (fuel : Nat) :
    (Transform.tour (onlookers.map Onlooker.visitor) caution.prune .preOrder).Revises
      (Team.of onlookers caution).preOrder fuel := by
  induction fuel with
  | zero =>
      refine ⟨fun {s slot type t cells} depth world _ _ _ hsize => ?_⟩
      have := t.size_pos
      omega
  | succ fuel ih =>
      refine ⟨fun {s slot type t cells} depth world h hnodup harray hsize => ?_⟩
      have hview : (slot.context depth).view s slot.node = t.atFirst type depth slot.index :=
        Context.view_eq h.shows h.named
      rw [Tour.depthFirst_succ, Tree.revise_eq_visit _ _ _ _ harray]
      refine (Walk.classify_follows h.shows).bind fun kind _ ⟨store, world⟩ hafter => ?_
      obtain ⟨rfl, hstore, hkind⟩ := hafter
      obtain rfl : s = store := hstore.symm
      refine (enterNode_follows onlookers caution h rfl hview world).bind ?_
      rintro given ⟨said, seen⟩ ⟨middle, world⟩ hentered
      rcases hentered with ⟨result, rfl, rfl, hplaced⟩ | ⟨next, rfl, rfl, hextends, hnext, hseen⟩
      · exact .pure hplaced
      · have hbelow := below_follows ih onlookers caution rfl (h.extends hextends) hnodup hkind hsize
          hnext hseen depth world
        refine hbelow.bind fun last view after hrebuilt => ?_
        obtain ⟨result, parts, hheld, hparts, hchanges, hparent, hlast⟩ :=
          hrebuilt.earlier hextends
        have hleave := leaveNode_follows onlookers caution hheld hparent hlast after.world
        exact hleave.mono fun _ _ _ hplaced => hplaced.earlier h hchanges hparts

theorem postOrder_revises (onlookers : List (Onlooker σ)) (caution : Caution σ) (fuel : Nat) :
    (Transform.tour (onlookers.map Onlooker.visitor) caution.prune .postOrder).Revises
      (Team.of onlookers caution).postOrder fuel := by
  induction fuel with
  | zero =>
      refine ⟨fun {s slot type t cells} depth world _ _ _ hsize => ?_⟩
      have := t.size_pos
      omega
  | succ fuel ih =>
      refine ⟨fun {s slot type t cells} depth world h hnodup harray hsize => ?_⟩
      have hview : (slot.context depth).view s slot.node = t.atFirst type depth slot.index :=
        Context.view_eq h.shows h.named
      rw [Tour.depthFirst_succ, Tree.revise_eq_visit _ _ _ _ harray]
      refine (Walk.classify_follows h.shows).bind fun kind _ ⟨store, world⟩ hafter => ?_
      obtain ⟨rfl, hstore, hkind⟩ := hafter
      obtain rfl : s = store := hstore.symm
      have hbelow := below_follows ih onlookers caution rfl h hnodup hkind hsize rfl hview depth world
      refine .step rfl rfl (hbelow.bind fun last view ⟨middle, world⟩ hrebuilt => ?_)
      obtain ⟨rebuilt, parts, hheld, hparts, hchanges, hparent, hlast⟩ := hrebuilt
      refine (enterNode_follows onlookers caution hheld hparent hlast world).bind ?_
      rintro given ⟨said, seen⟩ ⟨after, world⟩ hentered
      rcases hentered with ⟨result, rfl, rfl, hplaced⟩ | ⟨next, rfl, rfl, hextends, hnext, hseen⟩
      · exact .pure (hplaced.earlier h hchanges hparts)
      · have hleave := leaveNode_follows onlookers caution (hheld.extends hextends) hnext hseen world
        refine hleave.mono fun _ result last hplaced => ?_
        exact (hplaced.earlier hheld (hextends.changesOnly parts) fun _ => Or.inl).earlier h hchanges
          hparts

section Top

variable (onlookers : List (Onlooker σ)) (caution : Caution σ)

theorem primitive_follows (a : Atom) (s : Store) (world : σ) :
    Walk.Follows (Transform.primitive (onlookers.map Onlooker.visitor) (.atom a))
      ((Team.of onlookers caution).visit ((Tree.atom a).atFirst none 0 0)) ⟨s, world⟩
      fun value result after => s.ChangesOnly [] after ∧ s.MadeOf [] after value result := by
  have hshows : s.Shows (.atom a) (.atom a) [] := .atom a
  have halone : s.Named Context.alone.parent none := .none
  have hview : Context.alone.view s (.atom a) = (Tree.atom a).atFirst none 0 0 :=
    Context.view_eq hshows halone
  have henter := runPhase_follows .enter onlookers hshows halone world
  rw [hview] at henter
  refine henter.bind ?_
  rintro ⟨value, next⟩ ⟨result, seen⟩ ⟨middle, world⟩ ⟨hextends, hsame, hseen, hmade⟩
  simp only at hextends hsame hseen hmade ⊢
  cases hmade with
  | some hmade => exact .pure ⟨hextends.changesOnly [], hmade⟩
  | none =>
      have hnext : s.Named next.parent none := hsame ▸ halone
      have hexit := runPhase_follows .exit onlookers (hextends.shows hshows)
        (hnext.extends hextends) world
      rw [Context.view_extends hshows hnext hextends, hseen] at hexit
      have hnode : seen.node = .atom a := by
        rw [← hseen]
        exact hshows.read_eq
      refine hexit.bind ?_
      rintro ⟨value, last⟩ ⟨result, view⟩ ⟨after, world⟩ ⟨hlater, -, -, hmade⟩
      simp only at hlater hmade ⊢
      have hchanges := (hextends.trans hlater).changesOnly []
      cases hmade with
      | some hmade => exact .pure ⟨hchanges, hmade.earlier hextends.grows⟩
      | none => exact .pure ⟨hchanges, [], hnode ▸ .atom a, by simp⟩

theorem boxed_revises {order : Order}
    (hvisit : (Transform.tour (onlookers.map Onlooker.visitor) caution.prune order).Revises
      visit fuel) (horder : order ≠ .breadthFirst) {s : Store} {t : Tree} {value : Value}
    {cells : List Cell} (h : s.Shows t value cells) (hnodup : cells.Nodup)
    (harray : t.isArray = false) (hsize : t.size ≤ fuel) (world : σ) :
    Walk.Follows (do
        let box ← Walk.box value
        Transform.run fuel order (onlookers.map Onlooker.visitor) caution.prune box
        Walk.unbox box) (t.reviseTop visit) ⟨s, world⟩
      fun value result after => s.ChangesOnly cells after ∧ s.MadeOf cells after value result := by
  have hextends := Store.newArray_extends [value] s
  have hitems := Store.items_newArray_self [value] s
  have hbox : ¬ s.Contains (.array ⟨s.arrays.size⟩) := Nat.lt_irrefl _
  have hheld := Store.held_box h
  have hone := hvisit.follows 0 world hheld hnodup harray hsize
  have hrun : Walk.Follows
      (Transform.run fuel order (onlookers.map Onlooker.visitor) caution.prune ⟨s.arrays.size⟩)
      (t.revise visit none 0 0) ⟨(Store.newArray [value] s).2, world⟩
      fun _ result after =>
        (Store.newArray [value] s).2.Placed (.element ⟨s.arrays.size⟩ 0) cells result after := by
    refine .step rfl rfl ?_
    rw [Store.rootSlots_box (h.ne_array harray)]
    cases order with
    | breadthFirst => exact absurd rfl horder
    | _ => exact hone.andThen fun _ _ _ hplaced => .pure hplaced
  rw [Tree.reviseTop_eq_revise visit harray]
  refine .step rfl rfl (hrun.andThen fun _ result after hplaced => .of_ok rfl rfl ?_)
  obtain ⟨next, hnext, hmade⟩ := hplaced.items (Store.newArray_contains [value] s) hheld.apart
  rw [hnext, hitems]
  refine ⟨hplaced.changesOnly.earlier hextends fun cell hcell => ?_, hmade.earlier hextends.grows⟩
  exact (List.mem_cons.mp hcell).elim (fun heq => .inr (heq ▸ hbox)) Or.inl

mutual
theorem root_revises {order : Order} (horder : order ≠ .breadthFirst)
    (hvisit : ∀ fuel,
      (Transform.tour (onlookers.map Onlooker.visitor) caution.prune order).Revises visit fuel)
    (hprimitive : ∀ a : Atom, a.isPrimitive = true →
      (Tree.atom a).reviseTop visit =
        (Team.of onlookers caution).visit ((Tree.atom a).atFirst none 0 0))
    {s : Store} {t : Tree} {value : Value} {cells : List Cell} (h : s.Shows t value cells)
    (hnodup : cells.Nodup) {fuel : Nat} (hfuel : t.size < fuel) (world : σ) :
    Walk.Follows
      (Transform.root order (onlookers.map Onlooker.visitor) caution.prune fuel value)
      (t.reviseTop visit) ⟨s, world⟩
      fun value result after => s.ChangesOnly cells after ∧ s.MadeOf cells after value result := by
  obtain ⟨fuel, rfl⟩ : ∃ fewer, fuel = fewer + 1 := ⟨fuel - 1, by omega⟩
  have hsize : t.size ≤ fuel := Nat.le_of_lt_succ hfuel
  cases h with
  | atom a =>
      rw [Transform.root]
      split
      · next hatom =>
          rw [hprimitive a hatom]
          exact primitive_follows onlookers caution a s world
      · exact boxed_revises onlookers caution (hvisit fuel) horder (.atom a) hnodup rfl hsize world
  | tuple items =>
      exact boxed_revises onlookers caution (hvisit fuel) horder (.tuple items) hnodup rfl hsize world
  | object has members =>
      exact boxed_revises onlookers caution (hvisit fuel) horder (.object has members) hnodup rfl hsize
        world
  | @array trees ref rest has items =>
      obtain ⟨hself, hrest⟩ := List.nodup_cons.mp hnodup
      have hsizes : Tree.sizes trees < fuel := by simp only [Tree.size] at hsize; omega
      have hitems := rootItems_revises horder hvisit hprimitive
        ⟨has, List.drop_zero, items, hrest, hself⟩ hsizes world
      rw [Transform.root, Tree.reviseTop]
      refine .step rfl rfl (hitems.bind fun _ results after hdone => .pure ?_)
      exact hdone.madeOf has

theorem rootItems_revises {order : Order} (horder : order ≠ .breadthFirst)
    (hvisit : ∀ fuel,
      (Transform.tour (onlookers.map Onlooker.visitor) caution.prune order).Revises visit fuel)
    (hprimitive : ∀ a : Atom, a.isPrimitive = true →
      (Tree.atom a).reviseTop visit =
        (Team.of onlookers caution).visit ((Tree.atom a).atFirst none 0 0))
    {s : Store} {trees : List Tree} {ref : ArrayRef} {start : Nat} {values : List Value}
    {cells : List Cell} (h : s.Pending ref start trees values cells) {fuel : Nat}
    (hfuel : Tree.sizes trees < fuel) (world : σ) :
    Walk.Follows ((values.zipIdx start).forM fun (item, position) => do
        let result ←
          Transform.root order (onlookers.map Onlooker.visitor) caution.prune fuel item
        Walk.write (.element ref position) result)
      (Tree.reviseTops visit trees) ⟨s, world⟩
      fun _ results after => s.Done ref start cells results after := by
  have hshows := h.shows
  cases hshows with
  | nil => exact .pure h.done_nil
  | @cons tree trees value values headCells rest head tail =>
      simp only [Tree.sizes] at hfuel
      have hsize : tree.size < fuel := by omega
      have hhead := root_revises horder hvisit hprimitive head (List.nodup_append.mp h.nodup).1 hsize
        world
      have hheld : s.Held ⟨value, none, start, .element ref start⟩ none tree headCells :=
        ⟨head, h.at?, fun hmem => h.apart (List.mem_append_left _ hmem), .none, by simp⟩
      have hwritten : Walk.Follows (do
            let result ←
              Transform.root order (onlookers.map Onlooker.visitor) caution.prune fuel value
            Walk.write (.element ref start) result) (tree.reviseTop visit) ⟨s, world⟩
          fun _ first middle => s.Placed (.element ref start) headCells first middle := by
        refine hhead.andThen fun result first ⟨middle, world⟩ ⟨hchanges, hmade⟩ => ?_
        have hat := (hchanges.at? (Store.contains_of_at? hheld.place) hheld.apart).trans hheld.place
        exact .of_ok (Store.write_apply (Store.has_of_at? hat) world) rfl
          (hheld.placed_write hchanges hmade)
      rw [List.zipIdx_cons, Tree.reviseTops]
      refine hwritten.bind fun _ first ⟨middle, world⟩ hplaced => ?_
      have hsizes : Tree.sizes trees < fuel := by omega
      have htail := rootItems_revises horder hvisit hprimitive (h.next tail hplaced) hsizes world
      exact htail.map fun _ others after hdone => Store.Done.cons h tail hplaced hdone
end

theorem transform_revises {order : Order} (horder : order ≠ .breadthFirst)
    (hvisit : ∀ fuel,
      (Transform.tour (onlookers.map Onlooker.visitor) caution.prune order).Revises visit fuel)
    (hprimitive : ∀ a : Atom, a.isPrimitive = true →
      (Tree.atom a).reviseTop visit =
        (Team.of onlookers caution).visit ((Tree.atom a).atFirst none 0 0))
    (hteam : onlookers ≠ []) (clone : Tree) {t : Tree} {fuel : Nat} (hfuel : t.size < fuel)
    (world : σ) :
    t.transform fuel (onlookers.map Onlooker.visitor)
      { order := order.setting, clone := clone, prune := caution.prune } world =
        t.revised visit world := by
  obtain ⟨-, cells, hshows, hfresh⟩ := Store.load_shows t {}
  obtain ⟨value, after, copied, hcopy, -, hcopied, hnodup⟩ := Walk.copy_shows hshows clone world
  have hroot := root_revises onlookers caution horder hvisit hprimitive hcopied
    (hnodup hfresh.nodup) hfuel world
  have hnonempty : onlookers.map Onlooker.visitor ≠ [] := by
    simpa using hteam
  have hwhole : Walk.Follows
      (transform fuel (onlookers.map Onlooker.visitor)
        { order := order.setting, clone := clone, prune := caution.prune } (Store.load t {}).1)
      (t.reviseTop visit) ⟨(Store.load t {}).2, world⟩
      fun value result after => ∃ parts, after.Shows result value parts := by
    rw [transform_eq]
    refine .step rfl rfl (.step hcopy rfl ?_)
    rw [Transform.engage_eq_root hnonempty]
    refine hroot.mono fun value result last hlast => ?_
    obtain ⟨-, parts, hparts, -⟩ := hlast
    exact ⟨parts, hparts⟩
  unfold Walk.Follows at hwhole
  unfold Tree.transform Tree.revised
  split at hwhole
  · next hwalk hcourse =>
      obtain ⟨rfl, parts, hparts⟩ := hwhole
      simp only [hwalk, hcourse, hparts.read_eq]
  · next hwalk hcourse =>
      obtain ⟨rfl, rfl⟩ := hwhole
      simp only [hwalk, hcourse]
  · exact hwhole.elim

end Top

namespace Team

variable (team : Team σ)

theorem descend_primitive (view : View) (below : Course σ Tree) :
    team.descend .primitive view below = pure view := rfl

theorem classify_of_isPrimitive {a : Atom} (h : a.isPrimitive = true) :
    (Course.classify (.atom a) : Course σ Kind) = pure .primitive := by
  simp only [Course.classify, Tree.classify, Atom.classify, h, if_true]

theorem preOrder_of_isPrimitive {a : Atom} (h : a.isPrimitive = true) :
    (Tree.atom a).reviseTop team.preOrder = team.visit ((Tree.atom a).atFirst none 0 0) := by
  have hkind := classify_of_isPrimitive (σ := σ) h
  rw [Tree.reviseTop_eq_revise _ rfl, Tree.revise_eq_visit _ _ _ _ rfl]
  simp only [preOrder, Tree.atFirst, hkind, pure_bind, descend_primitive]
  refine congrArg (team.enter _ >>= ·) (funext fun said => ?_)
  obtain ⟨_ | replacement, view⟩ := said
  · rfl
  · rfl

theorem postOrder_of_isPrimitive {a : Atom} (h : a.isPrimitive = true) :
    (Tree.atom a).reviseTop team.postOrder = team.visit ((Tree.atom a).atFirst none 0 0) := by
  have hkind := classify_of_isPrimitive (σ := σ) h
  rw [Tree.reviseTop_eq_revise _ rfl, Tree.revise_eq_visit _ _ _ _ rfl]
  simp only [postOrder, Tree.atFirst, hkind, pure_bind, descend_primitive]

end Team

/-- Whatever those who only look reply, a depth-first transform gives the revision of the tree or
fails as the revision fails. -/
theorem Tree.transform_eq_revised (onlookers : List (Onlooker σ)) (hteam : onlookers ≠ [])
    (caution : Caution σ) (clone : Tree) (t : Tree) {fuel : Nat} (hfuel : t.size < fuel)
    (world : σ) :
    t.transform fuel (onlookers.map Onlooker.visitor)
        { order := Order.preOrder.setting, clone := clone, prune := caution.prune } world =
      t.revised (Team.of onlookers caution).preOrder world ∧
    t.transform fuel (onlookers.map Onlooker.visitor)
        { order := Order.postOrder.setting, clone := clone, prune := caution.prune } world =
      t.revised (Team.of onlookers caution).postOrder world := by
  constructor
  · exact transform_revises onlookers caution (by decide) (preOrder_revises onlookers caution)
      (fun _ => (Team.of onlookers caution).preOrder_of_isPrimitive) hteam clone hfuel world
  · exact transform_revises onlookers caution (by decide) (postOrder_revises onlookers caution)
      (fun _ => (Team.of onlookers caution).postOrder_of_isPrimitive) hteam clone hfuel world

def marker : Onlooker Nat :=
  .scripted
    (.look fun view _ => .act (.observe fun _ calls => calls + 1)
      (.done (if view.node.text?.isSome then .affix "<" ">" else .nothing)))
    (.look fun _ _ => .act rfl (.done _))
    (.look fun view _ =>
      .done (if view.node.nodeType? == some "b" then .wrap (.text "frame") else .noChange))
    (.look fun _ _ => .done _)

def page : Tree :=
  .object [("type", .text "a"), ("children", .array [.text "x",
    .array [.object [("type", .text "b"), ("children", .text "y")]]])]

theorem Tree.transform_eq_revised_marker :
    [marker] ≠ [] ∧ page.size < 20 ∧
      page.transform 20 [marker.visitor] { prune := (Caution.setting .null).prune } 0 =
        page.revised (Team.of [marker] (.setting .null)).preOrder 0 ∧
      page.revised (Team.of [marker] (.setting .null)).preOrder 0 =
        (.ok (.object [("type", .text "a"), ("children", .array [.text "<x>",
          .array [.object [("type", .text "frame"), ("children",
            .object [("type", .text "b"), ("children", .text "<y>")])]]])]), 4) := by
  have hteam : [marker] ≠ [] := by simp
  have hsize : page.size < 20 := by decide
  exact ⟨hteam, hsize,
    (Tree.transform_eq_revised [marker] hteam (.setting .null) (.bool true) page hsize 0).1, rfl⟩

end ViewTree
