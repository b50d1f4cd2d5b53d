import ViewTree.Proofs.Store.Closure
import ViewTree.Proofs.Visitor.Discretion
import ViewTree.Proofs.Visitor.Tracing
import ViewTree.Proofs.Walk.Abiding

namespace ViewTree

open Store (Cell)
open Walk (Keeps Upholds)

/-- A trace of a root being replaced. -/
def RootReplaced (trace : List Event) : Prop :=
  ∃ visitor phase, Event.replaced visitor phase 0 ∈ trace

theorem RootReplaced.append {trace : List Event} (h : RootReplaced trace) (more : List Event) :
    RootReplaced (trace ++ more) := by
  obtain ⟨visitor, phase, hmem⟩ := h
  exact ⟨visitor, phase, List.mem_append_left _ hmem⟩

/-- Nothing refers to the box, and it holds the root as long as nobody has replaced it. -/
structure Held (box : ArrayRef) (root : Value) (session : Session (Traced σ)) : Prop where
  guards : session.store.Guards (· = .array box)
  holds : session.store.items box = [root] ∨ RootReplaced session.world.1

/-- A slot that lies in the box only if it is at the top. -/
structure Slot.HangsAt (box : ArrayRef) (slot : Slot) (depth : Nat) : Prop where
  node : slot.node.Avoids (· = .array box)
  parent : ∀ ref ∈ slot.parent, ¬ Cell.object ref = .array box
  top : slot.place.cell = .array box → depth = 0

variable {box : ArrayRef} {root : Value}

theorem Walk.trace_ends (event : Event) {session : Session (Traced σ)}
    (h : Held box root session) :
    (Walk.trace event).Ends session
      (fun _ after => Held box root after ∧ event ∈ after.world.1) fun _ => Held box root := by
  refine ⟨⟨h.guards, h.holds.imp_right fun hreplaced => hreplaced.append [event]⟩, ?_⟩
  exact List.mem_append_right _ List.mem_cons_self

theorem Walk.traceIf_ends (condition : Bool) (event : Event) {session : Session (Traced σ)}
    (h : Held box root session) :
    (Walk.traceIf condition event).Ends session
      (fun _ after => Held box root after ∧ (condition = true → event ∈ after.world.1))
      fun _ => Held box root := by
  cases condition with
  | false => exact ⟨h, by simp⟩
  | true =>
      apply (trace_ends event h).mono
      intro _ after hafter
      exact ⟨hafter.1, fun _ => hafter.2⟩

theorem Walk.zoom_keeps_held {walk : Walk σ α} {post : α → Prop}
    (h : ∀ before, Keeps (Sparing (· = .array box) before) walk post) :
    Keeps (Held box root) (Walk.zoom Lens.snd walk : Walk (Traced σ) α) post := by
  rintro ⟨s, trace, world⟩ hsession
  have hheld : ∀ after : Session σ, Sparing (· = .array box) s after →
      Held box root (⟨after.store, trace, after.world⟩ : Session (Traced σ)) := by
    intro after hspares
    refine ⟨hspares.guards, ?_⟩
    rw [hspares.agrees.items box rfl]
    exact hsession.holds
  apply Walk.Ends.zoom
  apply (h s ⟨s, world⟩ hsession.guards.spares).imp
  · rintro value after ⟨hafter, hpost⟩
    exact ⟨hheld after hafter, hpost⟩
  · intro failure after hafter
    exact hheld after hafter

theorem write_held {place : Place} {value : Value} (hvalue : value.Avoids (· = .array box))
    {session : Session (Traced σ)} (h : Held box root session)
    (htop : place.cell = .array box → RootReplaced session.world.1) :
    (Walk.write place value).Ends session (fun _ => Held box root) fun _ => Held box root := by
  obtain ⟨s, trace, world⟩ := session
  refine .write (fun _ => ⟨h.guards.write_guards place hvalue, ?_⟩) fun _ => h
  by_cases hbox : place.cell = .array box
  · exact .inr (htop hbox)
  · have hspares := h.guards.write hbox hvalue
    rw [hspares.agrees.items box rfl]
    exact h.holds

theorem Hook.traced_abides {hook : Hook σ}
    (h : Discreet (· = .array box) hook (Reply.Avoids (· = .array box))) (visitor : Nat)
    (phase : Phase) {node : Value} (hnode : node.Avoids (· = .array box))
    {parent : Option ObjectRef} (hparent : ∀ ref ∈ parent, ¬ Cell.object ref = .array box)
    (depth : Nat) :
    (hook.traced visitor phase).Abides (Held box root) (fun _ => Held box root)
      (·.IsAt parent depth)
      (fun value after => value.Avoids (· = .array box) ∧ (depth = 0 → RootReplaced after.world.1))
      node := by
  intro ctx session hctx hsession
  have hasked : ∀ before, Keeps (Sparing (· = .array box) before) (hook node ctx) _ :=
    fun before => h before hnode (hctx.parent ▸ hparent)
  unfold Hook.traced
  apply (Upholds.store session hsession).bind
  rintro s after ⟨hsession, -⟩
  apply (Walk.trace_ends _ hsession).bind
  rintro _ after ⟨hsession, -⟩
  apply (Walk.zoom_keeps_held hasked after hsession).bind
  rintro ⟨reply, next⟩ after ⟨hsession, havoids, hsame, hlevel⟩
  apply (Walk.traceIf_ends _ _ hsession).bind
  rintro _ after ⟨hsession, hmem⟩
  refine ⟨hsession, ⟨hsame.trans hctx.parent, hlevel.trans hctx.depth⟩, fun value hvalue => ?_⟩
  refine ⟨havoids.settle value hvalue, fun hroot => ?_⟩
  have hreplaces : reply.replaces = true := by
    rw [Reply.replaces, Option.mem_def.mp hvalue]
    rfl
  rw [hctx.depth, hroot] at hmem
  exact ⟨visitor, phase, hmem hreplaces⟩

section

variable {visitors : List (Visitor σ)}
  (hvisitors : ∀ visitor ∈ visitors, visitor.Discreet (· = .array box))

include hvisitors

theorem settles_held : Transform.Settles (traceAll visitors) (Held box root)
    (fun _ => Held box root)
    fun slot depth ctx => slot.HangsAt box depth ∧ ctx.IsAt slot.parent depth := by
  rintro phase slot depth ctx session ⟨hslot, hctx⟩ hsession
  have hhooks : ∀ visitor ∈ traceAll visitors, ∀ hook ∈ visitor.hook? phase,
      hook.Abides (Held box root) (fun _ => Held box root) (·.IsAt slot.parent depth)
        (fun value after => value.Avoids (· = .array box) ∧
          (depth = 0 → RootReplaced after.world.1)) slot.node := by
    intro visitor hvisitor hook hhook
    obtain ⟨number, hnumber, rfl⟩ := List.mem_mapIdx.mp hvisitor
    rw [Visitor.hook?_traced] at hhook
    obtain ⟨own, hown, rfl⟩ := Option.map_eq_some_iff.mp hhook
    exact Hook.traced_abides (hvisitors _ (List.getElem_mem hnumber) phase own hown) number phase
      hslot.node hslot.parent depth
  apply (runPhase_abides hhooks ctx session hctx hsession).mono
  rintro given after ⟨hafter, hnext, hvalue⟩
  refine ⟨hafter, ⟨hslot, hnext⟩, fun value hmem => ?_⟩
  obtain ⟨havoids, hroot⟩ := hvalue value hmem
  exact write_held havoids hafter fun hbox => hroot (hslot.top hbox)

variable {prune : Prune σ} (hprune : prune.Discreet (· = .array box))

include hprune

theorem tour_held (order : Order) :
    (Transform.tour (traceAll visitors) prune.traced order).Abides (Held box root)
      (fun _ => Held box root) fun slot depth =>
        slot.HangsAt box depth ∧ (slot.context depth).IsAt slot.parent depth := by
  apply (settles_held hvisitors).tour_abides
  · rintro slot depth ctx ⟨hslot, hctx⟩
    have htrace : ∀ s : Store, Keeps (Held box root) (Walk.traceIf (!prune.isNull)
        (.asked (ctx.view s slot.node)) : Walk (Traced σ) Unit) fun _ => True := by
      intro s session hsession
      apply (Walk.traceIf_ends _ _ hsession).mono
      intro _ after hafter
      exact ⟨hafter.1, trivial⟩
    apply Upholds.store.bind
    intro s _
    apply (htrace s).bind
    intro _ _
    have hasked := fun before => hprune before hslot.node (hctx.parent ▸ hslot.parent)
    apply (Walk.zoom_keeps_held hasked).mono
    rintro asked ⟨-, hsame, hlevel⟩
    exact ⟨hslot, hsame.trans hctx.parent, hlevel.trans hctx.depth⟩
  · rintro slot depth ctx ⟨hslot, hctx⟩
    exact ⟨hslot, hctx.parent, hctx.depth⟩
  · rintro session slot depth ctx hsession ⟨hslot, -⟩ child hchild
    have havoids := Store.childSlots_avoids hsession.guards hslot.node child hchild
    exact ⟨⟨havoids.node, havoids.parent, fun hbox => absurd hbox havoids.place⟩,
      child.isAt_context (depth + 1)⟩
  · exact fun _ _ => id

end

/-- A root comes back as it is, unless it is a primitive or, not being an array, was replaced. -/
def Returned (root : Value) (trace : List Event) (result : Value) : Prop :=
  result = root ∨ (∃ a : Atom, root = .atom a ∧ a.isPrimitive = true) ∨
    (∀ ref, root ≠ .array ref) ∧ RootReplaced trace

theorem boxed_ends {visitors : List (Visitor σ)}
    (hvisitors : ∀ visitor ∈ visitors, ∀ guarded, visitor.Discreet guarded) {prune : Prune σ}
    (hprune : ∀ guarded, prune.Discreet guarded) (order : Order) (fuel : Nat) {s : Store}
    (hclosed : s.Closed) {node : Value} (hnode : node.IsIn s) (harray : ∀ ref, node ≠ .array ref)
    (world : Traced σ) :
    (Transform.boxedBy (fun fuel => Transform.run fuel order (traceAll visitors) prune.traced) fuel
      node).Ends ⟨s, world⟩ (fun result after => Returned node after.world.1 result)
      fun _ _ => True := by
  let box : ArrayRef := ⟨s.arrays.size⟩
  have hheld : Held box node (⟨(Store.newArray [node] s).2, world⟩ : Session (Traced σ)) :=
    ⟨hclosed.guards_newArray [node], .inl (Store.items_newArray_self [node] s)⟩
  have hslot : (⟨node, none, 0, .element box 0⟩ : Slot).HangsAt box 0 := by
    refine ⟨hnode.avoids (Nat.lt_irrefl _), ?_, fun _ => rfl⟩
    rintro _ ⟨⟩
  have hexpand : (Store.newArray [node] s).2.expand ⟨node, none, 0, .element box 0⟩ =
      [⟨node, none, 0, .element box 0⟩] := Store.expand_of_ne_array harray
  have hroots : ∀ slot ∈ (Store.newArray [node] s).2.rootSlots box,
      slot.HangsAt box 0 ∧ (slot.context 0).IsAt slot.parent 0 := by
    simp only [Store.rootSlots, Store.items_newArray_self, List.headD_cons, box, hexpand,
      List.map_singleton, List.mem_singleton]
    rintro slot rfl
    exact ⟨hslot, Slot.isAt_context _ 0⟩
  have htour : (Transform.tour (traceAll visitors) prune.traced order).Abides (Held box node)
      (fun _ => Held box node) _ :=
    tour_held (fun visitor hvisitor => hvisitors visitor hvisitor _) (hprune (· = .array box)) order
  have hrun := htour.run (fun _ => id) order fuel hroots _ hheld
  have hrest : Walk.Ends (do
      Transform.run fuel order (traceAll visitors) prune.traced box
      Walk.unbox box) (⟨(Store.newArray [node] s).2, world⟩ : Session (Traced σ))
      (fun result after => Returned node after.world.1 result) (fun _ _ => True) := by
    apply hrun.forget.bind
    rintro _ after ⟨hafter, -⟩
    rcases hafter.holds with hitems | hreplaced
    · left
      rw [hitems]
      rfl
    · exact .inr (.inr ⟨harray, hreplaced⟩)
  exact hrest

theorem root_ends {visitors : List (Visitor σ)}
    (hvisitors : ∀ visitor ∈ visitors, ∀ guarded, visitor.Discreet guarded) {prune : Prune σ}
    (hprune : ∀ guarded, prune.Discreet guarded) (order : Order) (fuel : Nat) {s : Store}
    (hclosed : s.Closed) {node : Value} (hnode : node.IsIn s) (world : Traced σ) :
    (Transform.root order (traceAll visitors) prune.traced fuel node).Ends ⟨s, world⟩
      (fun result after => Returned node after.world.1 result) fun _ _ => True := by
  rw [Transform.root_eq_rootBy]
  refine Transform.rootBy_induct (motive := fun node walk => node.IsIn s → walk.Ends ⟨s, world⟩
    (fun result after => Returned node after.world.1 result) fun _ _ => True) ?_ ?_ ?_ ?_ fuel node
    hnode
  · exact fun _ _ => trivial
  · intro ref item _ _
    apply (Walk.Ends.anyhow _ _).bind
    intro s _ _
    apply (Walk.Ends.anyhow _ _).bind
    intro _ _ _
    exact .inl rfl
  · intro a hprimitive _
    apply (Walk.Ends.anyhow _ _).mono
    intro result after _
    exact .inr (.inl ⟨a, rfl, hprimitive⟩)
  · intro fuel node harray hnode
    exact boxed_ends hvisitors hprune order fuel hclosed hnode harray world

end ViewTree
