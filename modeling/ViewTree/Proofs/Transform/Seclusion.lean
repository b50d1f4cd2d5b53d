import ViewTree.Proofs.Visitor.Discretion
import ViewTree.Proofs.Walk.Abiding

namespace ViewTree

open Store (Cell)
open Walk (Keeps Upholds)

section

variable {guarded : Cell → Prop} (before : Store) {visitors : List (Visitor σ)}
  (hvisitors : ∀ visitor ∈ visitors, visitor.Discreet guarded)

include hvisitors

theorem runPhase_spares (phase : Phase) {node : Value} (hnode : node.Avoids guarded)
    {parent : Option ObjectRef} (hparent : ∀ ref ∈ parent, ¬ guarded (.object ref)) {depth : Nat} :
    ∀ (ctx : Context) (session : Session σ), ctx.IsAt parent depth → Sparing guarded before session →
      (runPhase phase visitors node ctx).Ends session
        (fun given after => Sparing guarded before after ∧ given.2.IsAt parent depth ∧
          ∀ value ∈ given.1, value.Avoids guarded)
        fun _ => Sparing guarded before := by
  have hhooks : ∀ visitor ∈ visitors, ∀ hook ∈ visitor.hook? phase,
      hook.Abides (Sparing guarded before) (fun _ => Sparing guarded before) (·.IsAt parent depth)
        (fun value _ => value.Avoids guarded) node := by
    intro visitor hvisitor hook hhook ctx session hctx hsession
    have hasked := hvisitors visitor hvisitor phase hook hhook before hnode (hctx.parent ▸ hparent)
    apply (hasked session hsession).mono
    rintro given after ⟨hafter, hreply, hsame, hlevel⟩
    exact ⟨hafter, ⟨hsame.trans hctx.parent, hlevel.trans hctx.depth⟩, hreply.settle⟩
  exact runPhase_abides hhooks

theorem settles_sparing : Transform.Settles visitors (Sparing guarded before)
    (fun _ => Sparing guarded before)
    fun slot depth ctx => slot.Avoids guarded ∧ ctx.IsAt slot.parent depth := by
  rintro phase slot depth ctx session ⟨hslot, hctx⟩ hsession
  apply (runPhase_spares before hvisitors phase hslot.node hslot.parent ctx session hctx hsession).mono
  rintro given after ⟨hafter, hnext, hvalue⟩
  refine ⟨hafter, ⟨hslot, hnext⟩, fun value hmem => ?_⟩
  exact (write_keeps before hslot.place (hvalue value hmem) after hafter).mono fun _ _ => And.left

variable {prune : Prune σ} (hprune : prune.Discreet guarded)

include hprune

theorem tour_spares (order : Order) :
    (Transform.tour visitors prune order).Abides (Sparing guarded before)
      (fun _ => Sparing guarded before) fun slot depth =>
        slot.Avoids guarded ∧ (slot.context depth).IsAt slot.parent depth := by
  apply (settles_sparing before hvisitors).tour_abides
  · rintro slot depth ctx ⟨hslot, hctx⟩
    apply (hprune before hslot.node (hctx.parent ▸ hslot.parent)).mono
    rintro asked ⟨-, hparent, hdepth⟩
    exact ⟨hslot, hparent.trans hctx.parent, hdepth.trans hctx.depth⟩
  · rintro slot depth ctx ⟨hslot, hctx⟩
    exact ⟨hslot, hctx.parent, hctx.depth⟩
  · rintro session slot depth ctx hsession ⟨hslot, -⟩ child hchild
    have havoids := Store.childSlots_avoids hsession.guards hslot.node child hchild
    exact ⟨havoids, child.isAt_context (depth + 1)⟩
  · exact fun _ _ => id

theorem boxed_spares (order : Order) (fuel : Nat) {node : Value} (hnode : node.Avoids guarded) :
    Keeps (Sparing guarded before) (Transform.boxedBy
      (fun fuel => Transform.run fuel order visitors prune) fuel node)
      fun result => result.Avoids guarded := by
  have hbox : Keeps (Sparing guarded before) (Walk.box node : Walk σ ArrayRef)
      fun box => ¬ guarded (.array box) := by
    rintro ⟨s, world⟩ hsession
    have hitems : ∀ value ∈ [node], value.Avoids guarded := by simpa using hnode
    obtain ⟨hnew, hvalue⟩ := hsession.guards.newArray hitems
    exact ⟨hsession.trans hnew, hvalue⟩
  apply hbox.bind
  intro box hout
  have hrun : Keeps (Sparing guarded before) (Transform.run fuel order visitors prune box)
      fun _ => True := by
    apply Upholds.store.bind
    rintro s ⟨world, hsession⟩
    apply (tour_spares before hvisitors hprune order).run fun _ => id
    intro root hroot
    have havoids := Store.rootSlots_avoids hsession.guards hout root hroot
    exact ⟨havoids, root.isAt_context 0⟩
  apply hrun.bind
  intro _ _
  apply Upholds.store.bind
  rintro s ⟨world, hsession⟩
  refine .pure ?_
  cases hitems : s.items box with
  | nil => exact trivial
  | cons value rest =>
      apply hsession.guards.items box hout
      rw [hitems]
      exact List.mem_cons_self

theorem root_spares (order : Order) (fuel : Nat) {root : Value} (hroot : root.Avoids guarded) :
    Keeps (Sparing guarded before) (Transform.root order visitors prune fuel root)
      fun result => result.Avoids guarded := by
  rw [Transform.root_eq_rootBy]
  refine Transform.rootBy_upholds ?_ ?_ ?_ ?_ ?_ fuel root hroot
  · exact fun _ => id
  · intro node hnode
    have halone : ∀ ref ∈ (none : Option ObjectRef), ¬ guarded (.object ref) := by simp
    have hcontext : Context.alone.IsAt none 0 := ⟨rfl, rfl⟩
    exact Transform.primitive_upholds
      (fun phase => runPhase_spares before hvisitors phase hnode halone) hcontext hnode
  · intro fuel node hnode
    exact boxed_spares before hvisitors hprune order fuel hnode
  · intro session ref hsession href
    exact hsession.guards.items ref href
  · intro ref position value href hvalue
    have hplace : ¬ guarded (Place.element ref position).cell := href
    exact write_keeps before hplace hvalue

end

/-- A transform of a copy leaves the guarded cells alone, however it ends, and nothing in its result
leads to them.  A bad order is refused before anything is touched. -/
theorem transform_spares {guarded : Cell → Prop} {s : Store} (h : s.Guards guarded)
    {visitors : List (Visitor σ)} (hvisitors : ∀ visitor ∈ visitors, visitor.Discreet guarded)
    {options : TransformOptions σ} (hprune : options.prune.Discreet guarded)
    (hclone : options.clone.isTruthy = true) (fuel : Nat) (root : Value) (world : σ) :
    (∀ result after, transform fuel visitors options root ⟨s, world⟩ = .ok result after →
      Store.AgreesOn guarded s after.store ∧
        ∀ level, ∀ cell ∈ after.store.cellsTo level result, ¬ guarded cell) ∧
    (∀ failure after, transform fuel visitors options root ⟨s, world⟩ = .error failure after →
      Store.AgreesOn guarded s after.store) ∧
    ∀ failure, Order.resolve options.order = .error failure →
      transform fuel visitors options root ⟨s, world⟩ = .error failure ⟨s, world⟩ := by
  have hcopy : Keeps (Sparing guarded s) (Walk.copy options.clone root : Walk σ Value)
      fun copy => copy.Avoids guarded := by
    rw [Walk.copy, if_pos hclone]
    rintro ⟨now, world⟩ hsession
    obtain ⟨hload, hvalue⟩ := Store.load_spares (now.read root) hsession.guards
    exact ⟨hsession.trans hload, hvalue⟩
  have hkeeps : Keeps (Sparing guarded s) (transform fuel visitors options root)
      fun result => result.Avoids guarded := by
    rw [transform_eq]
    apply (Upholds.ofExcept fun _ _ _ => id).bind
    intro order _
    apply hcopy.bind
    intro copy havoids
    apply Upholds.ite
    · intro _
      exact .pure havoids
    · intro _
      exact root_spares s hvisitors hprune order fuel havoids
  have hafter := hkeeps ⟨s, world⟩ h.spares
  refine ⟨?_, ?_, ?_⟩
  · intro result after hok
    rw [Walk.Ends.iff_of_ok hok] at hafter
    refine ⟨hafter.1.agrees, ?_⟩
    intro level
    exact Store.cellsTo_avoids hafter.1.guards level hafter.2
  · intro failure after herror
    rw [Walk.Ends.iff_of_error herror] at hafter
    exact hafter.agrees
  · intro failure hresolve
    rw [transform_eq, Walk.bind_apply, hresolve]
    rfl

def remodeler : Visitor Unit :=
  .scripted
    (some (.acts [.edit .parent (.append (.text "z")), .edit .node (.set "seen" (.bool true))]
      .nothing))
    (some (.done (.wrap (.text "frame"))))

def shelf : Tree :=
  .object [("type", .text "shelf"), ("children", .array [.object [("type", .text "book")]])]

def remodeledShelf : Tree :=
  .object [("type", .text "frame"), ("children", .object [("type", .text "shelf"),
    ("children", .array [
      .object [("type", .text "frame"), ("children",
        .object [("type", .text "book"), ("seen", .bool true)])], .text "z"]),
    ("seen", .bool true)])]

theorem transform_spares_remodeler :
    (Store.load shelf {}).2.Guards (Store.load shelf {}).2.Contains ∧
    (∃ result after, transform 9 [remodeler] {} (Store.load shelf {}).1
        ⟨(Store.load shelf {}).2, ()⟩ = .ok result after ∧
      Store.AgreesOn (Store.load shelf {}).2.Contains (Store.load shelf {}).2 after.store ∧
      ∀ level, ∀ cell ∈ after.store.cellsTo level result,
        ¬ (Store.load shelf {}).2.Contains cell) ∧
    (shelf.transform 9 [remodeler] {} ()).1 = .ok remodeledShelf := by
  have hguards := Store.guards_contains (Store.load shelf {}).2
  have hvisitors : ∀ visitor ∈ [remodeler], visitor.Discreet (Store.load shelf {}).2.Contains := by
    intro visitor hvisitor
    rw [List.mem_singleton.mp hvisitor]
    exact Visitor.scripted_discreet _ _
  have hprune : (({} : TransformOptions Unit).prune).Discreet (Store.load shelf {}).2.Contains :=
    Prune.setting_discreet _
  obtain ⟨hok, -, -⟩ :=
    transform_spares hguards hvisitors hprune rfl 9 (Store.load shelf {}).1 ()
  obtain ⟨result, after, hrun⟩ : ∃ result after, transform 9 [remodeler] {}
      (Store.load shelf {}).1 ⟨(Store.load shelf {}).2, ()⟩ = .ok result after := ⟨_, _, rfl⟩
  exact ⟨hguards, ⟨result, after, hrun, hok result after hrun⟩, rfl⟩

end ViewTree
