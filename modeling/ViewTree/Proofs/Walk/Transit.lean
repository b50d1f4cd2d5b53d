import ViewTree.Proofs.Store.Relocation
import ViewTree.Proofs.Walk.Course
import ViewTree.Visit.Tour

/-!
Walks in another place.  A transit puts the store of a session above another store and takes its world
for another world.  One walk mirrors another when it does after the transit what the other does
before it.
-/

namespace ViewTree

structure Transit (σ ρ : Type) where
  base : Store
  world : σ → ρ

def Transit.session (transit : Transit σ ρ) (session : Session σ) : Session ρ :=
  ⟨session.store.above transit.base, transit.world session.world⟩

def Transit.result (transit : Transit σ ρ) (f : α → β) :
    EStateM.Result Failure (Session σ) α → EStateM.Result Failure (Session ρ) β
  | .ok value after => .ok (f value) (transit.session after)
  | .error failure after => .error failure (transit.session after)

namespace Walk

variable {transit : Transit σ ρ}

/-- What the image does after a transit is what the walk does before it. -/
def Mirrors (transit : Transit σ ρ) (f : α → β) (walk : Walk σ α) (image : Walk ρ β) : Prop :=
  ∀ session, image (transit.session session) = transit.result f (walk session)

namespace Mirrors

variable {f : α → β} {walk : Walk σ α} {image : Walk ρ β}

theorem pure (f : α → β) (value : α) :
    Mirrors transit f (Pure.pure value) (Pure.pure (f value)) := by
  intro session
  rfl

theorem throw (f : α → β) (failure : Failure) :
    Mirrors transit f (MonadExcept.throw failure : Walk σ α) (MonadExcept.throw failure) := by
  intro session
  rfl

theorem bind {g : γ → δ} {next : α → Walk σ γ} {rest : β → Walk ρ δ}
    (h : Mirrors transit f walk image)
    (hnext : ∀ value, Mirrors transit g (next value) (rest (f value))) :
    Mirrors transit g (walk >>= next) (image >>= rest) := by
  intro session
  rw [bind_apply, bind_apply, h session]
  cases walk session with
  | ok value after => exact hnext value after
  | error failure after => rfl

theorem skip {quiet : Walk σ γ} {next : γ → Walk σ α}
    (h : Mirrors transit (fun _ => ()) quiet (Pure.pure ()))
    (hnext : ∀ value, Mirrors transit f (next value) image) :
    Mirrors transit f (quiet >>= next) image := by
  have hwhole : Mirrors transit f (quiet >>= next) (Pure.pure () >>= fun _ => image) :=
    bind h hnext
  rwa [pure_bind] at hwhole

theorem andThen {g : α → γ} {next : β → Walk σ α} {walk : Walk σ β} {image : Walk ρ γ}
    {f : β → γ} (h : Mirrors transit f walk image)
    (hnext : ∀ value, Mirrors transit g (next value) (Pure.pure (f value))) :
    Mirrors transit g (walk >>= next) image := by
  rw [← bind_pure image]
  exact bind h hnext

theorem forM {xs : List α} {visit : α → Walk σ PUnit} {other : β → Walk ρ PUnit}
    (h : ∀ x, Mirrors transit id (visit x) (other (f x))) :
    Mirrors transit id (xs.forM visit) ((xs.map f).forM other) := by
  induction xs with
  | nil => exact pure id _
  | cons x xs ih => exact bind (h x) fun _ => ih

theorem ite {condition : Prop} [Decidable condition] {walk other : Walk σ α}
    {image otherImage : Walk ρ β} (h : Mirrors transit f walk image)
    (hother : Mirrors transit f other otherImage) :
    Mirrors transit f (if condition then walk else other)
      (if condition then image else otherImage) := by
  split
  · exact h
  · exact hother

theorem store : Mirrors transit (Store.above · transit.base) Walk.store Walk.store := by
  intro session
  rfl

theorem get : Mirrors transit transit.session MonadState.get MonadState.get := by
  intro session
  rfl

theorem modifyWorld {change : σ → σ} {other : ρ → ρ}
    (h : ∀ world, other (transit.world world) = transit.world (change world)) :
    Mirrors transit id (Walk.modifyWorld change) (Walk.modifyWorld other) := by
  rintro ⟨s, world⟩
  show EStateM.Result.ok () (Session.mk _ (other (transit.world world))) = _
  rw [h world]
  rfl

theorem ofExcept (given : Except Failure α) :
    Mirrors transit id (Walk.ofExcept given) (Walk.ofExcept given) := by
  cases given with
  | ok value => exact pure id value
  | error failure => exact throw id failure

theorem change {change : Store → α × Store} {other : Store → β × Store}
    (h : ∀ s, other (s.above transit.base) =
      (f (change s).1, (change s).2.above transit.base)) :
    Mirrors transit f (Walk.change change) (Walk.change other) := by
  rintro ⟨s, world⟩
  simp only [Transit.session, Walk.change, h s]
  rfl

theorem load (tree : Tree) :
    Mirrors transit (Value.above transit.base) (Walk.load tree) (Walk.load tree) := by
  exact change fun s => Store.load_above transit.base tree s

theorem write (place : Place) (value : Value) :
    Mirrors transit id (Walk.write place value)
      (Walk.write (place.above transit.base) (value.above transit.base)) := by
  rintro ⟨s, world⟩
  simp only [Transit.session, Walk.write, Store.has_above, Store.write_above]
  split
  · rfl
  · rfl

theorem classify (node : Value) :
    Mirrors transit id (Walk.classify node) (Walk.classify (node.above transit.base)) := by
  rintro ⟨s, world⟩
  rw [classify_apply, classify_apply, Transit.session, Store.classify_above]
  cases s.classify node with
  | ok kind => rfl
  | error cause => rfl

theorem box (node : Value) :
    Mirrors transit (ArrayRef.above transit.base) (Walk.box node)
      (Walk.box (node.above transit.base)) := by
  apply change
  intro s
  have hnew := Store.newArray_above transit.base s [node]
  rw [List.map_singleton] at hnew
  rw [hnew]
  simp only [Store.above, ArrayRef.above, Array.size_append, Array.size_map]

theorem unbox (box : ArrayRef) :
    Mirrors transit (Value.above transit.base) (Walk.unbox box)
      (Walk.unbox (box.above transit.base)) := by
  apply store.bind
  intro s
  rw [Store.headD_items_above]
  exact pure _ _

end Mirrors

end Walk

namespace Tour

open Walk (Mirrors)

/-- Every part of a tour mirrors that part of another. -/
structure Mirrors (transit : Transit σ ρ) (tour : Tour σ) (image : Tour ρ) : Prop where
  prune : ∀ node ctx, Walk.Mirrors transit (Prod.map id (Context.above transit.base))
    (tour.prune node ctx) (image.prune (node.above transit.base) (ctx.above transit.base))
  arrive : ∀ kind slot ctx, Walk.Mirrors transit (Option.map (Context.above transit.base))
    (tour.arrive kind slot ctx)
    (image.arrive kind (slot.above transit.base) (ctx.above transit.base))
  leave : ∀ kind slot ctx, Walk.Mirrors transit id (tour.leave kind slot ctx)
    (image.leave kind (slot.above transit.base) (ctx.above transit.base))

variable {transit : Transit σ ρ} {tour : Tour σ} {image : Tour ρ}

theorem descend_mirrors (h : tour.Mirrors transit image) (kind : Kind) (node : Value)
    (ctx : Context) :
    Walk.Mirrors transit
      (Prod.map (List.map (Slot.above transit.base)) (Context.above transit.base))
      (tour.descend kind node ctx)
      (image.descend kind (node.above transit.base) (ctx.above transit.base)) := by
  unfold descend
  apply Walk.Mirrors.ite
  · apply (h.prune node ctx).bind
    rintro ⟨cut, next⟩
    apply Walk.Mirrors.ite
    · exact .pure _ ([], next.skipChildren)
    · apply Walk.Mirrors.store.bind
      intro s
      rw [Store.childSlots_above]
      exact .pure _ (s.childSlots node, next)
  · exact .pure _ ([], ctx)

theorem depthFirst_mirrors (h : tour.Mirrors transit image) (fuel : Nat) :
    ∀ (slot : Slot) (depth : Nat), Walk.Mirrors transit id (tour.depthFirst fuel slot depth)
      (image.depthFirst fuel (slot.above transit.base) depth) := by
  induction fuel with
  | zero =>
      intro slot depth
      exact .throw id .exhausted
  | succ fuel ih =>
      intro slot depth
      rw [depthFirst, depthFirst]
      apply (Walk.Mirrors.classify slot.node).bind
      intro kind
      apply (h.arrive kind slot (slot.context depth)).bind
      intro next
      cases next with
      | none => exact .pure id ()
      | some ctx =>
          apply (descend_mirrors h kind slot.node ctx).bind
          rintro ⟨children, last⟩
          apply (Walk.Mirrors.forM fun child => ih child (depth + 1)).bind
          intro _
          exact h.leave kind slot last

theorem breadthFirst_mirrors (h : tour.Mirrors transit image) (fuel : Nat) :
    ∀ queue : List (Slot × Nat), Walk.Mirrors transit id (tour.breadthFirst fuel queue)
      (image.breadthFirst fuel (queue.map (Prod.map (Slot.above transit.base) id))) := by
  induction fuel with
  | zero =>
      intro queue
      cases queue with
      | nil => exact .pure id ()
      | cons entry queue => exact .throw id .exhausted
  | succ fuel ih =>
      intro queue
      cases queue with
      | nil => exact .pure id ()
      | cons entry queue =>
          obtain ⟨slot, depth⟩ := entry
          rw [List.map_cons, Prod.map, breadthFirst, breadthFirst]
          apply (Walk.Mirrors.classify slot.node).bind
          intro kind
          apply (h.arrive kind slot (slot.context depth)).bind
          intro next
          cases next with
          | none => exact ih queue
          | some ctx =>
              apply (descend_mirrors h kind slot.node ctx).bind
              rintro ⟨children, last⟩
              have hrest := ih (queue ++ children.map fun child => (child, depth + 1))
              rw [List.map_append, List.map_map] at hrest
              simp only [Prod.map, List.map_map]
              exact hrest

theorem run_mirrors (h : tour.Mirrors transit image) (order : Order) (fuel : Nat)
    (roots : List Slot) :
    Walk.Mirrors transit id (tour.run order fuel roots)
      (image.run order fuel (roots.map (Slot.above transit.base))) := by
  apply Walk.Mirrors.forM
  intro root
  cases order with
  | preOrder => exact depthFirst_mirrors h fuel root 0
  | postOrder => exact depthFirst_mirrors h fuel root 0
  | breadthFirst => exact breadthFirst_mirrors h fuel [(root, 0)]

end Tour

end ViewTree
