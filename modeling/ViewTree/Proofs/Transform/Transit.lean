import ViewTree.Proofs.Transform.Entry
import ViewTree.Proofs.Walk.Transit

namespace ViewTree

open Walk (Mirrors)

def Reply.map (f : α → β) : Reply α → Reply β
  | .outcome result => .outcome (result.map f)
  | .value given => .value (f given)

/-- Whoever is asked about a node mirrors another: the answers correspond by `f`. -/
def Asked (transit : Transit σ ρ) (f : α → β) (ask : Value → Context → Walk σ (α × Context))
    (image : Value → Context → Walk ρ (β × Context)) : Prop :=
  ∀ node ctx, Mirrors transit (Prod.map f (Context.above transit.base)) (ask node ctx)
    (image (node.above transit.base) (ctx.above transit.base))

def Hook.Mirrors (transit : Transit σ ρ) (hook : Hook σ) (image : Hook ρ) : Prop :=
  Asked transit (Reply.map (Value.above transit.base)) hook image

def Visitor.Mirrors (transit : Transit σ ρ) (visitor : Visitor σ) (image : Visitor ρ) : Prop :=
  ∀ phase, Option.Rel (Hook.Mirrors transit) (visitor.hook? phase) (image.hook? phase)

def Prune.Mirrors (transit : Transit σ ρ) (prune : Prune σ) (image : Prune ρ) : Prop :=
  Asked transit id prune.test image.test

/-- What some visitors come to together in a phase mirrors what others come to. -/
structure Company.Mirrors (transit : Transit σ ρ) (visitors : List (Visitor σ))
    (images : List (Visitor ρ)) : Prop where
  phase : ∀ phase, Asked transit (Option.map (Value.above transit.base))
    (runPhase phase visitors) (runPhase phase images)
  isEmpty : visitors.isEmpty = images.isEmpty

theorem Visitor.hook?_zoom (lens : Lens ρ σ) (visitor : Visitor σ) (phase : Phase) :
    (visitor.zoom lens).hook? phase = (visitor.hook? phase).map (Hook.zoom lens) := by
  cases phase with
  | enter => rfl
  | exit => rfl

theorem rel_map {R : α → β → Prop} {S : γ → δ → Prop} {f : α → γ} {g : β → δ}
    (hmap : ∀ x y, R x y → S (f x) (g y)) {x? : Option α} {y? : Option β}
    (h : Option.Rel R x? y?) : Option.Rel S (x?.map f) (y?.map g) := by
  cases h with
  | none => exact .none
  | some h => exact .some (hmap _ _ h)

theorem rel_map_left {R : β → α → Prop} {f : α → β} (h : ∀ x, R (f x) x) (x? : Option α) :
    Option.Rel R (x?.map f) x? := by
  cases x? with
  | none => exact .none
  | some x => exact .some (h x)

variable {transit : Transit σ ρ}

theorem Reply.replacement?_map_above (reply : Reply Value) (base : Store) :
    ((reply.map (Value.above base)).settle Value.isNull).replacement? =
      (reply.settle Value.isNull).replacement?.map (Value.above base) := by
  cases reply with
  | outcome result => cases result <;> rfl
  | value given =>
      simp only [Reply.map, Reply.settle, Value.isNull_above]
      split
      · rfl
      · rfl

theorem runHooks_mirrors {hooks : List (Hook σ)} {images : List (Hook ρ)}
    (h : List.Forall₂ (Hook.Mirrors transit) hooks images) :
    Asked transit (Option.map (Value.above transit.base)) (runHooks hooks) (runHooks images) := by
  induction h with
  | nil =>
      intro node ctx
      exact .pure _ (none, ctx)
  | cons hhead _ ih =>
      intro node ctx
      rw [runHooks, runHooks]
      apply (hhead node ctx).bind
      rintro ⟨reply, next⟩
      have hsettle := reply.replacement?_map_above transit.base
      cases hreplacement : (reply.settle Value.isNull).replacement? with
      | none =>
          simp only [Prod.map, hsettle, hreplacement, Option.map_none]
          exact ih node next
      | some replacement =>
          simp only [Prod.map, hsettle, hreplacement, Option.map_some]
          exact .pure _ (some replacement, next)

section

variable {visitors : List (Visitor σ)} {images : List (Visitor ρ)}
  (hvisitors : List.Forall₂ (Visitor.Mirrors transit) visitors images)

include hvisitors

theorem filterMap_hook?_mirrors (phase : Phase) :
    List.Forall₂ (Hook.Mirrors transit) (visitors.filterMap (·.hook? phase))
      (images.filterMap (·.hook? phase)) := by
  induction hvisitors with
  | nil => exact .nil
  | @cons visitor image _ _ hhead _ ih =>
      have hhook := hhead phase
      rw [List.filterMap_cons, List.filterMap_cons]
      cases hvisitor : visitor.hook? phase with
      | none =>
          rw [hvisitor] at hhook
          cases hother : image.hook? phase with
          | none => exact ih
          | some other =>
              rw [hother] at hhook
              cases hhook
      | some hook =>
          rw [hvisitor] at hhook
          cases hother : image.hook? phase with
          | none =>
              rw [hother] at hhook
              cases hhook
          | some other =>
              rw [hother] at hhook
              cases hhook with
              | some hsame => exact .cons hsame ih

theorem runPhase_mirrors (phase : Phase) :
    Asked transit (Option.map (Value.above transit.base)) (runPhase phase visitors)
      (runPhase phase images) :=
  runHooks_mirrors (filterMap_hook?_mirrors hvisitors phase)

theorem Company.mirrors_of_forall₂ : Company.Mirrors transit visitors images where
  phase := runPhase_mirrors hvisitors
  isEmpty := by
    cases hvisitors with
    | nil => rfl
    | cons _ _ => rfl

end

namespace Transform

variable {first : Value → Walk σ Value} {second : Value → Walk ρ Value}
  {walk : Nat → ArrayRef → Walk σ Unit} {image : Nat → ArrayRef → Walk ρ Unit}
  (hprimitive : ∀ node, Mirrors transit (Value.above transit.base) (first node)
    (second (node.above transit.base)))
  (hwalk : ∀ fuel box, Mirrors transit id (walk fuel box) (image fuel (box.above transit.base)))

include hwalk

theorem boxedBy_mirrors (fuel : Nat) (node : Value) :
    Mirrors transit (Value.above transit.base) (boxedBy walk fuel node)
      (boxedBy image fuel (node.above transit.base)) := by
  apply (Mirrors.box node).bind
  intro box
  apply (hwalk fuel box).bind
  intro _
  exact .unbox box

include hprimitive

theorem rootBy_mirrors (fuel : Nat) : ∀ root : Value,
    Mirrors transit (Value.above transit.base) (rootBy first walk fuel root)
      (rootBy second image fuel (root.above transit.base)) := by
  induction fuel with
  | zero =>
      intro root
      exact .throw _ .exhausted
  | succ fuel ih =>
      intro root
      cases root with
      | array ref =>
          rw [Value.above_array, rootBy, rootBy]
          apply Mirrors.store.bind
          intro s
          rw [Store.items_above, List.zipIdx_map]
          have hloop : Mirrors transit id
              ((s.items ref).zipIdx.forM fun entry => do
                let result ← rootBy first walk fuel entry.1
                Walk.write (.element ref entry.2) result)
              (((s.items ref).zipIdx.map (Prod.map (Value.above transit.base) id)).forM
                fun entry => do
                  let result ← rootBy second image fuel entry.1
                  Walk.write (.element (ref.above transit.base) entry.2) result) := by
            apply Mirrors.forM
            rintro ⟨item, position⟩
            apply (ih item).bind
            intro result
            exact .write (.element ref position) result
          apply hloop.bind
          intro _
          exact .pure _ (Value.array ref)
      | atom a =>
          rw [Value.above, rootBy, rootBy]
          apply Mirrors.ite
          · exact hprimitive (.atom a)
          · exact boxedBy_mirrors hwalk fuel (.atom a)
      | tuple items => exact boxedBy_mirrors hwalk fuel (.tuple items)
      | object ref => exact boxedBy_mirrors hwalk fuel (.object ref)

end Transform

section

variable {visitors : List (Visitor σ)} {images : List (Visitor ρ)}
  (hvisitors : Company.Mirrors transit visitors images)

include hvisitors

namespace Transform

theorem enterNode_mirrors (slot : Slot) (ctx : Context) :
    Mirrors transit (Option.map (Context.above transit.base)) (enterNode visitors slot ctx)
      (enterNode images (slot.above transit.base) (ctx.above transit.base)) := by
  unfold enterNode
  apply (hvisitors.phase .enter slot.node ctx).bind
  rintro ⟨_ | replacement, next⟩
  · exact .pure _ (some next)
  · apply (Mirrors.write slot.place replacement).bind
    intro _
    exact .pure _ none

theorem leaveNode_mirrors (slot : Slot) (ctx : Context) :
    Mirrors transit id (leaveNode visitors slot ctx)
      (leaveNode images (slot.above transit.base) (ctx.above transit.base)) := by
  unfold leaveNode
  apply (hvisitors.phase .exit slot.node ctx).bind
  rintro ⟨_ | replacement, next⟩
  · exact .pure id ()
  · exact .write slot.place replacement

theorem primitive_mirrors (node : Value) :
    Mirrors transit (Value.above transit.base) (primitive visitors node)
      (primitive images (node.above transit.base)) := by
  unfold primitive
  apply (hvisitors.phase .enter node .alone).bind
  rintro ⟨_ | replacement, next⟩
  · apply (hvisitors.phase .exit node next).bind
    rintro ⟨_ | replacement, last⟩
    · exact .pure _ node
    · exact .pure _ replacement
  · exact .pure _ replacement

variable {prune : Prune σ} {pruneImage : Prune ρ} (hprune : prune.Mirrors transit pruneImage)

include hprune

theorem tour_mirrors (order : Order) :
    (tour visitors prune order).Mirrors transit (tour images pruneImage order) := by
  cases order with
  | postOrder =>
      refine ⟨hprune, ?_, ?_⟩
      · intro _ _ ctx
        exact .pure _ (some ctx)
      · intro _ slot ctx
        apply (enterNode_mirrors hvisitors slot ctx).bind
        intro next
        cases next with
        | none => exact .pure id ()
        | some ctx => exact leaveNode_mirrors hvisitors slot ctx
  | _ =>
      refine ⟨hprune, ?_, ?_⟩
      · intro _ slot ctx
        exact enterNode_mirrors hvisitors slot ctx
      · intro _ slot ctx
        exact leaveNode_mirrors hvisitors slot ctx

theorem run_mirrors (fuel : Nat) (order : Order) (box : ArrayRef) :
    Mirrors transit id (run fuel order visitors prune box)
      (run fuel order images pruneImage (box.above transit.base)) := by
  apply Mirrors.store.bind
  intro s
  rw [Store.rootSlots_above]
  exact Tour.run_mirrors (tour_mirrors hvisitors hprune order) order fuel _

theorem root_mirrors (order : Order) (fuel : Nat) (root : Value) :
    Mirrors transit (Value.above transit.base) (Transform.root order visitors prune fuel root)
      (Transform.root order images pruneImage fuel (root.above transit.base)) := by
  rw [root_eq_rootBy, root_eq_rootBy]
  exact rootBy_mirrors (primitive_mirrors hvisitors)
    (fun fuel => run_mirrors hvisitors hprune fuel order) fuel root

theorem engage_mirrors (fuel : Nat) (order : Order) (root : Value) :
    Mirrors transit (Value.above transit.base) (engage fuel visitors prune order root)
      (engage fuel images pruneImage order (root.above transit.base)) := by
  rw [engage, engage, hvisitors.isEmpty]
  apply Mirrors.ite
  · exact .pure _ root
  · exact root_mirrors hvisitors hprune order fuel root

end Transform

omit hvisitors in
theorem copy_mirrors (clone : Tree) (root : Value) :
    Mirrors transit (Value.above transit.base) (Walk.copy clone root)
      (Walk.copy clone (root.above transit.base)) := by
  apply Mirrors.ite
  · apply Mirrors.change
    intro s
    rw [Store.clone, Store.read_above]
    exact Store.load_above transit.base (s.read root) s
  · exact .pure _ root

structure TransformOptions.Mirrors (transit : Transit σ ρ) (options : TransformOptions σ)
    (image : TransformOptions ρ) : Prop where
  order : image.order = options.order
  clone : image.clone = options.clone
  prune : options.prune.Mirrors transit image.prune

theorem transform_mirrors {options : TransformOptions σ} {image : TransformOptions ρ}
    (hoptions : options.Mirrors transit image) (fuel : Nat) (root : Value) :
    Mirrors transit (Value.above transit.base) (transform fuel visitors options root)
      (transform fuel images image (root.above transit.base)) := by
  rw [transform_eq, transform_eq, hoptions.order, hoptions.clone]
  apply (Mirrors.ofExcept _).bind
  intro order
  apply (copy_mirrors options.clone root).bind
  intro tree
  exact Transform.engage_mirrors hvisitors hoptions.prune fuel order tree

end

end ViewTree
