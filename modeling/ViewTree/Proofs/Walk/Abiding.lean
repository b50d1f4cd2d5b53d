import ViewTree.Proofs.Transform.Entry
import ViewTree.Proofs.Walk.Turns
import ViewTree.Proofs.Walk.Upholding

namespace ViewTree

open Walk (Ends Upholds)

/-- Each turn of a tour at a good slot upholds a property, and so does the leaving of the node; what is
listed is good again. -/
def Tour.Abides (tour : Tour σ) (inv : Session σ → Prop) (broken : Failure → Session σ → Prop)
    (good : Slot → Nat → Prop) : Prop :=
  ∀ slot depth, good slot depth → Upholds inv broken (tour.turn slot depth) fun out =>
    (∀ spot ∈ out.1, good spot.1 spot.2) ∧ Upholds inv broken (tour.close slot out.2)

section

variable {inv : Session σ → Prop} {broken : Failure → Session σ → Prop}

theorem Tour.descend_upholds {tour : Tour σ} {kind : Kind} {node : Value} {ctx : Context}
    {good : Slot → Prop} {fits : Context → Prop}
    (hprune : Upholds inv broken (tour.prune node ctx) fun asked => fits asked.2)
    (hskip : ∀ ctx, fits ctx → fits ctx.skipChildren)
    (hchildren : ∀ session, inv session → ∀ child ∈ session.store.childSlots node, good child)
    (hctx : fits ctx) :
    Upholds inv broken (tour.descend kind node ctx) fun found =>
      (∀ child ∈ found.1, good child) ∧ fits found.2 := by
  rw [Tour.descend]
  apply Upholds.ite
  · intro _
    apply hprune.bind
    rintro ⟨cut, next⟩ hnext
    apply Upholds.ite
    · intro _
      exact .pure ⟨by simp, hskip next hnext⟩
    · intro _
      apply Upholds.store.bind
      rintro s ⟨world, hsession⟩
      exact .pure ⟨hchildren ⟨s, world⟩ hsession, hnext⟩
  · intro _
    exact .pure ⟨by simp, hctx⟩

namespace Tour.Abides

variable {tour : Tour σ} {good : Slot → Nat → Prop} (h : tour.Abides inv broken good)
  (hspent : ∀ session, inv session → broken .exhausted session)

include h hspent

theorem depthFirst (fuel : Nat) : ∀ {slot : Slot} {depth : Nat}, good slot depth →
    Upholds inv broken (tour.depthFirst fuel slot depth) := by
  induction fuel with
  | zero => exact fun _ => .throw hspent
  | succ fuel ih =>
      intro slot depth hgood
      rw [depthFirst_turn]
      refine (h slot depth hgood).bind ?_
      rintro ⟨below, left⟩ ⟨hbelow, hclose⟩
      exact (Upholds.forM fun spot hspot => ih (hbelow spot hspot)).bind fun _ _ => hclose

theorem breadthFirst (fuel : Nat) : ∀ {queue : List (Slot × Nat)},
    (∀ spot ∈ queue, good spot.1 spot.2) → Upholds inv broken (tour.breadthFirst fuel queue) := by
  induction fuel with
  | zero =>
      intro queue _
      cases queue with
      | nil =>
          rw [breadthFirst_nil]
          exact .pure trivial
      | cons spot queue => exact .throw hspent
  | succ fuel ih =>
      intro queue hqueue
      cases queue with
      | nil =>
          rw [breadthFirst_nil]
          exact .pure trivial
      | cons spot queue =>
          obtain ⟨hspot, hrest⟩ := List.forall_mem_cons.mp hqueue
          rw [breadthFirst_turn]
          refine (h spot.1 spot.2 hspot).bind ?_
          rintro ⟨below, left⟩ ⟨hbelow, -⟩
          exact ih (List.forall_mem_append.mpr ⟨hrest, hbelow⟩)

theorem run (order : Order) (fuel : Nat) {roots : List Slot} (hroots : ∀ root ∈ roots, good root 0) :
    Upholds inv broken (tour.run order fuel roots) := by
  refine .forM fun root hroot => ?_
  have hgood := hroots root hroot
  cases order with
  | preOrder => exact h.depthFirst hspent fuel hgood
  | postOrder => exact h.depthFirst hspent fuel hgood
  | breadthFirst => exact h.breadthFirst hspent fuel (List.forall_mem_singleton.mpr hgood)

end Tour.Abides

/-- A hook upholds a property in fitting contexts, and leaves one; what it puts in for the node is as it
is to be. -/
def Hook.Abides (inv : Session σ → Prop) (broken : Failure → Session σ → Prop)
    (fits : Context → Prop) (goal : Value → Session σ → Prop) (node : Value) (hook : Hook σ) : Prop :=
  ∀ ctx session, fits ctx → inv session → (hook node ctx).Ends session
    (fun given after => inv after ∧ fits given.2 ∧
      ∀ value ∈ (given.1.settle Value.isNull).replacement?, goal value after) broken

theorem runHooks_abide {fits : Context → Prop} {goal : Value → Session σ → Prop} {node : Value}
    {hooks : List (Hook σ)} (h : ∀ hook ∈ hooks, hook.Abides inv broken fits goal node) :
    ∀ ctx session, fits ctx → inv session → (runHooks hooks node ctx).Ends session
      (fun given after => inv after ∧ fits given.2 ∧ ∀ value ∈ given.1, goal value after) broken := by
  induction hooks with
  | nil =>
      intro ctx session hctx hsession
      exact ⟨hsession, hctx, by simp⟩
  | cons hook rest ih =>
      intro ctx session hctx hsession
      obtain ⟨hhook, hrest⟩ := List.forall_mem_cons.mp h
      rw [runHooks]
      apply (hhook ctx session hctx hsession).bind
      rintro ⟨reply, next⟩ after ⟨hafter, hnext, hvalue⟩
      cases hreplacement : (reply.settle Value.isNull).replacement? with
      | some replacement =>
          simp only [hreplacement] at hvalue ⊢
          exact ⟨hafter, hnext, hvalue⟩
      | none =>
          simp only [hreplacement]
          exact ih hrest next after hnext hafter

theorem runHooks_upholds {hooks : List (Hook σ)} {node : Value}
    (h : ∀ hook ∈ hooks, ∀ ctx, Upholds inv broken (hook node ctx)) (ctx : Context) :
    Upholds inv broken (runHooks hooks node ctx) := by
  have hhooks : ∀ hook ∈ hooks,
      hook.Abides inv broken (fun _ => True) (fun _ _ => True) node := by
    intro hook hhook ctx session _ hsession
    apply (h hook hhook ctx session hsession).mono
    intro given after hafter
    exact ⟨hafter.1, trivial, fun _ _ => trivial⟩
  intro session hsession
  apply (runHooks_abide hhooks ctx session trivial hsession).mono
  intro given after hafter
  exact ⟨hafter.1, trivial⟩

theorem runPhase_abides {phase : Phase} {fits : Context → Prop} {goal : Value → Session σ → Prop}
    {node : Value} {visitors : List (Visitor σ)}
    (h : ∀ visitor ∈ visitors, ∀ hook ∈ visitor.hook? phase,
      hook.Abides inv broken fits goal node) :
    ∀ ctx session, fits ctx → inv session → (runPhase phase visitors node ctx).Ends session
      (fun given after => inv after ∧ fits given.2 ∧ ∀ value ∈ given.1, goal value after) broken := by
  refine runHooks_abide fun hook hhook => ?_
  obtain ⟨visitor, hvisitor, hhook⟩ := List.mem_filterMap.mp hhook
  exact h visitor hvisitor hook hhook

namespace Transform

/-- The phases of visits uphold a property, and so does writing what replaces the node. -/
def Settles (visitors : List (Visitor σ)) (inv : Session σ → Prop)
    (broken : Failure → Session σ → Prop) (fits : Slot → Nat → Context → Prop) : Prop :=
  ∀ phase slot depth ctx session, fits slot depth ctx → inv session →
    (runPhase phase visitors slot.node ctx).Ends session
      (fun given after => inv after ∧ fits slot depth given.2 ∧ ∀ value ∈ given.1,
        (Walk.write slot.place value).Ends after (fun _ => inv) broken) broken

namespace Settles

variable {visitors : List (Visitor σ)} {fits : Slot → Nat → Context → Prop}
  (h : Settles visitors inv broken fits) {slot : Slot} (depth : Nat) {ctx : Context}
  (hctx : fits slot depth ctx)

include h hctx

theorem enterNode : Upholds inv broken (enterNode visitors slot ctx) fun next =>
    ∀ ctx ∈ next, fits slot depth ctx := by
  intro session hsession
  apply (h .enter slot depth ctx session hctx hsession).bind
  rintro ⟨_ | replacement, next⟩ after ⟨hafter, hnext, hwrite⟩
  · exact ⟨hafter, by simpa using hnext⟩
  · apply (hwrite replacement rfl).bind
    intro _ last hlast
    exact ⟨hlast, by simp⟩

theorem leaveNode : Upholds inv broken (leaveNode visitors slot ctx) := by
  intro session hsession
  apply (h .exit slot depth ctx session hctx hsession).bind
  rintro ⟨_ | replacement, next⟩ after ⟨hafter, -, hwrite⟩
  · exact ⟨hafter, trivial⟩
  · exact (hwrite replacement rfl).mono fun _ _ hlast => ⟨hlast, trivial⟩

theorem arrive (prune : Prune σ) (order : Order) (kind : Kind) :
    Upholds inv broken ((tour visitors prune order).arrive kind slot ctx) fun next =>
      ∀ ctx ∈ next, fits slot depth ctx := by
  cases order with
  | postOrder => exact .pure (by simpa using hctx)
  | _ => exact h.enterNode depth hctx

theorem leave (prune : Prune σ) (order : Order) (kind : Kind) :
    Upholds inv broken ((tour visitors prune order).leave kind slot ctx) := by
  cases order with
  | postOrder =>
      refine (h.enterNode depth hctx).bind fun next hnext => ?_
      cases next with
      | some ctx => exact h.leaveNode depth (hnext ctx rfl)
      | none => exact .pure trivial
  | _ => exact h.leaveNode depth hctx

omit hctx in
theorem tour_abides {prune : Prune σ}
    (hprune : ∀ {slot depth ctx}, fits slot depth ctx →
      Upholds inv broken (prune.test slot.node ctx) fun asked => fits slot depth asked.2)
    (hskip : ∀ {slot depth ctx}, fits slot depth ctx → fits slot depth ctx.skipChildren)
    (hchildren : ∀ {session slot depth ctx}, inv session → fits slot depth ctx →
      ∀ child ∈ session.store.childSlots slot.node,
        fits child (depth + 1) (child.context (depth + 1)))
    (hown : ∀ cause session, inv session → broken (.invalidNode cause) session) (order : Order) :
    (tour visitors prune order).Abides inv broken fun slot depth =>
      fits slot depth (slot.context depth) := by
  have hasked : (tour visitors prune order).prune = prune.test := by cases order <;> rfl
  intro slot depth hstart
  rw [Tour.turn]
  refine (Upholds.classify hown).bind fun kind _ => ?_
  refine (h.arrive depth hstart prune order kind).bind fun next hnext => ?_
  cases next with
  | none => exact .pure ⟨by simp, .pure trivial⟩
  | some ctx =>
      have hctx := hnext ctx rfl
      have hprune : Upholds inv broken ((tour visitors prune order).prune slot.node ctx) fun asked =>
          fits slot depth asked.2 := hasked ▸ hprune hctx
      refine (Tour.descend_upholds hprune (fun _ => hskip)
        (fun session hsession => hchildren hsession hctx) hctx).bind ?_
      rintro ⟨children, last⟩ ⟨hbelow, hlast⟩
      exact .pure ⟨List.forall_mem_map.mpr hbelow, h.leave depth hlast prune order kind⟩

end Settles

theorem primitive_upholds {visitors : List (Visitor σ)} {node : Value} {fits : Context → Prop}
    {good : Value → Prop}
    (h : ∀ phase ctx session, fits ctx → inv session → (runPhase phase visitors node ctx).Ends session
      (fun given after => inv after ∧ fits given.2 ∧ ∀ value ∈ given.1, good value) broken)
    (halone : fits .alone) (hnode : good node) :
    Upholds inv broken (primitive visitors node) good := by
  intro session hsession
  apply (h .enter .alone session halone hsession).bind
  rintro ⟨_ | replacement, next⟩ after ⟨hafter, hnext, hvalue⟩
  · apply (h .exit next after hnext hafter).bind
    rintro ⟨_ | replacement, ctx⟩ last ⟨hlast, -, hvalue⟩
    · exact ⟨hlast, hnode⟩
    · exact ⟨hlast, hvalue replacement rfl⟩
  · exact ⟨hafter, hvalue replacement rfl⟩

section

variable {primitive : Value → Walk σ Value} {walk : Nat → ArrayRef → Walk σ Unit}

theorem rootBy_induct {motive : Value → Walk σ Value → Prop}
    (spent : ∀ node, motive node (throw .exhausted))
    (array : ∀ ref (item : Value → Walk σ Value), (∀ node, motive node (item node)) →
      motive (.array ref) (do
        ((← Walk.store).items ref).zipIdx.forM fun (node, position) => do
          let result ← item node
          Walk.write (.element ref position) result
        return .array ref))
    (single : ∀ a : Atom, a.isPrimitive = true → motive (.atom a) (primitive (.atom a)))
    (boxed : ∀ fuel node, (∀ ref, node ≠ .array ref) → motive node (boxedBy walk fuel node))
    (fuel : Nat) : ∀ node, motive node (rootBy primitive walk fuel node) := by
  induction fuel with
  | zero => exact spent
  | succ fuel ih =>
      intro node
      cases node with
      | array ref => exact array ref _ ih
      | atom a =>
          rw [rootBy]
          split
          · next hprimitive => exact single a hprimitive
          · exact boxed fuel (.atom a) (by simp)
      | tuple items => exact boxed fuel (.tuple items) (by simp)
      | object ref => exact boxed fuel (.object ref) (by simp)

theorem rootBy_upholds {good : Value → Prop}
    (hspent : ∀ session, inv session → broken .exhausted session)
    (hprimitive : ∀ node, good node → Upholds inv broken (primitive node) good)
    (hboxed : ∀ fuel node, good node → Upholds inv broken (boxedBy walk fuel node) good)
    (hitems : ∀ {session ref}, inv session → good (.array ref) →
      ∀ item ∈ session.store.items ref, good item)
    (hwrite : ∀ {ref} position {value}, good (.array ref) → good value →
      Upholds inv broken (Walk.write (.element ref position) value)) (fuel : Nat) :
    ∀ node, good node → Upholds inv broken (rootBy primitive walk fuel node) good := by
  refine rootBy_induct (motive := fun node walk => good node → Upholds inv broken walk good)
    (fun _ _ => .throw hspent) ?_ (fun a _ => hprimitive _) (fun fuel node _ => hboxed fuel node) fuel
  intro ref item ih href
  refine .bind .store ?_
  rintro s ⟨world, hsession⟩
  refine .bind (.forM fun entry hentry => ?_) fun _ _ => .pure href
  have hitem := hitems hsession href entry.1 (List.fst_mem_of_mem_zipIdx hentry)
  exact (ih entry.1 hitem).bind fun result hresult => hwrite entry.2 href hresult

end

end Transform

end

end ViewTree
