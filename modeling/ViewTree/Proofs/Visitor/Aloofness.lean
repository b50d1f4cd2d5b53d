import ViewTree.Proofs.Visitor.Watching

namespace ViewTree

/-- Whoever is asked answers, and only adds to the store; the node stays where it is. -/
def Aloof (ask : Value → Context → Walk σ (α × Context)) : Prop :=
  ∀ (s : Store) (world : σ) (node : Value) (ctx : Context), ∃ given next after,
    ask node ctx ⟨s, world⟩ = .ok (given, next) after ∧ s.Extends after.store ∧
      next.stand node = ctx.stand node

def Visitor.Aloof (visitor : Visitor σ) : Prop :=
  ∀ phase, ∀ hook ∈ visitor.hook? phase, ViewTree.Aloof hook

theorem runHooks_aloof {hooks : List (Hook σ)} (h : ∀ hook ∈ hooks, Aloof hook) :
    Aloof (runHooks hooks) := by
  induction hooks with
  | nil => exact fun s world node ctx => ⟨none, ctx, _, rfl, .refl s, rfl⟩
  | cons hook rest ih =>
      intro s world node ctx
      obtain ⟨reply, next, middle, hhook, hextends, hstand⟩ :=
        h hook List.mem_cons_self s world node ctx
      rw [runHooks, Walk.bind_apply, hhook]
      cases hreplacement : (reply.settle Value.isNull).replacement? with
      | some replacement =>
          refine ⟨some replacement, next, middle, ?_, hextends, hstand⟩
          simp only [hreplacement]
          rfl
      | none =>
          obtain ⟨given, last, after, hrest, hmore, hlast⟩ :=
            ih (fun other hother => h other (List.mem_cons_of_mem _ hother)) middle.store
              middle.world node next
          refine ⟨given, last, after, ?_, hextends.trans hmore, hlast.trans hstand⟩
          simp only [hreplacement]
          exact hrest

theorem runPhase_aloof {visitors : List (Visitor σ)} (h : ∀ visitor ∈ visitors, visitor.Aloof)
    (phase : Phase) : Aloof (runPhase phase visitors) := by
  apply runHooks_aloof
  intro hook hhook
  obtain ⟨visitor, hvisitor, hhook⟩ := List.mem_filterMap.mp hhook
  exact h visitor hvisitor phase hook hhook

def Action.isGentle : Action τ → Bool
  | .edit _ _ | .abandon _ => false
  | _ => true

/-- An answer that can be given for every node. -/
def Answer.isSafe : Answer → Bool
  | .wrap type => (type.text?.filter (· ≠ "")).isSome
  | _ => true

inductive Script.Gentle (safe : ρ → Prop) : Script τ ρ → Prop
  | done {result : ρ} (h : safe result) : Gentle safe (.done result)
  | act {action : Action τ} {rest : Script τ ρ} (haction : action.isGentle = true)
      (hrest : Gentle safe rest) : Gentle safe (.act action rest)
  | look {next : View → τ → Script τ ρ} (hnext : ∀ view memory, Gentle safe (next view memory)) :
      Gentle safe (.look next)
  | lookUp {next : Option Tree → Script τ ρ} (hnext : ∀ parent, Gentle safe (next parent)) :
      Gentle safe (.lookUp next)

theorem Action.run_gentle {action : Action τ} (h : action.isGentle = true) (s : Store)
    (memory : τ) (node : Value) (ctx : Context) :
    ∃ next memory', action.run node ctx ⟨s, memory⟩ = .ok next ⟨s, memory'⟩ ∧
      next.stand node = ctx.stand node := by
  cases action with
  | skip => exact ⟨ctx.skipChildren, memory, rfl, rfl⟩
  | mark name value => exact ⟨ctx.mark name value, memory, rfl, rfl⟩
  | observe note => exact ⟨ctx, note (ctx.view s node) memory, rfl, rfl⟩
  | edit target change => cases h
  | abandon text => cases h

theorem Script.run_gentle {safe : ρ → Prop} {script : Script τ ρ} (h : script.Gentle safe)
    (s : Store) (node : Value) :
    ∀ (memory : τ) (ctx : Context), ∃ result next memory',
      script.run node ctx ⟨s, memory⟩ = .ok (result, next) ⟨s, memory'⟩ ∧ safe result ∧
        next.stand node = ctx.stand node := by
  induction h with
  | @done result h => exact fun memory ctx => ⟨result, ctx, memory, rfl, h, rfl⟩
  | act haction _ ih =>
      intro memory ctx
      obtain ⟨middle, memory', hrun, hstand⟩ := Action.run_gentle haction s memory node ctx
      obtain ⟨result, next, last, hrest, hsafe, hnext⟩ := ih memory' middle
      refine ⟨result, next, last, ?_, hsafe, hnext.trans hstand⟩
      rw [Script.run, Walk.bind_apply, hrun]
      exact hrest
  | look _ ih => exact fun memory ctx => ih (ctx.view s node) memory memory ctx
  | lookUp _ ih =>
      exact fun memory ctx => ih (ctx.parent.map fun ref => s.read (.object ref)) memory ctx

theorem Answer.reply_safe {answer : Answer} (h : answer.isSafe = true) (s : Store) (memory : τ)
    (node : Value) :
    ∃ reply after, answer.reply node ⟨s, memory⟩ = .ok reply ⟨after, memory⟩ ∧
      s.Extends after := by
  cases answer with
  | replace tree => exact ⟨_, _, rfl, (Store.load_shows tree s).1⟩
  | value tree => exact ⟨_, _, rfl, (Store.load_shows tree s).1⟩
  | self replacing => cases replacing <;> exact ⟨_, s, rfl, .refl s⟩
  | wrap type =>
      rw [Answer.reply]
      cases htype : type.text?.filter (· ≠ "") with
      | none => rw [Answer.isSafe, htype] at h; cases h
      | some name => exact ⟨_, _, rfl, Store.newObject_extends _ s⟩
  | unwrap => cases node <;> exact ⟨_, s, rfl, .refl s⟩
  | _ => exact ⟨_, s, rfl, .refl s⟩

theorem Hook.scripted_aloof {script : Script τ Answer}
    (h : script.Gentle fun answer => answer.isSafe = true) : Aloof (Hook.scripted script) := by
  intro s memory node ctx
  obtain ⟨answer, next, memory', hrun, hsafe, hstand⟩ := Script.run_gentle h s node memory ctx
  obtain ⟨reply, after, hreply, hextends⟩ := answer.reply_safe hsafe s memory' node
  refine ⟨reply, next, ⟨after, memory'⟩, ?_, hextends, hstand⟩
  rw [Hook.scripted, Walk.bind_apply, hrun]
  simp only [Walk.bind_apply, hreply]
  rfl

theorem Visitor.scripted_aloof {enter exit : Option (Script τ Answer)}
    (henter : ∀ script ∈ enter, script.Gentle fun answer => answer.isSafe = true)
    (hexit : ∀ script ∈ exit, script.Gentle fun answer => answer.isSafe = true) :
    (Visitor.scripted enter exit).Aloof := by
  intro phase hook hhook
  cases phase with
  | enter =>
      obtain ⟨script, hscript, rfl⟩ := Option.mem_map.mp hhook
      exact Hook.scripted_aloof (henter script hscript)
  | exit =>
      obtain ⟨script, hscript, rfl⟩ := Option.mem_map.mp hhook
      exact Hook.scripted_aloof (hexit script hscript)

theorem Prune.scripted_aloof {script : Script τ Bool} (h : script.Gentle fun _ => True) :
    Aloof (Prune.scripted script).test := by
  intro s memory node ctx
  obtain ⟨cut, next, memory', hrun, -, hstand⟩ := Script.run_gentle h s node memory ctx
  exact ⟨cut, next, ⟨s, memory'⟩, hrun, .refl s, hstand⟩

end ViewTree
