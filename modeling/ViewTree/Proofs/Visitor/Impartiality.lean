import ViewTree.Proofs.Transform.Impartiality
import ViewTree.Proofs.Visitor.Tracing

namespace ViewTree

open Walk (InStep)

variable {p : Pairing} {s t : Store}

theorem Store.Pairs.putNew (h : s.Pairs p t) {ref partner : ObjectRef}
    (hp : p (.object ref) (.object partner)) (name : String) {members others : Members Value}
    (hmembers : members.Pairs p others) :
    ∃ q, p.Leads s t q
      ((Store.newObject members s).2.setMembers ref
        (((Store.newObject members s).2.members ref).put name (Store.newObject members s).1))
      ((Store.newObject others t).2.setMembers partner
        (((Store.newObject others t).2.members partner).put name
          (Store.newObject others t).1)) := by
  obtain ⟨q, hleads, hobject⟩ := h.newObject hmembers
  have hp := hleads.keeps _ _ hp
  exact ⟨q, hleads.trans
    (hleads.pairs.setMembers hp ((hleads.pairs.members hp).put name hobject))⟩

namespace Edit

theorem onChildren_pairs (h : s.Pairs p t) {ref partner : ObjectRef}
    (hp : p (.object ref) (.object partner)) {change other : List Value → List Value}
    (hchange : ∀ items others, List.Forall₂ (Value.Pairs p) items others →
      List.Forall₂ (Value.Pairs p) (change items) (other others)) :
    p.Leads s t p (onChildren ref change s) (onChildren partner other t) := by
  have hchildren := h.member hp "children"
  unfold onChildren
  revert hchildren
  generalize s.member ref "children" = children
  generalize t.member partner "children" = others
  intro hchildren
  cases hchildren with
  | array hp => exact h.setItems hp (hchange _ _ (h.items hp))
  | _ => exact .refl h

theorem apply_pairs (change : Edit) (h : s.Pairs p t) {ref partner : ObjectRef}
    (hp : p (.object ref) (.object partner)) :
    ∃ q, p.Leads s t q (change.apply ref s) (change.apply partner t) := by
  cases change with
  | set name tree =>
      obtain ⟨q, hleads, hvalue⟩ := h.load tree
      have hp := hleads.keeps _ _ hp
      exact ⟨q, hleads.trans (hleads.pairs.setMembers hp ((hleads.pairs.members hp).put name hvalue))⟩
  | delete name => exact ⟨p, h.setMembers hp ((h.members hp).remove name)⟩
  | setProp name tree =>
      obtain ⟨q, hleads, hvalue⟩ := h.load tree
      have hp := hleads.keeps _ _ hp
      have hprops := hleads.pairs.member hp "props"
      have hmembers : Members.Pairs q [(name, (Store.load tree s).1)]
          [(name, (Store.load tree t).1)] := .cons ⟨rfl, hvalue⟩ .nil
      obtain ⟨r, hnew⟩ := hleads.pairs.putNew hp "props" hmembers
      simp only [apply]
      revert hprops
      generalize (Store.load tree s).2.member ref "props" = props
      generalize (Store.load tree t).2.member partner "props" = others
      intro hprops
      cases hprops with
      | object hp =>
          exact ⟨q, hleads.trans
            (hleads.pairs.setMembers hp ((hleads.pairs.members hp).put name hvalue))⟩
      | _ => exact ⟨r, hleads.trans hnew⟩
  | deleteProp name =>
      have hprops := h.member hp "props"
      simp only [apply]
      revert hprops
      generalize s.member ref "props" = props
      generalize t.member partner "props" = others
      intro hprops
      cases hprops with
      | object hp => exact ⟨p, h.setMembers hp ((h.members hp).remove name)⟩
      | _ => exact ⟨p, .refl h⟩
  | append tree =>
      obtain ⟨q, hleads, hvalue⟩ := h.load tree
      refine ⟨q, hleads.trans ?_⟩
      simp only [apply]
      apply onChildren_pairs hleads.pairs (hleads.keeps _ _ hp)
      intro items others hitems
      exact List.rel_append hitems (.cons hvalue .nil)
  | insert tree =>
      obtain ⟨q, hleads, hvalue⟩ := h.load tree
      refine ⟨q, hleads.trans ?_⟩
      simp only [apply]
      apply onChildren_pairs hleads.pairs (hleads.keeps _ _ hp)
      intro items others hitems
      exact .cons hvalue hitems
  | pop =>
      refine ⟨p, onChildren_pairs h hp ?_⟩
      intro items others hitems
      rw [List.dropLast_eq_take, List.dropLast_eq_take, hitems.length_eq]
      exact List.forall₂_take _ hitems

end Edit

theorem Target.object?_pairs (target : Target) {value other : Value} (hvalue : value.Pairs p other)
    {ctx partner : Context} (hctx : ctx.Pairs p partner) :
    p.Parents (target.object? value ctx) (target.object? other partner) := by
  cases target with
  | parent => exact hctx.parent
  | node =>
      cases hvalue with
      | object hp => exact .some hp
      | _ => exact .none

section

variable {value other : Value} {ctx partner : Context}

theorem Action.run_inStep (action : Action τ) (hvalue : value.Pairs p other)
    (hctx : ctx.Pairs p partner) :
    InStep p Eq (action.run value ctx) (action.run other partner)
      fun q next last => next.Pairs q last := by
  cases action with
  | skip => exact .pure hctx.skipChildren
  | mark name given => exact .pure (hctx.mark name given)
  | abandon text => exact .throw _
  | observe note =>
      apply InStep.store.bind
      intro q hle s t hstore
      rw [(hctx.mono hle).view_eq hstore (hvalue.mono hle)]
      have hnote : InStep q Eq (Walk.modifyWorld (note (partner.view t other)))
          (Walk.modifyWorld (note (partner.view t other))) fun _ _ _ => True :=
        .modifyWorld fun _ _ heq => congrArg _ heq
      apply hnote.bind
      intro r hmore _ _ _
      exact .pure ((hctx.mono hle).mono hmore)
  | edit target change =>
      have htarget := target.object?_pairs hvalue hctx
      rw [Action.run, Action.run]
      revert htarget
      generalize target.object? value ctx = ref
      generalize target.object? other partner = second
      intro htarget
      cases htarget with
      | none => exact .pure hctx
      | @some ref second hp =>
          have hchange : InStep p Eq
              (Walk.change fun s => ((), change.apply ref s) : Walk τ Unit)
              (Walk.change fun s => ((), change.apply second s)) fun _ _ _ => True := by
            apply InStep.change
            intro s t hstore
            obtain ⟨q, hleads⟩ := change.apply_pairs hstore hp
            exact ⟨q, hleads, trivial⟩
          apply hchange.bind
          intro q hle _ _ _
          exact .pure (hctx.mono hle)

theorem Script.run_inStep (script : Script τ ρ) :
    ∀ {p : Pairing} {ctx partner : Context}, value.Pairs p other → ctx.Pairs p partner →
      InStep p Eq (script.run value ctx) (script.run other partner)
        fun q given same => given.1 = same.1 ∧ given.2.Pairs q same.2 := by
  induction script with
  | done result =>
      intro p ctx partner _ hctx
      exact .pure ⟨rfl, hctx⟩
  | act action rest ih =>
      intro p ctx partner hvalue hctx
      apply (action.run_inStep hvalue hctx).bind
      intro q hle next last hnext
      exact ih (hvalue.mono hle) hnext
  | look next ih =>
      intro p ctx partner hvalue hctx
      rw [Script.run, Script.run]
      apply InStep.get.bind
      rintro q hle ⟨s, world⟩ ⟨t, _⟩ ⟨hstore, rfl⟩
      replace hvalue := hvalue.mono hle
      replace hctx := hctx.mono hle
      rw [hctx.view_eq hstore hvalue]
      exact ih _ _ hvalue hctx
  | lookUp next ih =>
      intro p ctx partner hvalue hctx
      rw [Script.run, Script.run]
      apply InStep.store.bind
      intro q hle s t hstore
      replace hvalue := hvalue.mono hle
      replace hctx := hctx.mono hle
      have hparent : (ctx.parent.map fun ref => s.read (.object ref)) =
          partner.parent.map fun ref => t.read (.object ref) := by
        have hparents := hctx.parent
        revert hparents
        generalize ctx.parent = parent
        generalize partner.parent = second
        intro hparents
        cases hparents with
        | none => rfl
        | some hp => exact congrArg some (hstore.read_eq (.object hp))
      rw [hparent]
      exact ih _ hvalue hctx

theorem Answer.reply_inStep (answer : Answer) (hvalue : value.Pairs p other) :
    InStep p Eq (answer.reply value : Walk τ (Reply Value)) (answer.reply other)
      fun q reply same => reply.Pairs q same := by
  cases answer with
  | nothing => exact .pure (.value (.atom .null))
  | noChange => exact .pure .noChange
  | plain => exact .pure .plain
  | replace tree =>
      apply (InStep.load tree).bind
      intro q _ given same hgiven
      exact .pure (.replace hgiven)
  | value tree =>
      apply (InStep.load tree).bind
      intro q _ given same hgiven
      exact .pure (.value hgiven)
  | self replacing =>
      cases replacing with
      | true => exact .pure (.replace hvalue)
      | false => exact .pure (.value hvalue)
  | wrap type =>
      rw [Answer.reply, Answer.reply]
      cases type.text?.filter (· ≠ "") with
      | none => exact .throw _
      | some name =>
          have hnew : InStep p Eq
              (Walk.change (Store.newObject
                [("type", .atom (.text name)), ("children", value)]) : Walk τ Value)
              (Walk.change (Store.newObject
                [("type", .atom (.text name)), ("children", other)]))
              fun q given same => given.Pairs q same := by
            apply InStep.change
            intro s t hstore
            exact hstore.newObject (.cons ⟨rfl, .atom _⟩ (.cons ⟨rfl, hvalue⟩ .nil))
          apply hnew.bind
          intro q _ given same hgiven
          exact .pure (.value hgiven)
  | unwrap =>
      cases hvalue with
      | object hp =>
          apply InStep.store.bind
          intro q hle s t hstore
          exact .pure (.value (hstore.member (hle _ _ hp) "children"))
      | _ => exact .pure (.value (.atom .null))
  | affix first last =>
      have haffixed : ((Answer.affixed? first last value).getD .null).Pairs p
          ((Answer.affixed? first last other).getD .null) := by
        cases hvalue with
        | atom a => cases a <;> exact .atom _
        | _ => exact .atom .null
      exact .pure (.value haffixed)

end

theorem Hook.scripted_impartial (script : Script τ Answer) :
    (Hook.scripted script).Impartial Eq := by
  intro p value other ctx partner hvalue hctx
  apply (script.run_inStep hvalue hctx).bind
  rintro q hle ⟨answer, next⟩ ⟨_, last⟩ ⟨rfl, hnext⟩
  apply (answer.reply_inStep (hvalue.mono hle)).bind
  intro r hmore reply same hreply
  exact .pure ⟨hreply, hnext.mono hmore⟩

theorem Visitor.scripted_impartial (enter exit : Option (Script τ Answer)) :
    (Visitor.scripted enter exit).Impartial Eq := by
  intro phase hook hhook
  cases phase with
  | enter =>
      obtain ⟨script, -, rfl⟩ := Option.map_eq_some_iff.mp hhook
      exact Hook.scripted_impartial script
  | exit =>
      obtain ⟨script, -, rfl⟩ := Option.map_eq_some_iff.mp hhook
      exact Hook.scripted_impartial script

theorem Prune.setting_impartial (agree : σ → σ → Prop) (given : Tree) :
    (Prune.setting given : Prune σ).Impartial agree := by
  intro p value other ctx partner _ hctx
  apply InStep.ite
  · exact .pure ⟨rfl, hctx⟩
  · exact .throw _

/-- One trace goes on where another began, and what is kept beside them agrees. -/
def Traced.Continues (before : List Event) (agree : σ → σ → Prop) (world memory : Traced σ) :
    Prop :=
  memory.1 = before ++ world.1 ∧ agree world.2 memory.2

section

variable {before : List Event} {agree : σ → σ → Prop}

theorem Walk.zoom_inStep {walk other : Walk σ α} {post : Pairing → α → α → Prop}
    (h : InStep p agree walk other post) :
    InStep p (Traced.Continues before agree) (Walk.zoom Lens.snd walk) (Walk.zoom Lens.snd other)
      post :=
  InStep.zoom (fun first second => second = before ++ first) h

theorem Walk.trace_inStep (event : Event) :
    InStep p (Traced.Continues before agree) (Walk.trace event) (Walk.trace event)
      fun _ _ _ => True := by
  apply InStep.modifyWorld
  intro world memory hworld
  obtain ⟨htrace, hagree⟩ := hworld
  exact ⟨by simp only [htrace, List.append_assoc], hagree⟩

theorem Walk.traceIf_inStep (condition : Bool) (event : Event) :
    InStep p (Traced.Continues before agree) (Walk.traceIf condition event)
      (Walk.traceIf condition event) fun _ _ _ => True := by
  apply InStep.ite
  · exact Walk.trace_inStep event
  · exact .pure trivial

theorem Reply.Pairs.replaces_eq {reply answer : Reply Value} (h : reply.Pairs p answer) :
    reply.replaces = answer.replaces := by
  have hreplacement := h.replacement?
  unfold Reply.replaces
  revert hreplacement
  generalize (reply.settle Value.isNull).replacement? = replacement
  generalize (answer.settle Value.isNull).replacement? = given
  intro hreplacement
  cases hreplacement with
  | none => rfl
  | some _ => rfl

theorem Hook.Impartial.traced {hook : Hook σ} (h : hook.Impartial agree) (visitor : Nat)
    (phase : Phase) : (hook.traced visitor phase).Impartial (Traced.Continues before agree) := by
  intro p value other ctx partner hvalue hctx
  apply InStep.store.bind
  intro q hle s t hstore
  replace hvalue := hvalue.mono hle
  replace hctx := hctx.mono hle
  rw [hctx.view_eq hstore hvalue]
  apply (Walk.trace_inStep _).bind
  intro q hle _ _ _
  apply InStep.bind (Walk.zoom_inStep (h (hvalue.mono hle) (hctx.mono hle)))
  rintro q hle ⟨reply, next⟩ ⟨answer, last⟩ ⟨hreply, hnext⟩
  simp only at hreply hnext
  simp only [hreply.replaces_eq, hctx.depth]
  apply (Walk.traceIf_inStep _ _).bind
  intro r hmore _ _ _
  exact .pure ⟨hreply.mono hmore, hnext.mono hmore⟩

theorem Visitor.Impartial.traced {visitor : Visitor σ} (h : visitor.Impartial agree)
    (number : Nat) : (visitor.traced number).Impartial (Traced.Continues before agree) := by
  intro phase hook hhook
  rw [Visitor.hook?_traced] at hhook
  obtain ⟨own, hown, rfl⟩ := Option.map_eq_some_iff.mp hhook
  exact Hook.Impartial.traced (h phase own hown) number phase

theorem traceAll_impartial {visitors : List (Visitor σ)}
    (h : ∀ visitor ∈ visitors, visitor.Impartial agree) :
    ∀ visitor ∈ traceAll visitors, visitor.Impartial (Traced.Continues before agree) := by
  intro visitor hvisitor
  obtain ⟨number, hnumber, rfl⟩ := List.mem_mapIdx.mp hvisitor
  exact (h _ (List.getElem_mem hnumber)).traced number

theorem Prune.Impartial.traced {prune : Prune σ} (h : prune.Impartial agree) :
    prune.traced.Impartial (Traced.Continues before agree) := by
  intro p value other ctx partner hvalue hctx
  apply InStep.store.bind
  intro q hle s t hstore
  replace hvalue := hvalue.mono hle
  replace hctx := hctx.mono hle
  rw [hctx.view_eq hstore hvalue]
  apply (Walk.traceIf_inStep _ _).bind
  intro q hle _ _ _
  exact Walk.zoom_inStep (h (hvalue.mono hle) (hctx.mono hle))

end

end ViewTree
