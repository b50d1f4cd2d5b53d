import ViewTree.Proofs.Store.Guarding
import ViewTree.Proofs.Walk.Upholding
import ViewTree.Visitor.Ledger

/-!
Discreet visitors.  Such a visitor may do to its node and to the parent what it likes, but it gets at
other cells through these two only.  Scripts, recorders and binding visitors are all discreet, on
their own or in a part of a larger world.
-/

namespace ViewTree

open Store (Cell)
open Walk (Keeps Upholds)

/-- Guarded cells are as they were in an earlier store. -/
def Sparing (guarded : Cell → Prop) (before : Store) (session : Session σ) : Prop :=
  before.Spares guarded session.store

/-- Whoever is asked about a node gets at no guarded cell unless the node or its parent lets him, and
leaves the position of the visit alone. -/
def Discreet (guarded : Cell → Prop) (ask : Value → Context → Walk σ (α × Context))
    (fits : α → Prop) : Prop :=
  ∀ (before : Store) {node : Value} {ctx : Context}, node.Avoids guarded →
    (∀ ref ∈ ctx.parent, ¬ guarded (.object ref)) →
    Keeps (Sparing guarded before) (ask node ctx) fun given =>
      fits given.1 ∧ given.2.parent = ctx.parent ∧ given.2.depth = ctx.depth

/-- The context of a visit as far as nobody may change it. -/
structure Context.IsAt (ctx : Context) (parent : Option ObjectRef) (depth : Nat) : Prop where
  parent : ctx.parent = parent
  depth : ctx.depth = depth

theorem Slot.isAt_context (slot : Slot) (depth : Nat) :
    (slot.context depth).IsAt slot.parent depth :=
  ⟨rfl, rfl⟩

def Reply.Avoids (guarded : Cell → Prop) : Reply Value → Prop
  | .outcome (.replace node) => node.Avoids guarded
  | .outcome .noChange | .outcome .plain => True
  | .value node => node.Avoids guarded

def Visitor.Discreet (guarded : Cell → Prop) (visitor : Visitor σ) : Prop :=
  ∀ phase, ∀ hook ∈ visitor.hook? phase, ViewTree.Discreet guarded hook (Reply.Avoids guarded)

def Prune.Discreet (guarded : Cell → Prop) (prune : Prune σ) : Prop :=
  ViewTree.Discreet guarded prune.test fun _ => True

variable {guarded : Cell → Prop}

theorem Reply.Avoids.settle {reply : Reply Value} (h : reply.Avoids guarded) :
    ∀ value ∈ (reply.settle Value.isNull).replacement?, value.Avoids guarded := by
  intro value hvalue
  cases reply with
  | outcome result =>
      cases result with
      | replace node =>
          cases hvalue
          exact h
      | noChange => cases hvalue
      | plain => cases hvalue
  | value given =>
      simp only [Reply.settle] at hvalue
      split at hvalue
      · cases hvalue
      · cases hvalue
        exact h

theorem write_keeps (before : Store) {place : Place} (hplace : ¬ guarded place.cell)
    {value : Value} (hvalue : value.Avoids guarded) :
    Keeps (Sparing guarded before) (Walk.write place value : Walk σ Unit) fun _ => True := by
  rintro ⟨s, world⟩ hsession
  exact .write (fun _ => ⟨hsession.trans (hsession.guards.write hplace hvalue), trivial⟩)
    fun _ => hsession

theorem load_keeps (before : Store) (tree : Tree) :
    Keeps (Sparing guarded before) (Walk.load tree : Walk σ Value) (Value.Avoids guarded) := by
  rintro ⟨s, world⟩ hsession
  obtain ⟨hload, hvalue⟩ := Store.load_spares tree hsession.guards
  exact ⟨hsession.trans hload, hvalue⟩

theorem Edit.onChildren_spares {s : Store} (h : s.Guards guarded) {ref : ObjectRef}
    (href : ¬ guarded (.object ref)) {change : List Value → List Value}
    (hchange : ∀ items : List Value, (∀ value ∈ items, value.Avoids guarded) →
      ∀ value ∈ change items, value.Avoids guarded) :
    s.Spares guarded (onChildren ref change s) := by
  have hmember := h.member href "children"
  unfold onChildren
  split
  · next children hchildren =>
      rw [hchildren] at hmember
      exact h.setItems hmember (hchange _ (h.items children hmember))
  · exact h.spares

theorem Edit.remove_spares {s : Store} (h : s.Guards guarded) {ref : ObjectRef}
    (href : ¬ guarded (.object ref)) (name : String) :
    s.Spares guarded (s.setMembers ref ((s.members ref).remove name)) := by
  apply h.setMembers href
  intro member hmember
  exact h.members ref href member (List.mem_of_mem_filter hmember)

theorem Edit.put_spares {s : Store} (h : s.Guards guarded) {ref : ObjectRef}
    (href : ¬ guarded (.object ref)) (name : String) {value : Value}
    (hvalue : value.Avoids guarded) :
    s.Spares guarded (s.setMembers ref ((s.members ref).put name value)) := by
  have hplace : ¬ guarded (Place.member ref name).cell := href
  exact h.write hplace hvalue

theorem Edit.apply_spares (change : Edit) {s : Store} (h : s.Guards guarded) {ref : ObjectRef}
    (href : ¬ guarded (.object ref)) : s.Spares guarded (change.apply ref s) := by
  cases change with
  | set name tree =>
      obtain ⟨hload, hvalue⟩ := Store.load_spares tree h
      exact hload.trans (put_spares hload.guards href name hvalue)
  | delete name => exact remove_spares h href name
  | setProp name tree =>
      obtain ⟨hload, hvalue⟩ := Store.load_spares tree h
      have hprops := hload.guards.member href "props"
      have hmembers : ∀ member ∈ [(name, (Store.load tree s).1)], member.2.Avoids guarded := by
        simpa using hvalue
      obtain ⟨hnew, hnewProps⟩ := hload.guards.newObject hmembers
      have hfresh := hnew.trans (put_spares hnew.guards href "props" hnewProps)
      apply hload.trans
      rw [Edit.apply]
      cases hobject : (Store.load tree s).2.member ref "props" with
      | object props =>
          rw [hobject] at hprops
          simp only [hobject]
          exact put_spares hload.guards hprops name hvalue
      | _ =>
          simp only [hobject]
          exact hfresh
  | deleteProp name =>
      have hprops := h.member href "props"
      rw [Edit.apply]
      cases hobject : s.member ref "props" with
      | object props =>
          rw [hobject] at hprops
          exact remove_spares h hprops name
      | _ => exact h.spares
  | append tree =>
      obtain ⟨hload, hvalue⟩ := Store.load_spares tree h
      have hchange : ∀ items : List Value, (∀ value ∈ items, value.Avoids guarded) →
          ∀ value ∈ items ++ [(Store.load tree s).1], value.Avoids guarded := by
        intro items hitems value hmem
        rcases List.mem_append.mp hmem with hmem | hmem
        · exact hitems value hmem
        · rw [List.mem_singleton.mp hmem]
          exact hvalue
      exact hload.trans (onChildren_spares hload.guards href hchange)
  | insert tree =>
      obtain ⟨hload, hvalue⟩ := Store.load_spares tree h
      have hchange : ∀ items : List Value, (∀ value ∈ items, value.Avoids guarded) →
          ∀ value ∈ (Store.load tree s).1 :: items, value.Avoids guarded := by
        intro items hitems value hmem
        rcases List.mem_cons.mp hmem with rfl | hmem
        · exact hvalue
        · exact hitems value hmem
      exact hload.trans (onChildren_spares hload.guards href hchange)
  | pop =>
      apply onChildren_spares h href
      intro items hitems value hmem
      exact hitems value (List.mem_of_mem_dropLast hmem)

theorem Target.object?_avoids (target : Target) {node : Value} (hnode : node.Avoids guarded)
    {ctx : Context} (hctx : ∀ ref ∈ ctx.parent, ¬ guarded (.object ref)) :
    ∀ ref ∈ target.object? node ctx, ¬ guarded (.object ref) := by
  intro ref href
  cases target with
  | parent => exact hctx ref href
  | node =>
      cases node with
      | object other =>
          cases href
          exact hnode
      | _ => cases href

theorem Action.run_keeps (before : Store) (action : Action τ) {node : Value}
    (hnode : node.Avoids guarded) {ctx : Context}
    (hctx : ∀ ref ∈ ctx.parent, ¬ guarded (.object ref)) :
    Keeps (Sparing guarded before) (action.run node ctx) fun next =>
      next.parent = ctx.parent ∧ next.depth = ctx.depth := by
  cases action with
  | skip => exact .pure ⟨rfl, rfl⟩
  | mark name value => exact .pure ⟨rfl, rfl⟩
  | edit target change =>
      have htarget := target.object?_avoids hnode hctx
      rw [Action.run]
      cases hobject : target.object? node ctx with
      | none => exact .pure ⟨rfl, rfl⟩
      | some ref =>
          rintro ⟨s, world⟩ hsession
          have happly := change.apply_spares hsession.guards (htarget ref hobject)
          exact ⟨hsession.trans happly, rfl, rfl⟩
  | observe note =>
      rintro ⟨s, world⟩ hsession
      exact ⟨hsession, rfl, rfl⟩
  | abandon text => exact .throw fun _ => id

theorem Script.run_keeps (before : Store) (script : Script τ ρ) {node : Value}
    (hnode : node.Avoids guarded) :
    ∀ {ctx : Context}, (∀ ref ∈ ctx.parent, ¬ guarded (.object ref)) →
      Keeps (Sparing guarded before) (script.run node ctx) fun given =>
        given.2.parent = ctx.parent ∧ given.2.depth = ctx.depth := by
  induction script with
  | done result =>
      intro ctx _
      exact .pure ⟨rfl, rfl⟩
  | act action rest ih =>
      intro ctx hctx
      rw [Script.run]
      apply (action.run_keeps before hnode hctx).bind
      rintro next ⟨hparent, hdepth⟩
      apply (ih (hparent ▸ hctx)).mono
      rintro given ⟨hsame, hlevel⟩
      exact ⟨hsame.trans hparent, hlevel.trans hdepth⟩
  | look next ih =>
      rintro ctx hctx ⟨s, world⟩ hsession
      exact ih _ _ hctx ⟨s, world⟩ hsession
  | lookUp next ih =>
      rintro ctx hctx ⟨s, world⟩ hsession
      exact ih _ hctx ⟨s, world⟩ hsession

theorem Answer.reply_keeps (before : Store) (answer : Answer) {node : Value}
    (hnode : node.Avoids guarded) :
    Keeps (Sparing guarded before) (answer.reply node : Walk τ (Reply Value))
      (Reply.Avoids guarded) := by
  cases answer with
  | nothing => exact .pure trivial
  | noChange => exact .pure trivial
  | plain => exact .pure trivial
  | replace tree => exact (load_keeps before tree).bind fun value hvalue => .pure hvalue
  | value tree => exact (load_keeps before tree).bind fun value hvalue => .pure hvalue
  | self replacing =>
      cases replacing with
      | true => exact .pure hnode
      | false => exact .pure hnode
  | wrap type =>
      rw [Answer.reply]
      cases type.text?.filter (· ≠ "") with
      | none => exact .throw fun _ => id
      | some name =>
          rintro ⟨s, world⟩ hsession
          have hmembers : ∀ member ∈ [("type", Value.atom (.text name)), ("children", node)],
              member.2.Avoids guarded := by
            simpa using ⟨trivial, hnode⟩
          obtain ⟨hnew, hvalue⟩ := hsession.guards.newObject hmembers
          exact ⟨hsession.trans hnew, hvalue⟩
  | unwrap =>
      cases node with
      | object ref =>
          rintro ⟨s, world⟩ hsession
          exact ⟨hsession, hsession.guards.member hnode "children"⟩
      | _ => exact .pure trivial
  | affix first last =>
      apply Upholds.pure
      cases node with
      | atom a => cases a <;> exact trivial
      | _ => exact trivial

theorem Hook.scripted_discreet (script : Script τ Answer) :
    Discreet guarded (Hook.scripted script) (Reply.Avoids guarded) := by
  intro before node ctx hnode hctx
  apply (script.run_keeps before hnode hctx).bind
  rintro ⟨answer, next⟩ ⟨hparent, hdepth⟩
  apply (answer.reply_keeps before hnode).bind
  intro reply hreply
  exact .pure ⟨hreply, hparent, hdepth⟩

theorem Visitor.scripted_discreet (enter exit : Option (Script τ Answer)) :
    (Visitor.scripted enter exit).Discreet guarded := by
  intro phase hook hhook
  have hscript : ∃ script, hook = Hook.scripted script := by
    cases phase with
    | enter =>
        obtain ⟨script, -, rfl⟩ := Option.mem_map.mp hhook
        exact ⟨script, rfl⟩
    | exit =>
        obtain ⟨script, -, rfl⟩ := Option.mem_map.mp hhook
        exact ⟨script, rfl⟩
  obtain ⟨script, rfl⟩ := hscript
  exact Hook.scripted_discreet script

theorem Prune.setting_discreet (given : Tree) :
    (Prune.setting given : Prune σ).Discreet guarded := by
  intro before node ctx _ _
  rw [Prune.test]
  apply Upholds.ite
  · intro _
    exact .pure ⟨trivial, rfl, rfl⟩
  · intro _
    exact .throw fun _ => id

theorem modifyWorld_keeps (before : Store) (change : σ → σ) :
    Keeps (Sparing guarded before) (Walk.modifyWorld change) fun _ => True := by
  rintro ⟨s, world⟩ hsession
  exact ⟨hsession, trivial⟩

theorem Recorder.record_keeps (before : Store) (settings : Recorder.Settings) (phase : Phase)
    (node : Value) (ctx : Context) :
    Keeps (Sparing guarded before) (record settings phase node ctx) fun _ => True := by
  unfold record
  apply Upholds.store.bind
  intro s _
  cases s.nodeType? node with
  | some type => exact modifyWorld_keeps before _
  | none =>
      apply Upholds.ite
      · intro _
        exact modifyWorld_keeps before _
      · intro _
        exact .pure trivial

theorem recorder_discreet (settings : Recorder.Settings) :
    (recorder settings).Discreet guarded := by
  intro phase hook hhook before node ctx _ _
  have hrecord : Keeps (Sparing guarded before) (Recorder.record settings phase node ctx)
      fun _ => True := Recorder.record_keeps before settings phase node ctx
  cases phase with
  | exit =>
      cases hhook
      exact hrecord.bind fun _ _ => .pure ⟨trivial, rfl, rfl⟩
  | enter =>
      cases hhook
      apply hrecord.bind
      intro _ _
      apply Upholds.store.bind
      intro s _
      cases s.nodeType? node with
      | none => exact .pure ⟨trivial, rfl, rfl⟩
      | some type =>
          apply Upholds.ite
          · intro _
            exact .pure ⟨trivial, rfl, rfl⟩
          · intro _
            exact .pure ⟨trivial, rfl, rfl⟩

theorem Walk.report_keeps (before : Store) (diagnostic : Diagnostic Value) :
    Keeps (Sparing guarded before) (Walk.report diagnostic) fun _ => True := by
  rintro ⟨s, desk⟩ hsession
  unfold Walk.Ends Walk.report
  dsimp only
  cases Policy.report diagnostic desk with
  | ok _ desk => exact ⟨hsession, trivial⟩
  | error failure desk => exact hsession

theorem Binding.bindProp_keeps (before : Store) (settings : Binding.Settings) (node : Value)
    {props : ObjectRef} (hprops : ¬ guarded (.object props)) (name : String) (value : Value) :
    Keeps (Sparing guarded before) (bindProp settings node props name value)
      fun _ => True := by
  unfold bindProp
  apply (Upholds.ofExcept fun _ _ _ => id).bind
  intro begins _
  apply Upholds.ite
  · intro _
    cases value.text? with
    | none => exact .pure trivial
    | some handlerName =>
        apply (Upholds.ofExcept fun _ _ _ => id).bind
        intro found _
        cases found with
        | some handler =>
            have hplace : ¬ guarded (Place.member props name).cell := hprops
            have hvalue : (Value.atom handler).Avoids guarded := trivial
            exact write_keeps before hplace hvalue
        | none =>
            apply Upholds.ite
            · intro _
              exact Walk.report_keeps before _
            · intro _
              exact .pure trivial
  · intro _
    exact .pure trivial

theorem bindHandlers_discreet (settings : Binding.Settings) :
    (bindHandlers settings).Discreet guarded := by
  intro phase hook hhook before node ctx hnode _
  cases phase with
  | exit => cases hhook
  | enter =>
      cases hhook
      unfold Binding.enter
      apply Upholds.store.bind
      rintro s ⟨world, hsession⟩
      cases node with
      | object ref =>
          apply Upholds.ite
          · intro _
            have hmember := hsession.guards.member hnode "props"
            cases hprops : s.member ref "props" with
            | object props =>
                rw [hprops] at hmember
                have hbind : ∀ entry ∈ s.members props, Keeps (Sparing guarded before)
                    (Binding.bindProp settings (.object ref) props entry.1 entry.2)
                    fun _ => True := by
                  intro entry _
                  exact Binding.bindProp_keeps before settings _ hmember entry.1 entry.2
                exact (Upholds.forM hbind).bind fun _ _ => .pure ⟨trivial, rfl, rfl⟩
            | _ => exact .throw fun _ => id
          · intro _
            exact .pure ⟨trivial, rfl, rfl⟩
      | _ => exact .pure ⟨trivial, rfl, rfl⟩

theorem Walk.zoom_keeps {before : Store} (lens : Lens ρ σ) {walk : Walk σ α} {post : α → Prop}
    (h : Keeps (Sparing guarded before) walk post) :
    Keeps (Sparing guarded before) (Walk.zoom lens walk) post := by
  rintro ⟨s, world⟩ hsession
  exact .zoom (h ⟨s, lens.get world⟩ hsession)

theorem Visitor.Discreet.zoom {visitor : Visitor σ} (h : visitor.Discreet guarded)
    (lens : Lens ρ σ) : (visitor.zoom lens).Discreet guarded := by
  intro phase hook hhook before node ctx hnode hctx
  cases phase with
  | enter =>
      obtain ⟨inner, hinner, rfl⟩ := Option.mem_map.mp hhook
      exact Walk.zoom_keeps lens (h .enter inner hinner before hnode hctx)
  | exit =>
      obtain ⟨inner, hinner, rfl⟩ := Option.mem_map.mp hhook
      exact Walk.zoom_keeps lens (h .exit inner hinner before hnode hctx)

end ViewTree
