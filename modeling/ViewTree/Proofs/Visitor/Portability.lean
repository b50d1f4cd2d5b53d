import ViewTree.Proofs.Diagnostic.Mapping
import ViewTree.Proofs.Transform.Transit
import ViewTree.Visitor.Ledger

/-!
Portable visitors.  Such a visitor works the same wherever the tree is laid out: put above another
store, it does the same, and what it keeps in mind moves along.  Scripts, recorders and binding
visitors are all portable, on their own or in a part of a larger world.
-/

namespace ViewTree

open Walk (Mirrors)

/-- How the world of a visitor moves along with the tree, and what it amounts to once all it holds is
read. -/
structure Memory (σ γ : Type) where
  move : Store → σ → σ
  shown : Store → σ → γ
  shown_move : ∀ base s world, shown (s.above base) (move base world) = shown s world

namespace Memory

def plain : Memory σ σ :=
  ⟨fun _ world => world, fun _ world => world, fun _ _ _ => rfl⟩

def transit (memory : Memory σ γ) (base : Store) : Transit σ σ :=
  ⟨base, memory.move base⟩

@[simp] theorem base_transit (memory : Memory σ γ) (base : Store) :
    (memory.transit base).base = base := rfl

@[simp] theorem session_transit_plain (base s : Store) (world : σ) :
    (plain.transit base).session ⟨s, world⟩ = ⟨s.above base, world⟩ := rfl

end Memory

def Visitor.Portable (memory : Memory σ γ) (visitor : Visitor σ) : Prop :=
  ∀ base, visitor.Mirrors (memory.transit base) visitor

def Prune.Portable (memory : Memory σ γ) (prune : Prune σ) : Prop :=
  ∀ base, prune.Mirrors (memory.transit base) prune

namespace Edit

theorem onChildren_above (base : Store) {ref : ObjectRef} {change other : List Value → List Value}
    (h : ∀ items : List Value, other (items.map (Value.above base)) =
      (change items).map (Value.above base)) (s : Store) :
    onChildren (ref.above base) other (s.above base) = (onChildren ref change s).above base := by
  unfold onChildren
  rw [Store.member_above]
  cases s.member ref "children" with
  | array children =>
      rw [Value.above_array]
      simp only [Store.items_above, h, Store.setItems_above]
  | _ => rfl

theorem apply_above (change : Edit) (base : Store) (ref : ObjectRef) (s : Store) :
    change.apply (ref.above base) (s.above base) = (change.apply ref s).above base := by
  cases change with
  | set name tree =>
      simp only [apply, Store.load_above, Store.members_above, Members.put_mapValues,
        Store.setMembers_above]
  | delete name =>
      simp only [apply, Store.members_above, Members.remove_mapValues, Store.setMembers_above]
  | setProp name tree =>
      simp only [apply, Store.load_above, Store.member_above]
      have hprops : Store.newObject [(name, (Store.load tree s).1.above base)]
          ((Store.load tree s).2.above base) =
            ((Store.newObject [(name, (Store.load tree s).1)] (Store.load tree s).2).1.above base,
              (Store.newObject [(name, (Store.load tree s).1)] (Store.load tree s).2).2.above
                base) :=
        Store.newObject_above base _ [(name, (Store.load tree s).1)]
      cases (Store.load tree s).2.member ref "props" with
      | object props =>
          simp only [Value.above_object, Store.members_above, Members.put_mapValues,
            Store.setMembers_above]
      | _ =>
          simp only [Value.above_atom, Value.above_tuple, Value.above_array, hprops,
            Store.members_above, Members.put_mapValues, Store.setMembers_above]
  | deleteProp name =>
      simp only [apply, Store.member_above]
      cases s.member ref "props" with
      | object props =>
          simp only [Value.above_object, Store.members_above, Members.remove_mapValues,
            Store.setMembers_above]
      | _ => rfl
  | append tree =>
      simp only [apply, Store.load_above]
      apply onChildren_above
      intro items
      rw [List.map_append, List.map_singleton]
  | insert tree =>
      simp only [apply, Store.load_above]
      apply onChildren_above
      intro items
      rw [List.map_cons]
  | pop =>
      simp only [apply]
      apply onChildren_above
      intro items
      exact List.map_dropLast.symm

end Edit

theorem Target.object?_above (target : Target) (base : Store) (node : Value) (ctx : Context) :
    target.object? (node.above base) (ctx.above base) =
      (target.object? node ctx).map (ObjectRef.above base) := by
  cases target with
  | parent => rfl
  | node => cases node <;> rfl

section

variable {base : Store}

theorem Action.run_mirrors (action : Action τ) (node : Value) (ctx : Context) :
    Mirrors (Memory.plain.transit base) (Context.above base) (action.run node ctx)
      (action.run (node.above base) (ctx.above base)) := by
  cases action with
  | skip => exact .pure _ ctx.skipChildren
  | mark name value => exact .pure _ (ctx.mark name value)
  | edit target change =>
      rw [Action.run, Action.run, Target.object?_above]
      cases target.object? node ctx with
      | none => exact .pure _ ctx
      | some ref =>
          have hchange : Mirrors ((Memory.plain (σ := τ)).transit base) id
              (Walk.change fun s => ((), change.apply ref s))
              (Walk.change fun s => ((), change.apply (ref.above base) s)) :=
            .change fun s => congrArg (Prod.mk ()) (change.apply_above base ref s)
          apply hchange.bind
          intro _
          exact .pure _ ctx
  | observe note =>
      rw [Action.run, Action.run]
      apply Mirrors.store.bind
      intro s
      rw [Memory.base_transit, Context.view_above]
      have hnote : Mirrors (Memory.plain.transit base) id
          (Walk.modifyWorld (note (ctx.view s node))) (Walk.modifyWorld (note (ctx.view s node))) :=
        .modifyWorld fun _ => rfl
      apply hnote.bind
      intro _
      exact .pure _ ctx
  | abandon text => exact .throw _ _

theorem Script.run_mirrors (script : Script τ ρ) (node : Value) :
    ∀ ctx : Context, Mirrors (Memory.plain.transit base) (Prod.map id (Context.above base))
      (script.run node ctx) (script.run (node.above base) (ctx.above base)) := by
  induction script with
  | done result =>
      intro ctx
      exact .pure _ (result, ctx)
  | act action rest ih =>
      intro ctx
      rw [Script.run, Script.run]
      apply (action.run_mirrors node ctx).bind
      exact ih
  | look next ih =>
      intro ctx
      rw [Script.run, Script.run]
      apply Mirrors.get.bind
      rintro ⟨s, world⟩
      rw [Memory.session_transit_plain, Context.view_above]
      exact ih _ _ ctx
  | lookUp next ih =>
      intro ctx
      rw [Script.run, Script.run]
      apply Mirrors.store.bind
      intro s
      have hparent : ((ctx.above base).parent.map fun ref => (s.above base).read (.object ref)) =
          ctx.parent.map fun ref => s.read (.object ref) := by
        rw [Context.above, Option.map_map]
        cases ctx.parent with
        | none => rfl
        | some ref => exact congrArg some (Store.read_above base s (.object ref))
      rw [Memory.base_transit, hparent]
      exact ih _ ctx

theorem Answer.reply_mirrors (answer : Answer) (node : Value) :
    Mirrors (Memory.plain.transit base) (Reply.map (Value.above base))
      (answer.reply node : Walk τ (Reply Value)) (answer.reply (node.above base)) := by
  cases answer with
  | nothing => exact .pure _ Reply.nothing
  | noChange => exact .pure _ (Reply.outcome .noChange)
  | plain => exact .pure _ (Reply.outcome .plain)
  | replace tree =>
      apply (Mirrors.load tree).bind
      intro value
      exact .pure _ (Reply.outcome (.replace value))
  | value tree =>
      apply (Mirrors.load tree).bind
      intro value
      exact .pure _ (Reply.value value)
  | self replacing =>
      cases replacing with
      | true => exact .pure _ (Reply.outcome (.replace node))
      | false => exact .pure _ (Reply.value node)
  | wrap type =>
      rw [Answer.reply, Answer.reply]
      cases type.text?.filter (· ≠ "") with
      | none => exact .throw _ _
      | some name =>
          have hnew : Mirrors ((Memory.plain (σ := τ)).transit base) (Value.above base)
              (Walk.change (Store.newObject [("type", .atom (.text name)), ("children", node)]))
              (Walk.change (Store.newObject
                [("type", .atom (.text name)), ("children", node.above base)])) :=
            .change fun s => Store.newObject_above base s
              [("type", .atom (.text name)), ("children", node)]
          apply hnew.bind
          intro value
          exact .pure _ (Reply.value value)
  | unwrap =>
      cases node with
      | object ref =>
          rw [Value.above_object, Answer.reply, Answer.reply]
          apply Mirrors.store.bind
          intro s
          rw [Memory.base_transit, Store.member_above]
          exact .pure _ (Reply.value (s.member ref "children"))
      | _ => exact .pure _ Reply.nothing
  | affix first last =>
      have haffixed : ((Answer.affixed? first last node).getD .null).above base =
          (Answer.affixed? first last (node.above base)).getD .null := by
        cases node with
        | atom a => cases a <;> rfl
        | _ => rfl
      rw [Answer.reply, Answer.reply, ← haffixed]
      exact .pure _ (Reply.value _)

end

theorem Hook.scripted_mirrors (script : Script τ Answer) (base : Store) :
    Hook.Mirrors (Memory.plain.transit base) (Hook.scripted script) (Hook.scripted script) := by
  intro node ctx
  apply (script.run_mirrors node ctx).bind
  rintro ⟨answer, next⟩
  apply (answer.reply_mirrors node).bind
  intro reply
  exact .pure _ (reply, next)

theorem Visitor.scripted_portable (enter exit : Option (Script τ Answer)) :
    (Visitor.scripted enter exit).Portable Memory.plain := by
  intro base phase
  cases phase with
  | enter =>
      cases enter with
      | none => exact .none
      | some script => exact .some (Hook.scripted_mirrors script base)
  | exit =>
      cases exit with
      | none => exact .none
      | some script => exact .some (Hook.scripted_mirrors script base)

theorem Prune.setting_portable (memory : Memory σ γ) (given : Tree) :
    (Prune.setting given).Portable memory := by
  intro base node ctx
  rw [Prune.test]
  apply Mirrors.ite
  · exact .pure _ (false, ctx)
  · exact .throw _ _

theorem Recorder.record_mirrors (base : Store) (settings : Recorder.Settings) (phase : Phase)
    (node : Value) (ctx : Context) :
    Mirrors (Memory.plain.transit base) id (record settings phase node ctx)
      (record settings phase (node.above base) (ctx.above base)) := by
  have hadd : ∀ contact : Contact, Mirrors (Memory.plain.transit base) id
      (Walk.modifyWorld (Log.add contact)) (Walk.modifyWorld (Log.add contact)) := by
    intro contact
    exact .modifyWorld fun _ => rfl
  unfold record
  apply Mirrors.store.bind
  intro s
  rw [Memory.base_transit, Store.nodeType?_above, Store.read_above]
  cases s.nodeType? node with
  | some type => exact hadd _
  | none =>
      apply Mirrors.ite
      · exact hadd _
      · exact .pure id ()

theorem recorder_portable (settings : Recorder.Settings) :
    (recorder settings).Portable Memory.plain := by
  intro base phase
  cases phase with
  | exit =>
      refine .some fun node ctx => ?_
      apply (Recorder.record_mirrors base settings .exit node ctx).bind
      intro _
      exact .pure _ (Reply.nothing, ctx)
  | enter =>
      refine .some fun node ctx => ?_
      apply (Recorder.record_mirrors base settings .enter node ctx).bind
      intro _
      apply Mirrors.store.bind
      intro s
      rw [Memory.base_transit, Store.nodeType?_above]
      cases s.nodeType? node with
      | none => exact .pure _ (Reply.nothing, ctx)
      | some type =>
          apply Mirrors.ite
          · exact .pure _ (Reply.nothing, ctx.skipChildren)
          · exact .pure _ (Reply.nothing, ctx)

def Desk.memory : Memory (Desk Value) (Desk Tree) where
  move := fun base => Desk.mapNode (Value.above base)
  shown := fun s => Desk.mapNode s.read
  shown_move := by
    intro base s desk
    have hread : (s.above base).read ∘ Value.above base = s.read := by
      funext value
      exact Store.read_above base s value
    rw [Desk.mapNode, Desk.mapNode, Policy.mapNode_mapNode, hread]
    rfl

theorem Walk.report_mirrors (base : Store) (diagnostic : Diagnostic Value) :
    Mirrors (Desk.memory.transit base) id (Walk.report diagnostic)
      (Walk.report (diagnostic.mapNode (Value.above base))) := by
  rintro ⟨s, desk⟩
  have hreport := Policy.report_mapNode (Value.above base) diagnostic desk
  simp only [Transit.session, Memory.transit, Desk.memory, Walk.report, hreport]
  cases Policy.report diagnostic desk with
  | ok _ after => rfl
  | error failure after => rfl

theorem Binding.bindProp_mirrors (base : Store) (settings : Binding.Settings) (node : Value)
    (props : ObjectRef) (name : String) (value : Value) :
    Mirrors (Desk.memory.transit base) id (bindProp settings node props name value)
      (bindProp settings (node.above base) (props.above base) name (value.above base)) := by
  unfold bindProp
  apply (Mirrors.ofExcept _).bind
  intro begins
  rw [Value.text?_above]
  apply Mirrors.ite
  · cases value.text? with
    | none => exact .pure id ()
    | some handlerName =>
        apply (Mirrors.ofExcept _).bind
        intro found
        cases found with
        | some handler => exact .write (.member props name) (.atom handler)
        | none =>
            apply Mirrors.ite
            · exact Walk.report_mirrors base (.unresolvedHandler node name handlerName)
            · exact .pure id ()
  · exact .pure id ()

theorem bindHandlers_portable (settings : Binding.Settings) :
    (bindHandlers settings).Portable Desk.memory := by
  intro base phase
  cases phase with
  | exit => exact .none
  | enter =>
      refine .some fun node ctx => ?_
      unfold Binding.enter
      apply Mirrors.store.bind
      intro s
      rw [Memory.base_transit]
      cases node with
      | object ref =>
          rw [Store.nodeType?_above, Value.above_object]
          simp only [Store.member_above, Store.isTruthy_above]
          apply Mirrors.ite
          · cases s.member ref "props" with
            | object props =>
                have hloop : Mirrors (Desk.memory.transit base) id
                    ((s.members props).forM fun member =>
                      Binding.bindProp settings (.object ref) props member.1 member.2)
                    (((s.members props).mapValues (Value.above base)).forM fun member =>
                      Binding.bindProp settings (.object (ref.above base)) (props.above base)
                        member.1 member.2) := by
                  apply Mirrors.forM
                  intro member
                  exact Binding.bindProp_mirrors base settings (.object ref) props _ _
                rw [← Store.members_above] at hloop
                apply hloop.bind
                intro _
                exact .pure _ (Reply.nothing, ctx)
            | _ => exact .throw _ _
          · exact .pure _ (Reply.nothing, ctx)
      | _ => exact .pure _ (Reply.nothing, ctx)

/-- The part a lens is for moves along with the whole. -/
structure Lens.Carries (lens : Lens ρ σ) (whole : Memory ρ κ) (part : Memory σ γ) : Prop where
  get : ∀ base world, lens.get (whole.move base world) = part.move base (lens.get world)
  set : ∀ base given world, lens.set (part.move base given) (whole.move base world) =
    whole.move base (lens.set given world)

variable {lens : Lens ρ σ} {whole : Memory ρ κ} {part : Memory σ γ}

theorem Walk.zoom_mirrors (hlens : lens.Carries whole part) {base : Store} {f : α → β}
    {walk : Walk σ α} {image : Walk σ β} (h : Mirrors (part.transit base) f walk image) :
    Mirrors (whole.transit base) f (Walk.zoom lens walk) (Walk.zoom lens image) := by
  rintro ⟨s, world⟩
  have hpart := h ⟨s, lens.get world⟩
  simp only [Transit.session, Memory.transit] at hpart
  simp only [Transit.session, Memory.transit, Walk.zoom, hlens.get, hpart]
  cases walk ⟨s, lens.get world⟩ with
  | ok value after =>
      simp only [Transit.result, Transit.session, hlens.set]
  | error failure after =>
      simp only [Transit.result, Transit.session, hlens.set]

theorem Visitor.Portable.zoom {visitor : Visitor σ} (h : visitor.Portable part)
    (hlens : lens.Carries whole part) : (visitor.zoom lens).Portable whole := by
  intro base phase
  rw [hook?_zoom]
  refine rel_map (fun hook image hhook => ?_) (h base phase)
  exact fun node ctx => Walk.zoom_mirrors hlens (hhook node ctx)

end ViewTree
