import ViewTree.Proofs.Transform.Reading
import ViewTree.Visitor.Script

namespace ViewTree

open Store (Cell)

namespace Action

def meaning : Action τ → View → Course τ View
  | .skip, view => return { view with skipping := true }
  | .mark name value, view => return { view with attributes := view.attributes.put name value }
  | .edit _ _, view => return view
  | .observe note, view => do
    modify (note view)
    return view
  | .abandon text, _ => throw (.abandoned text)

def isQuiet : Action τ → Bool
  | .edit _ _ => false
  | _ => true

end Action

/-- What an answer says of a node. -/
def Answer.meaning (node : Tree) : Answer → Course τ (Reply Tree)
  | .nothing => return .value .null
  | .noChange => return .outcome .noChange
  | .plain => return .outcome .plain
  | .replace given => return .outcome (.replace given)
  | .value given => return .value given
  | .self true => return .outcome (.replace node)
  | .self false => return .value node
  | .wrap type =>
    match type.text?.filter (· ≠ "") with
    | none => throw (.invalidType type)
    | some name => return .value (.object [("type", .text name), ("children", node)])
  | .unwrap => return .value (node.member "children")
  | .affix before after =>
    match node with
    | .atom (.text text) => return .value (.text (before ++ text ++ after))
    | .atom (.int n) => return .value (.text (before ++ toString n ++ after))
    | _ => return .value .null

namespace Script

/-- A script that edits nothing and does not look at the parent. -/
inductive Quiet : Script τ ρ → Prop
  | done (result : ρ) : Quiet (.done result)
  | act {action : Action τ} {rest : Script τ ρ} (haction : action.isQuiet = true)
      (hrest : Quiet rest) : Quiet (.act action rest)
  | look {next : View → τ → Script τ ρ} (hnext : ∀ view memory, Quiet (next view memory)) :
      Quiet (.look next)

def meaning : Script τ ρ → Meaning τ ρ
  | .done result, view => return (result, view)
  | .act action rest, view => do meaning rest (← action.meaning view)
  | .look next, view => do
    let memory ← get
    meaning (next view memory) view
  | .lookUp next, view => meaning (next none) view

end Script

theorem Action.run_follows {action : Action τ} (haction : action.isQuiet = true) (s : Store)
    (memory : τ) (node : Value) (ctx : Context) :
    Walk.Follows (action.run node ctx) (action.meaning (ctx.view s node)) ⟨s, memory⟩
      fun next seen after => after = s ∧ next.parent = ctx.parent ∧ next.view s node = seen := by
  cases action with
  | skip => exact .pure ⟨rfl, rfl, rfl⟩
  | mark name value => exact .pure ⟨rfl, rfl, rfl⟩
  | edit target change => cases haction
  | observe note => exact .of_ok rfl rfl ⟨rfl, rfl, rfl⟩
  | abandon text => exact .throw _

theorem Script.run_follows {script : Script τ ρ} (hquiet : script.Quiet) (s : Store)
    (node : Value) :
    ∀ (memory : τ) (ctx : Context),
      Walk.Follows (script.run node ctx) (script.meaning (ctx.view s node)) ⟨s, memory⟩
        fun given said after => after = s ∧ given.2.parent = ctx.parent ∧
          given.2.view s node = said.2 ∧ given.1 = said.1 := by
  induction hquiet with
  | done result => exact fun _ _ => .pure ⟨rfl, rfl, rfl, rfl⟩
  | act haction _ ih =>
      intro memory ctx
      refine (Action.run_follows haction s memory node ctx).bind ?_
      rintro next seen ⟨store, memory⟩ ⟨hstore, hparent, rfl⟩
      obtain rfl : s = store := hstore.symm
      exact (ih memory next).mono fun given said after ⟨hsame, hgiven, hseen⟩ =>
        ⟨hsame, hgiven.trans hparent, hseen⟩
  | look _ ih => exact fun memory ctx => .bind_ok rfl rfl (ih _ memory memory ctx)

/-- The reply made for a node says what the answer says of its tree. -/
theorem Answer.reply_follows (answer : Answer) {s : Store} {t : Tree} {node : Value}
    {cells : List Cell} (h : s.Shows t node cells) (memory : τ) :
    Walk.Follows (answer.reply node) (answer.meaning t) ⟨s, memory⟩
      fun reply said after => s.Extends after ∧ Reply.Rel (s.MadeOf cells after) reply said := by
  have hnull : s.MadeOf cells s .null .null := ⟨[], .atom .null, by simp⟩
  have hself : s.MadeOf cells s node t := ⟨cells, h, fun _ => Or.inl⟩
  have hgiven : ∀ given : Tree, s.Extends (Store.load given s).2 ∧
      s.MadeOf cells (Store.load given s).2 (Store.load given s).1 given := fun given =>
    have ⟨hextends, parts, hshows, hfresh⟩ := Store.load_shows given s
    ⟨hextends, parts, hshows, fun cell hcell => .inr (hfresh.new cell hcell)⟩
  cases answer with
  | nothing => exact .pure ⟨.refl s, .value hnull⟩
  | noChange => exact .pure ⟨.refl s, .noChange⟩
  | plain => exact .pure ⟨.refl s, .plain⟩
  | replace given => exact .of_ok rfl rfl ⟨(hgiven given).1, .replace (hgiven given).2⟩
  | value given => exact .of_ok rfl rfl ⟨(hgiven given).1, .value (hgiven given).2⟩
  | self replacing =>
      cases replacing with
      | true => exact .pure ⟨.refl s, .replace hself⟩
      | false => exact .pure ⟨.refl s, .value hself⟩
  | wrap type =>
      rw [Answer.reply, Answer.meaning]
      cases type.text?.filter (· ≠ "") with
      | none => exact .throw _
      | some name =>
          let members : Members Value := [("type", .atom (.text name)), ("children", node)]
          have hextends := Store.newObject_extends members s
          have hmembers : (Store.newObject members s).2.ShowsMembers
              [("type", .text name), ("children", t)]
              ((Store.newObject members s).2.members ⟨s.objects.size⟩) ([] ++ (cells ++ [])) := by
            rw [Store.members_newObject_self]
            exact .cons (.atom (.text name)) (.cons (hextends.shows h) .nil)
          refine .of_ok rfl rfl ⟨hextends,
            .value ⟨_, .object (Store.newObject_contains members s) hmembers, ?_⟩⟩
          simp only [List.nil_append, List.append_nil, List.mem_cons]
          rintro cell (rfl | hcell)
          · exact .inr (Nat.lt_irrefl _)
          · exact .inl hcell
  | unwrap =>
      cases h with
      | @object trees ref rest has members =>
          obtain ⟨parts, hmember, hsub⟩ := members.member "children"
          have hchildren : s.MadeOf (.object ref :: rest) s (s.member ref "children")
              ((Tree.object trees).member "children") :=
            ⟨parts, hmember, fun cell hcell => .inl (List.mem_cons_of_mem _ (hsub.subset hcell))⟩
          exact .of_ok rfl rfl ⟨.refl s, .value hchildren⟩
      | _ => exact .pure ⟨.refl s, .value hnull⟩
  | affix before after =>
      have htext : ∀ text : String, s.MadeOf cells s (.atom (.text text)) (.text text) :=
        fun text => ⟨[], .atom _, by simp⟩
      cases h with
      | atom a =>
          cases a with
          | text text => exact .pure ⟨.refl s, .value (htext _)⟩
          | int n => exact .pure ⟨.refl s, .value (htext _)⟩
          | _ => exact .pure ⟨.refl s, .value hnull⟩
      | _ => exact .pure ⟨.refl s, .value hnull⟩

def Glance.scripted (script : Script τ Answer) (hquiet : script.Quiet) : Glance τ where
  hook := Hook.scripted script
  meaning := fun view => do
    let (answer, seen) ← script.meaning view
    return (← answer.meaning view.node, seen)
  reads := by
    intro s memory t node cells ctx h
    refine (Script.run_follows hquiet s node memory ctx).bind ?_
    rintro ⟨answer, next⟩ ⟨_, seen⟩ ⟨store, memory⟩ ⟨hstore, hparent, hseen, rfl⟩
    obtain rfl : s = store := hstore.symm
    have hnode : (ctx.view s node).node = t := h.read_eq
    rw [hnode]
    refine (answer.reply_follows h memory).bind fun reply said after hafter => .pure ?_
    exact ⟨hafter.1, hparent, hseen, hafter.2⟩

def Onlooker.scripted (enter : Script τ Answer) (henter : enter.Quiet) (exit : Script τ Answer)
    (hexit : exit.Quiet) : Onlooker τ :=
  { enter? := some (.scripted enter henter), exit? := some (.scripted exit hexit) }

def Caution.scripted (script : Script τ Bool) (hquiet : script.Quiet) : Caution τ where
  prune := Prune.scripted script
  meaning := script.meaning
  reads := fun s memory _ node _ ctx _ =>
    (Script.run_follows hquiet s node memory ctx).mono fun _ _ _ ⟨hsame, hparent, hseen, hcut⟩ =>
      ⟨hsame ▸ .refl s, hparent, hseen, hcut⟩

def Caution.setting (given : Tree) : Caution τ where
  prune := .setting given
  meaning := fun view =>
    if given.isNull || given.isCallable then return (false, view) else throw .notCallable
  reads := by
    intro s memory t node cells ctx h
    simp only [Prune.test]
    split
    · exact .pure ⟨.refl s, rfl, rfl, rfl⟩
    · exact .throw _

end ViewTree
