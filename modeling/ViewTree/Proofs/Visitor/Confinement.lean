import ViewTree.Proofs.Store.Nearness
import ViewTree.Proofs.Store.Outline
import ViewTree.Proofs.Walk.Upholding
import ViewTree.Visitor.Script

namespace ViewTree

open Store (Cell)

namespace Walk

/-- A walk confines itself to a node and its parent, in what it changes and in what it offers. -/
def Confined (node : Value) (parent : Option ObjectRef) (walk : Walk σ α)
    (offers : α → Option Value) (post : α → Prop) : Prop :=
  ∀ (s : Store) (world : σ), s.Settled node parent → walk.Ends ⟨s, world⟩
    (fun value after => s.Stirs node parent after.store ∧
      (∀ given, offers value = some given → s.Offers node parent after.store given) ∧ post value)
    fun failure _ => failure ≠ .exhausted

namespace Confined

variable {node : Value} {parent : Option ObjectRef} {walk : Walk σ α} {offers : α → Option Value}
  {post : α → Prop}

theorem of_ok (h : ∀ (s : Store) (world : σ), s.Settled node parent →
      ∃ value after, walk ⟨s, world⟩ = .ok value after ∧ s.Stirs node parent after.store ∧
        (∀ given, offers value = some given → s.Offers node parent after.store given) ∧
        post value) :
    Confined node parent walk offers post := by
  intro s world hsettled
  obtain ⟨value, after, hwalk, hafter⟩ := h s world hsettled
  exact (Ends.iff_of_ok hwalk).mpr hafter

theorem pure {value : α} (hoffers : offers value = none) (hpost : post value) :
    Confined node parent (Pure.pure value : Walk σ α) offers post := by
  intro s world hsettled
  refine ⟨(Store.Extends.refl s).stirs hsettled, fun given hgiven => ?_, hpost⟩
  rw [hoffers] at hgiven
  cases hgiven

theorem throw {failure : Failure} (h : failure ≠ .exhausted) :
    Confined node parent (MonadExcept.throw failure : Walk σ α) offers post := by
  intro s world _
  exact h

theorem mono {weaker : α → Prop} (h : Confined node parent walk offers post)
    (hpost : ∀ value, post value → weaker value) : Confined node parent walk offers weaker := by
  intro s world hsettled
  apply (h s world hsettled).mono
  rintro value after ⟨hstirs, hoffers, hvalue⟩
  exact ⟨hstirs, hoffers, hpost value hvalue⟩

theorem bind_or {next : α → Walk σ β} {more : β → Option Value} {goal : β → Prop}
    (h : Confined node parent walk offers post)
    (hnext : ∀ value, offers value = none → post value →
      Confined node parent (next value) more goal)
    (hlast : ∀ value given, offers value = some given → post value →
      ∃ result, next value = Pure.pure result ∧ more result = some given ∧ goal result) :
    Confined node parent (walk >>= next) more goal := by
  intro s world hsettled
  apply (h s world hsettled).bind
  rintro value ⟨middle, world⟩ ⟨hstirs, hoffers, hpost⟩
  cases hgiven : offers value with
  | some given =>
      obtain ⟨result, hresult, hmore, hgoal⟩ := hlast value given hgiven hpost
      rw [hresult]
      refine ⟨hstirs, fun other hother => ?_, hgoal⟩
      rw [hmore] at hother
      exact Option.some.inj hother ▸ hoffers given hgiven
  | none =>
      apply (hnext value hgiven hpost middle world (hstirs.settled hsettled)).mono
      rintro result last ⟨hmore, hmoreOffers, hgoal⟩
      exact ⟨hstirs.trans hmore, fun given hother =>
        hstirs.offers hmore.grows (hmoreOffers given hother), hgoal⟩

theorem bind {next : α → Walk σ β} {more : β → Option Value} {goal : β → Prop}
    (h : Confined node parent walk (fun _ => none) post)
    (hnext : ∀ value, post value → Confined node parent (next value) more goal) :
    Confined node parent (walk >>= next) more goal := by
  apply h.bind_or
  · intro value _ hpost
    exact hnext value hpost
  · intro value given hgiven
    cases hgiven

end Confined

end Walk

/-- What a hook replies, it replies for a node that is no array and that stays where it is. -/
def Hook.Confined (hook : Hook σ) : Prop :=
  ∀ (node : Value) (ctx : Context), (∀ ref, node ≠ .array ref) →
    Walk.Confined node ctx.parent (hook node ctx)
      (fun given => (given.1.settle Value.isNull).replacement?)
      fun given => given.2.stand node = ctx.stand node

def Visitor.Confined (visitor : Visitor σ) : Prop :=
  ∀ phase, ∀ hook ∈ visitor.hook? phase, hook.Confined

theorem Context.parent_of_stand {ctx next : Context} {node : Value}
    (h : next.stand node = ctx.stand node) : next.parent = ctx.parent :=
  congrArg Stand.parent h

theorem runHooks_confined {hooks : List (Hook σ)} (h : ∀ hook ∈ hooks, hook.Confined)
    {node : Value} (hnode : ∀ ref, node ≠ .array ref) (ctx : Context) :
    Walk.Confined node ctx.parent (runHooks hooks node ctx) Prod.fst
      fun given => given.2.stand node = ctx.stand node := by
  induction hooks generalizing ctx with
  | nil => exact .pure rfl rfl
  | cons hook rest ih =>
      rw [runHooks]
      apply (h hook List.mem_cons_self node ctx hnode).bind_or
      · intro given hnone hstand
        have hrest := ih (fun other hother => h other (List.mem_cons_of_mem _ hother)) given.2
        rw [Context.parent_of_stand hstand] at hrest
        simp only [hnone]
        exact hrest.mono fun _ hlast => hlast.trans hstand
      · intro given replacement hsome hstand
        exact ⟨(some replacement, given.2), by simp only [hsome], rfl, hstand⟩

theorem runPhase_confined {visitors : List (Visitor σ)}
    (h : ∀ visitor ∈ visitors, visitor.Confined) (phase : Phase) {node : Value}
    (hnode : ∀ ref, node ≠ .array ref) (ctx : Context) :
    Walk.Confined node ctx.parent (runPhase phase visitors node ctx) Prod.fst
      fun given => given.2.stand node = ctx.stand node := by
  apply runHooks_confined _ hnode
  intro hook hhook
  obtain ⟨visitor, hvisitor, hhook⟩ := List.mem_filterMap.mp hhook
  exact h visitor hvisitor phase hook hhook

namespace Store

structure Alters (s : Store) (ref : ObjectRef) (after : Store) : Prop where
  derives : s.Derives after
  agrees : AgreesOn (fun cell => s.Contains cell ∧ ¬ s.Near ref cell) s after

namespace Alters

variable {s middle : Store} {ref : ObjectRef}

theorem refl (s : Store) (ref : ObjectRef) : s.Alters ref s :=
  ⟨.refl s, .refl _ s⟩

theorem load (h : s.Alters ref middle) (tree : Tree) :
    s.Alters ref (load tree middle).2 ∧ (load tree middle).1.IsNew s (load tree middle).2 := by
  obtain ⟨hderives, hnew⟩ := h.derives.load tree
  have hagrees := (load_shows tree middle).1.agrees.mono
    fun cell (hcell : s.Contains cell ∧ ¬ s.Near ref cell) => h.derives.grows.contains hcell.1
  exact ⟨⟨hderives, h.agrees.trans hagrees⟩, hnew⟩

/-- What is near the object now was near it or is new, so writing there is altering it. -/
theorem agrees_of_near (h : s.Alters ref middle) {cell : Cell} (hcell : middle.Near ref cell)
    {after : Store} (hagrees : AgreesOn (· ≠ cell) middle after) :
    AgreesOn (fun cell => s.Contains cell ∧ ¬ s.Near ref cell) s after := by
  refine h.agrees.trans (hagrees.mono fun other hother heq => ?_)
  subst heq
  rcases h.derives.near hcell with hnear | hnew
  · exact hother.2 hnear
  · exact hnew.1 hother.1

theorem setMembers (h : s.Alters ref middle) {object : ObjectRef}
    (hobject : middle.Near ref (.object object)) {members : Members Value}
    (hmembers : ∀ name, (members.lookup name).getD .null = middle.member object name ∨
      ((members.lookup name).getD .null).IsNew s middle) :
    s.Alters ref (middle.setMembers object members) := by
  refine ⟨h.derives.setMembers hmembers, h.agrees_of_near hobject ⟨fun _ _ => rfl, ?_⟩⟩
  intro other hother
  exact members_setMembers_of_ne middle (fun heq => hother (congrArg Cell.object heq)) members

theorem put (h : s.Alters ref middle) {object : ObjectRef}
    (hobject : middle.Near ref (.object object)) (name : String) {value : Value}
    (hvalue : value.IsNew s middle) :
    s.Alters ref (middle.setMembers object ((middle.members object).put name value)) := by
  apply h.setMembers hobject
  intro other
  rw [Members.lookup_put]
  split
  · exact .inr hvalue
  · exact .inl rfl

theorem remove (h : s.Alters ref middle) {object : ObjectRef}
    (hobject : middle.Near ref (.object object)) (name : String) :
    s.Alters ref (middle.setMembers object ((middle.members object).remove name)) := by
  apply h.setMembers hobject
  intro other
  rw [Members.lookup_remove]
  split
  · exact .inr trivial
  · exact .inl rfl

theorem onChildren (h : s.Alters ref middle) {change : List Value → List Value}
    (hchange : ∀ items, ∀ item ∈ change items, item ∈ items ∨ item.IsNew s middle) :
    s.Alters ref (Edit.onChildren ref change middle) := by
  unfold Edit.onChildren
  split
  · next children hchildren =>
      have hnear : middle.Near ref (.array children) := .list (hchildren ▸ .self children)
      refine ⟨h.derives.setItems (hchange _), h.agrees_of_near hnear ⟨?_, fun _ _ => rfl⟩⟩
      intro other hother
      exact items_setItems_of_ne middle (fun heq => hother (congrArg Cell.array heq)) _
  · exact h

end Alters

end Store

theorem Edit.apply_alters (change : Edit) (s : Store) (ref : ObjectRef) :
    s.Alters ref (change.apply ref s) := by
  cases change with
  | set name tree =>
      obtain ⟨hload, hvalue⟩ := (Store.Alters.refl s ref).load tree
      exact hload.put .self name hvalue
  | delete name => exact (Store.Alters.refl s ref).remove .self name
  | setProp name tree =>
      obtain ⟨hload, hvalue⟩ := (Store.Alters.refl s ref).load tree
      rw [Edit.apply]
      have hmembers : ∀ member ∈ [(name, (Store.load tree s).1)],
          member.2.IsNew s (Store.load tree s).2 := by
        simpa using hvalue
      obtain ⟨hderives, hprops⟩ := hload.derives.newObject hmembers
      have hagrees := (Store.newObject_extends [(name, (Store.load tree s).1)]
        (Store.load tree s).2).agrees.mono
        fun cell (hcell : s.Contains cell ∧ ¬ s.Near ref cell) =>
          hload.derives.grows.contains hcell.1
      have hnew : s.Alters ref _ := ⟨hderives, hload.agrees.trans hagrees⟩
      cases hobject : (Store.load tree s).2.member ref "props" with
      | object props =>
          simp only [hobject]
          exact hload.put (.props hobject) name hvalue
      | _ =>
          simp only [hobject]
          exact hnew.put .self "props" hprops
  | deleteProp name =>
      rw [Edit.apply]
      cases hobject : s.member ref "props" with
      | object props => exact (Store.Alters.refl s ref).remove (.props hobject) name
      | _ => exact .refl s ref
  | append tree =>
      obtain ⟨hload, hvalue⟩ := (Store.Alters.refl s ref).load tree
      show s.Alters ref (onChildren ref (fun children => children ++ [(Store.load tree s).1])
        (Store.load tree s).2)
      refine hload.onChildren fun items item hitem => ?_
      rcases List.mem_append.mp hitem with hitem | hitem
      · exact .inl hitem
      · exact .inr (List.mem_singleton.mp hitem ▸ hvalue)
  | insert tree =>
      obtain ⟨hload, hvalue⟩ := (Store.Alters.refl s ref).load tree
      show s.Alters ref (onChildren ref (fun children => (Store.load tree s).1 :: children)
        (Store.load tree s).2)
      refine hload.onChildren fun items item hitem => ?_
      rcases List.mem_cons.mp hitem with rfl | hitem
      · exact .inr hvalue
      · exact .inl hitem
  | pop =>
      refine (Store.Alters.refl s ref).onChildren fun items item hitem => ?_
      exact .inl (List.mem_of_mem_dropLast hitem)

theorem Action.run_confined (action : Action τ) (node : Value) (ctx : Context) :
    Walk.Confined node ctx.parent (action.run node ctx) (fun _ => none)
      fun next => next.stand node = ctx.stand node := by
  cases action with
  | skip => exact .pure rfl rfl
  | mark name value => exact .pure rfl rfl
  | abandon text => exact .throw nofun
  | observe note =>
      apply Walk.Confined.of_ok
      intro s memory hsettled
      exact ⟨ctx, ⟨s, note (ctx.view s node) memory⟩, rfl, (Store.Extends.refl s).stirs hsettled,
        nofun, rfl⟩
  | edit target change =>
      apply Walk.Confined.of_ok
      intro s memory hsettled
      cases htarget : target.object? node ctx with
      | none =>
          refine ⟨ctx, ⟨s, memory⟩, ?_, (Store.Extends.refl s).stirs hsettled, nofun, rfl⟩
          simp only [Action.run, htarget]
          rfl
      | some ref =>
          have href : node = .object ref ∨ ctx.parent = some ref := by
            cases target with
            | parent => exact .inr htarget
            | node =>
                cases node with
                | object other => exact .inl (congrArg Value.object (Option.some.inj htarget))
                | _ => cases htarget
          have halters := change.apply_alters s ref
          refine ⟨ctx, ⟨change.apply ref s, memory⟩, ?_,
            halters.derives.stirs href halters.agrees, nofun, rfl⟩
          simp only [Action.run, htarget]
          rfl

theorem Script.run_confined (script : Script τ ρ) (node : Value) (ctx : Context) :
    Walk.Confined node ctx.parent (script.run node ctx) (fun _ => none)
      fun given => given.2.stand node = ctx.stand node := by
  induction script generalizing ctx with
  | done result => exact .pure rfl rfl
  | act action rest ih =>
      apply (action.run_confined node ctx).bind
      intro next hstand
      have hrest := ih next
      rw [Context.parent_of_stand hstand] at hrest
      exact hrest.mono fun _ hlast => hlast.trans hstand
  | look next ih =>
      intro s memory hsettled
      exact ih (ctx.view s node) memory ctx s memory hsettled
  | lookUp next ih =>
      intro s memory hsettled
      exact ih (ctx.parent.map fun ref => s.read (.object ref)) ctx s memory hsettled

theorem Walk.Confined.of_extends {node : Value} {parent : Option ObjectRef}
    {walk : Walk τ (Reply Value)}
    (h : ∀ (s : Store) (memory : τ), ∃ reply after, walk ⟨s, memory⟩ = .ok reply ⟨after, memory⟩ ∧
      s.Extends after ∧ ∀ given, (reply.settle Value.isNull).replacement? = some given →
        ∀ array, after.Lists given array →
          s.Reach node parent (.array array) ∨ s.Gained after (.array array)) :
    Walk.Confined node parent walk
      (fun reply => (reply.settle Value.isNull).replacement?) fun _ => True := by
  apply of_ok
  intro s memory hsettled
  obtain ⟨reply, after, hwalk, hextends, hoffers⟩ := h s memory
  exact ⟨reply, ⟨after, memory⟩, hwalk, hextends.stirs hsettled, hoffers, trivial⟩

theorem Store.not_lists {s : Store} {value : Value} (h : ∀ ref, value ≠ .array ref)
    (array : ArrayRef) : ¬ s.Lists value array := by
  intro hlists
  cases hlists with
  | self => exact h array rfl
  | item => exact h _ rfl

theorem Reply.eq_of_offers {reply : Reply Value} {value given : Value}
    (h : reply = .value value ∨ reply = .outcome (.replace value))
    (hgiven : (reply.settle Value.isNull).replacement? = some given) : given = value := by
  rcases h with rfl | rfl
  · simp only [Reply.settle] at hgiven
    split at hgiven
    · cases hgiven
    · exact (Option.some.inj hgiven).symm
  · exact (Option.some.inj hgiven).symm

theorem Answer.reply_confined (answer : Answer) {node : Value} (parent : Option ObjectRef)
    (hnode : ∀ ref, node ≠ .array ref) :
    Walk.Confined node parent (answer.reply node : Walk τ (Reply Value))
      (fun reply => (reply.settle Value.isNull).replacement?) fun _ => True := by
  cases answer with
  | nothing => exact .pure rfl trivial
  | noChange => exact .pure rfl trivial
  | plain => exact .pure rfl trivial
  | replace tree =>
      apply Walk.Confined.of_extends
      intro s memory
      obtain ⟨hderives, hnew⟩ := (Store.Derives.refl s).load tree
      refine ⟨_, _, rfl, (Store.load_shows tree s).1, fun given hgiven array harray => ?_⟩
      rw [Reply.eq_of_offers (.inr rfl) hgiven] at harray
      exact .inr (hderives.lists_new hnew harray)
  | value tree =>
      apply Walk.Confined.of_extends
      intro s memory
      obtain ⟨hderives, hnew⟩ := (Store.Derives.refl s).load tree
      refine ⟨_, _, rfl, (Store.load_shows tree s).1, fun given hgiven array harray => ?_⟩
      rw [Reply.eq_of_offers (.inl rfl) hgiven] at harray
      exact .inr (hderives.lists_new hnew harray)
  | self replacing =>
      apply Walk.Confined.of_extends
      intro s memory
      have hreply : ∃ reply : Reply Value, (Answer.self replacing).reply node ⟨s, memory⟩ =
          .ok reply ⟨s, memory⟩ ∧ (reply = .value node ∨ reply = .outcome (.replace node)) := by
        cases replacing with
        | true => exact ⟨_, rfl, .inr rfl⟩
        | false => exact ⟨_, rfl, .inl rfl⟩
      obtain ⟨reply, hreply, hsame⟩ := hreply
      refine ⟨reply, s, hreply, .refl s, fun given hgiven array harray => ?_⟩
      rw [Reply.eq_of_offers hsame hgiven] at harray
      exact absurd harray (Store.not_lists hnode array)
  | wrap type =>
      rw [Answer.reply]
      cases type.text?.filter (· ≠ "") with
      | none => exact .throw nofun
      | some name =>
          apply Walk.Confined.of_extends
          intro s memory
          refine ⟨_, _, rfl, Store.newObject_extends _ s, fun given hgiven array harray => ?_⟩
          rw [Reply.eq_of_offers (.inl rfl) hgiven] at harray
          exact absurd harray (Store.not_lists (fun ref href => by cases href) array)
  | unwrap =>
      cases node with
      | object ref =>
          apply Walk.Confined.of_extends
          intro s memory
          refine ⟨_, s, rfl, .refl s, fun given hgiven array harray => ?_⟩
          rw [Reply.eq_of_offers (.inl rfl) hgiven] at harray
          exact .inl (.inl ⟨ref, rfl, .list harray⟩)
      | _ => exact .pure rfl trivial
  | affix before after =>
      apply Walk.Confined.of_extends
      intro s memory
      refine ⟨_, s, rfl, .refl s, fun given hgiven array harray => ?_⟩
      rw [Reply.eq_of_offers (.inl rfl) hgiven] at harray
      refine absurd harray (Store.not_lists (fun ref href => ?_) array)
      unfold Answer.affixed? at href
      split at href <;> cases href

theorem Hook.scripted_confined (script : Script τ Answer) : (Hook.scripted script).Confined := by
  intro node ctx hnode
  apply (script.run_confined node ctx).bind
  intro given hstand
  obtain ⟨answer, next⟩ := given
  apply (answer.reply_confined ctx.parent hnode).bind_or
  · intro reply hnone _
    exact .pure hnone hstand
  · intro reply replacement hsome _
    exact ⟨(reply, next), rfl, hsome, hstand⟩

theorem Visitor.scripted_confined (enter exit : Option (Script τ Answer)) :
    (Visitor.scripted enter exit).Confined := by
  intro phase hook hhook
  cases phase with
  | enter =>
      obtain ⟨script, -, rfl⟩ := Option.map_eq_some_iff.mp hhook
      exact Hook.scripted_confined script
  | exit =>
      obtain ⟨script, -, rfl⟩ := Option.map_eq_some_iff.mp hhook
      exact Hook.scripted_confined script

end ViewTree
