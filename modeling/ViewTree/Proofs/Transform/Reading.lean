import ViewTree.Proofs.Store.Writing
import ViewTree.Proofs.Walk.Course
import ViewTree.Transform

namespace ViewTree

open Store (Cell)

/-- What is said of a view, with the view as it is left. -/
abbrev Meaning (σ ρ : Type) := View → Course σ (ρ × View)

namespace Store

/-- A value made out of some cells of a store and of new ones. -/
def MadeOf (s : Store) (cells : List Cell) (after : Store) (value : Value) (tree : Tree) : Prop :=
  ∃ parts, after.Shows tree value parts ∧ ∀ cell ∈ parts, cell ∈ cells ∨ ¬ s.Contains cell

/-- The parent of a node, if it has one, has this text as its type. -/
def Named (s : Store) (parent : Option ObjectRef) (type : Option String) : Prop :=
  Option.Rel (fun ref name => (s.members ref).lookup "type" = some (.atom (.text name))) parent type

theorem MadeOf.earlier {s middle after : Store} {cells : List Cell} {value : Value} {tree : Tree}
    (h : middle.MadeOf cells after value tree) (hgrows : s.Grows middle) :
    s.MadeOf cells after value tree := by
  obtain ⟨parts, hshows, hparts⟩ := h
  exact ⟨parts, hshows, fun cell hcell =>
    (hparts cell hcell).imp_right fun hnew hhas => hnew (hgrows.contains hhas)⟩

theorem Named.contains {s : Store} {ref : ObjectRef} {type : Option String}
    (h : s.Named (some ref) type) : s.Contains (.object ref) := by
  cases h with
  | @some _ name hlookup =>
      have hplace : s.at? (.member ref "type") = some (.atom (.text name)) := hlookup
      exact contains_of_at? hplace

theorem Named.frame {s after : Store} {parent : Option ObjectRef} {type : Option String}
    (h : s.Named parent type)
    (hsame : ∀ ref, parent = some ref → after.members ref = s.members ref) :
    after.Named parent type := by
  cases h with
  | none => exact .none
  | some hlookup =>
      refine .some ?_
      rw [hsame _ rfl]
      exact hlookup

theorem Named.extends {s after : Store} {parent : Option ObjectRef} {type : Option String}
    (h : s.Named parent type) (hextends : s.Extends after) : after.Named parent type := by
  refine h.frame ?_
  rintro ref rfl
  exact hextends.agrees.members ref h.contains

theorem Named.typeMember {s : Store} {parent : Option ObjectRef} {type : Option String}
    (h : s.Named parent type) : parent.map s.typeMember = type.map Tree.text := by
  cases h with
  | none => rfl
  | @some ref name hlookup =>
      have htype : s.member ref "type" = .atom (.text name) := by
        rw [Store.member, hlookup, Option.getD_some]
      rw [Option.map_some, Store.typeMember, htype, (Shows.atom (.text name)).read_eq]
      rfl

end Store

/-- A view depends on the tree of the node and on the type of the parent only. -/
theorem Context.view_eq {s : Store} {t : Tree} {node : Value} {cells : List Cell}
    (h : s.Shows t node cells) {ctx : Context} {type : Option String}
    (hparent : s.Named ctx.parent type) :
    ctx.view s node =
      ⟨t, type.map Tree.text, ctx.depth, ctx.index, ctx.skipping, ctx.attributes⟩ := by
  rw [Context.view, h.read_eq, hparent.typeMember]

theorem Context.view_extends {s after : Store} {t : Tree} {node : Value} {cells : List Cell}
    (h : s.Shows t node cells) {ctx : Context} {type : Option String}
    (hparent : s.Named ctx.parent type) (hextends : s.Extends after) :
    ctx.view after node = ctx.view s node := by
  rw [Context.view_eq h hparent,
    Context.view_eq (hextends.shows h) (hparent.extends hextends)]

/-- Replies that say the same. -/
inductive Reply.Rel (related : α → β → Prop) : Reply α → Reply β → Prop
  | noChange : Rel related (.outcome .noChange) (.outcome .noChange)
  | plain : Rel related (.outcome .plain) (.outcome .plain)
  | replace {a : α} {b : β} (h : related a b) :
      Rel related (.outcome (.replace a)) (.outcome (.replace b))
  | value {a : α} {b : β} (h : related a b) : Rel related (.value a) (.value b)

theorem Reply.Rel.settle {s after : Store} {cells : List Cell} {reply : Reply Value}
    {said : Reply Tree} (h : Reply.Rel (s.MadeOf cells after) reply said) :
    Option.Rel (s.MadeOf cells after) (reply.settle Value.isNull).replacement?
      (said.settle Tree.isNull).replacement? := by
  cases h with
  | noChange => exact .none
  | plain => exact .none
  | replace h => exact .some h
  | @value value tree h =>
      obtain ⟨parts, hshows, -⟩ := id h
      simp only [Reply.settle, hshows.isNull]
      split
      · exact .none
      · exact .some h

/-- What is asked of a node comes to its meaning.  The store is only added to, and what the context
becomes can be told from the view. -/
def Reads (ask : Value → Context → Walk σ (α × Context)) (meaning : Meaning σ β)
    (stands : Store → List Cell → Store → α → β → Prop) : Prop :=
  ∀ (s : Store) (world : σ) (t : Tree) (node : Value) (cells : List Cell) (ctx : Context),
    s.Shows t node cells →
    Walk.Follows (ask node ctx) (meaning (ctx.view s node)) ⟨s, world⟩
      fun given said after => s.Extends after ∧ given.2.parent = ctx.parent ∧
        given.2.view s node = said.2 ∧ stands s cells after given.1 said.1

structure Glance (σ : Type) where
  hook : Hook σ
  meaning : Meaning σ (Reply Tree)
  reads : Reads hook meaning fun s cells after => Reply.Rel (s.MadeOf cells after)

/-- A visitor that only looks. -/
structure Onlooker (σ : Type) where
  enter? : Option (Glance σ) := none
  exit? : Option (Glance σ) := none

structure Caution (σ : Type) where
  prune : Prune σ
  meaning : Meaning σ Bool
  reads : Reads prune.test meaning fun _ _ _ cut said => cut = said

/-- Of the meanings of one phase the first that replaces the node decides. -/
def Meaning.runAll : List (Meaning σ (Reply Tree)) → Meaning σ (Option Tree)
  | [], view => return (none, view)
  | meaning :: rest, view => do
    let (reply, view) ← meaning view
    match (reply.settle Tree.isNull).replacement? with
    | some replacement => return (some replacement, view)
    | none => runAll rest view

namespace Onlooker

def visitor (onlooker : Onlooker σ) : Visitor σ :=
  ⟨onlooker.enter?.map (·.hook), onlooker.exit?.map (·.hook)⟩

def glance? (phase : Phase) (onlooker : Onlooker σ) : Option (Glance σ) :=
  match phase with
  | .enter => onlooker.enter?
  | .exit => onlooker.exit?

/-- What a phase of several onlookers comes to. -/
def meaning (phase : Phase) (onlookers : List (Onlooker σ)) : Meaning σ (Option Tree) :=
  Meaning.runAll ((onlookers.filterMap (·.glance? phase)).map (·.meaning))

theorem filterMap_hook? (phase : Phase) (onlookers : List (Onlooker σ)) :
    (onlookers.map visitor).filterMap (·.hook? phase) =
      (onlookers.filterMap (·.glance? phase)).map (·.hook) := by
  rw [List.filterMap_map, List.map_filterMap]
  refine List.filterMap_congr fun onlooker _ => ?_
  cases phase <;> rfl

end Onlooker

theorem runHooks_follows (glances : List (Glance σ)) :
    ∀ {s : Store} {t : Tree} {node : Value} {cells : List Cell} {ctx : Context}
      {type : Option String} (world : σ), s.Shows t node cells → s.Named ctx.parent type →
      Walk.Follows (runHooks (glances.map (·.hook)) node ctx)
        (Meaning.runAll (glances.map (·.meaning)) (ctx.view s node)) ⟨s, world⟩
        fun given said after => s.Extends after ∧ given.2.parent = ctx.parent ∧
          given.2.view s node = said.2 ∧ Option.Rel (s.MadeOf cells after) given.1 said.1 := by
  induction glances with
  | nil => exact fun _ _ _ => .pure ⟨.refl _, rfl, rfl, .none⟩
  | cons glance glances ih =>
      intro s t node cells ctx type world h hparent
      refine (glance.reads s world t node cells ctx h).bind fun given said after hafter => ?_
      obtain ⟨reply, next⟩ := given
      obtain ⟨words, seen⟩ := said
      obtain ⟨middle, world⟩ := after
      obtain ⟨hextends, hsame, hview, hreply⟩ := hafter
      have hsettle := hreply.settle
      simp only at hsettle hsame hview ⊢
      generalize (reply.settle Value.isNull).replacement? = replacement at hsettle ⊢
      generalize (words.settle Tree.isNull).replacement? = replaced at hsettle ⊢
      cases hsettle with
      | some hmade => exact .pure ⟨hextends, hsame, hview, .some hmade⟩
      | none =>
          have hnext : s.Named next.parent type := hsame ▸ hparent
          rw [← hview, ← Context.view_extends h hnext hextends]
          refine (ih world (hextends.shows h) (hnext.extends hextends)).mono ?_
          rintro ⟨value, last⟩ ⟨tree, view⟩ after ⟨hlater, hlast, hseen, hmade⟩
          have hnamed : s.Named last.parent type := hlast ▸ hnext
          refine ⟨hextends.trans hlater, hlast.trans hsame, ?_, ?_⟩
          · exact (Context.view_extends h hnamed hextends).symm.trans hseen
          · simp only at hmade ⊢
            cases hmade with
            | none => exact .none
            | some h => exact .some (h.earlier hextends.grows)

theorem runPhase_follows (phase : Phase) (onlookers : List (Onlooker σ)) {s : Store} {t : Tree}
    {node : Value} {cells : List Cell} (h : s.Shows t node cells) {ctx : Context}
    {type : Option String} (hparent : s.Named ctx.parent type) (world : σ) :
    Walk.Follows (runPhase phase (onlookers.map Onlooker.visitor) node ctx)
      (Onlooker.meaning phase onlookers (ctx.view s node)) ⟨s, world⟩
      fun given said after => s.Extends after ∧ given.2.parent = ctx.parent ∧
        given.2.view s node = said.2 ∧ Option.Rel (s.MadeOf cells after) given.1 said.1 := by
  rw [runPhase, Onlooker.filterMap_hook?]
  exact runHooks_follows _ world h hparent

end ViewTree
