import ViewTree.Proofs.Store.Tending
import ViewTree.Proofs.Transform.Steadiness
import ViewTree.Proofs.Transform.Revising
import ViewTree.Proofs.Traverse.Sweeping

namespace ViewTree

open Store (Cell)

inductive Verdict
  | replace (result : Tree)
  | keep
  | descend

/-- Whether a node has its kind, or what is wrong with it. -/
def Tree.kind (t : Tree) : Except Failure Kind :=
  match t.classify with
  | .ok kind => .ok kind
  | .error cause => .error (.invalidNode cause)

namespace Rules

variable (rules : Rules)

/-- What comes of a node that is seen for the first time. -/
def verdict (view : View) : Except Failure Verdict := do
  let kind ← view.node.kind
  match ← rules.enter view with
  | (some result, _) => return .replace result
  | (none, view) =>
    if kind = .structured ∧ view.skipping = false then
      let (cut, view) ← rules.prune view
      return if cut || view.skipping then .keep else .descend
    else return .keep

def visit (view : View) (below : Course Unit Tree) : Course Unit Tree :=
  match rules.verdict view with
  | .error failure => throw failure
  | .ok (.replace result) => return result
  | .ok .keep => return view.node
  | .ok .descend => below

/-- What a value becomes by the rules. -/
def revision (type : Option String) (depth : Nat) (t : Tree) (index : Nat) : Except Failure Tree :=
  (t.revise rules.visit type depth index).outcome ()

variable {rules}

theorem verdict_of_ne_structured {view : View} {kind : Kind} (hkind : view.node.kind = .ok kind)
    (hne : kind ≠ .structured) : rules.verdict view =
      (fun said => said.1.elim Verdict.keep Verdict.replace) <$> rules.enter view := by
  unfold verdict
  rw [hkind]
  cases rules.enter view with
  | error failure => rfl
  | ok said =>
      obtain ⟨_ | result, seen⟩ := said
      · simp only [bind, Except.bind, hne, false_and, if_false]
        rfl
      · rfl

theorem structured_of_descend {view : View} (h : rules.verdict view = .ok .descend) :
    view.node.classify = .ok .structured := by
  have hkind : view.node.kind = .ok .structured := by
    cases hkind : view.node.kind with
    | error failure =>
        unfold verdict at h
        rw [hkind] at h
        cases h
    | ok kind =>
        by_cases hstructured : kind = .structured
        · rw [hstructured]
        · rw [verdict_of_ne_structured hkind hstructured] at h
          cases henter : rules.enter view with
          | error failure =>
              rw [henter] at h
              cases h
          | ok said =>
              obtain ⟨_ | result, seen⟩ := said
              · rw [henter] at h
                cases h
              · rw [henter] at h
                cases h
  unfold Tree.kind at hkind
  split at hkind
  · next hclassify => rw [hclassify, Except.ok.inj hkind]
  · cases hkind

theorem revision_eq {type : Option String} {depth index : Nat} {t : Tree}
    (harray : t.isArray = false) : rules.revision type depth t index =
      match rules.verdict (t.atFirst type depth index) with
      | .error failure => .error failure
      | .ok (.replace result) => .ok result
      | .ok .keep => .ok t
      | .ok .descend => (t.reviseBelow rules.visit depth).outcome () := by
  rw [revision, Tree.revise_eq_visit _ _ _ _ harray, visit]
  cases rules.verdict (t.atFirst type depth index) with
  | error failure => rfl
  | ok verdict => cases verdict <;> rfl

end Rules

def Stand.view (stand : Stand) (s : Store) : View :=
  ⟨s.read stand.node, stand.parent.map s.typeMember, stand.depth, stand.index, false, []⟩

theorem Stand.view_eq {s : Store} {stand : Stand} {t : Tree} {cells : List Cell}
    {type : Option String} (h : s.Shows t stand.node cells) (hnamed : s.Named stand.parent type) :
    stand.view s = t.atFirst type stand.depth stand.index := by
  rw [Stand.view, h.read_eq, hnamed.typeMember]
  rfl

theorem Walk.kind_yields {t : Tree} {node : Value} {cells : List Cell} {session : Session σ}
    (h : session.store.Shows t node cells) :
    Walk.Yields (Walk.classify node) t.kind session
      fun kind other after => kind = other ∧ after = session ∧ t.classify = .ok kind := by
  unfold Walk.Yields
  rw [Walk.classify_apply, h.classify, Tree.kind]
  cases t.classify with
  | ok kind => exact ⟨rfl, rfl, rfl⟩
  | error cause => trivial

namespace Rules

variable {rules : Rules}

/-- What a visit has done, by the verdict. -/
def Visited (s : Store) (slot : Slot) (depth : Nat) (cells : List Cell)
    (below : List (Slot × Nat)) (after : Store) : Verdict → Prop
  | .replace result => below = [] ∧ s.Placed slot.place cells result after
  | .keep => below = [] ∧ s.Extends after
  | .descend =>
    below = (s.childSlots slot.node).map (fun child => (child, depth + 1)) ∧ s.Extends after

theorem step_yields {visitors : List (Visitor (Watched σ))} {prune : Prune (Watched σ)}
    (hgoverns : rules.Governs visitors prune) {s : Store} {slot : Slot} {type : Option String}
    {t : Tree} {cells : List Cell} (h : s.Held slot type t cells) (depth : Nat)
    (notices : List Notice) (world : σ) :
    Walk.Yields ((Transform.tour visitors prune .preOrder).step slot depth)
      (rules.verdict (t.atFirst type depth slot.index)) ⟨s, notices, world⟩
      fun below verdict after => Visited s slot depth cells below after.store verdict ∧
        entries after.world.1 = entries notices ++ [slot.stand depth] := by
  have hview : (slot.context depth).view s slot.node = t.atFirst type depth slot.index :=
    Context.view_eq h.shows h.named
  rw [Tour.step, Tour.turn, bind_assoc]
  refine (Walk.kind_yields h.shows).bind ?_
  rintro kind _ _ ⟨rfl, rfl, hkind⟩
  have hparent : s.Named (slot.context depth).parent type := h.named
  have hphase := hgoverns.enter notices world h.shows hparent
  rw [hview] at hphase
  rw [bind_assoc]
  show Walk.Yields (Transform.enterNode visitors slot (slot.context depth) >>= _) _ _ _
  rw [Transform.enterNode, bind_assoc]
  refine hphase.bind ?_
  rintro ⟨value, next⟩ ⟨result, seen⟩ ⟨middle, log, later⟩ ⟨hextends, hsame, hseen, hmade, hlog⟩
  simp only at hextends hsame hseen hmade hlog ⊢
  cases hmade with
  | some hmade =>
      have hhas := Store.has_of_at? (h.extends hextends).place
      have hplaced := h.placed_write (hextends.changesOnly cells) hmade
      simp only [bind_assoc]
      exact .step (Store.write_apply hhas _) (.pure ⟨⟨rfl, hplaced⟩, hlog⟩)
  | none =>
      have hlatch : seen.skipping = next.skipping := by
        rw [← hseen]
        rfl
      simp only [pure_bind, Tour.descend, hlatch]
      split
      · have hasked := @Governs.prune σ rules visitors prune hgoverns _ _ _ _ next log later
          (hextends.shows h.shows)
        rw [Context.view_extends h.shows (hsame ▸ hparent) hextends, hseen] at hasked
        rw [bind_assoc, bind_assoc]
        refine hasked.bind ?_
        rintro ⟨cut, last⟩ ⟨said, view⟩ ⟨after, notes, world⟩ ⟨hlater, -, hview, hcut, hnotes⟩
        simp only at hlater hview hcut hnotes ⊢
        have hskipping : view.skipping = last.skipping := by
          rw [← hview]
          rfl
        have hafter := hextends.trans hlater
        rw [← hcut, hskipping]
        split
        · exact .pure ⟨⟨rfl, hafter⟩, hnotes.trans hlog⟩
        · refine .step rfl (.pure ⟨⟨?_, hafter⟩, hnotes.trans hlog⟩)
          rw [h.shows.childSlots_extended hafter]
      · exact .pure ⟨⟨rfl, hextends⟩, hlog⟩

/-- The stands that a walk comes to from one of them on, down to a number of levels. -/
def reachTo (rules : Rules) (s : Store) : Nat → Stand → List Stand
  | 0, stand => [stand]
  | level + 1, stand => stand :: match rules.verdict (stand.view s) with
    | .ok .descend => (s.childSlots stand.node).flatMap fun child =>
      reachTo rules s level (child.stand (stand.depth + 1))
    | _ => []

theorem reachTo_of_ne_object {s : Store} {stand : Stand} (h : ∀ ref, stand.node ≠ .object ref)
    (level : Nat) : rules.reachTo s level stand = [stand] := by
  cases level with
  | zero => rfl
  | succ level =>
      rw [reachTo, Store.childSlots_of_ne_object h]
      split <;> rfl

/-- The reach of a node hangs on its cells and on the type of its parent. -/
theorem reachTo_frame {s after : Store} {stand : Stand} {type : Option String} {t : Tree}
    {cells : List Cell} (h : s.Shows t stand.node cells) (hnamed : s.Named stand.parent type)
    (hlaterNamed : after.Named stand.parent type) (hgrows : s.Grows after)
    (hagrees : Store.AgreesOn (· ∈ cells) s after) {level later : Nat}
    (hlevel : cells.length ≤ level) (hlater : cells.length ≤ later) :
    rules.reachTo after later stand = rules.reachTo s level stand := by
  induction level generalizing t stand cells later type with
  | zero =>
      have hnode : ∀ ref, stand.node ≠ .object ref := by
        intro ref href
        rw [href] at h
        cases h
        cases hlevel
      rw [reachTo_of_ne_object hnode, reachTo_of_ne_object hnode]
  | succ level ih =>
      have hview : stand.view after = stand.view s := by
        rw [Stand.view_eq h hnamed, Stand.view_eq (h.frame hgrows hagrees) hlaterNamed]
      obtain ⟨node, parent, depth, index⟩ := stand
      cases h with
      | @object trees ref rest has members =>
          obtain ⟨later, rfl⟩ : ∃ fewer, later = fewer + 1 :=
            ⟨later - 1, by rw [List.length_cons] at hlater; omega⟩
          rw [reachTo, reachTo, hview, members.childSlots_frame hgrows hagrees]
          cases hverdict : rules.verdict (Stand.view ⟨.object ref, parent, depth, index⟩ s) with
          | error failure => rfl
          | ok verdict =>
              cases verdict with
              | replace => rfl
              | keep => rfl
              | descend =>
                  have hkind : (Tree.object trees).classify = .ok .structured := by
                    have hnode := structured_of_descend hverdict
                    rw [Stand.view_eq (.object has members) hnamed] at hnode
                    exact hnode
                  obtain ⟨_, name, -, hname⟩ := Tree.eq_object_of_classify hkind
                  have hchildren := members.named hname
                  have hsame := hagrees.members ref List.mem_cons_self
                  obtain ⟨plots, parts, hslots, -, hlaid, -, hparts⟩ := members.childPlots
                  refine congrArg _ (List.flatMap_congr fun child hchild => ?_)
                  rw [hslots] at hchild
                  obtain ⟨plot, hplot, rfl⟩ := List.mem_map.mp hchild
                  have hsub := ((Store.sublist_area hplot).trans hlaid.within).trans hparts
                  have hlength : plot.cells.length ≤ rest.length := hsub.length_le
                  have hplotShows := hlaid.shows plot hplot
                  rw [List.length_cons] at hlevel hlater
                  have hparent : (plot.slot.stand (depth + 1)).parent = some ref :=
                    hlaid.parents plot hplot
                  exact ih hplotShows (hparent ▸ hchildren)
                    (hparent ▸ hchildren.frame fun _ heq => Option.some.inj heq ▸ hsame)
                    (hagrees.mono fun cell hcell => List.mem_cons_of_mem _ (hsub.subset hcell))
                    (by omega) (by omega)
      | _ => rw [reachTo_of_ne_object (by simp), reachTo_of_ne_object (by simp)]

end Rules

end ViewTree
