import ViewTree.Proofs.Transform.Orders
import ViewTree.Proofs.Tree.Culling

namespace ViewTree

def culling (test : Tree → Bool) : Script σ Answer :=
  .look fun view _ => .done (if test view.node then .replace .null else .noChange)

theorem culling_quiet (test : Tree → Bool) : (culling test : Script σ Answer).Quiet :=
  .look fun _ _ => .done _

def culler (test : Tree → Bool) : Onlooker σ :=
  { enter? := some (.scripted (culling test) (culling_quiet test)) }

theorem culler_entersSteadily (test : Tree → Bool) :
    (culler test : Onlooker σ).EntersSteadily :=
  Onlooker.entersSteadily_scripted (culling_quiet test) (.look fun _ => .done _)

/-- What a culler says of views, where nothing is asked before descent. -/
def Rules.culling (test : Tree → Bool) (world : σ) : Rules :=
  .of [culler test] (.setting .null) world

namespace Rules

variable {test : Tree → Bool} {world : σ}

theorem enter_culling (view : View) : (culling test world).enter view =
    .ok (if test view.node then some .null else none, view) := by
  have hsaid : ∀ answer : Answer, (if test view.node then .replace .null else .noChange) = answer →
      (culling test world).enter view = Course.outcome
        (Meaning.runAll [fun view => return (← answer.meaning view.node, view)] view) world := by
    rintro answer rfl
    rfl
  cases htest : test view.node with
  | true => exact hsaid (.replace .null) (by rw [htest]; rfl)
  | false => exact hsaid .noChange (by rw [htest]; rfl)

theorem visit_culling_of_test {view : View} {kind : Kind} (hkind : view.node.classify = .ok kind)
    (htest : test view.node = true) (below : Course Unit Tree) :
    (culling test world).visit view below = pure .null := by
  have hverdict : (culling test world).verdict view = .ok (.replace .null) := by
    rw [verdict, Tree.kind, hkind, enter_culling, htest]
    rfl
  rw [visit, hverdict]

theorem visit_culling_of_not {view : View} {kind : Kind} (hkind : view.node.classify = .ok kind)
    (htest : test view.node = false) (hopen : view.skipping = false) {below : Course Unit Tree}
    (hbelow : kind ≠ .structured → below = pure view.node) :
    (culling test world).visit view below = below := by
  have hkept : kind ≠ .structured → (culling test world).verdict view = .ok .keep := by
    intro hne
    rw [verdict_of_ne_structured (by rw [Tree.kind, hkind]) hne, enter_culling, htest]
    rfl
  -- only a structured node has anything below it to be seen to
  have hdescended : kind = .structured → (culling test world).verdict view = .ok .descend := by
    rintro rfl
    have hprune : (culling test world).prune view = .ok (false, view) := rfl
    rw [verdict, Tree.kind, hkind, enter_culling, htest]
    simp only [bind, Except.bind, if_false, Bool.false_eq_true, hprune, hopen]
    rfl
  by_cases hstructured : kind = .structured
  · rw [visit, hdescended hstructured]
  · rw [visit, hkept hstructured, hbelow hstructured]

mutual
/-- By the rules of a culler a valid value has null for what passes the test. -/
theorem revise_culling {t : Tree} (h : t.isValid = true) (type : Option String)
    (depth index : Nat) :
    t.revise (culling test world).visit type depth index = pure (t.nulled test) := by
  have hvisit : ∀ (kind : Kind) (below : Course Unit Tree) (result : Tree),
      t.classify = .ok kind → (kind ≠ .structured → below = pure t) → below = pure result →
      (culling test world).visit (t.atFirst type depth index) below =
        pure (if test t then .null else result) := by
    intro kind below result hkind hbelow hresult
    cases htest : test t with
    | true => exact visit_culling_of_test hkind htest below
    | false => exact (visit_culling_of_not hkind htest rfl hbelow).trans hresult
  cases t with
  | atom a =>
      have hprimitive : (Tree.atom a).classify = .ok .primitive :=
        (Tree.isPrimitive_iff_classify _).mp (Tree.isPrimitive_of_isValid h)
      exact hvisit .primitive _ _ hprimitive (fun _ => rfl) rfl
  | tuple items => cases h
  | array items =>
      rw [Tree.revise, reviseItems_culling h]
      rfl
  | object members =>
      obtain ⟨hnode, hbelow⟩ := Tree.everyNode_object.mp h
      have hstructured : (Tree.object members).classify = .ok .structured :=
        (Tree.isStructured_iff_classify _).mp hnode
      rw [Tree.revise_eq_visit _ _ _ _ rfl]
      refine hvisit .structured _ _ hstructured (fun hne => absurd rfl hne) ?_
      rw [Tree.reviseBelow, reviseChildren_culling hbelow]
      cases hlookup : members.lookup "children" with
      | none =>
          rw [Tree.culledMembers_of_lookup_none hlookup]
          rfl
      | some value =>
          rw [Tree.culledMembers_of_lookup hlookup]
          cases hnull : value.isNull with
          | true =>
              -- null children are not visited, and null they are whether they pass the test or not
              obtain rfl := Tree.eq_null_of_isNull hnull
              have hsame : Tree.null.culled test [.null] = .null := ite_id _
              rw [hsame, Members.put_of_lookup hlookup]
              rfl
          | false =>
              rw [Option.filter_some, if_pos (by rw [hnull]; rfl)]
              rfl

theorem reviseItems_culling {items : List Tree} (h : Tree.everyItem Tree.isNode items = true)
    (type : Option String) (depth position : Nat) :
    Tree.reviseItems (culling test world).visit type depth items position =
      pure (Tree.culledItems test [.null] items) := by
  cases items with
  | nil => rfl
  | cons item rest =>
      rw [Tree.everyItem, Bool.and_eq_true] at h
      rw [Tree.reviseItems, revise_culling h.1, reviseItems_culling h.2]
      simp only [Tree.culledItems_null]
      rfl

theorem reviseChildren_culling {members : List (String × Tree)}
    (h : Tree.everyChild Tree.isNode members = true) (type : Option String) (depth : Nat) :
    Tree.reviseChildren (culling test world).visit type depth members =
      pure (((members.lookup "children").filter fun value => !value.isNull).map
        (Tree.nulled test)) := by
  cases members with
  | nil => rfl
  | cons member rest =>
      obtain ⟨name, value⟩ := member
      rw [Tree.everyChild] at h
      rw [Tree.reviseChildren]
      by_cases hname : name = "children"
      · subst hname
        rw [if_pos rfl] at h
        rw [if_pos rfl, List.lookup_cons_self, Option.filter_some]
        cases value.isNull with
        | true => rfl
        | false =>
            rw [revise_culling h]
            rfl
      · rw [if_neg hname] at h
        rw [if_neg hname, List.lookup_cons, beq_eq_false_iff_ne.mpr (Ne.symm hname)]
        exact reviseChildren_culling h type depth
end

mutual
theorem reviseTop_culling {t : Tree} (h : t.isValid = true) :
    t.reviseTop (culling test world).visit = pure (t.nulled test) := by
  cases harray : t.isArray with
  | false =>
      rw [Tree.reviseTop_eq_revise _ harray]
      exact revise_culling h none 0 0
  | true =>
      cases t with
      | array items =>
          rw [Tree.reviseTop, reviseTops_culling h]
          rfl
      | _ => cases harray

theorem reviseTops_culling {items : List Tree} (h : Tree.everyItem Tree.isNode items = true) :
    Tree.reviseTops (culling test world).visit items =
      pure (Tree.culledItems test [.null] items) := by
  cases items with
  | nil => rfl
  | cons item rest =>
      rw [Tree.everyItem, Bool.and_eq_true] at h
      rw [Tree.reviseTops, reviseTop_culling h.1, reviseTops_culling h.2]
      simp only [Tree.culledItems_null]
      rfl
end

end Rules

theorem Tree.transform_culler (test : Tree → Bool) {order : Order} (horder : order ≠ .postOrder)
    (clone : Tree) {t : Tree} (hvalid : t.isValid = true) {fuel : Nat} (hfuel : t.size < fuel)
    (world : σ) :
    (t.transform fuel [(culler test).visitor] { order := order.setting, clone := clone }
      world).1 = .ok (t.nulled test) := by
  obtain ⟨joining, hjoining⟩ : ∃ joining, order.joining? = some joining := by
    cases order with
    | preOrder => exact ⟨_, rfl⟩
    | breadthFirst => exact ⟨_, rfl⟩
    | postOrder => exact absurd rfl horder
  have hsteady : ∀ onlooker ∈ [(culler test : Onlooker σ)], onlooker.EntersSteadily :=
    List.forall_mem_singleton.mpr (culler_entersSteadily test)
  have hcaution : (Caution.setting .null : Caution σ).meaning.Steady := fun view =>
    .pure (false, view)
  have hexit : ∀ visitor ∈ [(culler test : Onlooker σ).visitor], visitor.exit? = none :=
    List.forall_mem_singleton.mpr rfl
  obtain ⟨stands, hruns⟩ := transform_yields (Rules.governs_watchEnter hsteady hcaution world)
    (List.cons_ne_nil _ _) clone t world
  have hrevision : (Rules.culling test world).wholeRevision t = .ok (t.nulled test) :=
    congrArg (fun course => Course.outcome course ()) (Rules.reviseTop_culling hvalid)
  rw [← Tree.transform_unwatched hexit]
  rcases hruns order joining fuel hjoining hfuel with
    ⟨_, cause, -, hrefused⟩ | ⟨result, hresult, hrules, -⟩
  · cases hrevision.symm.trans hrefused
  · rw [← Except.ok.inj (hrules.symm.trans hrevision)]
    exact hresult

end ViewTree
