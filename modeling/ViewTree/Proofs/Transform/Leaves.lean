import ViewTree.Proofs.Transform.Boxes
import ViewTree.Proofs.Transform.Endurance

namespace ViewTree

mutual
/-- What holds of leaves, and of an array when it holds of the items, holds of all trees. -/
theorem Tree.leaves_induct {motive : Tree → Prop} (leaf : ∀ t, t.isArray = false → motive t)
    (array : ∀ items, (∀ t ∈ items, motive t) → motive (.array items)) : ∀ t, motive t
  | .array items => array items (Tree.leaves_inductAll leaf array items)
  | .atom _ => leaf _ rfl
  | .tuple _ => leaf _ rfl
  | .object _ => leaf _ rfl

theorem Tree.leaves_inductAll {motive : Tree → Prop} (leaf : ∀ t, t.isArray = false → motive t)
    (array : ∀ items, (∀ t ∈ items, motive t) → motive (.array items)) :
    ∀ items : List Tree, ∀ t ∈ items, motive t
  | [] => by simp
  | t :: rest => List.forall_mem_cons.mpr
      ⟨Tree.leaves_induct leaf array t, Tree.leaves_inductAll leaf array rest⟩
end

theorem Store.load_ne_array {t : Tree} (h : t.isArray = false) (s : Store) (ref : ArrayRef) :
    (load t s).1 ≠ .array ref := by
  cases t with
  | array items => simp [Tree.isArray] at h
  | atom a => simp [load]
  | tuple items => simp [load]
  | object members => simp [load, newObject]

namespace Account

variable {account other : Tree → Account}

def Finished (account : Account) : Prop :=
  account.failure? ≠ some .exhausted

theorem inTurn_congr {items : List Tree}
    (h : ∀ t ∈ items, (account t).Finished → other t = account t)
    (hfinished : (inTurn account items).2.1 ≠ some .exhausted) :
    inTurn other items = inTurn account items := by
  induction items with
  | nil => rfl
  | cons t rest ih =>
      obtain ⟨ht, hrest⟩ := List.forall_mem_cons.mp h
      rw [inTurn, followed] at hfinished
      rw [inTurn, inTurn, followed, followed]
      cases hfailure : (account t).failure? with
      | some failure =>
          rw [hfailure] at hfinished
          have hsame := ht (fun heq => hfinished (hfailure.symm.trans heq))
          rw [hsame, hfailure]
      | none =>
          rw [hfailure] at hfinished
          have hsame := ht (by simp [Finished, hfailure])
          rw [hsame, hfailure, ih hrest hfinished]

theorem ofArray_congr {items : List Tree}
    (h : ∀ t ∈ items, (account t).Finished → other t = account t)
    (hfinished : (ofArray account items).Finished) :
    ofArray other items = ofArray account items := by
  rw [ofArray, inTurn_congr h hfinished, ofArray]

theorem ofArray_finished {items : List Tree} (h : ∀ t ∈ items, (account t).Finished) :
    (ofArray account items).Finished := by
  induction items with
  | nil => simp [Finished, ofArray, inTurn]
  | cons t rest ih =>
      obtain ⟨ht, hrest⟩ := List.forall_mem_cons.mp h
      rw [Finished, ofArray, inTurn, followed]
      cases hfailure : (account t).failure? with
      | some failure => exact fun heq => ht (hfailure.trans heq)
      | none => exact ih hrest

mutual
/-- What comes of a tree whose leaves are dealt with in turn. -/
def ofLeaves (leaf : Tree → Account) : Tree → Account
  | .array items => ⟨(ofLeavesIn leaf items).1, (ofLeavesIn leaf items).2.1,
      .array (ofLeavesIn leaf items).2.2⟩
  | .atom a => leaf (.atom a)
  | .tuple items => leaf (.tuple items)
  | .object members => leaf (.object members)

def ofLeavesIn (leaf : Tree → Account) : List Tree → List Event × Option Failure × List Tree
  | [] => ([], none, [])
  | t :: rest => (ofLeaves leaf t).followed rest (ofLeavesIn leaf rest)
end

theorem ofLeavesIn_eq (leaf : Tree → Account) (items : List Tree) :
    ofLeavesIn leaf items = inTurn (ofLeaves leaf) items := by
  induction items with
  | nil => rfl
  | cons t rest ih => rw [ofLeavesIn, inTurn, ih]

theorem ofLeaves_array (leaf : Tree → Account) (items : List Tree) :
    ofLeaves leaf (.array items) = ofArray (ofLeaves leaf) items := by
  rw [ofLeaves, ofLeavesIn_eq, ofArray]

theorem ofLeaves_of_ne_array (leaf : Tree → Account) {t : Tree} (h : t.isArray = false) :
    ofLeaves leaf t = leaf t := by
  cases t with
  | array items => simp [Tree.isArray] at h
  | _ => rw [ofLeaves]

theorem ofLeaves_congr
    (h : ∀ t, t.isArray = false → (account t).Finished → other t = account t) (t : Tree) :
    (ofLeaves account t).Finished → ofLeaves other t = ofLeaves account t := by
  induction t using Tree.leaves_induct with
  | leaf t hleaf =>
      rw [ofLeaves_of_ne_array _ hleaf, ofLeaves_of_ne_array _ hleaf]
      exact h t hleaf
  | array items ih =>
      rw [ofLeaves_array, ofLeaves_array]
      exact ofArray_congr ih

theorem eq_ofLeaves (harray : ∀ items, account (.array items) = ofArray account items) (t : Tree) :
    account t = ofLeaves account t := by
  induction t using Tree.leaves_induct with
  | leaf t hleaf => rw [ofLeaves_of_ne_array _ hleaf]
  | array items ih =>
      have hitems : inTurn account items = inTurn (ofLeaves account) items := by
        clear harray
        induction items with
        | nil => rfl
        | cons t rest ihrest =>
            obtain ⟨ht, hrest⟩ := List.forall_mem_cons.mp ih
            rw [inTurn, inTurn, ← ht, ihrest hrest]
      rw [harray, ofLeaves_array, ofArray, ofArray, hitems]

/-- An array takes a little more fuel than the items. -/
theorem eq_ofLeaves_of_finished (account : Nat → Tree → Account)
    (hzero : ∀ t, ¬ (account 0 t).Finished)
    (harray : ∀ fuel items, account (fuel + 1) (.array items) = ofArray (account fuel) items)
    (hmore : ∀ fuel t, (account fuel t).Finished → account (fuel + 1) t = account fuel t)
    (t : Tree) : ∀ fuel, (account fuel t).Finished → account fuel t = ofLeaves (account fuel) t := by
  induction t using Tree.leaves_induct with
  | leaf t hleaf =>
      intro fuel _
      rw [ofLeaves_of_ne_array _ hleaf]
  | array items ih =>
      intro fuel hfinished
      cases fuel with
      | zero => exact absurd hfinished (hzero _)
      | succ fuel =>
          rw [harray] at hfinished
          rw [harray, ofLeaves_array]
          refine (ofArray_congr ?_ hfinished).symm
          intro t ht hitem
          have hsame := hmore fuel t hitem
          rw [← hsame] at hitem
          rw [← ih t ht (fuel + 1) hitem, hsame]

theorem ofWalk_of_outlasts {longer shorter : Value → Walk (Traced Unit) Value}
    (h : ∀ node, (longer node).Outlasts (shorter node)) {t : Tree}
    (hfinished : (ofWalk shorter t).Finished) : ofWalk longer t = ofWalk shorter t := by
  rw [ofWalk, ofWalk, h _ _ fun after hend => ?_]
  apply hfinished
  rw [ofWalk_of_error hend]

end Account

namespace Transform

open Account (ofWalk ofArray ofLeaves)

variable {visitors : List (Visitor (Traced Unit))} {prune : Prune (Traced Unit)} {order : Order}

theorem ofWalk_root_mono {fuel more : Nat} (hle : fuel ≤ more) {t : Tree}
    (hfinished : (ofWalk (root order visitors prune fuel) t).Finished) :
    ofWalk (root order visitors prune more) t = ofWalk (root order visitors prune fuel) t := by
  induction hle with
  | refl => rfl
  | step _ ih =>
      rw [← ih] at hfinished
      rw [Account.ofWalk_of_outlasts (root_outlasts order visitors prune _) hfinished, ih]

theorem root_zero_not_finished (t : Tree) :
    ¬ (ofWalk (root order visitors prune 0) t).Finished :=
  fun hfinished => hfinished rfl

theorem root_eq_boxed {t : Tree} (harray : t.isArray = false) (hprimitive : t.isPrimitive = false)
    (fuel : Nat) :
    ofWalk (root order visitors prune (fuel + 1)) t = ofWalk (boxed fuel order visitors prune) t := by
  cases t with
  | array items => simp [Tree.isArray] at harray
  | tuple items => rfl
  | object members => rfl
  | atom a =>
      have ha : ¬ a.isPrimitive = true := by simpa [Tree.isPrimitive] using hprimitive
      apply Account.ofWalk_congr
      rw [Store.load, root, if_neg ha]
      rfl

theorem root_eq_primitive {a : Atom} (ha : a.isPrimitive = true) (fuel : Nat) :
    ofWalk (root order visitors prune (fuel + 1)) (.atom a) =
      ofWalk (primitive visitors) (.atom a) := by
  apply Account.ofWalk_congr
  rw [Store.load, root, if_pos ha]

theorem classify_primitive {a : Atom} (ha : a.isPrimitive = true) :
    (Walk.classify (.atom a) : Walk σ Kind) = pure .primitive := by
  refine funext fun session => ?_
  rw [Walk.classify_apply]
  simp only [Store.classify, Atom.classify, if_pos ha]
  rfl

theorem descend_primitive (tour : Tour σ) (node : Value) (ctx : Context) :
    tour.descend .primitive node ctx = pure ([], ctx) := by
  rw [Tour.descend, if_neg (by simp)]

theorem answer_phases (visitors : List (Visitor σ)) (node : Value) :
    (do return (← phases visitors node .alone).getD node) = primitive visitors node := by
  rw [phases, primitive, bind_assoc]
  refine congrArg (runPhase .enter visitors node .alone >>= ·) (funext fun result => ?_)
  obtain ⟨replacement, ctx⟩ := result
  cases replacement with
  | some replacement => rfl
  | none =>
      simp only [bind_assoc, pure_bind]
      refine congrArg (runPhase .exit visitors node ctx >>= ·) (funext fun result => ?_)
      obtain ⟨replacement, ctx⟩ := result
      cases replacement <;> rfl

theorem survey_primitive {visitors : List (Visitor σ)} {prune : Prune σ} {a : Atom}
    (ha : a.isPrimitive = true) (horder : order ≠ .breadthFirst) (fuel : Nat) :
    survey order visitors prune (fuel + 1) (.atom a) = phases visitors (.atom a) .alone := by
  rw [survey, classify_primitive ha, pure_bind]
  cases order with
  | breadthFirst => exact absurd rfl horder
  | preOrder =>
      refine congrArg (runPhase .enter visitors _ _ >>= ·) (funext fun result => ?_)
      obtain ⟨replacement, ctx⟩ := result
      cases replacement with
      | some replacement => rfl
      | none =>
          simp only [descend_primitive, pure_bind]
          rfl
  | postOrder =>
      rw [descend_primitive]
      rfl

section

variable (hvisitors : ∀ before, ∀ visitor ∈ visitors, visitor.Impartial (Traced.Continues before Eq))
  (hprune : ∀ before, prune.Impartial (Traced.Continues before Eq))

include hvisitors hprune

theorem boxed_eq_root_of_leaf (horder : order ≠ .breadthFirst) {t : Tree}
    (harray : t.isArray = false) {fuel : Nat}
    (hfinished : (ofWalk (root order visitors prune fuel) t).Finished) :
    ofWalk (boxed fuel order visitors prune) t = ofWalk (root order visitors prune fuel) t := by
  cases fuel with
  | zero => exact absurd hfinished (root_zero_not_finished t)
  | succ fuel =>
      cases hprimitive : t.isPrimitive with
      | false =>
          rw [root_eq_boxed harray hprimitive] at hfinished ⊢
          exact Account.ofWalk_of_outlasts (boxed_outlasts order visitors prune fuel) hfinished
      | true =>
          cases t with
          | atom a =>
              rw [root_eq_primitive hprimitive, Lot.ofWalk_boxed_of_node hvisitors hprune
                (Store.load_ne_array harray {})]
              apply Account.ofWalk_congr
              rw [Store.load, Walk.answer, survey_primitive hprimitive horder]
              exact answer_phases visitors (.atom a)
          | _ => simp [Tree.isPrimitive] at hprimitive

theorem boxed_eq_ofLeaves (fuel : Nat) (t : Tree) :
    ofWalk (boxed fuel order visitors prune) t =
      ofLeaves (ofWalk (boxed fuel order visitors prune)) t :=
  Account.eq_ofLeaves (ofWalk_boxed_array hvisitors hprune order fuel) t

theorem root_eq_ofLeaves {fuel : Nat} {t : Tree}
    (hfinished : (ofWalk (root order visitors prune fuel) t).Finished) :
    ofWalk (root order visitors prune fuel) t =
      ofLeaves (ofWalk (root order visitors prune fuel)) t := by
  refine Account.eq_ofLeaves_of_finished (fun fuel => ofWalk (root order visitors prune fuel))
    root_zero_not_finished ?_ ?_ t fuel hfinished
  · exact ofWalk_root_array hvisitors hprune order
  · intro fuel t hfinished
    exact ofWalk_root_mono (Nat.le_succ fuel) hfinished

theorem boxed_eq_root (horder : order ≠ .breadthFirst) {fuel : Nat} {t : Tree}
    (hfinished : (ofWalk (root order visitors prune fuel) t).Finished) :
    ofWalk (boxed fuel order visitors prune) t = ofWalk (root order visitors prune fuel) t := by
  have hleaves := root_eq_ofLeaves hvisitors hprune hfinished
  rw [hleaves] at hfinished
  rw [boxed_eq_ofLeaves hvisitors hprune, hleaves]
  apply Account.ofLeaves_congr _ t hfinished
  intro leaf harray hleaf
  exact boxed_eq_root_of_leaf hvisitors hprune horder harray hleaf

end

end Transform

end ViewTree
