import ViewTree.Proofs.Transform.Leaving
import ViewTree.Proofs.Transform.SinglePhase

namespace ViewTree

namespace Account

/-- The calls are the same, and so is what the caller gets.  What a failure leaves behind may differ. -/
structure Alike (account other : Account) : Prop where
  events : account.events = other.events
  failure? : account.failure? = other.failure?
  tree : account.failure? = none → account.tree = other.tree

namespace Alike

variable {first second third : Account}

theorem refl (account : Account) : account.Alike account := ⟨rfl, rfl, fun _ => rfl⟩

theorem symm (h : first.Alike second) : second.Alike first :=
  ⟨h.events.symm, h.failure?.symm, fun hnone => (h.tree (h.failure?.trans hnone)).symm⟩

theorem trans (h : first.Alike second) (hnext : second.Alike third) : first.Alike third :=
  ⟨h.events.trans hnext.events, h.failure?.trans hnext.failure?, fun hnone =>
    (h.tree hnone).trans (hnext.tree (h.failure?.symm.trans hnone))⟩

theorem finished (h : first.Alike second) (hfinished : first.Finished) : second.Finished := by
  rw [Finished, ← h.failure?]
  exact hfinished

end Alike

variable {account other : Tree → Account}

theorem ofArray_alike {items : List Tree} (h : ∀ t ∈ items, (account t).Alike (other t)) :
    (ofArray account items).Alike (ofArray other items) := by
  induction items with
  | nil => exact .refl _
  | cons t rest ih =>
      obtain ⟨ht, hrest⟩ := List.forall_mem_cons.mp h
      have hlater := ih hrest
      have hother := ht.failure?
      rw [ofArray, ofArray, inTurn, inTurn, followed, followed, ← hother]
      cases hfailure : (account t).failure? with
      | some failure => exact ⟨ht.events, rfl, by simp⟩
      | none =>
          refine ⟨?_, hlater.failure?, fun hnone => ?_⟩
          · exact congrArg₂ (· ++ ·) ht.events hlater.events
          · have htrees := Tree.array.inj (hlater.tree hnone)
            exact congrArg Tree.array (congrArg₂ (· :: ·) (ht.tree hfailure) htrees)

theorem ofLeaves_alike (h : ∀ t, (account t).Alike (other t)) (t : Tree) :
    (ofLeaves account t).Alike (ofLeaves other t) := by
  induction t using Tree.leaves_induct with
  | leaf t hleaf =>
      rw [ofLeaves_of_ne_array _ hleaf, ofLeaves_of_ne_array _ hleaf]
      exact h t
  | array items ih =>
      rw [ofLeaves_array, ofLeaves_array]
      exact ofArray_alike ih

/-- A failure with words of its own is not for want of fuel. -/
theorem finished_of_worded {account : Account}
    (h : account.failure?.all (fun failure => failure.message?.isSome) = true) :
    account.Finished := by
  intro heq
  rw [heq] at h
  cases h

def ofTransform (fuel : Nat) (visitors : List (Visitor Unit)) (options : TransformOptions Unit) :
    Tree → Account :=
  ofWalk (transform fuel (traceAll visitors) options.traced)

def ofBox (fuel : Nat) (order : Order) (visitors : List (Visitor Unit)) (prune : Prune Unit) :
    Tree → Account :=
  ofWalk (Transform.boxed fuel order (traceAll visitors) prune.traced)

end Account

open Account (ofWalk ofArray ofLeaves ofTransform ofBox)

section

variable {visitors : List (Visitor Unit)} (hsome : visitors ≠ []) {options : TransformOptions Unit}
  {order : Order} (horder : Order.resolve options.order = .ok order)

include hsome horder

theorem transform_traced_eq (fuel : Nat) (root : Value) :
    transform fuel (traceAll visitors) options.traced root = (do
      let tree ← Walk.copy options.clone root
      Transform.root order (traceAll visitors) options.prune.traced fuel tree) := by
  have htraced : traceAll visitors ≠ [] := by
    simpa [traceAll] using hsome
  have hresolve : Order.resolve options.traced.order = .ok order := horder
  rw [transform_of_resolve hresolve]
  refine congrArg (Walk.copy options.clone root >>= ·) (funext fun tree => ?_)
  exact Transform.engage_eq_root htraced fuel _ order tree

theorem ofTransform_inPlace (hclone : options.clone.isTruthy = false) (fuel : Nat) (t : Tree) :
    ofTransform fuel visitors options t =
      ofWalk (Transform.root order (traceAll visitors) options.prune.traced fuel) t := by
  apply Account.ofWalk_congr
  rw [transform_traced_eq hsome horder, Walk.copy, hclone]
  rfl

theorem ofTransform_atom (fuel : Nat) (a : Atom) :
    ofTransform fuel visitors options (.atom a) =
      ofWalk (Transform.root order (traceAll visitors) options.prune.traced fuel) (.atom a) := by
  apply Account.ofWalk_congr
  rw [transform_traced_eq hsome horder, Store.load, Walk.copy]
  split
  · rfl
  · rfl

variable (hvisitors : ∀ visitor ∈ visitors, visitor.Impartial Eq)
  (hprune : options.prune.Impartial Eq)

include hvisitors hprune

theorem ofTransform_alike (fuel : Nat) (t : Tree) :
    (ofTransform fuel visitors options t).Alike
      (ofWalk (Transform.root order (traceAll visitors) options.prune.traced fuel) t) := by
  cases hclone : options.clone.isTruthy with
  | false =>
      rw [ofTransform_inPlace hsome horder hclone]
      exact .refl _
  | true =>
      obtain ⟨-, cells, hshows, -⟩ := Store.load_shows t {}
      obtain ⟨lot, rfl, hvalue, hstands, -⟩ := Lot.exists_of_load t (Store.load t {}).2
      have hworlds : Traced.Continues [] Eq (([], ()) : Traced Unit) ([], ()) := ⟨rfl, rfl⟩
      have hboth := Transform.root_inStep (traceAll_impartial hvisitors) hprune.traced order fuel
        hstands.value _ _ _ _ hstands.pairs hworlds
      have hcopy : transform fuel (traceAll visitors) options.traced (Store.load lot.tree {}).1
          ⟨(Store.load lot.tree {}).2, [], ()⟩ =
          Transform.root order (traceAll visitors) options.prune.traced fuel lot.value
            ⟨(Store.load lot.tree (Store.load lot.tree {}).2).2, [], ()⟩ := by
        rw [transform_traced_eq hsome horder, Walk.copy, hclone, if_pos rfl, Walk.bind_apply, hvalue]
        simp only [Walk.clone, Walk.change, Store.clone, hshows.read_eq]
      split at hboth
      · next result after other later hown hend =>
          obtain ⟨q, hleads, htrace, hresult⟩ := hboth
          rw [ofTransform, Account.ofWalk_of_ok (hcopy.trans hend), Account.ofWalk_of_ok hown]
          exact ⟨htrace.1, rfl, fun _ => (hleads.pairs.read_eq hresult).symm⟩
      · next failure after cause later hown hend =>
          obtain ⟨rfl, q, hleads, htrace⟩ := hboth
          rw [ofTransform, Account.ofWalk_of_error (hcopy.trans hend), Account.ofWalk_of_error hown]
          exact ⟨htrace.1, rfl, by simp⟩
      · exact hboth.elim

theorem ofTransform_alike_ofBox (hdepth : order ≠ .breadthFirst) {fuel : Nat} {t : Tree}
    (hfinished : (ofTransform fuel visitors options t).Finished) :
    (ofTransform fuel visitors options t).Alike (ofBox fuel order visitors options.prune t) := by
  have halike := ofTransform_alike hsome horder hvisitors hprune fuel t
  rw [ofBox, Transform.boxed_eq_root (fun _ => traceAll_impartial hvisitors)
    (fun _ => hprune.traced) hdepth (halike.finished hfinished)]
  exact halike

theorem ofTransform_alike_ofLeaves {fuel : Nat} {t : Tree}
    (hfinished : (ofTransform fuel visitors options t).Finished) :
    (ofTransform fuel visitors options t).Alike
      (ofLeaves (ofTransform fuel visitors options) t) := by
  have halike := ofTransform_alike hsome horder hvisitors hprune fuel
  refine (halike t).trans ?_
  rw [Transform.root_eq_ofLeaves (fun _ => traceAll_impartial hvisitors) (fun _ => hprune.traced)
    ((halike t).finished hfinished)]
  exact Account.ofLeaves_alike (fun leaf => (halike leaf).symm) t

end

section

variable {visitors : List (Visitor Unit)} (hsome : visitors ≠ []) {options : TransformOptions Unit}
  (horder : Order.resolve options.order = .ok .breadthFirst)
  (hvisitors : ∀ visitor ∈ visitors, visitor.Impartial Eq)
  (hprune : options.prune.Impartial Eq)

include hsome horder hvisitors hprune

theorem ofTransform_primitive_leavesAfter {fuel : Nat} {t : Tree} (hprimitive : t.isPrimitive = true)
    (hfinished : (ofTransform fuel visitors options t).Finished) :
    (ofTransform fuel visitors options t).LeavesAfter
      (ofBox fuel .breadthFirst visitors options.prune t) := by
  cases t with
  | atom a =>
      rw [ofTransform_atom hsome horder] at hfinished ⊢
      cases fuel with
      | zero => exact absurd hfinished (Transform.root_zero_not_finished _)
      | succ fuel =>
          have hbox : ofBox (fuel + 1) .breadthFirst visitors options.prune (.atom a) =
              ofWalk (Walk.answer (Transform.entrance (traceAll visitors))) (.atom a) := by
            rw [ofBox, Lot.ofWalk_boxed_of_node (fun _ => traceAll_impartial hvisitors)
              (fun _ => hprune.traced) (Store.load_ne_array rfl {})]
            apply Account.ofWalk_congr
            rw [Store.load, Walk.answer, Transform.survey_primitive_breadthFirst hprimitive]
            rfl
          rw [hbox, Transform.root_eq_primitive hprimitive]
          exact Transform.primitive_leavesAfter visitors a
  | _ => simp [Tree.isPrimitive] at hprimitive

theorem ofTransform_alike_ofBox_of_leaf {fuel : Nat} {t : Tree} (harray : t.isArray = false)
    (hprimitive : t.isPrimitive = false)
    (hfinished : (ofTransform fuel visitors options t).Finished) :
    (ofTransform fuel visitors options t).Alike
      (ofBox fuel .breadthFirst visitors options.prune t) := by
  have halike := ofTransform_alike hsome horder hvisitors hprune fuel t
  replace hfinished := halike.finished hfinished
  refine halike.trans ?_
  cases fuel with
  | zero => exact absurd hfinished (Transform.root_zero_not_finished t)
  | succ fuel =>
      rw [Transform.root_eq_boxed harray hprimitive] at hfinished ⊢
      have hsame : ofBox (fuel + 1) .breadthFirst visitors options.prune t =
          ofWalk (Transform.boxed fuel .breadthFirst (traceAll visitors) options.prune.traced) t :=
        Account.ofWalk_of_outlasts (Transform.boxed_outlasts _ _ _ fuel) hfinished
      rw [hsame]
      exact .refl _

end

/-- The items of an array are roots of their own.  If each of them can be transformed to an end, then
the array is transformed by the calls made for the items, one after the other, up to the first that
fails; it fails as that one does, or else is the array of what has come of the items.  In place, a
failure leaves what has come of the items before, and the items after as they were.

In pre-order and in post-order it comes to the same to hand the array in a box to a walk.  Breadth
first both are made up of what comes of the leaves, and there is no difference but at primitive ones:
these are then left as well as entered. -/
theorem transform_items_independent {visitors : List (Visitor Unit)} (hsome : visitors ≠ [])
    {options : TransformOptions Unit} {order : Order}
    (horder : Order.resolve options.order = .ok order)
    (hvisitors : ∀ visitor ∈ visitors, visitor.Impartial Eq) (hprune : options.prune.Impartial Eq)
    {fuel : Nat} {items : List Tree}
    (hfinished : ∀ t ∈ items, (ofTransform fuel visitors options t).Finished) {more : Nat}
    (hmore : fuel < more) :
    ((ofTransform more visitors options (.array items)).Alike
        (ofArray (ofTransform fuel visitors options) items) ∧
      (options.clone.isTruthy = false → ofTransform more visitors options (.array items) =
        ofArray (ofTransform fuel visitors options) items)) ∧
    (order ≠ .breadthFirst → (ofTransform more visitors options (.array items)).Alike
      (ofBox more order visitors options.prune (.array items))) ∧
    (order = .breadthFirst →
      (ofTransform more visitors options (.array items)).Alike
        (ofLeaves (ofTransform more visitors options) (.array items)) ∧
      ofBox more order visitors options.prune (.array items) =
        ofLeaves (ofBox more order visitors options.prune) (.array items) ∧
      ∀ leaf : Tree, leaf.isArray = false → (ofTransform more visitors options leaf).Finished →
        (leaf.isPrimitive = true → (ofTransform more visitors options leaf).LeavesAfter
          (ofBox more order visitors options.prune leaf)) ∧
        (leaf.isPrimitive = false → (ofTransform more visitors options leaf).Alike
          (ofBox more order visitors options.prune leaf))) := by
  have htraced : ∀ before, ∀ visitor ∈ traceAll visitors,
      visitor.Impartial (Traced.Continues before Eq) := fun _ => traceAll_impartial hvisitors
  have hasked : ∀ before, options.prune.traced.Impartial (Traced.Continues before Eq) :=
    fun _ => hprune.traced
  have halike := ofTransform_alike hsome horder hvisitors hprune
  have hitems : ∀ t ∈ items, (ofWalk (Transform.root order (traceAll visitors)
      options.prune.traced fuel) t).Finished :=
    fun t ht => (halike fuel t).finished (hfinished t ht)
  -- the engine itself, on the array and on the items
  have hroot : ofWalk (Transform.root order (traceAll visitors) options.prune.traced more)
      (.array items) = ofArray (ofWalk (Transform.root order (traceAll visitors)
        options.prune.traced fuel)) items := by
    have harray := Transform.ofWalk_root_array htraced hasked order fuel items
    rw [← harray]
    apply Transform.ofWalk_root_mono hmore
    rw [harray]
    exact Account.ofArray_finished hitems
  have hwhole : (ofTransform more visitors options (.array items)).Alike
      (ofArray (ofTransform fuel visitors options) items) := by
    refine (halike more (.array items)).trans ?_
    rw [hroot]
    exact Account.ofArray_alike fun t _ => (halike fuel t).symm
  have hend : (ofTransform more visitors options (.array items)).Finished :=
    hwhole.symm.finished (Account.ofArray_finished hfinished)
  refine ⟨⟨hwhole, fun hclone => ?_⟩, fun hdepth => ?_, ?_⟩
  · rw [ofTransform_inPlace hsome horder hclone, hroot]
    congr 1
    funext t
    exact (ofTransform_inPlace hsome horder hclone fuel t).symm
  · exact ofTransform_alike_ofBox hsome horder hvisitors hprune hdepth hend
  · rintro rfl
    refine ⟨ofTransform_alike_ofLeaves hsome horder hvisitors hprune hend,
      Transform.boxed_eq_ofLeaves htraced hasked more (.array items), ?_⟩
    intro leaf harray hleaf
    refine ⟨fun hprimitive => ?_, fun hprimitive => ?_⟩
    · exact ofTransform_primitive_leavesAfter hsome horder hvisitors hprune hprimitive hleaf
    · exact ofTransform_alike_ofBox_of_leaf hsome horder hvisitors hprune harray hprimitive hleaf

def procession : List Tree :=
  [.array [.text "drum", .array []], .object [("type", .text "float"), ("children", .text "rose")],
    .object [("type", .text "stop")], .text "crowd"]

def framedProcession : Tree :=
  .array [.array [.object [("type", .text "frame"), ("children", .text "drum")], .array []],
    .object [("type", .text "frame"), ("children", .object [("type", .text "float"),
      ("children", .object [("type", .text "frame"), ("children", .text "rose")]),
      ("seen", .bool true)])],
    .object [("type", .text "stop")], .text "crowd"]

theorem transform_items_independent_procession :
    [Visitor.leaving stopping, Visitor.leaving framing] ≠ [] ∧
    Order.resolve (.text "dfs_pre") = .ok .preOrder ∧
    (∀ visitor ∈ [Visitor.leaving stopping, Visitor.leaving framing], visitor.Impartial Eq) ∧
    (Prune.setting .null : Prune Unit).Impartial Eq ∧
    (∀ t ∈ procession, (ofTransform 20 [Visitor.leaving stopping, Visitor.leaving framing]
      (.inPlace (.text "dfs_pre")) t).Finished) ∧
    ofTransform 21 [Visitor.leaving stopping, Visitor.leaving framing] (.inPlace (.text "dfs_pre"))
        (.array procession) =
      ofArray (ofTransform 20 [Visitor.leaving stopping, Visitor.leaving framing]
        (.inPlace (.text "dfs_pre"))) procession ∧
    (ofTransform 21 [Visitor.leaving stopping, Visitor.leaving framing]
      (.inPlace (.text "dfs_pre")) (.array procession)).failure?.bind Failure.message? =
        some "stopped" ∧
    (ofTransform 21 [Visitor.leaving stopping, Visitor.leaving framing]
      (.inPlace (.text "dfs_pre")) (.array procession)).tree = framedProcession := by
  have hsome : [Visitor.leaving stopping, Visitor.leaving framing] ≠ [] := List.cons_ne_nil _ _
  have horder : Order.resolve (.text "dfs_pre") = .ok .preOrder := rfl
  have hvisitors : ∀ visitor ∈ [Visitor.leaving stopping, Visitor.leaving framing],
      visitor.Impartial Eq := by
    simp only [List.forall_mem_cons]
    exact ⟨Visitor.scripted_impartial none (some _), Visitor.scripted_impartial none (some _), nofun⟩
  have hprune : (Prune.setting .null : Prune Unit).Impartial Eq := Prune.setting_impartial Eq .null
  have hfinished : ∀ t ∈ procession, (ofTransform 20
      [Visitor.leaving stopping, Visitor.leaving framing] (.inPlace (.text "dfs_pre")) t).Finished := by
    intro t ht
    apply Account.finished_of_worded
    revert t
    decide +kernel
  obtain ⟨⟨-, hplace⟩, -, -⟩ :=
    transform_items_independent hsome horder hvisitors hprune hfinished (Nat.lt_succ_self 20)
  refine ⟨hsome, horder, hvisitors, hprune, hfinished, hplace rfl, ?_, ?_⟩
  · decide +kernel
  · decide +kernel

end ViewTree
