import ViewTree.Proofs.Transform.Record
import ViewTree.Proofs.Traverse.Sweeping

/-!
Orders of roses.  A sweep takes the values of roses as a walk takes slots: what lies below a value joins
the roses that wait, before them or behind them.  Before them it lists the values in pre-order, behind
them level by level.
-/

namespace ViewTree

open Tour (Joining)

namespace Rose

def value : Rose α → α
  | .mk value _ => value

def inner : Rose α → List (Rose α)
  | .mk _ below => below

mutual
def size : Rose α → Nat
  | .mk _ below => 1 + sizes below

def sizes : List (Rose α) → Nat
  | [] => 0
  | rose :: rest => rose.size + sizes rest
end

mutual
def height : Rose α → Nat
  | .mk _ below => 1 + heights below

def heights : List (Rose α) → Nat
  | [] => 0
  | rose :: rest => max rose.height (heights rest)
end

mutual
def preOrder : Rose α → List α
  | .mk value below => value :: preOrders below

def preOrders : List (Rose α) → List α
  | [] => []
  | rose :: rest => rose.preOrder ++ preOrders rest
end

def level : Nat → Rose α → List α
  | 0, .mk value _ => [value]
  | n + 1, .mk _ below => below.flatMap (level n)

theorem sizes_append (roses others : List (Rose α)) :
    sizes (roses ++ others) = sizes roses + sizes others := by
  induction roses with
  | nil => simp [sizes]
  | cons rose rest ih => simp only [List.cons_append, sizes, ih, Nat.add_assoc]

theorem sizes_join (joining : Joining) (waiting below : List (Rose α)) :
    sizes (joining.join waiting below) = sizes waiting + sizes below := by
  cases joining with
  | behind => exact sizes_append waiting below
  | before => exact (sizes_append below waiting).trans (Nat.add_comm _ _)

/-- The values of roses as a sweep comes to them. -/
def sweep (joining : Joining) : List (Rose α) → List α
  | [] => []
  | .mk value below :: waiting => value :: sweep joining (joining.join waiting below)
termination_by roses => sizes roses
decreasing_by
  rw [sizes_join, sizes, size]
  omega

def listing : Order → Rose α → List α
  | .preOrder, rose => rose.preOrder
  | .postOrder, rose => rose.postOrder
  | .breadthFirst, rose => sweep .behind [rose]

theorem postOrders_eq (roses : List (Rose α)) : postOrders roses = roses.flatMap postOrder := by
  induction roses with
  | nil => rfl
  | cons rose rest ih => rw [postOrders, ih, List.flatMap_cons]

theorem preOrders_eq (roses : List (Rose α)) : preOrders roses = roses.flatMap preOrder := by
  induction roses with
  | nil => rfl
  | cons rose rest ih => rw [preOrders, ih, List.flatMap_cons]

theorem sweep_before (roses : List (Rose α)) : sweep .before roses = roses.flatMap preOrder := by
  induction roses using sweep.induct .before with
  | case1 => rw [sweep, List.flatMap_nil]
  | case2 value below waiting ih =>
      rw [sweep, ih, Joining.join, List.flatMap_append, List.flatMap_cons, preOrder, preOrders_eq]
      rfl

theorem map_sweep (joining : Joining) (f : α → β) (roses : List (Rose α)) :
    (sweep joining roses).map f = sweep joining (roses.map (map f)) := by
  induction roses using sweep.induct joining with
  | case1 => rw [sweep, List.map_nil, List.map_nil, sweep]
  | case2 value below waiting ih =>
      rw [sweep, List.map_cons, ih, joining.map_join, List.map_cons, map_mk, sweep]

theorem map_preOrder (f : α → β) (rose : Rose α) : rose.preOrder.map f = (rose.map f).preOrder := by
  have hone := map_sweep .before f [rose]
  rwa [sweep_before, sweep_before, List.map_cons, List.map_nil, List.flatMap_singleton,
    List.flatMap_singleton] at hone

theorem map_postOrder (f : α → β) (rose : Rose α) :
    rose.postOrder.map f = (rose.map f).postOrder := by
  induction rose using induct with
  | mk value below ih =>
      rw [map_mk, postOrder, postOrder, postOrders_eq, postOrders_eq, List.map_append,
        List.map_flatMap, List.flatMap_map]
      refine congrArg (· ++ _) ?_
      rw [List.flatMap_def, List.flatMap_def]
      exact congrArg _ (List.map_congr_left ih)

theorem map_listing (order : Order) (f : α → β) (rose : Rose α) :
    (rose.listing order).map f = (rose.map f).listing order := by
  cases order with
  | preOrder => exact map_preOrder f rose
  | postOrder => exact map_postOrder f rose
  | breadthFirst => exact map_sweep .behind f [rose]

theorem sweep_behind_append (front back : List (Rose α)) :
    sweep .behind (front ++ back) =
      front.map value ++ sweep .behind (back ++ front.flatMap inner) := by
  induction front generalizing back with
  | nil => rw [List.nil_append, List.map_nil, List.flatMap_nil, List.append_nil, List.nil_append]
  | cons rose front ih =>
      obtain ⟨top, below⟩ := rose
      rw [List.cons_append, sweep, Joining.join, List.append_assoc, ih, List.map_cons,
        List.flatMap_cons, List.cons_append, List.append_assoc]
      rfl

theorem sweep_behind_level (roses : List (Rose α)) :
    sweep .behind roses = roses.map value ++ sweep .behind (roses.flatMap inner) := by
  have hlevel := sweep_behind_append roses []
  rwa [List.append_nil, List.nil_append] at hlevel

theorem heights_le_iff {roses : List (Rose α)} {bound : Nat} :
    heights roses ≤ bound ↔ ∀ rose ∈ roses, rose.height ≤ bound := by
  induction roses with
  | nil => simp [heights]
  | cons rose rest ih => rw [heights, Nat.max_le, ih, List.forall_mem_cons]

theorem flatMap_level_zero (roses : List (Rose α)) : roses.flatMap (level 0) = roses.map value := by
  induction roses with
  | nil => rfl
  | cons rose rest ih =>
      obtain ⟨top, below⟩ := rose
      rw [List.flatMap_cons, ih]
      rfl

theorem flatMap_level_succ (n : Nat) (roses : List (Rose α)) :
    roses.flatMap (level (n + 1)) = (roses.flatMap inner).flatMap (level n) := by
  rw [List.flatMap_assoc]
  refine List.flatMap_congr fun rose _ => ?_
  cases rose
  rfl

theorem sweep_behind (roses : List (Rose α)) :
    sweep .behind roses = (List.range (heights roses)).flatMap fun n => roses.flatMap (level n) := by
  suffices hbound : ∀ bound (roses : List (Rose α)), heights roses ≤ bound →
      sweep .behind roses = (List.range bound).flatMap fun n => roses.flatMap (level n) from
    hbound _ roses (Nat.le_refl _)
  intro bound
  induction bound with
  | zero =>
      intro roses h
      cases roses with
      | nil => rw [sweep]; rfl
      | cons rose rest =>
          obtain ⟨top, below⟩ := rose
          simp only [heights, height] at h
          omega
  | succ bound ih =>
      intro roses h
      have hbelow : heights (roses.flatMap inner) ≤ bound := by
        refine heights_le_iff.mpr fun rose hrose => ?_
        obtain ⟨parent, hparent, hrose⟩ := List.mem_flatMap.mp hrose
        obtain ⟨top, below⟩ := parent
        have htop := heights_le_iff.mp h _ hparent
        have hinner := heights_le_iff.mp (Nat.le_refl (heights below)) rose hrose
        rw [height] at htop
        omega
      rw [sweep_behind_level, ih _ hbelow, List.range_succ_eq_map, List.flatMap_cons,
        flatMap_level_zero, List.flatMap_map]
      simp only [flatMap_level_succ]

theorem listing_breadthFirst (rose : Rose α) :
    rose.listing .breadthFirst = (List.range rose.height).flatMap fun n => rose.level n := by
  rw [listing, sweep_behind, heights, heights, Nat.max_zero]
  simp only [List.flatMap_singleton]

/-- The values below one stand one level deeper than it. -/
inductive Graded (depth : α → Nat) : Rose α → Prop
  | mk {value : α} {below : List (Rose α)}
      (hdepth : ∀ rose ∈ below, depth rose.value = depth value + 1)
      (hbelow : ∀ rose ∈ below, Graded depth rose) : Graded depth (.mk value below)

/-- The values at a depth, in pre-order, are a level of the rose. -/
theorem Graded.filter_preOrder {depth : α → Nat} {rose : Rose α} (h : rose.Graded depth) (n : Nat) :
    rose.preOrder.filter (depth · = n) =
      if depth rose.value ≤ n then rose.level (n - depth rose.value) else [] := by
  induction rose using induct with
  | mk top below ih =>
      cases h with
      | mk hdepth hbelow =>
          have hinner : (preOrders below).filter (depth · = n) = below.flatMap fun rose =>
              if depth top + 1 ≤ n then rose.level (n - (depth top + 1)) else [] := by
            rw [preOrders_eq, List.filter_flatMap]
            refine List.flatMap_congr fun rose hrose => ?_
            rw [ih rose hrose (hbelow rose hrose), hdepth rose hrose]
          rw [preOrder, value]
          by_cases hdeeper : depth top + 1 ≤ n
          · obtain ⟨m, hm⟩ : ∃ m, n - depth top = m + 1 := ⟨n - depth top - 1, by omega⟩
            have hother : depth top ≠ n := by omega
            have hm' : n - (depth top + 1) = m := by omega
            simp only [List.filter_cons, hother, hinner, hdeeper, hm, hm', level,
              Nat.le_of_succ_le hdeeper, decide_false, if_true, Bool.false_eq_true, if_false]
          · simp only [if_neg hdeeper, List.flatMap_def, List.map_const', List.flatten_replicate_nil]
              at hinner
            by_cases hsame : depth top = n
            · subst hsame
              simp [hinner, level]
            · have hbefore : ¬ depth top ≤ n := by omega
              simp [hsame, hinner, hbefore]

end Rose

end ViewTree
