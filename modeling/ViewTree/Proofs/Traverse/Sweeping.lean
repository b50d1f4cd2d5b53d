import ViewTree.Proofs.Walk.Turns

/-!
Sweeps.  Where nothing is done on leaving a node, a walk takes slots from those that wait, one after
the other, and the slots listed at a visit join the others.  The orders differ in where they join:
behind them, breadth first, or before them, depth first.
-/

namespace ViewTree

namespace Tour

/-- Where slots that are listed join those that wait. -/
inductive Joining
  | behind
  | before

def Joining.join : Joining → List α → List α → List α
  | behind, waiting, below => waiting ++ below
  | before, waiting, below => below ++ waiting

theorem Joining.map_join (joining : Joining) (f : α → β) (waiting below : List α) :
    (joining.join waiting below).map f = joining.join (waiting.map f) (below.map f) := by
  cases joining <;> exact List.map_append

theorem Joining.join_perm (joining : Joining) (waiting below : List α) :
    (joining.join waiting below).Perm (waiting ++ below) := by
  cases joining with
  | behind => exact .refl _
  | before => exact List.perm_append_comm

/-- A sweep visits all that waits and all below it, in no more than so many visits, and ends with a
result. -/
inductive Sweeps (tour : Tour σ) (joining : Joining) :
    Nat → List (Slot × Nat) → Session σ → EStateM.Result Failure (Session σ) PUnit → Prop
  | done (visits : Nat) (session : Session σ) : Sweeps tour joining visits [] session (.ok () session)
  | failed {visits : Nat} {slot : Slot} {depth : Nat} {waiting : List (Slot × Nat)}
      {session after : Session σ} {failure : Failure}
      (visit : tour.step slot depth session = .error failure after) :
      Sweeps tour joining (visits + 1) ((slot, depth) :: waiting) session (.error failure after)
  | next {visits : Nat} {slot : Slot} {depth : Nat} {waiting below : List (Slot × Nat)}
      {session middle : Session σ} {result : EStateM.Result Failure (Session σ) PUnit}
      (visit : tour.step slot depth session = .ok below middle)
      (rest : Sweeps tour joining visits (joining.join waiting below) middle result) :
      Sweeps tour joining (visits + 1) ((slot, depth) :: waiting) session result

variable {tour : Tour σ} {visits : Nat} {waiting : List (Slot × Nat)} {session : Session σ}
  {result : EStateM.Result Failure (Session σ) PUnit}

theorem Sweeps.mono {joining : Joining} (h : tour.Sweeps joining visits waiting session result)
    {more : Nat} (hmore : visits ≤ more) : tour.Sweeps joining more waiting session result := by
  induction h generalizing more with
  | done => exact .done more _
  | failed visit =>
      obtain ⟨more, rfl⟩ : ∃ fewer, more = fewer + 1 := ⟨more - 1, by omega⟩
      exact .failed visit
  | next visit _ ih =>
      obtain ⟨more, rfl⟩ : ∃ fewer, more = fewer + 1 := ⟨more - 1, by omega⟩
      exact .next visit (ih (by omega))

theorem Sweeps.breadthFirst (h : tour.Sweeps .behind visits waiting session result) :
    tour.breadthFirst visits waiting session = result := by
  induction h with
  | done visits session => cases visits <;> rfl
  | failed visit => rw [breadthFirst_step, Walk.bind_apply, visit]
  | next visit _ ih =>
      rw [breadthFirst_step, Walk.bind_apply, visit]
      exact ih

/-- A depth-first walk is a sweep in which what is listed comes before the others.  Those that wait
may have been listed on different levels, so each has its own fuel. -/
theorem Sweeps.depthFirst_each (hleave : tour.OnlyArrives)
    (h : tour.Sweeps .before visits waiting session result) (runs : List (Nat × Slot × Nat))
    (hruns : runs.map Prod.snd = waiting) (hfuel : ∀ run ∈ runs, visits ≤ run.1) :
    (runs.forM fun run => tour.depthFirst run.1 run.2.1 run.2.2) session = result := by
  induction h generalizing runs with
  | done =>
      obtain rfl := List.map_eq_nil_iff.mp hruns
      rfl
  | failed visit =>
      obtain ⟨⟨fuel, slot, depth⟩, rest, rfl, hrun, -⟩ := List.map_eq_cons_iff.mp hruns
      cases hrun
      obtain ⟨fuel, rfl⟩ : ∃ fewer, fuel = fewer + 1 :=
        ⟨fuel - 1, by have := hfuel _ List.mem_cons_self; omega⟩
      rw [List.forM, hleave.depthFirst_step, bind_assoc, Walk.bind_apply, visit]
  | @next visits _ _ _ below _ _ _ visit _ ih =>
      obtain ⟨⟨fuel, slot, depth⟩, rest, rfl, hrun, rfl⟩ := List.map_eq_cons_iff.mp hruns
      cases hrun
      have hmore : visits + 1 ≤ fuel := hfuel _ List.mem_cons_self
      obtain ⟨fuel, rfl⟩ : ∃ fewer, fuel = fewer + 1 := ⟨fuel - 1, by omega⟩
      have hlisted : (below.forM fun entry => tour.depthFirst fuel entry.1 entry.2) =
          (below.map fun entry => (fuel, entry)).forM fun run =>
            tour.depthFirst run.1 run.2.1 run.2.2 := by rw [forM_map_eq]
      have hjoined := ih ((below.map fun entry => (fuel, entry)) ++ rest)
        (by rw [List.map_append, List.map_map]; exact congrArg (· ++ _) (List.map_id below))
        (List.forall_mem_append.mpr ⟨fun run hrun => by
            obtain ⟨entry, -, rfl⟩ := List.mem_map.mp hrun
            exact Nat.le_of_succ_le_succ hmore,
          fun run hrun => Nat.le_of_succ_le (hfuel run (List.mem_cons_of_mem _ hrun))⟩)
      rw [List.forM, hleave.depthFirst_step, bind_assoc, Walk.bind_apply, visit]
      simp only [hlisted]
      rw [← hjoined, forM_append_eq]

theorem Sweeps.depthFirst (hleave : tour.OnlyArrives) {slot : Slot} {depth : Nat}
    (h : tour.Sweeps .before visits [(slot, depth)] session result) :
    tour.depthFirst visits slot depth session = result := by
  have hone := h.depthFirst_each hleave [(visits, slot, depth)] rfl (by simp)
  rw [List.forM, List.forM, bind_pure_unit] at hone
  exact hone

end Tour

end ViewTree
