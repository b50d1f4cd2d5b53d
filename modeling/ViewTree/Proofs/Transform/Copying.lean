import ViewTree.Proofs.Transform.Identity
import ViewTree.Proofs.Visitor.Company

namespace ViewTree

open Walk (Mirrors)

/-- A visitor that gets at the tree through its node and the parent only, wherever they are laid out. -/
structure Visitor.Local (memory : Memory σ γ) (visitor : Visitor σ) : Prop where
  portable : visitor.Portable memory
  discreet : ∀ guarded, visitor.Discreet guarded

structure Prune.Local (memory : Memory σ γ) (prune : Prune σ) : Prop where
  portable : prune.Portable memory
  discreet : ∀ guarded, prune.Discreet guarded

def tracedRun (fuel : Nat) (visitors : List (Visitor σ)) (options : TransformOptions σ) (world : σ)
    (t : Tree) (s : Store) : EStateM.Result Failure (Session (Traced σ)) Value :=
  transform fuel (traceAll visitors) options.traced (Store.load t s).1
    ⟨(Store.load t s).2, [], world⟩

structure Session.Agrees (memory : Memory σ γ) (first second : Session (Traced σ)) : Prop where
  trace : first.world.1 = second.world.1
  memory : memory.shown first.store first.world.2 = memory.shown second.store second.world.2

/-- Two runs that agree in trace and memory, and fail alike or give results that read the same. -/
inductive SameRun (memory : Memory σ γ) :
    EStateM.Result Failure (Session (Traced σ)) Value →
      EStateM.Result Failure (Session (Traced σ)) Value → Prop
  | ok {result other : Value} {after last : Session (Traced σ)}
      (read : after.store.read result = last.store.read other)
      (agrees : after.Agrees memory last) : SameRun memory (.ok result after) (.ok other last)
  | error {failure : Failure} {after last : Session (Traced σ)}
      (agrees : after.Agrees memory last) :
      SameRun memory (.error failure after) (.error failure last)

variable {memory : Memory σ γ}

theorem Session.agrees_transit (first second : Store) (session : Session (Traced σ)) :
    ((memory.traced.transit first).session session).Agrees memory
      ((memory.traced.transit second).session session) := by
  refine ⟨rfl, ?_⟩
  exact (memory.shown_move first _ _).trans (memory.shown_move second _ _).symm

theorem SameRun.of_transit (first second : Store)
    (run : EStateM.Result Failure (Session (Traced σ)) Value) :
    SameRun memory ((memory.traced.transit first).result (Value.above first) run)
      ((memory.traced.transit second).result (Value.above second) run) := by
  cases run with
  | error failure after => exact .error (Session.agrees_transit first second after)
  | ok result after =>
      refine .ok ?_ (Session.agrees_transit first second after)
      exact (Store.read_above first _ result).trans (Store.read_above second _ result).symm

theorem session_load {world : σ} (hworld : ∀ base, memory.move base world = world) (t : Tree)
    (s : Store) :
    (memory.traced.transit s).session ⟨(Store.load t {}).2, [], world⟩ =
      ⟨(Store.load t s).2, [], world⟩ := by
  rw [Store.load_eq_above t s]
  exact congrArg (fun world => Session.mk _ ([], world)) (hworld s)

section

variable {fuel : Nat} {visitors : List (Visitor σ)} {prune : Prune σ} {given : Tree}
  {world : σ} {t : Tree} {s : Store}

theorem tracedRun_of_bad_order {failure : Failure} (h : Order.resolve given = .error failure)
    (clone : Tree) :
    tracedRun fuel visitors { order := given, clone := clone, prune := prune } world t s =
      .error failure ⟨(Store.load t s).2, [], world⟩ := by
  rw [tracedRun, transform_eq, Walk.bind_apply]
  simp only [TransformOptions.traced, h]
  rfl

theorem tracedRun_inPlace {order : Order} (h : Order.resolve given = .ok order) :
    tracedRun fuel visitors { order := given, clone := .bool false, prune := prune } world t s =
      Transform.engage fuel (traceAll visitors) prune.traced order (Store.load t s).1
        ⟨(Store.load t s).2, [], world⟩ := by
  rw [tracedRun, transform_eq, Walk.bind_apply]
  simp only [TransformOptions.traced, h]
  rfl

theorem tracedRun_clone {order : Order} (h : Order.resolve given = .ok order) :
    tracedRun fuel visitors { order := given, clone := .bool true, prune := prune } world t s =
      Transform.engage fuel (traceAll visitors) prune.traced order
        (Store.load t (Store.load t s).2).1 ⟨(Store.load t (Store.load t s).2).2, [], world⟩ := by
  obtain ⟨-, cells, hshows, -⟩ := Store.load_shows t s
  have hclone : Store.clone (Store.load t s).1 (Store.load t s).2 =
      Store.load t (Store.load t s).2 := by
    rw [Store.clone, hshows.read_eq]
  rw [tracedRun, transform_eq, Walk.bind_apply]
  simp only [TransformOptions.traced, h, ← hclone]
  rfl

end

section

variable {visitors : List (Visitor σ)} (hvisitors : ∀ visitor ∈ visitors, visitor.Local memory)
  {prune : Prune σ} (hprune : prune.Local memory)

include hvisitors

theorem traceAll_portable (base : Store) :
    List.Forall₂ (Visitor.Mirrors (memory.traced.transit base)) (traceAll visitors)
      (traceAll visitors) := by
  apply List.forall₂_same.mpr
  intro traced htraced
  obtain ⟨number, hnumber, rfl⟩ := List.mem_mapIdx.mp htraced
  exact (hvisitors _ (List.getElem_mem hnumber)).portable.traced number base

include hprune

theorem engage_load (fuel : Nat) (order : Order) {world : σ}
    (hworld : ∀ base, memory.move base world = world) (t : Tree) (s : Store) :
    Transform.engage fuel (traceAll visitors) prune.traced order (Store.load t s).1
        ⟨(Store.load t s).2, [], world⟩ =
      (memory.traced.transit s).result (Value.above s)
        (Transform.engage fuel (traceAll visitors) prune.traced order (Store.load t {}).1
          ⟨(Store.load t {}).2, [], world⟩) := by
  have htraced := Company.mirrors_of_forall₂ (traceAll_portable hvisitors s)
  have hmirrors := Transform.engage_mirrors htraced (hprune.portable.traced s) fuel order
    (Store.load t {}).1 ⟨(Store.load t {}).2, [], world⟩
  rw [session_load hworld] at hmirrors
  rw [Store.load_eq_above t s] at hmirrors ⊢
  exact hmirrors

theorem engage_ends (fuel : Nat) (order : Order) (t : Tree) (world : σ) :
    (Transform.engage fuel (traceAll visitors) prune.traced order (Store.load t {}).1).Ends
      ⟨(Store.load t {}).2, [], world⟩
      (fun result after => Returned (Store.load t {}).1 after.world.1 result) fun _ _ => True := by
  obtain ⟨hclosed, hroot⟩ := Store.load_closed t Store.Closed.empty
  unfold Transform.engage
  split
  · exact .inl rfl
  · exact root_ends (fun visitor hvisitor => (hvisitors visitor hvisitor).discreet)
      hprune.discreet order fuel hclosed hroot ([], world)

end

theorem Returned.above {root result : Value} {trace : List Event} (h : Returned root trace result)
    (base : Store) : Returned (root.above base) trace (result.above base) := by
  rcases h with rfl | ⟨a, rfl, hprimitive⟩ | ⟨harray, hreplaced⟩
  · exact .inl rfl
  · exact .inr (.inl ⟨a, rfl, hprimitive⟩)
  · refine .inr (.inr ⟨?_, hreplaced⟩)
    intro ref hroot
    cases root with
    | array other => exact harray other rfl
    | _ => cases hroot

/-- Whether a transform works on a copy makes no difference to what its visitors are shown and remember, nor
to how it ends.  In place the root comes back, and an array always does. -/
theorem transform_clone_agrees {visitors : List (Visitor σ)}
    (hvisitors : ∀ visitor ∈ visitors, visitor.Local memory) {prune : Prune σ}
    (hprune : prune.Local memory) {world : σ} (hworld : ∀ base, memory.move base world = world)
    (order : Tree) (t : Tree) (mine other : Store) (fuel : Nat) :
    SameRun memory
      (tracedRun fuel visitors { order := order, clone := .bool false, prune := prune } world t mine)
      (tracedRun fuel visitors { order := order, clone := .bool true, prune := prune } world t
        other) ∧
    ∀ result after,
      tracedRun fuel visitors { order := order, clone := .bool false, prune := prune } world t mine =
        .ok result after → Returned (Store.load t mine).1 after.world.1 result := by
  cases hresolve : Order.resolve order with
  | error failure =>
      rw [tracedRun_of_bad_order hresolve, tracedRun_of_bad_order hresolve]
      refine ⟨?_, ?_⟩
      · rw [← session_load hworld t mine, ← session_load hworld t other]
        exact SameRun.of_transit mine other (.error failure ⟨(Store.load t {}).2, [], world⟩)
      · intro result after hok
        cases hok
  | ok order =>
      rw [tracedRun_inPlace hresolve, tracedRun_clone hresolve,
        engage_load hvisitors hprune fuel order hworld t mine,
        engage_load hvisitors hprune fuel order hworld t (Store.load t other).2]
      refine ⟨SameRun.of_transit mine _ _, ?_⟩
      intro result after hok
      have hends := engage_ends hvisitors hprune fuel order t world
      cases hrun : Transform.engage fuel (traceAll visitors) prune.traced order
          (Store.load t {}).1 ⟨(Store.load t {}).2, [], world⟩ with
      | error failure last =>
          rw [hrun] at hok
          cases hok
      | ok value last =>
          rw [hrun] at hok
          rw [Walk.Ends.iff_of_ok hrun] at hends
          cases hok
          rw [Store.load_eq_above t mine]
          exact hends.above mine

def attendants : Company :=
  (Company.ofPlans [
    .rules (some [{ actions := [.edit .parent (.append (.text "z")),
      .edit .node (.set "seen" (.bool true))] }]) none,
    .bind { handlers := .object [] } (.policy .gather)]).1

def shop : Tree :=
  .object [("type", .text "shop"), ("children", .array [.object [("type", .text "door"),
    ("props", .object [("onOpen", .text "ring")])]])]

def eventCount? : EStateM.Result Failure (Session (Traced σ)) Value → Option Nat
  | .ok _ after => some after.world.1.length
  | .error _ _ => none

theorem transform_clone_agrees_attendants :
    (∀ visitor ∈ attendants.visitors, visitor.Local Ledger.memory) ∧
    SameRun Ledger.memory
      (tracedRun 9 attendants.visitors { clone := .bool false } attendants.ledger shop {})
      (tracedRun 9 attendants.visitors { clone := .bool true } attendants.ledger shop {}) ∧
    ∃ result after,
      tracedRun 9 attendants.visitors { clone := .bool false } attendants.ledger shop {} =
        .ok result after ∧
      Returned (Store.load shop {}).1 after.world.1 result ∧ after.world.1.length = 4 := by
  have hvisitors : ∀ visitor ∈ attendants.visitors, visitor.Local Ledger.memory := by
    intro visitor hvisitor
    exact ⟨Company.visitors_portable _ visitor hvisitor,
      fun guarded => Company.visitors_discreet _ guarded visitor hvisitor⟩
  have hprune : (Prune.setting .null).Local Ledger.memory :=
    ⟨Prune.setting_portable _ _, fun _ => Prune.setting_discreet _⟩
  have hworld : ∀ base, Ledger.memory.move base attendants.ledger = attendants.ledger :=
    Company.move_ledger _
  have hagrees := transform_clone_agrees hvisitors hprune hworld Order.preOrder.setting shop {} {} 9
  have hcount : eventCount?
      (tracedRun 9 attendants.visitors { clone := .bool false } attendants.ledger shop {}) =
        some 4 := by
    decide +kernel
  refine ⟨hvisitors, hagrees.1, ?_⟩
  cases hrun : tracedRun 9 attendants.visitors { clone := .bool false } attendants.ledger shop {} with
  | error failure after =>
      rw [hrun] at hcount
      cases hcount
  | ok result after =>
      rw [hrun] at hcount
      exact ⟨result, after, rfl, hagrees.2 result after hrun, Option.some.inj hcount⟩

end ViewTree
