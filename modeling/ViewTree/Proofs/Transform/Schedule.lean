import ViewTree.Proofs.Transform.Charting
import ViewTree.Proofs.Traverse.Levels
import ViewTree.Proofs.Walk.Upholding

/-!
Schedules.  What is to be visited below a node is settled when the walk descends into it: the slots
of its children in the store as it is then.  A chart is read against records of calls, one call for
each slot that was ever listed, and whatever hooks do to a list of children afterwards, the calls stay
the same.
-/

namespace ViewTree

/-- How far a walk has come with a slot that was listed. -/
inductive Stage
  | awaited
  | made
  | opened (s : Store)

structure Call where
  slot : Slot
  depth : Nat
  stage : Stage

namespace Call

def spot (call : Call) : Slot × Nat := (call.slot, call.depth)

def passages : Call → List Passage
  | ⟨_, _, .awaited⟩ => []
  | ⟨slot, depth, .made⟩ => [.visit slot (slot.context depth)]
  | ⟨slot, depth, .opened s⟩ => [.visit slot (slot.context depth), .descent s]

/-- What a call lists: the slots of the children in the store at the descent, one level deeper. -/
def listed : Call → List (Slot × Nat)
  | ⟨slot, depth, .opened s⟩ => (s.childSlots slot.node).map fun child => (child, depth + 1)
  | _ => []

def awaiting (spot : Slot × Nat) : Call := ⟨spot.1, spot.2, .awaited⟩

theorem awaited_of_mem {spots : List (Slot × Nat)} :
    ∀ call ∈ spots.map awaiting, call.stage = .awaited :=
  List.forall_mem_map.mpr fun _ _ => rfl

end Call

namespace Rose

/-- Below each call stand the calls for what it has listed, in this order. -/
inductive Frozen : Rose Call → Prop
  | mk {call : Call} {below : List (Rose Call)}
      (hlisted : below.map (fun rose => rose.value.spot) = call.listed)
      (hbelow : ∀ rose ∈ below, Frozen rose) : Frozen (.mk call below)

def awaiting (spot : Slot × Nat) : Rose Call := .mk (Call.awaiting spot) []

theorem frozen_awaiting (spots : List (Slot × Nat)) :
    ∀ record ∈ spots.map awaiting, record.Frozen :=
  List.forall_mem_map.mpr fun _ _ => .mk rfl (by simp)

theorem map_spot_awaiting (spots : List (Slot × Nat)) :
    (spots.map awaiting).map (fun rose => rose.value.spot) = spots := by
  rw [List.map_map]
  exact List.map_id spots

theorem sweep_behind_leaves (values : List α) :
    sweep .behind (values.map fun value => .mk value []) = values := by
  have hinner : (values.map fun value => mk value []).flatMap inner = [] := by
    rw [List.flatMap_map]
    exact List.flatMap_eq_nil_iff.mpr fun _ _ => rfl
  rw [sweep_behind_level, hinner, sweep, List.append_nil, List.map_map]
  exact List.map_id values

theorem listing_leaf (order : Order) (value : α) : (mk value []).listing order = [value] := by
  cases order with
  | breadthFirst => exact sweep_behind_leaves [value]
  | _ => rfl

theorem sweep_awaiting (spots : List (Slot × Nat)) :
    sweep .behind (spots.map awaiting) = spots.map Call.awaiting := by
  have hleaves := sweep_behind_leaves (spots.map Call.awaiting)
  rwa [List.map_map] at hleaves

def listings (order : Order) (roses : List (Rose α)) : List α := roses.flatMap (listing order)

theorem listings_append (order : Order) (roses others : List (Rose α)) :
    listings order (roses ++ others) = listings order roses ++ listings order others :=
  List.flatMap_append

theorem listings_awaiting (order : Order) (spots : List (Slot × Nat)) :
    listings order (spots.map awaiting) = spots.map Call.awaiting := by
  rw [listings, List.flatMap_map]
  simp only [awaiting, listing_leaf]
  exact List.flatMap_pure_eq_map _ spots

end Rose

def chartOf : EStateM.Result Failure (Session (Charted σ)) α → List Passage
  | .ok _ after => after.world.1
  | .error _ after => after.world.1

/-- The calls are made one after the other; all of them, unless the walk fails. -/
def Timely (calls : List Call) (passages : List Passage) :
    EStateM.Result Failure (Session (Charted σ)) α → Prop
  | .ok _ after => (∀ call ∈ calls, call.stage ≠ .awaited) ∧
      after.world.1 = passages ++ calls.flatMap Call.passages
  | .error _ after => ∃ made awaiting, calls = made ++ awaiting ∧
      (∀ call ∈ made, call.stage ≠ .awaited) ∧ (∀ call ∈ awaiting, call.stage = .awaited) ∧
      after.world.1 = passages ++ made.flatMap Call.passages

namespace Timely

variable {calls made more : List Call} {passages : List Passage}
  {result : EStateM.Result Failure (Session (Charted σ)) α}

theorem nil (h : chartOf result = passages) : Timely [] passages result := by
  subst h
  cases result with
  | ok value after => exact ⟨by simp, (List.append_nil _).symm⟩
  | error failure after => exact ⟨[], [], rfl, by simp, by simp, (List.append_nil _).symm⟩

theorem append (hmade : ∀ call ∈ made, call.stage ≠ .awaited)
    (h : Timely more (passages ++ made.flatMap Call.passages) result) :
    Timely (made ++ more) passages result := by
  cases result with
  | ok value after =>
      obtain ⟨hmore, hchart⟩ := h
      refine ⟨List.forall_mem_append.mpr ⟨hmade, hmore⟩, ?_⟩
      rw [hchart, List.flatMap_append, List.append_assoc]
  | error failure after =>
      obtain ⟨first, awaiting, rfl, hfirst, hawaiting, hchart⟩ := h
      refine ⟨made ++ first, awaiting, (List.append_assoc _ _ _).symm,
        List.forall_mem_append.mpr ⟨hmade, hfirst⟩, hawaiting, ?_⟩
      rw [hchart, List.flatMap_append, List.append_assoc]

theorem single {call : Call} (hstage : call.stage ≠ .awaited)
    (h : chartOf result = passages ++ call.passages) : Timely [call] passages result := by
  show Timely ([call] ++ []) passages result
  refine append (List.forall_mem_singleton.mpr hstage) (nil ?_)
  rw [h, List.flatMap_singleton]

theorem idle {failure : Failure} {after : Session (Charted σ)} (hchart : after.world.1 = passages)
    (hcalls : ∀ call ∈ calls, call.stage = .awaited) :
    Timely calls passages (.error failure after : EStateM.Result _ _ α) :=
  ⟨[], calls, rfl, by simp, hcalls, by rw [hchart, List.flatMap_nil, List.append_nil]⟩

theorem await {failure : Failure} {after : Session (Charted σ)}
    (h : Timely calls passages (.error failure after : EStateM.Result _ _ α))
    (hmore : ∀ call ∈ more, call.stage = .awaited) :
    Timely (calls ++ more) passages (.error failure after : EStateM.Result _ _ β) := by
  obtain ⟨made, awaiting, rfl, hmade, hawaiting, hchart⟩ := h
  exact ⟨made, awaiting ++ more, List.append_assoc _ _ _, hmade,
    List.forall_mem_append.mpr ⟨hawaiting, hmore⟩, hchart⟩

theorem followed {value : α} {after : Session (Charted σ)}
    (h : Timely calls passages (.ok value after : EStateM.Result _ _ α))
    {result : EStateM.Result Failure (Session (Charted σ)) β}
    (hresult : chartOf result = after.world.1) : Timely calls passages result := by
  obtain ⟨hmade, hchart⟩ := h
  rw [← List.append_nil calls]
  exact append hmade (nil (hresult.trans hchart))

end Timely

namespace Walk

/-- A walk whose chart is that of the calls in records: which spots they start from, and in which
order their calls are listed, is given. -/
def Charts (list : List (Rose Call) → List Call) (spots : List (Slot × Nat))
    (walk : Walk (Charted σ) Unit) : Prop :=
  ∀ session, ∃ records : List (Rose Call), records.map (fun rose => rose.value.spot) = spots ∧
    (∀ record ∈ records, record.Frozen) ∧ Timely (list records) session.world.1 (walk session)

def Quiet (walk : Walk (Charted σ) α) : Prop :=
  ∀ session, chartOf (walk session) = session.world.1

theorem quiet_zoom (walk : Walk σ α) : Quiet (zoom Lens.snd walk : Walk (Charted σ) α) := by
  intro session
  obtain ⟨s, passages, world⟩ := session
  rw [zoom_snd_apply]
  cases walk ⟨s, world⟩ <;> rfl

theorem charts_throw {list : List (Rose Call) → List Call} {spots : List (Slot × Nat)}
    (hlist : list (spots.map Rose.awaiting) = spots.map Call.awaiting) (failure : Failure) :
    Charts list spots (throw failure : Walk (Charted σ) Unit) := by
  intro session
  refine ⟨spots.map Rose.awaiting, Rose.map_spot_awaiting spots, Rose.frozen_awaiting spots, ?_⟩
  rw [hlist]
  exact .idle rfl Call.awaited_of_mem

theorem Charts.forM {order : Order} {xs : List α} {spot : α → Slot × Nat}
    {visit : α → Walk (Charted σ) Unit}
    (h : ∀ x ∈ xs, Charts (Rose.listings order) [spot x] (visit x)) :
    Charts (Rose.listings order) (xs.map spot) (xs.forM visit) := by
  induction xs with
  | nil => exact fun session => ⟨[], rfl, by simp, .nil rfl⟩
  | cons x xs ih =>
      obtain ⟨hhead, htail⟩ := List.forall_mem_cons.mp h
      intro session
      obtain ⟨records, hspots, hfrozen, htimely⟩ := hhead session
      rw [List.forM, bind_apply]
      cases hvisit : visit x session with
      | ok value after =>
          rw [hvisit] at htimely
          obtain ⟨hmade, hchart⟩ := htimely
          obtain ⟨others, hothers, hfrozenOthers, hrest⟩ := ih htail after
          refine ⟨records ++ others, ?_, List.forall_mem_append.mpr ⟨hfrozen, hfrozenOthers⟩, ?_⟩
          · rw [List.map_append, hspots, hothers]
            rfl
          · rw [hchart] at hrest
            rw [Rose.listings_append]
            exact .append hmade hrest
      | error failure after =>
          -- what comes after the failure was listed and is never visited
          rw [hvisit] at htimely
          refine ⟨records ++ (xs.map spot).map Rose.awaiting, ?_, ?_, ?_⟩
          · rw [List.map_append, hspots, Rose.map_spot_awaiting]
            rfl
          · exact List.forall_mem_append.mpr ⟨hfrozen, Rose.frozen_awaiting _⟩
          · rw [Rose.listings_append, Rose.listings_awaiting]
            exact htimely.await Call.awaited_of_mem

end Walk

namespace Tour

theorem prune_charted (tour : Tour σ) (node : Value) (ctx : Context) (s : Store)
    (passages : List Passage) (world : σ) :
    tour.charted.prune node ctx ⟨s, passages, world⟩ =
      match tour.prune node ctx ⟨s, world⟩ with
      | .ok given after => .ok given ⟨after.store,
          if given.1 || given.2.skipping then passages else passages ++ [.descent after.store],
          after.world⟩
      | .error failure after => .error failure ⟨after.store, passages, after.world⟩ := by
  rw [charted]
  simp only [Walk.bind_apply, Walk.zoom_snd_apply]
  cases tour.prune node ctx ⟨s, world⟩ with
  | error failure after => rfl
  | ok given after =>
      obtain ⟨cut, next⟩ := given
      cases hcut : cut || next.skipping with
      | true =>
          simp only [hcut, if_true]
          rfl
      | false =>
          simp only [hcut, Bool.false_eq_true, if_false]
          rfl

theorem descend_charted (tour : Tour σ) (kind : Kind) (node : Value) (ctx : Context)
    (session : Session (Charted σ)) :
    (tour.charted.descend kind node ctx).Ends session
      (fun listed after => listed.1 = [] ∧ after.world.1 = session.world.1 ∨
        ∃ s : Store, listed.1 = s.childSlots node ∧
          after.world.1 = session.world.1 ++ [.descent s])
      fun _ after => after.world.1 = session.world.1 := by
  obtain ⟨s, passages, world⟩ := session
  unfold Walk.Ends
  rw [descend]
  by_cases hasked : kind = .structured ∧ ctx.skipping = false
  · rw [if_pos hasked, Walk.bind_apply, prune_charted]
    cases tour.prune node ctx ⟨s, world⟩ with
    | error failure after => rfl
    | ok given after =>
        obtain ⟨cut, next⟩ := given
        simp only
        cases cut || next.skipping with
        | true => exact .inl ⟨rfl, rfl⟩
        | false => exact .inr ⟨after.store, rfl, rfl⟩
  · rw [if_neg hasked]
    exact .inl ⟨rfl, rfl⟩

theorem arrive_charted (tour : Tour σ) (kind : Kind) (slot : Slot) (ctx : Context) (s : Store)
    (passages : List Passage) (world : σ) :
    tour.charted.arrive kind slot ctx ⟨s, passages, world⟩ =
      match tour.arrive kind slot ctx ⟨s, world⟩ with
      | .ok next after => .ok next ⟨after.store, passages ++ [.visit slot ctx], after.world⟩
      | .error failure after =>
          .error failure ⟨after.store, passages ++ [.visit slot ctx], after.world⟩ := by
  show Walk.zoom Lens.snd (tour.arrive kind slot ctx) ⟨s, passages ++ [.visit slot ctx], world⟩ = _
  cases harrive : tour.arrive kind slot ctx ⟨s, world⟩ with
  | ok next after => simp only [Walk.zoom_snd_apply, harrive]
  | error failure after => simp only [Walk.zoom_snd_apply, harrive]

/-- A turn has been that of a call, and what is to be visited below is what the call lists. -/
def Turned (call : Call) (passages : List Passage)
    (result : EStateM.Result Failure (Session (Charted σ)) (List (Slot × Nat) × α)) : Prop :=
  Timely [call] passages result ∧
    match result with
    | .ok (below, _) _ => below = call.listed
    | .error _ _ => call.listed = []

theorem turn_charted (tour : Tour σ) (slot : Slot) (depth : Nat) (session : Session (Charted σ)) :
    ∃ stage, Turned ⟨slot, depth, stage⟩ session.world.1 (tour.charted.turn slot depth session) := by
  obtain ⟨s, passages, world⟩ := session
  rw [turn, Walk.bind_apply, Walk.classify_apply]
  cases s.classify slot.node with
  | error cause =>
      exact ⟨.awaited, ⟨[], [_], rfl, by simp, by simp, (List.append_nil _).symm⟩, rfl⟩
  | ok kind =>
      simp only
      rw [Walk.bind_apply, arrive_charted]
      cases tour.arrive kind slot (slot.context depth) ⟨s, world⟩ with
      | error failure after => exact ⟨.made, .single (by simp) rfl, rfl⟩
      | ok next after =>
          cases next with
          | none => exact ⟨.made, .single (by simp) rfl, rfl⟩
          | some ctx =>
              simp only
              have hdescend := tour.descend_charted kind slot.node ctx
                ⟨after.store, passages ++ [.visit slot (slot.context depth)], after.world⟩
              rw [Walk.bind_apply]
              cases hlisted : tour.charted.descend kind slot.node ctx
                  ⟨after.store, passages ++ [.visit slot (slot.context depth)], after.world⟩ with
              | error failure last =>
                  rw [Walk.Ends.iff_of_error hlisted] at hdescend
                  exact ⟨.made, .single (by simp) hdescend, rfl⟩
              | ok listed last =>
                  obtain ⟨children, next⟩ := listed
                  rw [Walk.Ends.iff_of_ok hlisted] at hdescend
                  rcases hdescend with ⟨rfl, hchart⟩ | ⟨opened, rfl, hchart⟩
                  · exact ⟨.made, .single (by simp) hchart, rfl⟩
                  · refine ⟨.opened opened, .single (by simp) ?_, rfl⟩
                    exact hchart.trans (List.append_assoc _ _ _)

theorem quiet_close (tour : Tour σ) (slot : Slot) (left : Option (Kind × Context)) :
    Walk.Quiet (tour.charted.close slot left) := by
  cases left with
  | none => exact fun _ => rfl
  | some given => exact Walk.quiet_zoom (tour.leave given.1 slot given.2)

theorem depthFirst_charts (tour : Tour σ) (fuel : Nat) : ∀ (slot : Slot) (depth : Nat),
    Walk.Charts (Rose.listings .preOrder) [(slot, depth)]
      (tour.charted.depthFirst fuel slot depth) := by
  induction fuel with
  | zero =>
      intro slot depth
      exact Walk.charts_throw (Rose.listings_awaiting .preOrder [(slot, depth)]) .exhausted
  | succ fuel ih =>
      intro slot depth session
      obtain ⟨stage, htimely, hbelow⟩ := tour.turn_charted slot depth session
      rw [depthFirst_turn, Walk.bind_apply]
      cases hturn : tour.charted.turn slot depth session with
      | error failure after =>
          rw [hturn] at htimely hbelow
          exact ⟨[.mk ⟨slot, depth, stage⟩ []], rfl,
            List.forall_mem_singleton.mpr (.mk hbelow.symm (by simp)), htimely⟩
      | ok out after =>
          obtain ⟨below, left⟩ := out
          rw [hturn] at htimely hbelow
          subst hbelow
          obtain ⟨hmade, hchart⟩ := htimely
          let call : Call := ⟨slot, depth, stage⟩
          have hforM : Walk.Charts (Rose.listings .preOrder) (call.listed.map id)
              (call.listed.forM fun spot => tour.charted.depthFirst fuel spot.1 spot.2) :=
            .forM fun spot _ => ih spot.1 spot.2
          obtain ⟨records, hspots, hfrozen, hrecords⟩ := hforM after
          have hcalls : Rose.listings .preOrder [.mk call records] =
              [call] ++ Rose.listings .preOrder records := by
            rw [Rose.listings, List.flatMap_singleton, Rose.listing, Rose.preOrder,
              Rose.preOrders_eq]
            rfl
          rw [List.map_id] at hspots
          rw [hchart] at hrecords
          refine ⟨[.mk call records], rfl, List.forall_mem_singleton.mpr (.mk hspots hfrozen), ?_⟩
          have hwhole := hrecords.append hmade
          rw [← hcalls] at hwhole
          simp only [Walk.bind_apply]
          cases hbelow : call.listed.forM
              (fun spot => tour.charted.depthFirst fuel spot.1 spot.2) after with
          | error failure last =>
              rw [hbelow] at hwhole
              exact hwhole
          | ok value last =>
              -- all calls below have been made when the node is left
              rw [hbelow] at hwhole
              exact hwhole.followed (quiet_close tour slot left last)

/-- Breadth first they come behind all that waits. -/
theorem breadthFirst_charts (tour : Tour σ) (fuel : Nat) : ∀ waiting : List (Slot × Nat),
    Walk.Charts (Rose.sweep .behind) waiting (tour.charted.breadthFirst fuel waiting) := by
  induction fuel with
  | zero =>
      intro waiting
      cases waiting with
      | nil => exact fun session => ⟨[], rfl, by simp, by rw [Rose.sweep]; exact .nil rfl⟩
      | cons entry waiting => exact Walk.charts_throw (Rose.sweep_awaiting _) .exhausted
  | succ fuel ih =>
      intro waiting session
      cases waiting with
      | nil => exact ⟨[], rfl, by simp, by rw [Rose.sweep]; exact .nil rfl⟩
      | cons entry waiting =>
          obtain ⟨slot, depth⟩ := entry
          obtain ⟨stage, htimely, hbelow⟩ := tour.turn_charted slot depth session
          let call : Call := ⟨slot, depth, stage⟩
          rw [breadthFirst_turn, Walk.bind_apply]
          cases hturn : tour.charted.turn slot depth session with
          | error failure after =>
              rw [hturn] at htimely hbelow
              refine ⟨.mk call [] :: waiting.map Rose.awaiting, ?_, ?_, ?_⟩
              · rw [List.map_cons, Rose.map_spot_awaiting]
                rfl
              · exact List.forall_mem_cons.mpr
                  ⟨.mk hbelow.symm (by simp), Rose.frozen_awaiting waiting⟩
              · rw [Rose.sweep, Tour.Joining.join, List.append_nil, Rose.sweep_awaiting]
                exact htimely.await Call.awaited_of_mem
          | ok out after =>
              obtain ⟨below, left⟩ := out
              rw [hturn] at htimely hbelow
              subst hbelow
              obtain ⟨hmade, hchart⟩ := htimely
              -- of the records of the queue the last are those of what this call has listed
              obtain ⟨records, hspots, hfrozen, hrecords⟩ := ih (waiting ++ call.listed) after
              obtain ⟨others, inner, rfl, hothers, hinner⟩ := List.map_eq_append_iff.mp hspots
              obtain ⟨hfrozenOthers, hfrozenInner⟩ := List.forall_mem_append.mp hfrozen
              rw [hchart] at hrecords
              refine ⟨.mk call inner :: others, ?_, ?_, ?_⟩
              · rw [List.map_cons, hothers]
                rfl
              · exact List.forall_mem_cons.mpr ⟨.mk hinner hfrozenInner, hfrozenOthers⟩
              · rw [Rose.sweep]
                exact hrecords.append hmade

theorem run_charts (tour : Tour σ) {order : Order} (horder : order ≠ .postOrder) (fuel : Nat)
    (roots : List Slot) :
    Walk.Charts (Rose.listings order) (roots.map (·, 0)) (tour.charted.run order fuel roots) := by
  refine .forM fun root _ => ?_
  cases order with
  | preOrder => exact tour.depthFirst_charts fuel root 0
  | postOrder => exact absurd rfl horder
  | breadthFirst =>
      intro session
      obtain ⟨records, hspots, hfrozen, htimely⟩ :=
        tour.breadthFirst_charts fuel [(root, 0)] session
      obtain ⟨record, rfl, hspot⟩ := List.map_eq_singleton_iff.mp hspots
      refine ⟨[record], hspots, hfrozen, ?_⟩
      rwa [Rose.listings, List.flatMap_singleton]

end Tour

end ViewTree
