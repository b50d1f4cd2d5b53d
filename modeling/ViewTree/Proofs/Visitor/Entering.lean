import ViewTree.Proofs.Visitor.Confinement
import ViewTree.Proofs.Visitor.Watching

namespace ViewTree

open Store (Cell)

def entries (notices : List Notice) : List Stand :=
  notices.filterMap Notice.entry?

theorem entries_append (notices others : List Notice) :
    entries (notices ++ others) = entries notices ++ entries others :=
  List.filterMap_append

namespace Walk

/-- A walk begins the enter phases of some stands in turn, or of the first of them if it is broken
off; it does not run out of fuel. -/
def Visits (walk : Walk (Watched σ) α) (session : Session (Watched σ)) (stands : List Stand)
    (post : α → Store → Prop) : Prop :=
  walk.Ends session
    (fun value after =>
      entries after.world.1 = entries session.world.1 ++ stands ∧ post value after.store)
    fun failure after => failure ≠ .exhausted ∧
      ∃ part, part <+: stands ∧ entries after.world.1 = entries session.world.1 ++ part

namespace Visits

variable {walk : Walk (Watched σ) α} {session : Session (Watched σ)} {stands : List Stand}
  {post : α → Store → Prop}

theorem of_ok {value : α} {after : Session (Watched σ)} (hwalk : walk session = .ok value after)
    (hentries : entries after.world.1 = entries session.world.1 ++ stands)
    (hpost : post value after.store) : Visits walk session stands post :=
  (Ends.iff_of_ok hwalk).mpr ⟨hentries, hpost⟩

theorem of_error {failure : Failure} {after : Session (Watched σ)}
    (hwalk : walk session = .error failure after) (hfailure : failure ≠ .exhausted)
    (hentries : entries after.world.1 = entries session.world.1) :
    Visits walk session stands post :=
  (Ends.iff_of_error hwalk).mpr
    ⟨hfailure, [], List.nil_prefix, by rw [hentries, List.append_nil]⟩

theorem quiet {value : α} {after : Session (Watched σ)} (hwalk : walk session = .ok value after)
    (hworld : after.world.1 = session.world.1) (hpost : post value after.store) :
    Visits walk session [] post :=
  of_ok hwalk (by rw [hworld, List.append_nil]) hpost

theorem pure {value : α} (hpost : post value session.store) :
    Visits (Pure.pure value) session [] post :=
  quiet rfl rfl hpost

theorem mono {weaker : α → Store → Prop} (h : Visits walk session stands post)
    (hpost : ∀ value s, post value s → weaker value s) : Visits walk session stands weaker :=
  Ends.mono h fun _ _ hafter => ⟨hafter.1, hpost _ _ hafter.2⟩

theorem bind {next : α → Walk (Watched σ) β} {rest : List Stand} {goal : β → Store → Prop}
    (h : Visits walk session stands post)
    (hnext : ∀ value after, post value after.store → Visits (next value) after rest goal) :
    Visits (walk >>= next) session (stands ++ rest) goal := by
  apply Ends.bind
  · apply Ends.imp h fun _ _ hafter => hafter
    rintro failure after ⟨hfailure, part, hpart, hentries⟩
    exact ⟨hfailure, part, hpart.trans (List.prefix_append _ _), hentries⟩
  · rintro value after ⟨hentries, hpost⟩
    apply Ends.imp (hnext value after hpost)
    · rintro result last ⟨hmore, hgoal⟩
      exact ⟨by rw [hmore, hentries, List.append_assoc], hgoal⟩
    · rintro failure last ⟨hfailure, part, hpart, hmore⟩
      refine ⟨hfailure, stands ++ part, (List.prefix_append_right_inj _).mpr hpart, ?_⟩
      rw [hmore, hentries, List.append_assoc]

theorem after {next : α → Walk (Watched σ) β} {rest : List Stand} {goal : β → Store → Prop}
    (h : Visits walk session [] post)
    (hnext : ∀ value after, post value after.store → Visits (next value) after rest goal) :
    Visits (walk >>= next) session rest goal :=
  h.bind hnext

theorem andThen {next : α → Walk (Watched σ) β} {goal : β → Store → Prop}
    (h : Visits walk session stands post)
    (hnext : ∀ value after, post value after.store → Visits (next value) after [] goal) :
    Visits (walk >>= next) session stands goal := by
  have hwhole := h.bind hnext
  rwa [List.append_nil] at hwhole

end Visits

theorem classify_visits (node : Value) (session : Session (Watched σ)) :
    Visits (Walk.classify node) session [] fun kind after =>
      after = session.store ∧ session.store.classify node = .ok kind := by
  have hwalk := classify_apply node session
  cases hkind : session.store.classify node with
  | ok kind =>
      rw [hkind] at hwalk
      exact .quiet hwalk rfl ⟨rfl, rfl⟩
  | error cause =>
      rw [hkind] at hwalk
      exact .of_error hwalk nofun rfl

theorem write_visits (place : Place) (value : Value) (session : Session (Watched σ)) :
    Visits (Walk.write place value) session [] fun _ after =>
      after = session.store.write place value := by
  cases hhas : session.store.has place with
  | true => exact .quiet (Store.write_apply hhas session.world) rfl rfl
  | false =>
      exact .of_error (Store.write_apply_of_vanished hhas value session.world) nofun rfl

end Walk

abbrev watchedTour (visitors : List (Visitor σ)) : Tour (Watched σ) :=
  Transform.tour [watch visitors] (.setting .null) .postOrder

section

variable {visitors : List (Visitor σ)} (hvisitors : ∀ visitor ∈ visitors, visitor.Confined)
  {kept : Cell → Prop}

include hvisitors

theorem enterPhase_visits {session : Session (Watched σ)} {node : Value} {ctx : Context}
    (hnode : ∀ ref, node ≠ .array ref) (h : session.store.Secures kept node ctx.parent) :
    Walk.Visits (runPhase .enter [watch visitors] node ctx) session [ctx.stand node]
      fun given after => session.store.Keeps kept node ctx.parent after ∧
        given.2.stand node = ctx.stand node ∧
        ∀ value, given.1 = some value → after.Clears kept value := by
  obtain ⟨s, notices, world⟩ := session
  have hwalk := runPhase_watch_enter visitors node ctx s notices world
  have hphase := runPhase_confined hvisitors .enter hnode ctx s world h.settled
  cases hrun : runPhase .enter visitors node ctx ⟨s, world⟩ with
  | ok given after =>
      obtain ⟨replacement, next⟩ := given
      rw [hrun] at hwalk
      rw [Walk.Ends.iff_of_ok hrun] at hphase
      obtain ⟨hstirs, hoffers, hstand⟩ := hphase
      refine .of_ok hwalk ?_ ⟨h.stirs hstirs, hstand, fun value hvalue => ?_⟩
      · rw [entries_append, entries_append]
        exact List.append_nil _
      · exact h.clears hstirs.grows (hoffers value hvalue)
  | error failure after =>
      rw [hrun] at hwalk
      rw [Walk.Ends.iff_of_error hrun] at hphase
      exact (Walk.Ends.iff_of_error hwalk).mpr
        ⟨hphase, [ctx.stand node], List.prefix_rfl, entries_append _ _⟩

theorem exitPhase_visits {session : Session (Watched σ)} {node : Value} {ctx : Context}
    (hnode : ∀ ref, node ≠ .array ref) (h : session.store.Secures kept node ctx.parent) :
    Walk.Visits (runPhase .exit [watch visitors] node ctx) session []
      fun given after => session.store.Keeps kept node ctx.parent after ∧
        ∀ value, given.1 = some value → after.Clears kept value := by
  obtain ⟨s, notices, world⟩ := session
  have hwalk := runPhase_watch_exit visitors node ctx s notices world
  have hphase := runPhase_confined hvisitors .exit hnode ctx s world h.settled
  cases hrun : runPhase .exit visitors node ctx ⟨s, world⟩ with
  | ok given after =>
      rw [hrun] at hwalk
      rw [Walk.Ends.iff_of_ok hrun] at hphase
      obtain ⟨hstirs, hoffers, -⟩ := hphase
      exact .of_ok hwalk (entries_append _ _)
        ⟨h.stirs hstirs, fun value hvalue => h.clears hstirs.grows (hoffers value hvalue)⟩
  | error failure after =>
      rw [hrun] at hwalk
      rw [Walk.Ends.iff_of_error hrun] at hphase
      refine .of_error hwalk hphase ?_
      rw [entries_append]
      exact List.append_nil _

theorem leaveNode_visits {session : Session (Watched σ)} {slot : Slot} {ctx : Context}
    (hnode : ∀ ref, slot.node ≠ .array ref) (hchild : slot.place.IsChild)
    (hplace : ¬ kept slot.place.cell) (h : session.store.Secures kept slot.node ctx.parent) :
    Walk.Visits (Transform.leaveNode [watch visitors] slot ctx) session []
      fun _ after => session.store.Keeps kept slot.node ctx.parent after := by
  apply (exitPhase_visits hvisitors hnode h).after
  intro given middle hgiven
  obtain ⟨hkeeps, hclears⟩ := hgiven
  obtain ⟨_ | replacement, next⟩ := given
  · exact .pure hkeeps
  · apply (Walk.write_visits slot.place replacement middle).mono
    intro _ after hafter
    rw [hafter]
    exact hkeeps.trans (hkeeps.secures.write hchild hplace (hclears replacement rfl))

theorem leave_visits {session : Session (Watched σ)} {slot : Slot} {ctx : Context} (kind : Kind)
    (hnode : ∀ ref, slot.node ≠ .array ref) (hchild : slot.place.IsChild)
    (hplace : ¬ kept slot.place.cell) (h : session.store.Secures kept slot.node ctx.parent) :
    Walk.Visits ((watchedTour visitors).leave kind slot ctx) session [ctx.stand slot.node]
      fun _ after => session.store.Keeps kept slot.node ctx.parent after := by
  have henter : Walk.Visits (Transform.enterNode [watch visitors] slot ctx) session
      [ctx.stand slot.node] fun next after =>
        session.store.Keeps kept slot.node ctx.parent after ∧
          ∀ last, next = some last → last.parent = ctx.parent := by
    apply (enterPhase_visits hvisitors hnode h).andThen
    intro given middle hgiven
    obtain ⟨hkeeps, hstand, hclears⟩ := hgiven
    obtain ⟨_ | replacement, next⟩ := given
    · refine .pure ⟨hkeeps, fun last hlast => ?_⟩
      obtain rfl := Option.some.inj hlast
      exact Context.parent_of_stand hstand
    · apply (Walk.write_visits slot.place replacement middle).after
      intro _ after hafter
      refine .pure ⟨?_, nofun⟩
      rw [hafter]
      exact hkeeps.trans (hkeeps.secures.write hchild hplace (hclears replacement rfl))
  apply henter.andThen
  intro next middle hnext
  obtain ⟨hkeeps, hparent⟩ := hnext
  cases next with
  | none => exact .pure hkeeps
  | some last =>
      have hlast := hparent last rfl
      have hsecures := hkeeps.secures
      rw [← hlast] at hsecures
      apply (leaveNode_visits hvisitors hnode hchild hplace hsecures).mono
      intro _ after hafter
      rw [hlast] at hafter
      exact hkeeps.trans hafter

end

end ViewTree
