import ViewTree.Proofs.Diagnostic.Refusal
import ViewTree.Proofs.Store.Leftovers
import ViewTree.Proofs.Walk.Upholding
import ViewTree.Visitor.Binding

namespace ViewTree

open Store (Cell)

namespace Walk

/-- A walk that ends, having told its policy these diagnostics, or breaks off because the policy has
refused one. -/
def Reports (walk : Walk (Desk Value) α) (session : Session (Desk Value))
    (post : α → List (Diagnostic Value) → Store → Prop) : Prop :=
  walk.Ends session
    (fun value after => ∃ told : List (Diagnostic Value),
      told.forM Policy.report session.world = .ok () after.world ∧ post value told after.store)
    fun failure after => session.world.policy.handling.Refuses failure after.world

namespace Reports

variable {walk : Walk (Desk Value) α} {session : Session (Desk Value)}
  {post : α → List (Diagnostic Value) → Store → Prop}

theorem silent {value : α} {after : Session (Desk Value)} (hwalk : walk session = .ok value after)
    (hworld : after.world = session.world) (h : post value [] after.store) :
    walk.Reports session post :=
  (Ends.iff_of_ok hwalk).mpr ⟨[], congrArg (EStateM.Result.ok ()) hworld.symm, h⟩

theorem pure {value : α} (h : post value [] session.store) :
    Reports (Pure.pure value) session post :=
  silent rfl rfl h

theorem mono {weaker : α → List (Diagnostic Value) → Store → Prop} (h : walk.Reports session post)
    (hpost : ∀ value told after, post value told after → weaker value told after) :
    walk.Reports session weaker := by
  refine Ends.mono h ?_
  rintro value after ⟨told, htold, hafter⟩
  exact ⟨told, htold, hpost value told _ hafter⟩

theorem bind {next : α → Walk (Desk Value) β} {goal : β → List (Diagnostic Value) → Store → Prop}
    (h : walk.Reports session post)
    (hnext : ∀ value told (after : Session (Desk Value)), post value told after.store →
      (next value).Reports after fun result more last => goal result (told ++ more) last) :
    (walk >>= next).Reports session goal := by
  refine Ends.bind h ?_
  rintro value after ⟨told, htold, hafter⟩
  refine Ends.imp (hnext value told after hafter) ?_ ?_
  · rintro result last ⟨more, hmore, hgoal⟩
    refine ⟨told ++ more, ?_, hgoal⟩
    rw [forM_append_eq, bind_apply, htold]
    exact hmore
  · intro failure last hrefused
    exact Policy.forM_report_handling htold ▸ hrefused

theorem step {next : α → Walk (Desk Value) β} {goal : β → List (Diagnostic Value) → Store → Prop}
    {value : α} {after : Session (Desk Value)} (hwalk : walk session = .ok value after)
    (hworld : after.world = session.world) (hnext : (next value).Reports after goal) :
    (walk >>= next).Reports session goal := by
  rw [Reports, hworld] at hnext
  rw [Reports, Ends, bind_apply, hwalk]
  exact hnext

theorem store {next : Store → Walk (Desk Value) β}
    {goal : β → List (Diagnostic Value) → Store → Prop}
    (hnext : (next session.store).Reports session goal) :
    (Walk.store >>= next).Reports session goal :=
  @step _ Walk.store session _ next goal session.store session rfl rfl hnext

end Reports

theorem report_reports (diagnostic : Diagnostic Value) (session : Session (Desk Value)) :
    (report diagnostic).Reports session fun _ told after =>
      told = [diagnostic] ∧ after = session.store := by
  rw [Reports, Ends, report]
  cases hreport : Policy.report diagnostic session.world with
  | ok value desk =>
      refine ⟨[diagnostic], ?_, rfl, rfl⟩
      rw [Policy.forM_report_cons, hreport]
      rfl
  | error failure desk => exact ⟨diagnostic, _, rfl, hreport⟩

end Walk

namespace Store

variable {roster : Roster} {s : Store}

theorem setMembers_bound {props : ObjectRef} (h : s.Contains (.object props)) :
    s.Bound roster (fun ref => ref = props)
      (s.setMembers props (roster.bindValues (s.members props))) where
  grows := ⟨Nat.le_refl _, by simp [setMembers]⟩
  items := fun ref _ => rfl
  bound := by
    intro ref _ href
    subst href
    exact members_setMembers_self s _ _ h
  others := fun ref _ href => members_setMembers_of_ne s href _

end Store

theorem Members.put_append {name : String} {value old : α} {done rest : Members α}
    (h : name ∉ done.names) :
    put name value (done ++ (name, old) :: rest) = done ++ (name, value) :: rest := by
  induction done with
  | nil => simp [put]
  | cons member done ih =>
      obtain ⟨first, held⟩ := member
      obtain ⟨hfirst, hrest⟩ := not_or.mp fun hmem => h (List.mem_cons.mpr hmem)
      rw [List.cons_append, put, if_neg (Ne.symm hfirst), ih hrest, List.cons_append]

namespace Binding

open Walk (Reports)

structure Settings.GoesBy (settings : Settings) (roster : Roster) : Prop where
  handlers : settings.handlers = .object roster.entries
  start : settings.start = roster.start
  textsOnly : roster.start.textsOnly = true

variable {settings : Settings} {roster : Roster}

def Settings.reports (settings : Settings) (node : ν) (calls : List (String × String)) :
    List (Diagnostic ν) :=
  if settings.warnOnMissing then
    calls.map fun call => .unresolvedHandler node call.1 call.2
  else []

theorem Settings.reports_append (settings : Settings) (node : ν)
    (calls others : List (String × String)) :
    settings.reports node (calls ++ others) =
      settings.reports node calls ++ settings.reports node others := by
  unfold reports
  split
  · exact List.map_append
  · rfl

@[simp] theorem Settings.reports_nil (settings : Settings) (node : ν) :
    settings.reports node [] = [] := by
  unfold reports
  split <;> rfl

/-- What was told comes to these props, in whatever order and whichever the nodes. -/
def Settings.Tells (settings : Settings) (told : List (Diagnostic ν))
    (calls : List (String × String)) : Prop :=
  (told.map (Diagnostic.mapNode fun _ => ())).Perm (settings.reports () calls)

theorem Settings.tells_reports (settings : Settings) (node : ν) (calls : List (String × String)) :
    settings.Tells (settings.reports node calls) calls := by
  have hsame : (settings.reports node calls).map (Diagnostic.mapNode fun _ => ()) =
      settings.reports () calls := by
    unfold reports
    split
    · rw [List.map_map]
      rfl
    · rfl
  rw [Tells, hsame]

theorem Settings.tells_nil (settings : Settings) :
    settings.Tells ([] : List (Diagnostic ν)) [] := by
  rw [Tells, settings.reports_nil]
  exact .nil

section

variable {settings : Settings} {told more : List (Diagnostic ν)}
  {calls others : List (String × String)}

theorem Settings.Tells.append (h : settings.Tells told calls) (hmore : settings.Tells more others) :
    settings.Tells (told ++ more) (calls ++ others) := by
  rw [Tells, List.map_append, settings.reports_append]
  exact List.Perm.append h hmore

theorem Settings.Tells.perm (h : settings.Tells told calls) (hcalls : calls.Perm others) :
    settings.Tells told others := by
  refine List.Perm.trans h ?_
  unfold reports
  split
  · exact hcalls.map _
  · exact .nil

end

def boundValue (roster : Roster) (name : String) (value : Value) : Value :=
  ((roster.handler? name value.text?).map Value.atom).getD value

theorem bindProp_reports (h : settings.GoesBy roster) (node : Value) {props : ObjectRef}
    {session : Session (Desk Value)} {done rest : Members Value} {name : String} {value : Value}
    (hmembers : session.store.members props = done ++ (name, value) :: rest)
    (hname : name ∉ done.names) :
    (bindProp settings node props name value).Reports session fun _ told after =>
      told = settings.reports node
        (roster.start.called Value.text? [(name, boundValue roster name value)]) ∧
      after = session.store.setMembers props
        (done ++ (name, boundValue roster name value) :: rest) := by
  have hkeep : session.store =
      session.store.setMembers props (done ++ (name, value) :: rest) := by
    rw [← hmembers, Store.setMembers_members]
  unfold bindProp boundValue Roster.handler? NameStart.called
  rw [h.start, h.handlers, NameStart.begins_of_textsOnly h.textsOnly]
  apply Reports.step rfl rfl
  cases hcovers : roster.start.covers name with
  | false =>
      refine .pure ⟨?_, hkeep⟩
      simp [hcovers]
  | true =>
      cases htext : value.text? with
      | none =>
          refine .pure ⟨?_, hkeep⟩
          simp [hcovers, htext]
      | some handlerName =>
          simp only [if_true, Handler.find?_object, Option.bind_some]
          apply Reports.step rfl rfl
          cases hamong : Handler.among roster.entries handlerName with
          | none =>
              simp only [Option.map_none, Option.getD_none]
              have hcalled : [(name, value)].filterMap (fun member : String × Value =>
                  if roster.start.covers member.1 then member.2.text?.map (member.1, ·)
                  else none) = [(name, handlerName)] := by
                simp [hcovers, htext]
              rw [hcalled, Settings.reports]
              split
              · refine (Walk.report_reports _ session).mono fun _ told after hafter => ?_
                exact ⟨hafter.1, hafter.2.trans hkeep⟩
              · exact .pure ⟨rfl, hkeep⟩
          | some handler =>
              have hatom : (Value.atom handler).text? = none := Handler.text?_of_among hamong
              refine .silent rfl rfl ⟨?_, ?_⟩
              · simp [hatom]
              · show session.store.setMembers props
                  ((session.store.members props).put name (.atom handler)) = _
                rw [hmembers, Members.put_append hname]
                rfl

theorem forM_bindProp_reports (h : settings.GoesBy roster) (node : Value) {props : ObjectRef}
    {rest : Members Value} : ∀ {session : Session (Desk Value)} {done : Members Value},
      session.store.Contains (.object props) → session.store.members props = done ++ rest →
      (Members.names (done ++ rest)).Nodup →
      (rest.forM fun member => bindProp settings node props member.1 member.2).Reports session
        fun _ told after =>
          told = settings.reports node
            (roster.start.called Value.text? (roster.bindValues rest)) ∧
          after = session.store.setMembers props (done ++ roster.bindValues rest) := by
  induction rest with
  | nil =>
      intro session done _ hmembers _
      refine .pure ⟨(settings.reports_nil node).symm, ?_⟩
      rw [Roster.bindValues, Roster.bind_nil, ← hmembers, Store.setMembers_members]
  | cons member rest ih =>
      intro session done has hmembers hnodup
      obtain ⟨name, value⟩ := member
      -- a write overwrites in place, for no member that is done has this name
      have hname : name ∉ done.names := by
        rw [Members.names, List.map_append] at hnodup
        exact fun hmem => (List.nodup_append.mp hnodup).2.2 name hmem name List.mem_cons_self rfl
      apply (bindProp_reports h node hmembers hname).bind
      intro _ told middle hmiddle
      obtain ⟨rfl, hmiddle⟩ := hmiddle
      have hcontains : middle.store.Contains (.object props) := by
        rw [hmiddle]
        simpa [Store.Contains, Store.setMembers] using has
      have hsplit : middle.store.members props =
          (done ++ [(name, boundValue roster name value)]) ++ rest := by
        rw [hmiddle, Store.members_setMembers_self _ _ _ has, List.append_assoc]
        rfl
      have hnames : (Members.names
          ((done ++ [(name, boundValue roster name value)]) ++ rest)).Nodup := by
        simpa [Members.names] using hnodup
      have hbound : roster.bindValues ((name, value) :: rest) =
          (name, boundValue roster name value) :: roster.bindValues rest := rfl
      refine (ih hcontains hsplit hnames).mono fun _ more after hafter => ⟨?_, ?_⟩
      · rw [hafter.1, hbound, NameStart.called_cons _ _ _ (roster.bindValues rest),
          settings.reports_append]
      · rw [hafter.2, hmiddle, Store.setMembers_setMembers, List.append_assoc, hbound]
        rfl

theorem enter_reports (h : settings.GoesBy roster) {session : Session (Desk Value)} {node : Value}
    (hnode : ∀ ref, node = .object ref → session.store.Bindable ref) (ctx : Context) :
    (enter settings node ctx).Reports session fun result told after =>
      result = (.nothing, ctx) ∧
      told = settings.reports node (session.store.leftover roster node) ∧
      session.store.Bound roster (session.store.OwnProps node) after := by
  -- where nothing is done, the node has no props or they have no members
  have hidle : (∀ props, session.store.OwnProps node props →
        session.store.members props = []) →
      [] = settings.reports node (session.store.leftover roster node) ∧
      session.store.Bound roster (session.store.OwnProps node) session.store := by
    intro hempty
    refine ⟨?_, .refl _, fun _ _ => rfl, fun ref _ href => ?_, fun _ _ _ => rfl⟩
    · have hnone : session.store.leftover roster node = [] := by
        unfold Store.leftover
        split
        · next ref =>
            split
            · next props hprops =>
                rw [hempty props ⟨ref, rfl, hprops⟩]
                rfl
            · rfl
        · rfl
      rw [hnone, settings.reports_nil]
    · rw [hempty ref href]
      rfl
  apply Reports.store
  cases node with
  | object ref =>
      have hbindable := hnode ref rfl
      simp only [hbindable.structured, Bool.true_and]
      cases htruthy : session.store.isTruthy (session.store.member ref "props") with
      | false =>
          refine .pure ⟨rfl, hidle fun props hprops => ?_⟩
          obtain ⟨other, hother, hmember⟩ := hprops
          obtain rfl := Value.object.inj hother
          rw [hmember, Store.isTruthy, Bool.not_eq_false', List.isEmpty_iff] at htruthy
          exact htruthy
      | true =>
          obtain ⟨props, hprops⟩ := hbindable.fits htruthy
          have has : session.store.Contains (.object props) := hbindable.held (.object props) hprops
          have hmembers : session.store.members props = [] ++ session.store.members props := rfl
          have hloop := forM_bindProp_reports h (.object ref) has hmembers
            (hbindable.distinct props hprops)
          have hleft : session.store.leftover roster (.object ref) =
              roster.start.called Value.text? (roster.bindValues (session.store.members props)) := by
            rw [Store.leftover, hprops]
          simp only [if_true, hprops]
          apply hloop.bind
          intro _ told after hafter
          obtain ⟨rfl, hafter⟩ := hafter
          refine .pure ⟨rfl, ?_, ?_⟩
          · rw [List.append_nil, hleft]
          · rw [hafter]
            refine (Store.setMembers_bound has).congr fun other => ?_
            simp [Store.OwnProps, hprops, eq_comm]
  | _ =>
      refine .pure ⟨rfl, hidle fun props hprops => ?_⟩
      obtain ⟨other, hother, -⟩ := hprops
      cases hother

theorem enterNode_reports (h : settings.GoesBy roster) {session : Session (Desk Value)}
    {slot : Slot} (hnode : ∀ ref, slot.node = .object ref → session.store.Bindable ref)
    (ctx : Context) :
    (Transform.enterNode [bindHandlers settings] slot ctx).Reports session fun next told after =>
      next = some ctx ∧
      told = settings.reports slot.node (session.store.leftover roster slot.node) ∧
      session.store.Bound roster (session.store.OwnProps slot.node) after := by
  have hphase : runPhase .enter [bindHandlers settings] slot.node ctx =
      runHooks [enter settings] slot.node ctx := rfl
  unfold Transform.enterNode
  rw [hphase, runHooks, bind_assoc]
  apply (enter_reports h hnode ctx).bind
  intro result told after hafter
  obtain ⟨rfl, rfl, hbound⟩ := hafter
  exact .pure ⟨rfl, List.append_nil _, hbound⟩

end Binding

end ViewTree
