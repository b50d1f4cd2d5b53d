import ViewTree.Proofs.Transform.Revising
import ViewTree.Proofs.Transform.Upholding
import ViewTree.Proofs.Visitor.Logs
import ViewTree.Proofs.Visitor.Watching
import ViewTree.Visitor.Ledger

namespace ViewTree

open Recorder

namespace Recorder

theorem record_maintains (settings : Settings) (phase : Phase) (node : Value) (ctx : Context) :
    (record settings phase node ctx).Maintains Log.Decodes := by
  have hadd : ∀ contact, (Walk.modifyWorld (Log.add contact)).Maintains Log.Decodes :=
    fun contact _ hlog => ⟨Log.Decodes.add hlog contact, trivial⟩
  rw [record]
  refine .bind .store fun s _ => ?_
  split
  · exact hadd _
  · exact .ite (fun _ => hadd _) fun _ => .pure trivial

end Recorder

theorem recorder_maintains (settings : Settings) :
    (recorder settings).Maintains Log.Decodes := by
  intro phase hook hhook node ctx
  cases phase with
  | enter =>
      cases hhook
      refine (record_maintains settings .enter node ctx).bind fun _ _ => .bind .store fun s _ => ?_
      split
      · exact .ite (fun _ => .pure trivial) fun _ => .pure trivial
      · exact .pure trivial
  | exit =>
      cases hhook
      exact (record_maintains settings .exit node ctx).bind fun _ _ => .pure trivial

namespace Recorder

def spotOf (view : View) : Spot :=
  ⟨view.node.label, view.depth, view.index⟩

def skips (skipTypes : List Tree) (label : String) : Bool :=
  skipTypes.any (·.countsAs (.text label))

/-- The latch is set on entering a structured node whose children are skipped. -/
def latched (skipTypes : List Tree) (view : View) : View :=
  if view.node.isStructured && skips skipTypes view.node.label then { view with skipping := true }
  else view

theorem latched_node (skipTypes : List Tree) (view : View) :
    (latched skipTypes view).node = view.node := by
  rw [latched]
  split
  · rfl
  · rfl

theorem spotOf_latched (skipTypes : List Tree) (view : View) :
    spotOf (latched skipTypes view) = spotOf view := by
  rw [latched]
  split
  · rfl
  · rfl

theorem latched_skipping {skipTypes : List Tree} {view : View} (h : view.skipping = false) :
    (latched skipTypes view).skipping =
      (view.node.isStructured && skips skipTypes view.node.label) := by
  rw [latched]
  split
  · next hlatch => exact hlatch.symm
  · next hlatch => rw [h, Bool.eq_false_of_not_eq_true hlatch]

def noting (phase : Phase) (view : View) : Course (σ × Log) Unit :=
  modify fun world => (world.1, world.2.add (contactAt phase (spotOf view)))

def entering (skipTypes : List Tree) : Meaning (σ × Log) (Reply Tree) := fun view => do
  noting .enter view
  return (.value .null, latched skipTypes view)

def exiting : Meaning (σ × Log) (Reply Tree) := fun view => do
  noting .exit view
  return (.value .null, view)

variable {s : Store} {t : Tree} {node : Value} {cells : List Store.Cell}

theorem record_shows (h : s.Shows t node cells) (skipTypes : List Tree) (phase : Phase)
    (ctx : Context) (log : Log) :
    record ⟨skipTypes, true⟩ phase node ctx ⟨s, log⟩ =
      .ok () ⟨s, log.add (contactAt phase (spotOf (ctx.view s node)))⟩ := by
  have hlabel : (ctx.view s node).node.label = t.nodeType?.getD (s.read node).literal := by
    rw [Context.view, h.read_eq, Tree.label]
  rw [contactAt, spotOf, hlabel, record, Walk.store_bind_apply]
  dsimp only
  rw [h.nodeType?]
  cases t.nodeType? with
  | some type => rfl
  | none => rfl

theorem exit_shows (h : s.Shows t node cells) (skipTypes : List Tree) (ctx : Context) (log : Log) :
    exit ⟨skipTypes, true⟩ node ctx ⟨s, log⟩ =
      .ok (.nothing, ctx) ⟨s, log.add (contactAt .exit (spotOf (ctx.view s node)))⟩ := by
  rw [exit, Walk.bind_apply, record_shows h]
  rfl

theorem enter_shows (h : s.Shows t node cells) (skipTypes : List Tree) (ctx : Context) (log : Log) :
    enter ⟨skipTypes, true⟩ node ctx ⟨s, log⟩ =
      .ok (.nothing, if t.isStructured && skips skipTypes t.label then ctx.skipChildren else ctx)
        ⟨s, log.add (contactAt .enter (spotOf (ctx.view s node)))⟩ := by
  rw [enter, Walk.bind_apply, record_shows h]
  dsimp only
  rw [Walk.store_bind_apply]
  dsimp only
  rw [h.nodeType?, Tree.isStructured, Tree.label]
  cases t.nodeType? with
  | none => rfl
  | some type =>
      simp only [Option.isSome_some, Bool.true_and, Option.getD_some, skips]
      split
      · rfl
      · rfl

theorem enter_reads (skipTypes : List Tree) :
    Reads (Hook.zoom Lens.snd (enter ⟨skipTypes, true⟩) : Hook (σ × Log)) (entering skipTypes)
      fun s cells after => Reply.Rel (s.MadeOf cells after) := by
  intro s world t node cells ctx h
  obtain rfl : (ctx.view s node).node = t := h.read_eq
  refine .of_ok (by rw [Hook.zoom, Walk.zoom_snd_apply, enter_shows h]) rfl ⟨.refl s, ?_, ?_, ?_⟩
  · split
    · rfl
    · rfl
  · rw [latched]
    split
    · rfl
    · rfl
  · exact .value ⟨[], .atom .null, by simp⟩

theorem exit_reads (skipTypes : List Tree) :
    Reads (Hook.zoom Lens.snd (exit ⟨skipTypes, true⟩) : Hook (σ × Log)) exiting
      fun s cells after => Reply.Rel (s.MadeOf cells after) := by
  intro s world t node cells ctx h
  refine .of_ok (by rw [Hook.zoom, Walk.zoom_snd_apply, exit_shows h]) rfl ⟨.refl s, rfl, rfl, ?_⟩
  exact .value ⟨[], .atom .null, by simp⟩

/-- A recorder that records primitives, with a log beside a world it does not know. -/
def clerk (skipTypes : List Tree) : Onlooker (σ × Log) where
  enter? := some ⟨_, _, enter_reads skipTypes⟩
  exit? := some ⟨_, _, exit_reads skipTypes⟩

end Recorder

/-- A question about descent that is always answered, without a word about a part of the world or about
where the node stands. -/
def Caution.Answers (caution : Caution σ) (part : σ → τ) : Prop :=
  ∀ view world, ∃ cut next after, caution.meaning view world = .ok (cut, next) after ∧
    part after = part world ∧ next.node = view.node ∧ next.depth = view.depth ∧
    next.index = view.index

/-- Some answers keep a walk from the children. -/
def Caution.Cuts (caution : Caution σ) : Prop :=
  ∃ view world cut next after, caution.meaning view world = .ok (cut, next) after ∧
    view.skipping = false ∧ (cut || next.skipping) = true

theorem Caution.setting_answers {given : Tree} (h : (given.isNull || given.isCallable) = true)
    (part : σ → τ) : (Caution.setting given).Answers part := by
  intro view world
  refine ⟨false, view, world, ?_, rfl, rfl, rfl, rfl⟩
  simp only [setting, h, if_true]
  rfl

theorem Caution.setting_cuts_nothing {given : Tree} (h : (given.isNull || given.isCallable) = true) :
    ¬ (Caution.setting given : Caution σ).Cuts := by
  rintro ⟨view, world, cut, next, after, hasked, hopen, hcut⟩
  simp only [setting, h, if_true] at hasked
  cases hasked
  rw [hopen] at hcut
  cases hcut

/-- A course that comes to a result and adds brackets to the log: those of a forest, trimmed. -/
def Course.Brackets (must : Spot → Bool) (may : Prop) (course : Course (σ × Log) α) (result : α)
    (full : List (Rose Spot)) : Prop :=
  ∀ world, ∃ forest after, course world = .ok result after ∧
    after.2.contacts.toList = world.2.contacts.toList ++ bracketsAll forest ∧
    List.Forall₂ (Rose.Trims must may) full forest

namespace Course.Brackets

variable {must : Spot → Bool} {may : Prop} {full more : List (Rose Spot)}

theorem pure (result : α) :
    (Pure.pure result : Course (σ × Log) α).Brackets must may result [] :=
  fun world => ⟨[], world, rfl, (List.append_nil _).symm, .nil⟩

theorem bind {course : Course (σ × Log) α} {next : α → Course (σ × Log) β} {result : α} {final : β}
    (h : course.Brackets must may result full)
    (hnext : (next result).Brackets must may final more) :
    (course >>= next).Brackets must may final (full ++ more) := by
  intro world
  obtain ⟨forest, middle, hcourse, hlog, htrims⟩ := h world
  obtain ⟨others, after, hrest, hlater, hmore⟩ := hnext middle
  refine ⟨forest ++ others, after, ?_, ?_, List.rel_append htrims hmore⟩
  · rw [Walk.bind_apply, hcourse]
    exact hrest
  · rw [hlater, hlog, bracketsAll_append, List.append_assoc]

theorem map {course : Course (σ × Log) α} {result : α} (h : course.Brackets must may result full)
    (f : α → β) : (course >>= fun value => Pure.pure (f value)).Brackets must may (f result) full := by
  have hmapped : (course >>= fun value => Pure.pure (f value)).Brackets must may (f result)
      (full ++ []) := h.bind (.pure (f result))
  rwa [List.append_nil] at hmapped

end Course.Brackets

/-- Brackets of what is left when a question may cut, and nodes of these types are cut. -/
abbrev Course.Logs (skipTypes : List Tree) (caution : Caution (σ × Log))
    (course : Course (σ × Log) α) (result : α) (full : List (Rose Spot)) : Prop :=
  course.Brackets (fun spot => skips skipTypes spot.label) caution.Cuts result full

section

variable {skipTypes : List Tree} {caution : Caution (σ × Log)}

theorem descend_brackets (hanswers : caution.Answers Prod.snd) {kind : Kind} {view : View}
    {below : Course (σ × Log) Tree} {full : List (Rose Spot)} (hleaf : kind ≠ .structured → full = [])
    (hlatch : kind = .structured → view.skipping = skips skipTypes view.node.label)
    (hbelow : below.Logs skipTypes caution view.node full) (world : σ × Log) :
    ∃ next inner after,
      (Team.of [clerk skipTypes] caution).descend kind view below world = .ok next after ∧
      next.node = view.node ∧ spotOf next = spotOf view ∧
      after.2.contacts.toList = world.2.contacts.toList ++ bracketsAll inner ∧
      Rose.Trims (fun spot => skips skipTypes spot.label) caution.Cuts
        (.mk (spotOf view) full) (.mk (spotOf view) inner) := by
  have hnothing : world.2.contacts.toList = world.2.contacts.toList ++ bracketsAll [] :=
    (List.append_nil _).symm
  unfold Team.descend
  by_cases hopen : kind = .structured ∧ view.skipping = false
  · obtain ⟨cut, next, after, hasked, hlog, hnode, hdepth, hindex⟩ := hanswers view world
    have hspot : spotOf next = spotOf view := by
      rw [spotOf, spotOf, hnode, hdepth, hindex]
    have hmeaning : (Team.of [clerk skipTypes] caution).prune view world = .ok (cut, next) after :=
      hasked
    rw [if_pos hopen, Walk.bind_apply, hmeaning]
    cases hcut : cut || next.skipping with
    | true =>
        simp only [hcut, if_true]
        refine ⟨_, [], after, rfl, hnode, hspot, hlog ▸ hnothing, .cut full (.inr ?_)⟩
        exact ⟨view, world, cut, next, after, hasked, hopen.2, hcut⟩
    | false =>
        obtain ⟨inner, last, hrun, hinner, htrims⟩ := hbelow after
        simp only [hcut, Bool.false_eq_true, if_false]
        refine ⟨{ next with node := view.node }, inner, last, ?_, rfl, ?_, ?_, .keep ?_ htrims⟩
        · rw [Walk.bind_apply, hrun]
          rfl
        · rw [spotOf, hdepth, hindex]
          rfl
        · rw [hinner, hlog]
        · exact (hlatch hopen.1).symm.trans hopen.2
  · -- nothing is asked: either the latch is set or there is nothing to descend into
    rw [if_neg hopen]
    refine ⟨view, [], world, rfl, rfl, rfl, hnothing, ?_⟩
    by_cases hkind : kind = .structured
    · have hskipping : view.skipping = true := by simpa [hkind] using hopen
      exact .cut full (.inl ((hlatch hkind).symm.trans hskipping))
    · rw [hleaf hkind]
      exact .leaf _

theorem rebuild_brackets (members : List (String × Tree)) :
    Course.Logs skipTypes caution
      (match (members.lookup "children").filter fun value => !value.isNull with
        | some children => return .object (Members.put "children" children members)
        | none => return .object members)
      (Tree.object members) [] := by
  cases hlookup : members.lookup "children" with
  | none => exact .pure _
  | some value =>
      rw [Option.filter_some]
      split
      · next children hchildren =>
          split at hchildren
          · cases hchildren
            rw [Members.put_of_lookup hlookup]
            exact .pure _
          · cases hchildren
      · exact .pure _

theorem preOrder_brackets (hanswers : caution.Answers Prod.snd) {t : Tree} {kind : Kind}
    (hkind : t.classify = .ok kind) (type : Option String) (depth index : Nat)
    {below : Course (σ × Log) Tree} {full : List (Rose Spot)}
    (hleaf : kind ≠ .structured → full = []) (hbelow : below.Logs skipTypes caution t full) :
    ((Team.of [clerk skipTypes] caution).preOrder (t.atFirst type depth index) below).Logs
      skipTypes caution t [.mk ⟨t.label, depth, index⟩ full] := by
  intro world
  let view := t.atFirst type depth index
  let noted : σ × Log := (world.1, world.2.add (contactAt .enter (spotOf view)))
  have hlatch : kind = .structured → (latched skipTypes view).skipping =
      skips skipTypes (latched skipTypes view).node.label := by
    rintro rfl
    have hstructured : t.isStructured = true := t.isStructured_iff_classify.mpr hkind
    rw [latched_skipping rfl, latched_node]
    exact (congrArg (· && _) hstructured).trans (Bool.true_and _)
  have hrest : below.Logs skipTypes caution (latched skipTypes view).node full := by
    rw [latched_node]
    exact hbelow
  obtain ⟨next, inner, after, hdescend, hnode, hspot, hinner, htrims⟩ :=
    descend_brackets hanswers hleaf hlatch hrest noted
  rw [latched_node] at hnode
  rw [spotOf_latched] at hspot htrims
  have hkinds : (Course.classify view.node : Course (σ × Log) Kind) = pure kind := by
    show Course.classify t = _
    rw [Course.classify, hkind]
  -- the label on leaving is that on entering, since the node is put together as it was
  have hrun : (Team.of [clerk skipTypes] caution).preOrder view below world =
      .ok next.node (after.1, after.2.add (contactAt .exit (spotOf next))) := by
    rw [Team.preOrder, hkinds, pure_bind, Walk.bind_apply]
    show ((Team.of [clerk skipTypes] caution).descend kind (latched skipTypes view) below >>= _)
      noted = _
    rw [Walk.bind_apply, hdescend]
    rfl
  refine ⟨[.mk (spotOf view) inner], _, hrun.trans (by rw [hnode]; rfl), ?_, .cons htrims .nil⟩
  rw [hspot, Log.add, Array.toList_push, hinner, bracketsAll_singleton, brackets]
  simp [noted, Log.add]

mutual
theorem revise_brackets (hanswers : caution.Answers Prod.snd) {t : Tree} (h : t.isValid = true)
    (type : Option String) (depth index : Nat) :
    (t.revise (Team.of [clerk skipTypes] caution).preOrder type depth index).Logs skipTypes caution t
      (t.spotsAt depth index) := by
  cases t with
  | tuple items => cases h
  | array items =>
      rw [Tree.revise, Tree.spotsAt]
      exact (reviseItems_brackets hanswers h type depth 0).map Tree.array
  | atom a =>
      have hprimitive : (Tree.atom a).classify = .ok .primitive :=
        (Tree.isPrimitive_iff_classify _).mp (Tree.isPrimitive_of_isValid h)
      exact preOrder_brackets hanswers hprimitive type depth index (fun _ => rfl) (.pure _)
  | object members =>
      obtain ⟨hnode, hbelow⟩ := Tree.everyNode_object.mp h
      have hstructured : (Tree.object members).classify = .ok .structured :=
        (Tree.isStructured_iff_classify _).mp hnode
      rw [Tree.revise_eq_visit _ _ _ _ rfl, Tree.spotsAt]
      refine preOrder_brackets hanswers hstructured type depth index (fun hne => absurd rfl hne) ?_
      rw [Tree.reviseBelow, ← List.append_nil (Tree.spotsBelow (depth + 1) members)]
      exact (reviseChildren_brackets hanswers hbelow _ (depth + 1)).bind (rebuild_brackets members)

theorem reviseItems_brackets (hanswers : caution.Answers Prod.snd) {items : List Tree}
    (h : Tree.everyItem Tree.isNode items = true) (type : Option String) (depth position : Nat) :
    (Tree.reviseItems (Team.of [clerk skipTypes] caution).preOrder type depth items position).Logs
      skipTypes caution items (Tree.spotsOfItems depth items position) := by
  cases items with
  | nil => exact .pure []
  | cons item rest =>
      rw [Tree.everyItem, Bool.and_eq_true] at h
      rw [Tree.reviseItems, Tree.spotsOfItems]
      refine (revise_brackets hanswers h.1 type depth position).bind ?_
      exact (reviseItems_brackets hanswers h.2 type depth (position + 1)).map (item :: ·)

theorem reviseChildren_brackets (hanswers : caution.Answers Prod.snd)
    {members : List (String × Tree)} (h : Tree.everyChild Tree.isNode members = true)
    (type : Option String) (depth : Nat) :
    (Tree.reviseChildren (Team.of [clerk skipTypes] caution).preOrder type depth members).Logs
      skipTypes caution ((members.lookup "children").filter fun value => !value.isNull)
      (Tree.spotsBelow depth members) := by
  cases members with
  | nil => exact .pure none
  | cons member rest =>
      obtain ⟨name, value⟩ := member
      rw [Tree.everyChild] at h
      rw [Tree.reviseChildren, Tree.spotsBelow]
      by_cases hname : name = "children"
      · subst hname
        rw [if_pos rfl] at h
        rw [if_pos rfl, if_pos rfl, List.lookup_cons_self, Option.filter_some]
        cases value.isNull with
        | true => exact .pure none
        | false => exact (revise_brackets hanswers h type depth 0).map some
      · rw [if_neg hname] at h
        rw [if_neg hname, if_neg hname, List.lookup_cons, beq_eq_false_iff_ne.mpr (Ne.symm hname)]
        exact reviseChildren_brackets hanswers h type depth
end

mutual
theorem reviseTop_brackets (hanswers : caution.Answers Prod.snd) {t : Tree} (h : t.isValid = true) :
    (t.reviseTop (Team.of [clerk skipTypes] caution).preOrder).Logs skipTypes caution t t.spots := by
  cases t with
  | array items =>
      rw [Tree.reviseTop, Tree.spots]
      exact (reviseTops_brackets hanswers h).map Tree.array
  | _ =>
      rw [Tree.reviseTop_eq_revise _ rfl, Tree.spots_eq_spotsAt rfl]
      exact revise_brackets hanswers h none 0 0

theorem reviseTops_brackets (hanswers : caution.Answers Prod.snd) {items : List Tree}
    (h : Tree.everyItem Tree.isNode items = true) :
    (Tree.reviseTops (Team.of [clerk skipTypes] caution).preOrder items).Logs skipTypes caution items
      (Tree.spotsOfTops items) := by
  cases items with
  | nil => exact .pure []
  | cons item rest =>
      rw [Tree.everyItem, Bool.and_eq_true] at h
      rw [Tree.reviseTops, Tree.spotsOfTops]
      exact (reviseTop_brackets hanswers h.1).bind ((reviseTops_brackets hanswers h.2).map (item :: ·))
end

end

/-- However a transform ends, and whoever else takes part in it as long as they stay off the log of a
recorder, the log decodes as an empty one does.  Contacts tell a forest if they are its brackets.  In
pre-order a recorder of its own that records primitives adds the brackets of the places of a valid
tree, but for what lies below the nodes that are skipped or cut. -/
theorem recorder_log_decodes :
    (Log.Decodes {} ∧
      ∀ {σ : Type} {lens : Lens σ Log}, lens.SetsOrLeaves →
      ∀ {visitors : List (Visitor σ)}, (∀ visitor ∈ visitors,
        (∃ settings, visitor = (recorder settings).zoom lens) ∨ visitor.StaysOff lens.get) →
      ∀ options : TransformOptions σ,
        (∀ node ctx, (options.prune.test node ctx).StaysOff lens.get) →
      ∀ fuel root, (transform fuel visitors options root).Maintains fun world =>
        (lens.get world).Decodes) ∧
    (∀ contacts forest, forest? contacts = some forest ↔ contacts = bracketsAll forest) ∧
    ∀ {σ : Type} (skipTypes : List Tree) {caution : Caution (σ × Log)}, caution.Answers Prod.snd →
    ∀ (clone : Tree) {t : Tree}, t.isValid = true → ∀ {fuel : Nat}, t.size < fuel →
    ∀ (world : σ) (log : Log), ∃ forest later after,
      t.transform fuel [(recorder ⟨skipTypes, true⟩).zoom Lens.snd]
        { order := Order.preOrder.setting, clone := clone, prune := caution.prune } (world, log) =
          (.ok t, later, after) ∧
      after.contacts.toList = log.contacts.toList ++ bracketsAll forest ∧
      List.Forall₂ (Rose.Trims (fun spot => skips skipTypes spot.label) caution.Cuts)
        t.spots forest ∧
      (¬ caution.Cuts → forest = t.spots.map (Rose.trim fun spot => skips skipTypes spot.label)) := by
  refine ⟨⟨Log.decodes_empty, ?_⟩, fun _ _ => forest?_eq_some_iff, ?_⟩
  · intro σ lens hlens visitors hvisitors options hprune fuel root
    have hprunes : ∀ node ctx, (options.prune.test node ctx).Maintains fun world =>
        (lens.get world).Decodes := fun node ctx => (hprune node ctx).maintains Log.Decodes
    refine Transform.maintains (fun visitor hvisitor => ?_) hprunes fuel root
    rcases hvisitors visitor hvisitor with ⟨settings, rfl⟩ | hoff
    · exact (recorder_maintains settings).zoom hlens
    · exact fun phase hook hhook node ctx => (hoff phase hook hhook node ctx).maintains Log.Decodes
  · intro σ skipTypes caution hanswers clone t hvalid fuel hfuel world log
    have hteam : [clerk skipTypes] ≠ ([] : List (Onlooker (σ × Log))) := List.cons_ne_nil _ _
    have hrun : t.transform fuel [(clerk skipTypes).visitor]
        { order := Order.preOrder.setting, clone := clone, prune := caution.prune } (world, log) =
          t.revised (Team.of [clerk skipTypes] caution).preOrder (world, log) :=
      transform_revises [clerk skipTypes] caution (by decide)
        (preOrder_revises [clerk skipTypes] caution)
        (fun _ => (Team.of [clerk skipTypes] caution).preOrder_of_isPrimitive) hteam clone hfuel
        (world, log)
    have hlogs : (t.reviseTop (Team.of [clerk skipTypes] caution).preOrder).Logs skipTypes caution t
        t.spots := reviseTop_brackets hanswers hvalid
    obtain ⟨forest, after, hcourse, hlog, htrims⟩ := hlogs (world, log)
    rw [Tree.revised, hcourse] at hrun
    refine ⟨forest, after.1, after.2, hrun, hlog, htrims, fun hcuts => ?_⟩
    exact Rose.Trims.eq_map_trim hcuts htrims

theorem Ledger.logPart_setsOrLeaves (number : Nat) : (Ledger.logPart number).SetsOrLeaves := by
  intro log ledger
  by_cases hnumber : number < ledger.reports.length
  · refine .inl ?_
    simp only [logPart, setReport, List.getElem?_set_self hnumber]
  · refine .inr ?_
    simp only [logPart, setReport, List.set_eq_of_length_le (Nat.le_of_not_lt hnumber)]

theorem Ledger.journalPart_staysOff (number : Nat) (visitor : Visitor Journal) :
    (visitor.zoom Ledger.journalPart).StaysOff (Ledger.logPart number).get :=
  Visitor.staysOff_zoom (fun _ _ => rfl) visitor

def cabinet : Tree :=
  .object [("type", .text "file-cabinet"), ("children", .array [.text "exit-key",
    .array [.object [("type", .text "enter-drawer"), ("children", .text "sock")]],
    .object [("type", .text "shelf"), ("children", .null)], .int 7])]

theorem recorder_log_decodes_cabinet :
    (Ledger.logPart 0).SetsOrLeaves ∧
    (∀ visitor ∈ [(recorder {}).zoom (Ledger.logPart 0),
        (Rule.visitor 1 (some []) none).zoom Ledger.journalPart],
      (∃ settings, visitor = (recorder settings).zoom (Ledger.logPart 0)) ∨
        visitor.StaysOff (Ledger.logPart 0).get) ∧
    (∀ node ctx, ((Prune.setting .null : Prune Ledger).test node ctx).StaysOff
      (Ledger.logPart 0).get) ∧
    (transform 20 [(recorder {}).zoom (Ledger.logPart 0),
      (Rule.visitor 1 (some []) none).zoom Ledger.journalPart] {} (Store.load cabinet {}).1).Maintains
        (fun ledger => ((Ledger.logPart 0).get ledger).Decodes) ∧
    (Caution.setting .null : Caution (Unit × Log)).Answers Prod.snd ∧ cabinet.isValid = true ∧
    cabinet.size < 20 ∧ ∃ log : Log,
      cabinet.transform 20 [(recorder ⟨[.text "enter-drawer"], true⟩).zoom Lens.snd] {} ((), {}) =
        (.ok cabinet, (), log) ∧
      forest? log.contacts.toList = some [.mk ⟨"file-cabinet", 0, 0⟩
        [.mk ⟨"'exit-key'", 1, 0⟩ [], .mk ⟨"enter-drawer", 1, 0⟩ [], .mk ⟨"shelf", 1, 2⟩ [],
          .mk ⟨"7", 1, 3⟩ []]] := by
  have hvisitors : ∀ visitor ∈ [(recorder {}).zoom (Ledger.logPart 0),
      (Rule.visitor 1 (some []) none).zoom Ledger.journalPart],
      (∃ settings, visitor = (recorder settings).zoom (Ledger.logPart 0)) ∨
        visitor.StaysOff (Ledger.logPart 0).get :=
    List.forall_mem_cons.mpr ⟨.inl ⟨{}, rfl⟩,
      List.forall_mem_singleton.mpr (.inr (Ledger.journalPart_staysOff 0 _))⟩
  have hprune : ∀ node ctx, ((Prune.setting .null : Prune Ledger).test node ctx).StaysOff
      (Ledger.logPart 0).get := fun _ _ _ => .pure trivial
  have hanswers : (Caution.setting .null : Caution (Unit × Log)).Answers Prod.snd :=
    Caution.setting_answers rfl _
  have hvalid : cabinet.isValid = true := by decide
  have hsize : cabinet.size < 20 := by decide
  obtain ⟨⟨-, hdecodes⟩, hforest, hbrackets⟩ := recorder_log_decodes
  have hmaintains := hdecodes (Ledger.logPart_setsOrLeaves 0) hvisitors {} hprune 20
    (Store.load cabinet {}).1
  obtain ⟨forest, later, log, hrun, hlog, -, hwhole⟩ :=
    hbrackets [.text "enter-drawer"] hanswers (.bool true) hvalid hsize () {}
  refine ⟨Ledger.logPart_setsOrLeaves 0, hvisitors, hprune, hmaintains, hanswers, hvalid, hsize, log,
    hrun, ?_⟩
  rw [(hforest _ forest).mpr hlog, hwhole (Caution.setting_cuts_nothing rfl)]
  rfl

end ViewTree
