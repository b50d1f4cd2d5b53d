import ViewTree.Proofs.Tree.Spots
import ViewTree.Visitor.Recorder

namespace ViewTree

namespace Recorder

theorem Contact.toList_event (contact : Contact) :
    contact.event.toList = contact.phase.name.toList ++ '-' :: contact.label.toList := by
  simp [event]

theorem isPrefixOf_event (phase : Phase) (contact : Contact) :
    (phase.name.toList ++ ['-']).isPrefixOf contact.event.toList = true ↔ contact.phase = phase := by
  rw [contact.toList_event]
  cases phase <;> cases contact.phase <;> simp [Phase.name]

theorem dropWhile_event (contact : Contact) :
    (contact.event.toList.dropWhile (· ≠ '-')).drop 1 = contact.label.toList := by
  rw [contact.toList_event]
  cases contact.phase <;> simp [Phase.name]

theorem labelOf?_event (phase : Phase) (contact : Contact) :
    labelOf? phase contact.event = if contact.phase = phase then some contact.label else none := by
  rw [labelOf?, dropWhile_event, String.ofList_toList]
  by_cases hphase : contact.phase = phase
  · rw [if_pos hphase, if_pos ((isPrefixOf_event phase contact).mpr hphase)]
  · rw [if_neg hphase, if_neg fun h => hphase ((isPrefixOf_event phase contact).mp h)]

/-- The events of a log are those of its contacts, and the labels of a phase those of the contacts of
the phase. -/
structure Log.Decodes (log : Log) : Prop where
  size : log.events.size = log.contacts.size
  events : ∀ (number : Nat) (contact : Contact), log.contacts[number]? = some contact →
    log.events[number]? = some (contact.phase.name ++ "-" ++ contact.label)
  labels : ∀ phase, log.labels phase =
    (log.contacts.toList.filter (·.phase = phase)).map Contact.label

theorem Log.decodes_empty : ({} : Log).Decodes :=
  ⟨rfl, by simp, fun _ => rfl⟩

theorem Log.labels_add (contact : Contact) (log : Log) (phase : Phase) :
    (log.add contact).labels phase =
      log.labels phase ++ if contact.phase = phase then [contact.label] else [] := by
  rw [labels, labels, add, Array.toList_push, List.filterMap_append, List.filterMap_cons,
    List.filterMap_nil, labelOf?_event]
  by_cases hphase : contact.phase = phase
  · simp only [hphase, if_true]
  · simp only [hphase, if_false]

theorem Log.Decodes.add {log : Log} (h : log.Decodes) (contact : Contact) :
    (log.add contact).Decodes where
  size := by rw [Log.add, Array.size_push, Array.size_push, h.size]
  events := by
    intro number other hother
    rw [Log.add, Array.getElem?_push] at hother ⊢
    rw [h.size]
    split at hother
    · next hlast =>
        cases hother
        exact if_pos hlast
    · next hearlier =>
        rw [if_neg hearlier]
        exact h.events number other hother
  labels := by
    intro phase
    rw [Log.labels_add, h.labels phase, Log.add, Array.toList_push, List.filter_append,
      List.map_append]
    by_cases hphase : contact.phase = phase
    · simp [hphase]
    · simp [hphase]

def Contact.spot (contact : Contact) : Spot :=
  ⟨contact.label, contact.depth, contact.index⟩

def contactAt (phase : Phase) (spot : Spot) : Contact :=
  ⟨phase, spot.label, spot.depth, spot.index⟩

mutual
/-- A bracket opens with the place of a node and closes with it again, after all below the node. -/
def brackets : Rose Spot → List Contact
  | .mk spot below => contactAt .enter spot :: bracketsAll below ++ [contactAt .exit spot]

def bracketsAll : List (Rose Spot) → List Contact
  | [] => []
  | rose :: rest => brackets rose ++ bracketsAll rest
end

theorem bracketsAll_append (roses others : List (Rose Spot)) :
    bracketsAll (roses ++ others) = bracketsAll roses ++ bracketsAll others := by
  induction roses with
  | nil => rfl
  | cons rose rest ih => rw [List.cons_append, bracketsAll, bracketsAll, ih, List.append_assoc]

theorem bracketsAll_singleton (rose : Rose Spot) : bracketsAll [rose] = brackets rose := by
  rw [bracketsAll, bracketsAll, List.append_nil]

/-- How far contacts have been read: the nodes that are open, the innermost first, each with what was
read beside it before, and what has been read below the innermost. -/
structure Reading where
  opened : List (Spot × List (Rose Spot)) := []
  below : List (Rose Spot) := []

namespace Reading

def next (reading : Reading) (contact : Contact) : Option Reading :=
  match contact.phase, reading.opened with
  | .enter, opened => some ⟨(contact.spot, reading.below) :: opened, []⟩
  | .exit, (spot, beside) :: opened =>
    if contact.spot = spot then some ⟨opened, beside ++ [.mk spot reading.below]⟩ else none
  | .exit, [] => none

def written (reading : Reading) : List Contact :=
  (reading.opened.reverse.flatMap fun (spot, beside) => bracketsAll beside ++ [contactAt .enter spot]) ++
    bracketsAll reading.below

theorem written_next {reading after : Reading} {contact : Contact}
    (h : reading.next contact = some after) : after.written = reading.written ++ [contact] := by
  obtain ⟨phase, label, depth, index⟩ := contact
  obtain ⟨opened, below⟩ := reading
  cases phase with
  | enter =>
      cases h
      simp [written, bracketsAll, Contact.spot, contactAt]
  | exit =>
      cases opened with
      | nil => cases h
      | cons innermost opened =>
          obtain ⟨spot, beside⟩ := innermost
          have hnext : (if ⟨label, depth, index⟩ = spot then
              some ⟨opened, beside ++ [.mk spot below]⟩ else none) = some after := h
          split at hnext
          · next hspot =>
              cases hnext
              subst hspot
              simp [written, bracketsAll_append, bracketsAll, brackets, contactAt]
          · cases hnext

theorem written_foldlM {contacts : List Contact} {reading after : Reading}
    (h : contacts.foldlM next reading = some after) :
    after.written = reading.written ++ contacts := by
  induction contacts generalizing reading with
  | nil =>
      cases h
      rw [List.append_nil]
  | cons contact contacts ih =>
      rw [List.foldlM_cons] at h
      obtain ⟨middle, hnext, hrest⟩ := Option.bind_eq_some_iff.mp h
      rw [ih hrest, written_next hnext, List.append_assoc]
      rfl

mutual
theorem foldlM_brackets (rose : Rose Spot) (opened : List (Spot × List (Rose Spot)))
    (below : List (Rose Spot)) :
    (brackets rose).foldlM next ⟨opened, below⟩ = some ⟨opened, below ++ [rose]⟩ := by
  obtain ⟨spot, inner⟩ := rose
  have henter : next ⟨opened, below⟩ (contactAt .enter spot) = some ⟨(spot, below) :: opened, []⟩ := rfl
  have hexit : next ⟨(spot, below) :: opened, inner⟩ (contactAt .exit spot) =
      some ⟨opened, below ++ [.mk spot inner]⟩ := if_pos rfl
  have hinner := foldlM_bracketsAll inner ((spot, below) :: opened) []
  rw [List.nil_append] at hinner
  rw [brackets, List.cons_append, List.foldlM_cons, henter, Option.bind_eq_bind, Option.bind_some,
    List.foldlM_append, hinner, Option.bind_eq_bind, Option.bind_some, List.foldlM_cons, hexit]
  rfl

theorem foldlM_bracketsAll (roses : List (Rose Spot)) (opened : List (Spot × List (Rose Spot)))
    (below : List (Rose Spot)) :
    (bracketsAll roses).foldlM next ⟨opened, below⟩ = some ⟨opened, below ++ roses⟩ := by
  cases roses with
  | nil =>
      rw [List.append_nil]
      rfl
  | cons rose rest =>
      rw [bracketsAll, List.foldlM_append, foldlM_brackets rose opened below, Option.bind_eq_bind,
        Option.bind_some, foldlM_bracketsAll rest opened, List.append_assoc]
      rfl
end

end Reading

/-- The forest that contacts tell, if every node that is opened is closed again at the same place. -/
def forest? (contacts : List Contact) : Option (List (Rose Spot)) := do
  let reading ← contacts.foldlM Reading.next {}
  if reading.opened.isEmpty then some reading.below else none

theorem forest?_eq_some_iff {contacts : List Contact} {forest : List (Rose Spot)} :
    forest? contacts = some forest ↔ contacts = bracketsAll forest := by
  constructor
  · intro h
    obtain ⟨reading, hreading, hclosed⟩ := Option.bind_eq_some_iff.mp h
    split at hclosed
    · next hnone =>
        cases hclosed
        have hwritten := Reading.written_foldlM hreading
        rw [Reading.written, List.isEmpty_iff.mp hnone] at hwritten
        exact hwritten.symm
    · cases hclosed
  · rintro rfl
    rw [forest?, Reading.foldlM_bracketsAll]
    rfl

end Recorder
end ViewTree
