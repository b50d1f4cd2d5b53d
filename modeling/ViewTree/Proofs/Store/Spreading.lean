import ViewTree.Proofs.Store.Plots

/-!
How a slot is spread over slots.  `Spreads` follows the arrays on the way and looks into no node, so
it can be told of a store in which a place has been written to from how it was before.
-/

namespace ViewTree

deriving instance DecidableEq for Place

/-- What is in a place gives way to a value. -/
def Slot.put (place : Place) (value : Value) (slot : Slot) : Slot :=
  if slot.place = place then { slot with node := value } else slot

namespace Store

def itemSlots (s : Store) (parent : Option ObjectRef) (ref : ArrayRef) : List Slot :=
  (s.items ref).zipIdx.map fun entry => ⟨entry.1, parent, entry.2, .element ref entry.2⟩

mutual
/-- A slot is spread over slots; the arrays on the way are listed in order. -/
inductive Spreads (s : Store) : Slot → List Slot → List ArrayRef → Prop
  | node {slot : Slot} (h : ∀ ref, slot.node ≠ .array ref) : Spreads s slot [slot] []
  | array {slot : Slot} {ref : ArrayRef} {slots : List Slot} {refs : List ArrayRef}
      (hnode : slot.node = .array ref) (has : s.Contains (.array ref))
      (items : SpreadsAll s (s.itemSlots slot.parent ref) slots refs) :
      Spreads s slot slots (ref :: refs)

inductive SpreadsAll (s : Store) : List Slot → List Slot → List ArrayRef → Prop
  | nil : SpreadsAll s [] [] []
  | cons {slot : Slot} {rest slots more : List Slot} {refs others : List ArrayRef}
      (head : Spreads s slot slots refs) (tail : SpreadsAll s rest more others) :
      SpreadsAll s (slot :: rest) (slots ++ more) (refs ++ others)
end

variable {s : Store}

theorem map_node_itemSlots (s : Store) (parent : Option ObjectRef) (ref : ArrayRef) :
    (s.itemSlots parent ref).map Slot.node = s.items ref := by
  rw [itemSlots, List.map_map]
  exact List.zipIdx_map_fst 0 _

theorem mem_itemSlots {parent : Option ObjectRef} {ref : ArrayRef} {slot : Slot} :
    slot ∈ s.itemSlots parent ref ↔ ∃ value position, (s.items ref)[position]? = some value ∧
      slot = ⟨value, parent, position, .element ref position⟩ := by
  rw [itemSlots, List.mem_map]
  constructor
  · rintro ⟨⟨value, position⟩, hentry, rfl⟩
    exact ⟨value, position, List.mk_mem_zipIdx_iff_getElem?.mp hentry, rfl⟩
  · rintro ⟨value, position, hvalue, rfl⟩
    exact ⟨(value, position), List.mk_mem_zipIdx_iff_getElem?.mpr hvalue, rfl⟩

theorem at?_of_mem_itemSlots {parent : Option ObjectRef} {ref : ArrayRef} {slot : Slot}
    (h : slot ∈ s.itemSlots parent ref) : s.at? slot.place = some slot.node := by
  obtain ⟨value, position, hvalue, rfl⟩ := mem_itemSlots.mp h
  exact hvalue

theorem cell_of_mem_itemSlots {parent : Option ObjectRef} {ref : ArrayRef} {slot : Slot}
    (h : slot ∈ s.itemSlots parent ref) : slot.place.cell = .array ref := by
  obtain ⟨value, position, -, rfl⟩ := mem_itemSlots.mp h
  rfl

theorem nodup_places_itemSlots (parent : Option ObjectRef) (ref : ArrayRef) :
    ((s.itemSlots parent ref).map Slot.place).Nodup := by
  have hplaces : (s.itemSlots parent ref).map Slot.place =
      (List.range' 0 (s.items ref).length).map (Place.element ref) := by
    rw [← List.zipIdx_map_snd 0 (s.items ref), itemSlots, List.map_map, List.map_map]
    rfl
  rw [hplaces]
  refine List.Nodup.map ?_ List.nodup_range'
  intro first second heq
  cases heq
  rfl

mutual
theorem Spreads.refs_unique {slot other : Slot} {slots listed : List Slot}
    {refs others : List ArrayRef} (h : s.Spreads slot slots refs)
    (hother : s.Spreads other listed others) (hnode : slot.node = other.node) :
    refs = others := by
  match h, hother with
  | .node _, .node _ => rfl
  | .node h, .array hother .. => exact absurd (hnode.trans hother) (h _)
  | .array href .., .node h => exact absurd (hnode.symm.trans href) (h _)
  | .array href _ items, .array hother _ otherItems =>
      have hsame := Value.array.inj (href.symm.trans (hnode.trans hother))
      rw [items.refs_unique otherItems
        (by rw [map_node_itemSlots, map_node_itemSlots, hsame]), hsame]

theorem SpreadsAll.refs_unique {entries slots more listed : List Slot}
    {refs others : List ArrayRef} (h : s.SpreadsAll entries slots refs)
    (hother : s.SpreadsAll more listed others)
    (hnodes : entries.map Slot.node = more.map Slot.node) : refs = others := by
  match h, hother with
  | .nil, .nil => rfl
  | .nil, .cons .. => cases hnodes
  | .cons .., .nil => cases hnodes
  | .cons head tail, .cons otherHead otherTail =>
      rw [List.map_cons, List.map_cons, List.cons.injEq] at hnodes
      rw [head.refs_unique otherHead hnodes.1, tail.refs_unique otherTail hnodes.2]
end

mutual
/-- An array on the way is itself spread over slots, through no more arrays. -/
theorem Spreads.part_of_mem {slot : Slot} {slots : List Slot} {refs : List ArrayRef}
    (h : s.Spreads slot slots refs) : ∀ ref ∈ refs, ∃ other listed others,
      other.node = .array ref ∧ s.Spreads other listed others ∧ others.length ≤ refs.length := by
  match h with
  | .node _ => simp
  | .array href has items =>
      intro ref hmem
      rcases List.mem_cons.mp hmem with rfl | hmem
      · exact ⟨slot, _, _, href, .array href has items, Nat.le_refl _⟩
      · obtain ⟨other, listed, others, hnode, hpart, hlength⟩ := items.part_of_mem ref hmem
        exact ⟨other, listed, others, hnode, hpart, Nat.le_succ_of_le hlength⟩

theorem SpreadsAll.part_of_mem {entries slots : List Slot} {refs : List ArrayRef}
    (h : s.SpreadsAll entries slots refs) : ∀ ref ∈ refs, ∃ other listed others,
      other.node = .array ref ∧ s.Spreads other listed others ∧ others.length ≤ refs.length := by
  match h with
  | .nil => simp
  | .cons head tail =>
      intro ref hmem
      rw [List.length_append]
      rcases List.mem_append.mp hmem with hmem | hmem
      · obtain ⟨other, listed, others, hnode, hpart, hlength⟩ := head.part_of_mem ref hmem
        exact ⟨other, listed, others, hnode, hpart, by omega⟩
      · obtain ⟨other, listed, others, hnode, hpart, hlength⟩ := tail.part_of_mem ref hmem
        exact ⟨other, listed, others, hnode, hpart, by omega⟩
end

theorem SpreadsAll.head_notMem {parent : Option ObjectRef} {ref : ArrayRef} {slots : List Slot}
    {refs : List ArrayRef} (has : s.Contains (.array ref))
    (h : s.SpreadsAll (s.itemSlots parent ref) slots refs) : ref ∉ refs := by
  intro hmem
  obtain ⟨other, listed, others, hnode, hpart, hlength⟩ := h.part_of_mem ref hmem
  have hself : s.Spreads ⟨.array ref, parent, other.index, other.place⟩ slots (ref :: refs) :=
    .array rfl has h
  obtain rfl := hself.refs_unique hpart hnode.symm
  exact Nat.not_succ_le_self _ hlength

mutual
theorem Spreads.expandTo_eq {slot : Slot} {slots : List Slot} {refs : List ArrayRef}
    (h : s.Spreads slot slots refs) {path : List ArrayRef} (hpath : s.IsArrayPath path)
    (hapart : ∀ ref ∈ refs, ref ∉ path) {level : Nat}
    (hlevel : s.arrays.size ≤ path.length + level) : s.expandTo level path slot = slots := by
  cases h with
  | node h => exact expandTo_of_ne_array h
  | @array _ ref _ refs href has items =>
      obtain ⟨node, parent, index, place⟩ := slot
      obtain rfl : node = .array ref := href
      have hnew : ref ∉ path := hapart ref List.mem_cons_self
      have hlonger := hpath.cons has hnew
      have hroom := hlonger.length_le
      rw [List.length_cons] at hroom
      obtain ⟨level, rfl⟩ : ∃ fewer, level = fewer + 1 := ⟨level - 1, by omega⟩
      have hrest : s.arrays.size ≤ (ref :: path).length + level := by
        rw [List.length_cons]
        omega
      have hitems := items.flatMap_expandTo_eq hlonger (fun other hother hmem => by
          rcases List.mem_cons.mp hmem with rfl | hmem
          · exact items.head_notMem has hother
          · exact hapart other (List.mem_cons_of_mem _ hother) hmem) hrest
      rw [expandTo_array _ _ hnew, ← hitems, itemSlots, List.flatMap_map]

theorem SpreadsAll.flatMap_expandTo_eq {entries slots : List Slot} {refs : List ArrayRef}
    (h : s.SpreadsAll entries slots refs) {path : List ArrayRef} (hpath : s.IsArrayPath path)
    (hapart : ∀ ref ∈ refs, ref ∉ path) {level : Nat}
    (hlevel : s.arrays.size ≤ path.length + level) :
    entries.flatMap (s.expandTo level path) = slots := by
  cases h with
  | nil => rfl
  | cons head tail =>
      rw [List.flatMap_cons,
        head.expandTo_eq hpath (fun ref hmem => hapart ref (List.mem_append_left _ hmem)) hlevel,
        tail.flatMap_expandTo_eq hpath
          (fun ref hmem => hapart ref (List.mem_append_right _ hmem)) hlevel]
end

theorem Spreads.expand_eq {slot : Slot} {slots : List Slot} {refs : List ArrayRef}
    (h : s.Spreads slot slots refs) : s.expand slot = slots :=
  h.expandTo_eq (.nil s) (by simp) (by simp)

mutual
theorem Shows.spreads {t : Tree} {value : Value} {cells : List Cell} (h : s.Shows t value cells)
    (parent : Option ObjectRef) (index : Nat) (place : Place) :
    ∃ slots refs, s.Spreads ⟨value, parent, index, place⟩ slots refs ∧
      (refs.map Cell.array).Sublist cells := by
  cases h with
  | @array _ ref _ has items =>
      obtain ⟨slots, refs, hitems, hrefs⟩ := items.spreads parent ref 0
      exact ⟨slots, _, .array rfl has hitems, hrefs.cons_cons _⟩
  | atom a => exact ⟨_, _, .node (by simp), .slnil⟩
  | tuple items => exact ⟨_, _, .node (by simp), .slnil⟩
  | object has members => exact ⟨_, _, .node (by simp), List.nil_sublist _⟩

theorem ShowsItems.spreads {trees : List Tree} {values : List Value} {cells : List Cell}
    (h : s.ShowsItems trees values cells) (parent : Option ObjectRef) (ref : ArrayRef)
    (start : Nat) : ∃ slots refs,
      s.SpreadsAll ((values.zipIdx start).map fun entry =>
        ⟨entry.1, parent, entry.2, .element ref entry.2⟩) slots refs ∧
      (refs.map Cell.array).Sublist cells := by
  cases h with
  | nil => exact ⟨_, _, .nil, .slnil⟩
  | cons head tail =>
      obtain ⟨slots, refs, hhead, hrefs⟩ := head.spreads parent start (.element ref start)
      obtain ⟨more, others, htail, hothers⟩ := tail.spreads parent ref (start + 1)
      refine ⟨_, _, .cons hhead htail, ?_⟩
      rw [List.map_append]
      exact hrefs.append hothers
end

mutual
theorem Spreads.places {slot : Slot} {slots : List Slot} {refs : List ArrayRef}
    (h : s.Spreads slot slots refs) (hnodup : refs.Nodup) :
    (slots.map Slot.place).Nodup ∧ ∀ listed ∈ slots,
      listed.place = slot.place ∨ ∃ ref ∈ refs, listed.place.cell = .array ref := by
  match h with
  | .node _ => simp
  | @Spreads.array _ _ ref _ refs href has items =>
      obtain ⟨hself, hrefs⟩ := List.nodup_cons.mp hnodup
      obtain ⟨hplaces, hlisted⟩ := items.places hrefs (nodup_places_itemSlots _ ref)
        fun entry hentry other hother heq => by
          rw [cell_of_mem_itemSlots hentry, Cell.array.injEq] at heq
          exact hself (heq ▸ hother)
      refine ⟨hplaces, fun listed hmem => .inr ?_⟩
      rcases hlisted listed hmem with ⟨entry, hentry, hplace⟩ | ⟨other, hother, hcell⟩
      · exact ⟨ref, List.mem_cons_self, by rw [hplace, cell_of_mem_itemSlots hentry]⟩
      · exact ⟨other, List.mem_cons_of_mem _ hother, hcell⟩

theorem SpreadsAll.places {entries slots : List Slot} {refs : List ArrayRef}
    (h : s.SpreadsAll entries slots refs) (hnodup : refs.Nodup)
    (hentries : (entries.map Slot.place).Nodup)
    (hapart : ∀ entry ∈ entries, ∀ ref ∈ refs, entry.place.cell ≠ .array ref) :
    (slots.map Slot.place).Nodup ∧ ∀ listed ∈ slots,
      (∃ entry ∈ entries, listed.place = entry.place) ∨
        ∃ ref ∈ refs, listed.place.cell = .array ref := by
  match h with
  | .nil => simp
  | @SpreadsAll.cons _ slot rest slots more refs others head tail =>
      obtain ⟨hrefs, hothers, hdisjoint⟩ := List.nodup_append.mp hnodup
      rw [List.map_cons, List.nodup_cons] at hentries
      obtain ⟨hfirst, hfirstListed⟩ := head.places hrefs
      obtain ⟨hmore, hmoreListed⟩ := tail.places hothers hentries.2 fun entry hentry ref href =>
        hapart entry (List.mem_cons_of_mem _ hentry) ref (List.mem_append_right _ href)
      have hhead := hapart slot List.mem_cons_self
      refine ⟨?_, List.forall_mem_append.mpr ⟨fun listed hmem => ?_, fun listed hmem => ?_⟩⟩
      · rw [List.map_append]
        refine List.nodup_append.mpr ⟨hfirst, hmore, ?_⟩
        rintro _ hmem _ hlater rfl
        obtain ⟨first, hfirst, hplace⟩ := List.mem_map.mp hmem
        obtain ⟨later, hlater, hsame⟩ := List.mem_map.mp hlater
        rw [← hplace] at hsame
        rcases hfirstListed first hfirst with hfound | ⟨ref, href, hcell⟩
        · rcases hmoreListed later hlater with ⟨entry, hentry, hat⟩ | ⟨other, hother, hcell⟩
          · refine hentries.1 (List.mem_map.mpr ⟨entry, hentry, ?_⟩)
            rw [← hat, hsame, hfound]
          · rw [hsame, hfound] at hcell
            exact hhead other (List.mem_append_right _ hother) hcell
        · rcases hmoreListed later hlater with ⟨entry, hentry, hat⟩ | ⟨other, hother, hfound⟩
          · rw [← hsame, hat] at hcell
            exact hapart entry (List.mem_cons_of_mem _ hentry) ref
              (List.mem_append_left _ href) hcell
          · rw [hsame, hcell, Cell.array.injEq] at hfound
            exact hdisjoint ref href other hother hfound
      · rcases hfirstListed listed hmem with hfound | ⟨ref, href, hcell⟩
        · exact .inl ⟨slot, List.mem_cons_self, hfound⟩
        · exact .inr ⟨ref, List.mem_append_left _ href, hcell⟩
      · rcases hmoreListed listed hmem with ⟨entry, hentry, hat⟩ | ⟨ref, href, hcell⟩
        · exact .inl ⟨entry, List.mem_cons_of_mem _ hentry, hat⟩
        · exact .inr ⟨ref, List.mem_append_right _ href, hcell⟩
end

theorem itemSlots_write {place : Place} (has : s.Contains place.cell) (value : Value)
    (parent : Option ObjectRef) (ref : ArrayRef) :
    (s.write place value).itemSlots parent ref =
      (s.itemSlots parent ref).map (Slot.put place value) := by
  cases place with
  | element array position =>
      apply List.ext_getElem?
      intro index
      simp only [write, itemSlots, items_setItems has, List.getElem?_map, List.getElem?_zipIdx,
        Nat.zero_add]
      by_cases href : ref = array
      · subst href
        rw [if_pos rfl, List.getElem?_set]
        by_cases hindex : position = index
        · subst hindex
          cases hitem : (s.items ref)[position]? with
          | none =>
              have hlength : ¬ position < (s.items ref).length := by
                simpa using hitem
              simp [hlength]
          | some item =>
              have hlength := (List.getElem?_eq_some_iff.mp hitem).1
              simp [hlength, Slot.put]
        · rw [if_neg hindex]
          cases (s.items ref)[index]? with
          | none => rfl
          | some item => simp [Slot.put, Ne.symm hindex]
      · rw [if_neg href]
        cases (s.items ref)[index]? with
        | none => rfl
        | some item => simp [Slot.put, href]
  | member object name =>
      have hkept : ∀ slot ∈ s.itemSlots parent ref,
          Slot.put (.member object name) value slot = slot := by
        intro slot hslot
        refine if_neg fun heq => ?_
        have hcell := cell_of_mem_itemSlots hslot
        rw [heq] at hcell
        cases hcell
      rw [List.map_congr_left hkept, List.map_id']
      rfl

theorem put_of_array {place : Place} (hplace : ∀ ref, s.at? place ≠ some (.array ref))
    (value : Value) {slot : Slot} (hat : s.at? slot.place = some slot.node) {ref : ArrayRef}
    (hnode : slot.node = .array ref) : slot.put place value = slot := by
  refine if_neg fun heq => hplace ref ?_
  rw [← heq, hat, hnode]

mutual
/-- When a place that holds no array is written to, a slot is spread over what the slots below it
are spread over then. -/
theorem Spreads.put {place : Place} (has : s.Contains place.cell)
    (hplace : ∀ ref, s.at? place ≠ some (.array ref)) {value : Value} {slot : Slot}
    {slots : List Slot} {refs : List ArrayRef} (h : s.Spreads slot slots refs)
    (hat : s.at? slot.place = some slot.node) {below : Slot → List Slot}
    (hbelow : ∀ listed ∈ slots, ∃ others,
      (s.write place value).Spreads (listed.put place value) (below listed) others) :
    ∃ others, (s.write place value).Spreads (slot.put place value) (slots.flatMap below) others := by
  match h with
  | .node _ =>
      rw [List.flatMap_singleton]
      exact hbelow slot List.mem_cons_self
  | .array href hcontains items =>
      obtain ⟨others, hitems⟩ :=
        items.put has hplace (fun entry hentry => at?_of_mem_itemSlots hentry) hbelow
      rw [← itemSlots_write has] at hitems
      rw [put_of_array hplace value hat href]
      exact ⟨_, .array href (contains_write.mpr hcontains) hitems⟩

theorem SpreadsAll.put {place : Place} (has : s.Contains place.cell)
    (hplace : ∀ ref, s.at? place ≠ some (.array ref)) {value : Value}
    {entries slots : List Slot} {refs : List ArrayRef} (h : s.SpreadsAll entries slots refs)
    (hat : ∀ entry ∈ entries, s.at? entry.place = some entry.node) {below : Slot → List Slot}
    (hbelow : ∀ listed ∈ slots, ∃ others,
      (s.write place value).Spreads (listed.put place value) (below listed) others) :
    ∃ others, (s.write place value).SpreadsAll (entries.map (Slot.put place value))
      (slots.flatMap below) others := by
  match h with
  | .nil => exact ⟨_, .nil⟩
  | .cons head tail =>
      obtain ⟨first, hhead⟩ := head.put has hplace (hat _ List.mem_cons_self)
        fun listed hmem => hbelow listed (List.mem_append_left _ hmem)
      obtain ⟨others, htail⟩ :=
        tail.put has hplace (fun entry hentry => hat entry (List.mem_cons_of_mem _ hentry))
          fun listed hmem => hbelow listed (List.mem_append_right _ hmem)
      rw [List.map_cons, List.flatMap_append]
      exact ⟨_, .cons hhead htail⟩
end

theorem Spreads.put_listed {whole slot : Slot} {before after : List Slot} {refs : List ArrayRef}
    (h : s.Spreads whole (before ++ slot :: after) refs) (hnodup : refs.Nodup)
    (hat : s.at? whole.place = some whole.node)
    (hnodes : ∀ listed ∈ before ++ slot :: after, ∀ ref, listed.node ≠ .array ref)
    (holds : s.at? slot.place = some slot.node) {value : Value} {more : List Slot}
    {others : List ArrayRef}
    (hmore : (s.write slot.place value).Spreads { slot with node := value } more others) :
    ∃ all, (s.write slot.place value).Spreads (whole.put slot.place value)
      (before ++ more ++ after) all := by
  have hplaces := (h.places hnodup).1
  rw [List.map_append, List.map_cons, List.nodup_append, List.nodup_cons] at hplaces
  have hbefore : ∀ listed ∈ before, listed.place ≠ slot.place := fun listed hlisted =>
    hplaces.2.2 _ (List.mem_map_of_mem hlisted) _ List.mem_cons_self
  have hafter : ∀ listed ∈ after, listed.place ≠ slot.place := fun listed hlisted heq =>
    hplaces.2.1.1 (List.mem_map.mpr ⟨listed, hlisted, heq⟩)
  let below : Slot → List Slot := fun listed => if listed.place = slot.place then more else [listed]
  have hself : below slot = more := if_pos rfl
  have hkept : ∀ some : List Slot, (∀ listed ∈ some, listed.place ≠ slot.place) →
      some.flatMap below = some := by
    intro some hsome
    rw [List.flatMap_congr fun listed hlisted => if_neg (hsome listed hlisted),
      List.flatMap_singleton']
  have hbelow : ∀ listed ∈ before ++ slot :: after, ∃ refs,
      (s.write slot.place value).Spreads (listed.put slot.place value) (below listed) refs := by
    intro listed hlisted
    by_cases heq : listed.place = slot.place
    · have hsame : listed = slot := by
        rcases List.mem_append.mp hlisted with hmem | hmem
        · exact absurd heq (hbefore listed hmem)
        · exact (List.mem_cons.mp hmem).resolve_right fun hmem => hafter listed hmem heq
      have hput : slot.put slot.place value = { slot with node := value } := if_pos rfl
      rw [hsame, hself, hput]
      exact ⟨others, hmore⟩
    · have hput : listed.put slot.place value = listed := if_neg heq
      have hlistedBelow : below listed = [listed] := if_neg heq
      rw [hput, hlistedBelow]
      exact ⟨[], .node (hnodes listed hlisted)⟩
  have hplace : ∀ ref, s.at? slot.place ≠ some (.array ref) := by
    intro ref heq
    rw [holds] at heq
    exact hnodes slot (by simp) ref (Option.some.inj heq)
  obtain ⟨all, hall⟩ := h.put (contains_of_at? holds) hplace hat hbelow
  refine ⟨all, ?_⟩
  rw [List.flatMap_append, List.flatMap_cons, hkept before hbefore, hkept after hafter, hself,
    ← List.append_assoc] at hall
  exact hall

end Store

end ViewTree
