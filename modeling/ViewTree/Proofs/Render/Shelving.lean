import ViewTree.Proofs.Render.Props
import ViewTree.Proofs.Render.Stacking
import ViewTree.Render.Shelf

/-!
Registries that last.  Whatever is done with mappings and registries, a registry stays what it was when
it was made: nobody but the registry holds the mapping its entries are in.
-/

namespace ViewTree

/-- What can be done with the mappings and registries at hand, each known by its number. -/
inductive Deed
  | lay (entries : Members Tree)
  | change (mapping : Nat) (entries : Members Tree)
  | create (mapping : Nat)
  | extend (registry mapping : Nat)
  | copy (registry : Nat)

structure Catalog where
  shelf : Shelf := {}
  mappings : List MappingRef := []
  registries : List RegistryRef := []

namespace Catalog

def now (catalog : Catalog) : List Registry :=
  catalog.registries.map catalog.shelf.registry

def laid (catalog : Catalog) : List (Members Tree) :=
  catalog.mappings.map catalog.shelf.entries

/-- The registry a deed makes. -/
def made? (catalog : Catalog) : Deed → Option Registry
  | .lay _ | .change _ _ => none
  | .create mapping => catalog.laid[mapping]?.map .ofEntries
  | .extend registry mapping => do
      let registry ← catalog.now[registry]?
      let entries ← catalog.laid[mapping]?
      return registry.extend entries
  | .copy registry => catalog.now[registry]?.map fun registry => .ofEntries registry.entries

def keep (catalog : Catalog) (registry : Registry) : Catalog :=
  let (ref, shelf) := catalog.shelf.keep registry
  { catalog with shelf := shelf, registries := catalog.registries ++ [ref] }

def act (catalog : Catalog) : Deed → Catalog
  | .lay entries =>
      let (ref, shelf) := catalog.shelf.lay entries
      { catalog with shelf := shelf, mappings := catalog.mappings ++ [ref] }
  | .change mapping entries =>
      match catalog.mappings[mapping]? with
      | some ref => { catalog with shelf := catalog.shelf.change ref entries }
      | none => catalog
  | deed =>
      match catalog.made? deed with
      | some registry => catalog.keep registry
      | none => catalog

def after (catalog : Catalog) (deeds : List Deed) : Catalog :=
  deeds.foldl act catalog

/-- The mappings registries keep are on the shelf, and are not handed out. -/
structure Apart (catalog : Catalog) : Prop where
  laid : ∀ ref ∈ catalog.mappings, ref.index < catalog.shelf.mappings.length
  kept : ∀ ref ∈ catalog.registries, ref.own.index < catalog.shelf.mappings.length
  apart : ∀ ref ∈ catalog.registries, ref.own ∉ catalog.mappings

variable {catalog : Catalog}

theorem entries_lay {shelf : Shelf} {ref : MappingRef} (h : ref.index < shelf.mappings.length)
    (entries : Members Tree) : (shelf.lay entries).2.entries ref = shelf.entries ref := by
  simp only [Shelf.lay, Shelf.entries, List.getElem?_append_left h]

theorem entries_change {shelf : Shelf} {ref other : MappingRef} (h : other ≠ ref)
    (entries : Members Tree) : (shelf.change ref entries).entries other = shelf.entries other := by
  have hindex : ref.index ≠ other.index := fun heq => h (congrArg MappingRef.mk heq.symm)
  simp only [Shelf.change, Shelf.entries, List.getElem?_set_ne hindex]

theorem registry_keep (shelf : Shelf) (registry : Registry) :
    (shelf.keep registry).2.registry (shelf.keep registry).1 = registry := by
  have hentries : (shelf.keep registry).2.entries (shelf.keep registry).1.own = registry.entries := by
    simp [Shelf.keep, Shelf.lay, Shelf.entries]
  rw [Shelf.registry, hentries, Registry.ofEntries_entries]

theorem apart_empty : Apart {} :=
  ⟨fun _ hnone => (List.not_mem_nil hnone).elim, fun _ hnone => (List.not_mem_nil hnone).elim,
    fun _ hnone => (List.not_mem_nil hnone).elim⟩

theorem lt_of_mem_append_fresh {refs : List α} {index : α → Nat} {bound : Nat}
    (h : ∀ ref ∈ refs, index ref < bound) {fresh : α} (hfresh : index fresh = bound) :
    ∀ ref ∈ refs ++ [fresh], index ref < bound + 1 := by
  intro ref href
  rcases List.mem_append.mp href with hold | hnew
  · exact Nat.lt_succ_of_lt (h ref hold)
  · rw [List.mem_singleton.mp hnew, hfresh]
    exact Nat.lt_succ_self bound

theorem Apart.lay (h : catalog.Apart) (entries : Members Tree) :
    (catalog.act (.lay entries)).Apart := by
  have hlength : (catalog.act (.lay entries)).shelf.mappings.length =
      catalog.shelf.mappings.length + 1 := List.length_append
  refine ⟨?_, fun ref href => ?_, fun ref href hmapping => ?_⟩
  · rw [hlength]
    exact lt_of_mem_append_fresh h.laid rfl
  · rw [hlength]
    exact Nat.lt_succ_of_lt (h.kept ref href)
  · rcases List.mem_append.mp hmapping with hold | hnew
    · exact h.apart ref href hold
    · have hless := h.kept ref href
      rw [List.mem_singleton.mp hnew] at hless
      exact Nat.lt_irrefl _ hless

theorem Apart.change (h : catalog.Apart) (mapping : Nat) (entries : Members Tree) :
    (catalog.act (.change mapping entries)).Apart := by
  rw [act]
  cases catalog.mappings[mapping]? with
  | none => exact h
  | some ref =>
      have hlength : (catalog.shelf.change ref entries).mappings.length =
          catalog.shelf.mappings.length := List.length_set
      exact ⟨fun other hother => hlength ▸ h.laid other hother,
        fun other hother => hlength ▸ h.kept other hother, h.apart⟩

theorem Apart.keep (h : catalog.Apart) (registry : Registry) : (catalog.keep registry).Apart := by
  have hlength : (catalog.keep registry).shelf.mappings.length =
      catalog.shelf.mappings.length + 1 := List.length_append
  refine ⟨fun ref href => ?_, ?_, fun ref href hmapping => ?_⟩
  · rw [hlength]
    exact Nat.lt_succ_of_lt (h.laid ref href)
  · rw [hlength]
    exact lt_of_mem_append_fresh h.kept rfl
  · rcases List.mem_append.mp href with hold | hnew
    · exact h.apart ref hold hmapping
    · have hless := h.laid ref.own hmapping
      rw [List.mem_singleton.mp hnew] at hless
      exact Nat.lt_irrefl _ hless

theorem now_lay (h : catalog.Apart) (entries : Members Tree) :
    (catalog.act (.lay entries)).now = catalog.now :=
  List.map_congr_left fun ref href =>
    congrArg Registry.ofEntries (entries_lay (h.kept ref href) entries)

theorem now_change (h : catalog.Apart) (mapping : Nat) (entries : Members Tree) :
    (catalog.act (.change mapping entries)).now = catalog.now := by
  rw [act]
  cases hmapping : catalog.mappings[mapping]? with
  | none => rfl
  | some ref =>
      refine List.map_congr_left fun other hother => congrArg Registry.ofEntries ?_
      refine entries_change (fun heq => h.apart other hother ?_) entries
      exact heq ▸ List.mem_of_getElem? hmapping

theorem now_keep (h : catalog.Apart) (registry : Registry) :
    (catalog.keep registry).now = catalog.now ++ [registry] := by
  have hold : catalog.registries.map (catalog.keep registry).shelf.registry = catalog.now :=
    List.map_congr_left fun ref href =>
      congrArg Registry.ofEntries (entries_lay (h.kept ref href) registry.entries)
  have hnew : (catalog.keep registry).shelf.registry (catalog.shelf.keep registry).1 = registry :=
    registry_keep catalog.shelf registry
  have hnow : (catalog.keep registry).now =
      catalog.registries.map (catalog.keep registry).shelf.registry ++
        [(catalog.keep registry).shelf.registry (catalog.shelf.keep registry).1] :=
    List.map_append
  rw [hnow, hold, hnew]

theorem laid_lay (h : catalog.Apart) (entries : Members Tree) :
    (catalog.act (.lay entries)).laid = catalog.laid ++ [entries] := by
  have hold : catalog.mappings.map (catalog.act (.lay entries)).shelf.entries = catalog.laid :=
    List.map_congr_left fun ref href => entries_lay (h.laid ref href) entries
  have hnew : (catalog.act (.lay entries)).shelf.entries (catalog.shelf.lay entries).1 = entries := by
    simp [act, Shelf.lay, Shelf.entries]
  have hlaid : (catalog.act (.lay entries)).laid =
      catalog.mappings.map (catalog.act (.lay entries)).shelf.entries ++
        [(catalog.act (.lay entries)).shelf.entries (catalog.shelf.lay entries).1] :=
    List.map_append
  rw [hlaid, hold, hnew]

theorem laid_keep (h : catalog.Apart) (registry : Registry) :
    (catalog.keep registry).laid = catalog.laid :=
  List.map_congr_left fun ref href => entries_lay (h.laid ref href) registry.entries

theorem act_of_made {deed : Deed} {registry : Registry} (h : catalog.made? deed = some registry) :
    catalog.act deed = catalog.keep registry := by
  cases deed with
  | lay entries => cases h
  | change mapping entries => cases h
  | create mapping => simp only [act, h]
  | extend number mapping => simp only [act, h]
  | copy number => simp only [act, h]

theorem act_lawful (h : catalog.Apart) (deed : Deed) :
    (catalog.act deed).Apart ∧
      (catalog.act deed).now = catalog.now ++ (catalog.made? deed).toList := by
  have hmade : ∀ made : Option Registry,
      (match made with
        | some registry => catalog.keep registry
        | none => catalog).Apart ∧
      (match made with
        | some registry => catalog.keep registry
        | none => catalog).now = catalog.now ++ made.toList := by
    intro made
    cases made with
    | none => exact ⟨h, (List.append_nil _).symm⟩
    | some registry => exact ⟨h.keep registry, now_keep h registry⟩
  cases deed with
  | lay entries => exact ⟨h.lay entries, (now_lay h entries).trans (List.append_nil _).symm⟩
  | change mapping entries =>
      exact ⟨h.change mapping entries, (now_change h mapping entries).trans (List.append_nil _).symm⟩
  | create mapping => exact hmade _
  | extend registry mapping => exact hmade _
  | copy registry => exact hmade _

theorem after_apart (h : catalog.Apart) (deeds : List Deed) : (catalog.after deeds).Apart := by
  induction deeds generalizing catalog with
  | nil => exact h
  | cons deed rest ih => exact ih (act_lawful h deed).1

theorem now_after (h : catalog.Apart) (deeds : List Deed) :
    catalog.now <+: (catalog.after deeds).now := by
  induction deeds generalizing catalog with
  | nil => exact List.prefix_refl _
  | cons deed rest ih =>
      obtain ⟨hafter, hnow⟩ := act_lawful h deed
      exact (hnow ▸ List.prefix_append _ _).trans (ih hafter)

theorem after_append (catalog : Catalog) (deeds more : List Deed) :
    catalog.after (deeds ++ more) = (catalog.after deeds).after more :=
  List.foldl_append

/-- The number of a mapping at hand is that of its layer, the base being the first. -/
def piling (base : Members Tree) (layers : List (Members Tree)) : List Deed :=
  [.lay base, .create 0] ++ layers.zipIdx.flatMap fun (layer, number) =>
    [.lay layer, .extend number (number + 1)]

def piles (base : Members Tree) (layers : List (Members Tree)) : List Registry :=
  (List.range (layers.length + 1)).map fun count =>
    (Registry.ofEntries base).stack (layers.take count)

theorem piling_append (base : Members Tree) (layers : List (Members Tree))
    (layer : Members Tree) :
    piling base (layers ++ [layer]) =
      piling base layers ++ [.lay layer, .extend layers.length (layers.length + 1)] := by
  rw [piling, List.zipIdx_append, List.flatMap_append, ← List.append_assoc, Nat.zero_add]
  rfl

theorem piles_append (base : Members Tree) (layers : List (Members Tree))
    (layer : Members Tree) :
    piles base (layers ++ [layer]) =
      piles base layers ++ [((Registry.ofEntries base).stack layers).extend layer] := by
  have hlast : (Registry.ofEntries base).stack ((layers ++ [layer]).take (layers.length + 1)) =
      ((Registry.ofEntries base).stack layers).extend layer := by
    rw [List.take_of_length_le (by simp), Registry.stack, List.foldl_append]
    rfl
  rw [piles, piles, List.length_append, List.length_singleton, List.range_succ, List.map_append,
    List.map_singleton, hlast]
  refine congrArg (· ++ _) (List.map_congr_left fun count hcount => ?_)
  have hless := List.mem_range.mp hcount
  rw [List.take_append_of_le_length (by omega)]

theorem getElem?_piles (base : Members Tree) (layers : List (Members Tree)) {count : Nat}
    (h : count ≤ layers.length) :
    (piles base layers)[count]? = some ((Registry.ofEntries base).stack (layers.take count)) := by
  rw [piles, List.getElem?_map, List.getElem?_range (Nat.lt_succ_of_le h), Option.map_some]

theorem after_piling (base : Members Tree) (layers : List (Members Tree)) :
    (({} : Catalog).after (piling base layers)).now = piles base layers ∧
      (({} : Catalog).after (piling base layers)).laid = base :: layers := by
  induction layers using List.reverseRecOn with
  | nil =>
      have hlay := apart_empty.lay base
      have hkeep : ({} : Catalog).after (piling base []) =
          (({} : Catalog).act (.lay base)).keep (.ofEntries base) := rfl
      rw [hkeep, now_keep hlay, laid_keep hlay]
      exact ⟨rfl, rfl⟩
  | append_singleton layers layer ih =>
      obtain ⟨hnow, hlaid⟩ := ih
      rw [piling_append, after_append]
      have hapart := after_apart apart_empty (piling base layers)
      generalize ({} : Catalog).after (piling base layers) = catalog at hnow hlaid hapart
      have hlay := hapart.lay layer
      have hmore : (catalog.act (.lay layer)).laid = base :: (layers ++ [layer]) := by
        rw [laid_lay hapart, hlaid, List.cons_append]
      have hmade : (catalog.act (.lay layer)).made? (.extend layers.length (layers.length + 1)) =
          some (((Registry.ofEntries base).stack layers).extend layer) := by
        have hregistry : (catalog.act (.lay layer)).now[layers.length]? =
            some ((Registry.ofEntries base).stack layers) := by
          rw [now_lay hapart, hnow, getElem?_piles base layers le_rfl, List.take_length]
        rw [made?, hregistry, hmore, List.getElem?_cons_succ, List.getElem?_concat_length]
        rfl
      have hkeep : catalog.after [.lay layer, .extend layers.length (layers.length + 1)] =
          (catalog.act (.lay layer)).keep (((Registry.ofEntries base).stack layers).extend layer) := by
        rw [after, List.foldl_cons, List.foldl_cons, List.foldl_nil, act_of_made hmade]
      rw [hkeep, now_keep hlay, laid_keep hlay, now_lay hapart, hnow, piles_append, hmore]
      exact ⟨rfl, rfl⟩

theorem now_after_piling (base : Members Tree) {layers : List (Members Tree)} (later : List Deed)
    {count : Nat} (h : count ≤ layers.length) :
    (({} : Catalog).after (piling base layers ++ later)).now[count]? =
      some ((Registry.ofEntries base).stack (layers.take count)) := by
  have hpiled := (after_piling base layers).1
  have hlater := now_after (after_apart apart_empty (piling base layers)) later
  rw [hpiled] at hlater
  obtain ⟨more, hmore⟩ := hlater
  have hlength : count < (piles base layers).length := by
    rw [piles, List.length_map, List.length_range]
    exact Nat.lt_succ_of_le h
  rw [after_append, ← hmore, List.getElem?_append_left hlength, getElem?_piles base layers h]

end Catalog

theorem Registry.resolve_of_no_name (registry : Registry) {type : Tree}
    (h : ∀ name, name ≠ "" → type ≠ .text name) : registry.resolve type = none := by
  rw [resolve]
  cases htext : type.text? with
  | none => rfl
  | some name =>
      have hempty : name = "" :=
        Classical.byContradiction fun hne => h name hne (Tree.text?_eq_some_iff.mp htext)
      exact if_pos hempty

/-- Layers laid over a registry.  What is no non-empty text has no component; a name has the entry of
the uppermost layer that names it, where null blocks it, else the built-in component of that name, else
itself.  All look-ups agree, the names are listed as they first came up, two layers are as good as the
one they make together, and a registry made of the registry is the same.  Nothing that is done later
with mappings and registries makes any of these registries another. -/
theorem Registry.stack_resolves {base : Members Tree} {layers : List (Members Tree)}
    (h : ∀ layer ∈ base :: layers, layer.names.Nodup) :
    let registry := (ofEntries base).stack layers
    (∀ type, (∀ name, name ≠ "" → type ≠ .text name) → registry.resolve type = none) ∧
    (∀ name, name ≠ "" → registry.resolve (.text name) =
      match Members.uppermost? (base :: layers) name with
      | some entry => if entry.isNull then none else some entry
      | none =>
        match Marker.ofName? name with
        | some marker => some marker.component
        | none => some (.text name)) ∧
    (∀ type, registry.contains type = (registry.resolve type).isSome ∧
      (registry.get type = match registry.resolve type with
        | some component => .ok component
        | none => .error (.unresolved type)) ∧
      ∀ default, registry.getD type default = (registry.resolve type).getD default) ∧
    registry.keys = ((base :: layers).flatMap Members.names).eraseDups ∧
    (∀ first second, first.names.Nodup →
      (registry.extend first).extend second = registry.extend (first.putAll second)) ∧
    ofEntries registry.entries = registry ∧
    ∀ later : List Deed, ∀ count ≤ layers.length,
      (({} : Catalog).after (Catalog.piling base layers ++ later)).now[count]? =
        some ((ofEntries base).stack (layers.take count)) := by
  intro registry
  have hstack : registry = ({} : Registry).stack (base :: layers) := rfl
  refine ⟨?_, ?_, fun type => ⟨rfl, rfl, fun _ => rfl⟩, ?_, ?_, ofEntries_entries registry, ?_⟩
  · exact fun type hname => registry.resolve_of_no_name hname
  · intro name hname
    have hlookup : registry.entries.lookup name =
        Members.uppermost? (base :: layers) name := by
      rw [hstack, lookup_stack {} h]
      exact Option.or_none
    rw [← hlookup]
    exact if_neg hname
  · have hnone : ({} : Registry).keys = ([] : List String).eraseDups := rfl
    rw [hstack, keys_stack {} hnone, List.nil_append]
  · exact fun first second hfirst => extend_extend registry hfirst second
  · exact fun later count hcount => Catalog.now_after_piling base later hcount

def sieves : List (Members Tree) :=
  [[("card", .text "section"), ("script", .null), ("Fragment", .null)],
    [("script", .text "pre"), ("Portal", .null)], [("card", .null), ("script", .text "code")]]

theorem Registry.stack_resolves_sieves :
    (∀ layer ∈ sieves, layer.names.Nodup) ∧
      let registry := (ofEntries sieves[0]).stack sieves.tail
      registry.resolve (.text "script") = some (.text "code") ∧
        registry.resolve (.text "card") = none ∧ registry.resolve (.text "Portal") = none ∧
        registry.resolve (.text "main") = some (.text "main") ∧
        registry.keys = ["card", "script", "Fragment", "Portal"] ∧
        (({} : Catalog).after (Catalog.piling sieves[0] sieves.tail ++
          [.change 0 [("script", .text "iframe")], .extend 1 2])).now[2]? = some registry := by
  have hnodup : ∀ layer ∈ sieves, layer.names.Nodup := by decide
  obtain ⟨-, hnames, -, hkeys, -, -, hlast⟩ := @stack_resolves sieves[0] sieves.tail hnodup
  refine ⟨hnodup, ?_⟩
  refine ⟨hnames _ (by decide), hnames _ (by decide), hnames _ (by decide), hnames _ (by decide),
    hkeys.trans ?_, hlast _ 2 le_rfl⟩
  simp [sieves, Members.names, List.eraseDups_cons]

end ViewTree
