import ViewTree.Proofs.Render.Mappings

namespace ViewTree

namespace Registry

/-- Whether a name with an entry has a component. -/
def opens (registry : Registry) (name : String) : Bool :=
  name ≠ "" && !((registry.entries.lookup name).getD .null).isNull

def names (registry : Registry) (type : Tree) : Bool :=
  (type.text?.bind fun name => registry.entries.lookup name).isSome

variable {registry other : Registry}

theorem lookup_of_mem_keys {name : String} (h : name ∈ registry.keys) :
    ∃ entry, registry.entries.lookup name = some entry := by
  obtain ⟨⟨_, value⟩, hmember, rfl⟩ := List.mem_map.mp h
  cases hlookup : registry.entries.lookup _ with
  | some entry => exact ⟨entry, rfl⟩
  | none => simpa using List.lookup_eq_none_iff.mp hlookup _ hmember

theorem resolve_of_lookup {name : String} {entry : Tree}
    (h : registry.entries.lookup name = some entry) :
    registry.resolve (.text name) = if registry.opens name then some entry else none := by
  have htext : (Tree.text name).text? = some name := rfl
  simp only [resolve, htext, opens, h, Option.getD_some]
  by_cases hempty : name = ""
  · simp [hempty]
  · cases hnull : entry.isNull <;> simp [hempty, hnull, Tree.component?]

theorem contains_of_mem_keys {name : String} (h : name ∈ registry.keys) :
    registry.contains (.text name) = registry.opens name := by
  obtain ⟨entry, hentry⟩ := lookup_of_mem_keys h
  rw [contains, resolve_of_lookup hentry]
  cases registry.opens name <;> rfl

theorem get_of_lookup {name : String} {entry : Tree}
    (h : registry.entries.lookup name = some entry) :
    registry.get (.text name) =
      if registry.opens name then .ok entry else .error (.unresolved (.text name)) := by
  rw [get, resolve_of_lookup h]
  cases registry.opens name <;> rfl

theorem mapM_get_eq {entries : Members Tree} (h : ∀ entry ∈ entries,
      registry.entries.lookup entry.1 = some entry.2) :
    (entries.names.mapM fun name => do return (name, ← registry.get (.text name)) :
        Except Failure (Members Tree)) =
      match entries.names.find? fun name => !registry.opens name with
      | none => .ok entries
      | some name => .error (.unresolved (.text name)) := by
  induction entries with
  | nil => rfl
  | cons entry rest ih =>
      obtain ⟨name, value⟩ := entry
      obtain ⟨hentry, hrest⟩ := List.forall_mem_cons.mp h
      have hnames : Members.names ((name, value) :: rest) = name :: Members.names rest := rfl
      rw [hnames, List.mapM_cons, get_of_lookup hentry, ih hrest, List.find?_cons]
      cases registry.opens name with
      | false => rfl
      | true =>
          simp only [Bool.not_true, if_true]
          cases (Members.names rest).find? fun name => !registry.opens name <;> rfl

theorem items_eq (registry : Registry) :
    registry.items =
      match registry.keys.find? fun name => !registry.opens name with
      | none => .ok registry.entries
      | some name => .error (.unresolved (.text name)) :=
  mapM_get_eq fun _ hentry => (Members.mem_iff_lookup registry.nodup_names).mp hentry

theorem resolve_extend (registry other : Registry) (type : Tree) :
    (registry.extend other.entries).resolve type =
      if other.names type then other.resolve type else registry.resolve type := by
  unfold resolve names
  cases type.text? with
  | none => simp
  | some name =>
      have hlookup : (registry.extend other.entries).entries.lookup name =
          (other.entries.lookup name).or (registry.entries.lookup name) := by
        show (Members.putAll registry.entries other.entries).lookup name = _
        rw [Members.lookup_putAll, Members.lookup_putAll_nil other.nodup_names]
      simp only [hlookup, Option.bind_some]
      cases other.entries.lookup name <;> simp

/-- A registry as a mapping.  Each of its keys has a component exactly if it is neither blocked nor
empty.  While that holds of all keys, the registry is read as its entries, and laid over another it
resolves the names it has as before and leaves all others to the registry below.  Else the first key
without a component breaks off both.  Its entries can be laid over any registry, the blocked names
among them. -/
theorem extendWith_layers (registry other : Registry) :
    (∀ name ∈ other.keys, other.contains (.text name) = other.opens name ∧
      other.get (.text name) =
        if other.opens name then .ok ((other.entries.lookup name).getD .null)
        else .error (.unresolved (.text name))) ∧
    (match other.keys.find? fun name => !other.opens name with
      | none =>
        other.items = .ok other.entries ∧
          ∃ layered, registry.extendWith other = .ok layered ∧ ∀ type, layered.resolve type =
            if other.names type then other.resolve type else registry.resolve type
      | some name =>
        other.items = .error (.unresolved (.text name)) ∧
          registry.extendWith other = .error (.unresolved (.text name))) ∧
    ∀ type, (registry.extend other.entries).resolve type =
      if other.names type then other.resolve type else registry.resolve type := by
  refine ⟨?_, ?_, resolve_extend registry other⟩
  · intro name hname
    obtain ⟨entry, hentry⟩ := lookup_of_mem_keys hname
    refine ⟨contains_of_mem_keys hname, ?_⟩
    rw [get_of_lookup hentry, hentry, Option.getD_some]
  · have hitems := other.items_eq
    have hextend : registry.extendWith other = registry.extend <$> other.items := rfl
    cases hblocked : other.keys.find? fun name => !other.opens name with
    | none =>
        rw [hblocked] at hitems
        refine ⟨hitems, registry.extend other.entries, ?_, resolve_extend registry other⟩
        rw [hextend, hitems]
        rfl
    | some name =>
        rw [hblocked] at hitems
        refine ⟨hitems, ?_⟩
        rw [hextend, hitems]
        rfl

def vetted : Registry :=
  ofEntries [("card", .text "section"), ("script", .null), ("Fragment", .text "div")]

theorem extendWith_layers_vetted :
    vetted.contains (.text "card") = true ∧ vetted.contains (.text "script") = false ∧
      (extendWith {} vetted).toOption.isNone = true ∧
      (extend {} vetted.entries).resolve (.text "script") = none ∧
      (extend {} vetted.entries).resolve (.text "Fragment") = some (.text "div") ∧
      (extend {} vetted.entries).resolve (.text "Portal") = some Marker.portal.component := by
  obtain ⟨hkeys, hlayers, hextend⟩ := extendWith_layers {} vetted
  have hcard : "card" ∈ vetted.keys := by decide
  have hscript : "script" ∈ vetted.keys := by decide
  have hblocked : vetted.keys.find? (fun name => !vetted.opens name) = some "script" := by decide
  rw [hblocked] at hlayers
  refine ⟨(hkeys _ hcard).1, (hkeys _ hscript).1, ?_, hextend _, hextend _, hextend _⟩
  rw [hlayers.2]
  rfl

/-- A name that is blocked is a key all the same: it is not contained, has no component, and keeps
its registry from being laid over another. -/
theorem extendWith_blocked :
    (¬ ∀ registry : Registry, ∀ name ∈ registry.keys,
      registry.contains (.text name) = true ∧
        ∃ component, registry.get (.text name) = .ok component) ∧
    (¬ ∀ registry : Registry, ∃ items, registry.items = .ok items) ∧
    ¬ ∀ registry other : Registry, ∃ layered, registry.extendWith other = .ok layered := by
  let blocking : Registry := ofEntries [("script", .null)]
  refine ⟨fun hall => ?_, fun hall => ?_, fun hall => ?_⟩
  · obtain ⟨hcontains, -⟩ := hall blocking "script" (by decide)
    cases hcontains
  · obtain ⟨items, hitems⟩ := hall blocking
    cases hitems
  · obtain ⟨layered, hlayered⟩ := hall {} blocking
    cases hlayered

end Registry

end ViewTree
