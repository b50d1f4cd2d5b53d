import ViewTree.Proofs.Render.Layering

namespace ViewTree

namespace Members

variable {members later : Members α} {name : String}

/-- The value of a name in the uppermost layer that has one; the last layer lies uppermost. -/
def uppermost? (layers : List (Members α)) (name : String) : Option α :=
  layers.reverse.findSome? fun layer => layer.lookup name

theorem put_of_notMem_names (h : name ∉ members.names) (value : α) :
    members.put name value = members ++ [(name, value)] := by
  induction members with
  | nil => rfl
  | cons member rest ih =>
      have hfirst : member.1 ≠ name := fun heq => h (heq ▸ List.mem_cons_self)
      have hrest : name ∉ names rest := fun hmem => h (List.mem_cons_of_mem _ hmem)
      rw [put, if_neg hfirst, ih hrest]
      rfl

theorem mem_names_put (value : α) : name ∈ (members.put name value).names := by
  by_cases h : name ∈ members.names
  · rwa [names_put_of_mem h]
  · rw [names_put_of_notMem h]
    exact List.mem_append_right _ List.mem_cons_self

/-- A name that is there already keeps its place, so it does not matter when another is written. -/
theorem put_put_of_ne {other : String} (h : name ∈ members.names) (hne : other ≠ name)
    (value new : α) :
    (members.put other new).put name value = (members.put name value).put other new := by
  induction members with
  | nil => cases h
  | cons member rest ih =>
      by_cases hname : member.1 = name
      · have hother : name ≠ other := Ne.symm hne
        simp only [put, hname, if_true, if_neg hother]
      · have hrest : name ∈ names rest := (List.mem_cons.mp h).resolve_left (Ne.symm hname)
        by_cases hother : member.1 = other
        · simp only [put, hother, if_true, if_neg hne]
        · simp only [put, hname, hother, if_false, ih hrest]

theorem putAll_put (h : name ∈ members.names) (hlater : name ∉ later.names) (value : α) :
    (members.putAll later).put name value = (members.put name value).putAll later := by
  induction later generalizing members with
  | nil => rfl
  | cons member rest ih =>
      have hfirst : member.1 ≠ name := fun heq => hlater (heq ▸ List.mem_cons_self)
      have hrest : name ∉ names rest := fun hmem => hlater (List.mem_cons_of_mem _ hmem)
      have hmem : name ∈ (members.put member.1 member.2).names := by
        by_cases hthere : member.1 ∈ members.names
        · rwa [names_put_of_mem hthere]
        · rw [names_put_of_notMem hthere]
          exact List.mem_append_left _ h
      have hstep := ih hmem hrest
      rw [put_put_of_ne h hfirst] at hstep
      exact hstep

theorem put_putAll (h : later.names.Nodup) (name : String) (value : α) :
    (members.putAll later).put name value = members.putAll (later.put name value) := by
  induction later generalizing members with
  | nil => rfl
  | cons member rest ih =>
      obtain ⟨first, held⟩ := member
      obtain ⟨hfirst, hrest⟩ := List.nodup_cons.mp h
      by_cases hname : first = name
      · subst hname
        have hmem : first ∈ (members.put first held).names := mem_names_put held
        have hwritten := putAll_put hmem hfirst value
        rw [put_put] at hwritten
        rw [put, if_pos rfl]
        exact hwritten
      · rw [put, if_neg hname]
        exact ih hrest

theorem putAll_putAll (h : later.names.Nodup) (latest : Members α) :
    (members.putAll later).putAll latest = members.putAll (later.putAll latest) := by
  induction latest generalizing later with
  | nil => rfl
  | cons member rest ih =>
      have hrest := ih (nodup_names_put member.1 member.2 h)
      rw [← put_putAll h] at hrest
      exact hrest

theorem putAll_of_fresh (h : later.names.Nodup)
    (hfresh : ∀ name ∈ later.names, name ∉ members.names) :
    members.putAll later = members ++ later := by
  induction later generalizing members with
  | nil => exact (List.append_nil members).symm
  | cons member rest ih =>
      obtain ⟨first, value⟩ := member
      obtain ⟨hfirst, hrest⟩ := List.nodup_cons.mp h
      have hput : members.put first value = members ++ [(first, value)] :=
        put_of_notMem_names (hfresh first List.mem_cons_self) value
      have hnames : ∀ name ∈ names rest, name ∉ (members.put first value).names := by
        intro name hname hmem
        rw [names_put_of_notMem (hfresh first List.mem_cons_self), List.mem_append,
          List.mem_singleton] at hmem
        rcases hmem with hmem | rfl
        · exact hfresh name (List.mem_cons_of_mem _ hname) hmem
        · exact hfirst hname
      have hwritten := ih hrest hnames
      rw [hput, List.append_assoc] at hwritten
      show (members.put first value).putAll rest = _
      rw [hput]
      exact hwritten

theorem putAll_nil_left (h : members.names.Nodup) : putAll [] members = members :=
  putAll_of_fresh h fun _ _ => List.not_mem_nil

theorem names_put_eq {seen : List String} (h : members.names = seen.eraseDups) (name : String)
    (value : α) : (members.put name value).names = (seen ++ [name]).eraseDups := by
  have hone : [name].eraseDups = [name] := by
    rw [List.eraseDups_cons, List.filter_nil, List.eraseDups_nil]
  rw [List.eraseDups_append]
  by_cases hmem : name ∈ members.names
  · have hseen : name ∈ seen := List.mem_eraseDups.mp (h ▸ hmem)
    rw [names_put_of_mem hmem, h]
    simp [List.removeAll, hseen]
  · have hseen : name ∉ seen := fun hthere => hmem (h ▸ List.mem_eraseDups.mpr hthere)
    rw [names_put_of_notMem hmem, h]
    simp [List.removeAll, hseen, hone]

theorem names_putAll {seen : List String} (h : members.names = seen.eraseDups)
    (later : Members α) : (members.putAll later).names = (seen ++ later.names).eraseDups := by
  induction later generalizing members seen with
  | nil => exact h.trans (congrArg List.eraseDups (List.append_nil seen).symm)
  | cons member rest ih =>
      have hrest := ih (names_put_eq h member.1 member.2)
      rw [List.append_assoc] at hrest
      exact hrest

end Members

namespace Registry

theorem eq_of_entries {registry other : Registry} (h : registry.entries = other.entries) :
    registry = other := by
  cases registry
  cases other
  congr

def stack (registry : Registry) (layers : List (Members Tree)) : Registry :=
  layers.foldl extend registry

theorem ofEntries_entries (registry : Registry) : ofEntries registry.entries = registry :=
  eq_of_entries (Members.putAll_nil_left registry.nodup_names)

theorem extend_extend (registry : Registry) {first : Members Tree} (h : first.names.Nodup)
    (second : Members Tree) :
    (registry.extend first).extend second = registry.extend (first.putAll second) :=
  eq_of_entries (Members.putAll_putAll h second)

theorem lookup_extend (registry : Registry) {layer : Members Tree} (h : layer.names.Nodup)
    (name : String) : (registry.extend layer).entries.lookup name =
      (layer.lookup name).or (registry.entries.lookup name) := by
  show (Members.putAll registry.entries layer).lookup name = _
  rw [Members.lookup_putAll, Members.lookup_putAll_nil h]

theorem lookup_stack (registry : Registry) {layers : List (Members Tree)}
    (h : ∀ layer ∈ layers, layer.names.Nodup) (name : String) :
    (registry.stack layers).entries.lookup name =
      (Members.uppermost? layers name).or (registry.entries.lookup name) := by
  induction layers generalizing registry with
  | nil => rfl
  | cons layer rest ih =>
      obtain ⟨hlayer, hrest⟩ := List.forall_mem_cons.mp h
      have hstack := ih (registry.extend layer) hrest
      rw [lookup_extend registry hlayer, ← Option.or_assoc] at hstack
      have hlayers : Members.uppermost? (layer :: rest) name =
          (Members.uppermost? rest name).or (layer.lookup name) := by
        rw [Members.uppermost?, List.reverse_cons, List.findSome?_append, List.findSome?_singleton]
        rfl
      rw [hlayers]
      exact hstack

theorem keys_stack (registry : Registry) {seen : List String}
    (h : registry.keys = seen.eraseDups) (layers : List (Members Tree)) :
    (registry.stack layers).keys = (seen ++ layers.flatMap Members.names).eraseDups := by
  induction layers generalizing registry seen with
  | nil => rw [List.flatMap_nil, List.append_nil]; exact h
  | cons layer rest ih =>
      have hrest := ih (registry.extend layer) (Members.names_putAll h layer)
      rw [List.append_assoc] at hrest
      exact hrest

end Registry

end ViewTree
