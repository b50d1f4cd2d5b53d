/-!
Ordered members of an object.  `List.lookup` reads a member, `put` overwrites in place or appends,
`remove` drops.  The order of names is part of the value.
-/

namespace ViewTree

abbrev Members (α : Type u) := List (String × α)

namespace Members

variable {α β : Type u}

def names (members : Members α) : List String :=
  members.map Prod.fst

def put (name : String) (value : α) : Members α → Members α
  | [] => [(name, value)]
  | (other, old) :: rest =>
    if other = name then (other, value) :: rest else (other, old) :: put name value rest

def remove (name : String) (members : Members α) : Members α :=
  members.filter fun member => member.1 ≠ name

/-- Writes every member of `later`, in order. -/
def putAll (members later : Members α) : Members α :=
  later.foldl (fun written member => put member.1 member.2 written) members

@[simp] theorem put_nil (name : String) (value : α) : put name value [] = [(name, value)] := rfl

@[simp] theorem lookup_put_self (name : String) (value : α) (members : Members α) :
    (put name value members).lookup name = some value := by
  induction members with
  | nil => simp [put]
  | cons member rest ih =>
      obtain ⟨first, old⟩ := member
      by_cases h : first = name
      · simp [put, h]
      · have hne : (name == first) = false := by simpa using Ne.symm h
        simp [put, h, List.lookup_cons, hne, ih]

theorem lookup_put_of_ne {name other : String} (h : other ≠ name) (value : α)
    (members : Members α) :
    (put name value members).lookup other = members.lookup other := by
  induction members with
  | nil => simp [put, List.lookup_cons, beq_eq_false_iff_ne.mpr h]
  | cons member rest ih =>
      obtain ⟨first, old⟩ := member
      by_cases hm : first = name
      · simp [put, hm, List.lookup_cons, beq_eq_false_iff_ne.mpr h]
      · simp [put, hm, List.lookup_cons, ih]

theorem put_put (name : String) (value other : α) (members : Members α) :
    (members.put name value).put name other = members.put name other := by
  induction members with
  | nil => simp [put]
  | cons member rest ih =>
      by_cases hname : member.1 = name
      · simp [put, hname]
      · simp [put, hname, ih]

theorem lookup_put (name other : String) (value : α) (members : Members α) :
    (put name value members).lookup other =
      if other = name then some value else members.lookup other := by
  split
  · next h => rw [h, lookup_put_self]
  · next h => exact lookup_put_of_ne h value members

@[simp] theorem lookup_remove_self (name : String) (members : Members α) :
    (remove name members).lookup name = none := by
  simp [remove, List.lookup_eq_none_iff]
  grind

theorem lookup_remove_of_ne {name other : String} (h : other ≠ name) (members : Members α) :
    (remove name members).lookup other = members.lookup other := by
  induction members with
  | nil => rfl
  | cons member rest ih =>
      obtain ⟨first, old⟩ := member
      by_cases hm : first = name
      · have hne : (other == first) = false := by simpa [hm] using h
        have hrest : remove name ((first, old) :: rest) = remove name rest := by simp [remove, hm]
        rw [hrest, ih, List.lookup_cons, hne]
      · have hrest : remove name ((first, old) :: rest) = (first, old) :: remove name rest := by
          simp [remove, hm]
        rw [hrest, List.lookup_cons, List.lookup_cons, ih]

theorem lookup_remove (name other : String) (members : Members α) :
    (remove name members).lookup other =
      if other = name then none else members.lookup other := by
  split
  · next h => rw [h, lookup_remove_self]
  · next h => exact lookup_remove_of_ne h members

theorem names_put_of_mem {name : String} {members : Members α} (h : name ∈ members.names)
    (value : α) : (put name value members).names = members.names := by
  induction members with
  | nil => simp [names] at h
  | cons member rest ih =>
      by_cases hm : member.1 = name
      · simp [put, hm, names]
      · have hrest : name ∈ rest.map Prod.fst := by
          simpa [names, Ne.symm hm] using h
        have := ih hrest
        simp_all [put, names]

theorem names_put_of_notMem {name : String} {members : Members α} (h : name ∉ members.names)
    (value : α) : (put name value members).names = members.names ++ [name] := by
  induction members with
  | nil => rfl
  | cons member rest ih =>
      have hm : member.1 ≠ name := fun heq => h (by simp [names, heq])
      have hrest : name ∉ rest.map Prod.fst := fun hmem => h (by simp [names, hmem])
      have := ih hrest
      simp_all [put, names]

theorem nodup_names_put (name : String) (value : α) {members : Members α}
    (h : members.names.Nodup) : (put name value members).names.Nodup := by
  by_cases hmem : name ∈ members.names
  · rwa [names_put_of_mem hmem]
  · rw [names_put_of_notMem hmem]
    refine List.nodup_append.mpr ⟨h, by simp, fun a ha b hb => ?_⟩
    rw [List.mem_singleton.mp hb]
    exact fun heq => hmem (heq ▸ ha)

theorem nodup_names_putAll {members : Members α} (h : members.names.Nodup)
    (later : Members α) : (putAll members later).names.Nodup := by
  induction later generalizing members with
  | nil => exact h
  | cons member rest ih => exact ih (nodup_names_put member.1 member.2 h)

theorem lookup_putAll (members later : Members α) (name : String) :
    (putAll members later).lookup name =
      ((putAll [] later).lookup name).or (members.lookup name) := by
  induction later generalizing members with
  | nil => simp [putAll]
  | cons member rest ih =>
      have hmembers := ih (put member.1 member.2 members)
      have hempty := ih (put member.1 member.2 [])
      simp only [putAll, List.foldl_cons] at hmembers hempty ⊢
      rw [hmembers, hempty, Option.or_assoc, lookup_put, lookup_put]
      split <;> rfl

theorem mem_iff_lookup {members : Members α} (h : members.names.Nodup) {name : String} {value : α} :
    (name, value) ∈ members ↔ members.lookup name = some value := by
  induction members with
  | nil => simp
  | cons member rest ih =>
      obtain ⟨first, held⟩ := member
      obtain ⟨hfirst, hrest⟩ := List.nodup_cons.mp h
      rw [List.mem_cons, ih hrest, List.lookup_cons]
      by_cases hname : name = first
      · subst hname
        rw [beq_self_eq_true]
        have hnone : rest.lookup name ≠ some value := fun hlookup =>
          hfirst (List.mem_map.mpr ⟨(name, value), (ih hrest).mpr hlookup, rfl⟩)
        simp [hnone, eq_comm]
      · rw [beq_eq_false_iff_ne.mpr hname]
        simp [hname]

end Members

end ViewTree
