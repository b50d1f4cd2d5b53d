import ViewTree.Proofs.Render.Policies
import ViewTree.Proofs.Tree.Validity

namespace ViewTree

namespace Members

theorem lookup_of_notMem_names {members : Members α} {name : String} (h : name ∉ members.names) :
    members.lookup name = none := by
  rw [List.lookup_eq_none_iff]
  intro member hmember
  rw [bne_iff_ne]
  rintro rfl
  exact h (List.mem_map_of_mem hmember)

theorem lookup_putAll_nil {members : Members α} (h : members.names.Nodup) (name : String) :
    (putAll [] members).lookup name = members.lookup name := by
  induction members with
  | nil => rfl
  | cons member rest ih =>
      obtain ⟨first, value⟩ := member
      obtain ⟨hnew, hrest⟩ := List.nodup_cons.mp h
      have hput : putAll [] ((first, value) :: rest) = putAll [(first, value)] rest := rfl
      rw [hput, lookup_putAll, ih hrest]
      by_cases hname : name = first
      · subst hname
        simp [lookup_of_notMem_names hnew]
      · simp [List.lookup_cons, beq_eq_false_iff_ne.mpr hname]

theorem lookup_filter {members : Members α} (h : members.names.Nodup) (kept : String × α → Bool)
    (name : String) :
    (members.filter kept).lookup name =
      (members.lookup name).filter fun value => kept (name, value) := by
  induction members with
  | nil => rfl
  | cons member rest ih =>
      obtain ⟨first, value⟩ := member
      obtain ⟨hnew, hrest⟩ := List.nodup_cons.mp h
      by_cases hname : name = first
      · subst hname
        cases hkept : kept (name, value) with
        | true => simp [hkept, Option.filter]
        | false => simp [hkept, ih hrest, lookup_of_notMem_names hnew, Option.filter]
      · have hother : (name == first) = false := beq_eq_false_iff_ne.mpr hname
        cases hkept : kept (first, value) <;> simp [hkept, ih hrest, List.lookup_cons, hother]

theorem nodup_names_filter {members : Members α} (h : members.names.Nodup)
    (kept : String × α → Bool) : (names (members.filter kept)).Nodup :=
  h.sublist (List.filter_sublist.map Prod.fst)

end Members

theorem Marker.name_of_ofName? {type : String} {marker : Marker} (h : ofName? type = some marker) :
    type = marker.name := by
  unfold ofName? at h
  split at h
  · next hname => cases h; exact hname
  · split at h
    · next hname => cases h; exact hname
    · cases h

theorem Tree.ne_empty_of_nodeType? {node : Tree} {type : String} (h : node.nodeType? = some type) :
    type ≠ "" := by
  cases node with
  | object members => simpa using (Option.filter_eq_some_iff.mp h).2
  | _ => cases h

namespace Resolver

/-- Whether the type of a node is a key or a built-in name; a node without a type goes for one. -/
def covers (entries : Members Tree) (node : Tree) : Bool :=
  node.nodeType?.all fun type => (entries.lookup type).isSome || (Marker.ofName? type).isSome

/-- The entries but those that map a built-in name to null. -/
def binding (entries : Members Tree) : Members Tree :=
  entries.filter fun entry => !(entry.2.isNull && (Marker.ofName? entry.1).isSome)

variable {entries : Members Tree}

theorem resolve_ofEntries (h : entries.names.Nodup) {type : String} (hname : type ≠ "") :
    (Registry.ofEntries entries).resolve (.text type) =
      match entries.lookup type with
      | some entry => entry.component?
      | none =>
        match Marker.ofName? type with
        | some marker => some marker.component
        | none => some (.text type) := by
  have hlookup : (Registry.ofEntries entries).entries.lookup type = entries.lookup type :=
    Members.lookup_putAll_nil h type
  rw [← hlookup]
  exact if_neg hname

/-- A mapping has the components of the registry made of it where it does not map a built-in name to
null. -/
theorem strict_eq_layered (h : entries.names.Nodup) {type : String} (hname : type ≠ "")
    (hcovers : (entries.lookup type).isSome || (Marker.ofName? type).isSome)
    (hfree : Marker.ofName? type ≠ none → entries.lookup type ≠ some .null) :
    resolve (.strict entries) (.text type) =
      resolve (.layered (.ofEntries entries)) (.text type) := by
  have hlayered := resolve_ofEntries h hname
  have hstrict : resolve (.strict entries) (.text type) = .ok (strictComponent entries type) := rfl
  rw [hstrict, resolve, hlayered, strictComponent]
  cases hlookup : entries.lookup type with
  | none =>
      rw [hlookup, Option.isSome_none, Bool.false_or] at hcovers
      obtain ⟨marker, hmarker⟩ := Option.isSome_iff_exists.mp hcovers
      simp [hmarker]
  | some entry =>
      cases hnull : entry.isNull with
      | false => simp [Tree.component?, hnull]
      | true =>
          -- a null entry of an ordinary name blocks it in both
          obtain rfl := Tree.eq_null_of_isNull hnull
          have hnone : Marker.ofName? type = none :=
            Classical.byContradiction fun hmarker => hfree hmarker hlookup
          simp only [Option.bind_some, Tree.component?, hnull, if_true, hnone, Option.map_none]

theorem lookup_binding (h : entries.names.Nodup) (type : String) :
    (binding entries).lookup type =
      (entries.lookup type).filter fun entry =>
        !(entry.isNull && (Marker.ofName? type).isSome) :=
  Members.lookup_filter h _ type

theorem strictComponent_binding (h : entries.names.Nodup) (type : String) :
    strictComponent (binding entries) type = strictComponent entries type := by
  rw [strictComponent, strictComponent, lookup_binding h]
  cases entries.lookup type with
  | none => rfl
  | some entry =>
      cases hnull : entry.isNull with
      | false => simp [hnull, Option.filter]
      | true => cases hmarker : Marker.ofName? type <;> simp [hnull, Option.filter, Tree.component?]

theorem strict_eq_binding (h : entries.names.Nodup) {type : String} (hname : type ≠ "")
    (hcovers : (entries.lookup type).isSome || (Marker.ofName? type).isSome) :
    resolve (.strict entries) (.text type) =
      resolve (.layered (.ofEntries (binding entries))) (.text type) := by
  have hstrict : resolve (.strict entries) (.text type) =
      resolve (.strict (binding entries)) (.text type) :=
    congrArg Except.ok (strictComponent_binding h type).symm
  have hnodup : (binding entries).names.Nodup := Members.nodup_names_filter h _
  rw [hstrict]
  apply strict_eq_layered hnodup hname
  · rw [lookup_binding h]
    cases hmarker : Marker.ofName? type with
    | some marker => simp
    | none =>
        rw [hmarker] at hcovers
        cases hlookup : entries.lookup type with
        | none => simp [hlookup] at hcovers
        | some entry => simp [Option.filter]
  · intro hmarker hnull
    rw [lookup_binding h] at hnull
    have hkept := (Option.filter_eq_some_iff.mp hnull).2
    obtain ⟨marker, hmarker⟩ := Option.ne_none_iff_exists'.mp hmarker
    simp [hmarker] at hkept

end Resolver

namespace Renderer

mutual
theorem render_congr (renderer : Renderer) {first second : Resolver} {test : Tree → Bool}
    (hsame : ∀ node type, test node = true → node.nodeType? = some type →
      first.resolve (.text type) = second.resolve (.text type))
    {t : Tree} (ht : t.everyNode test = true) :
    ({ renderer with resolver := first } : Renderer).render t =
      ({ renderer with resolver := second } : Renderer).render t := by
  cases t with
  | atom a => rw [render, render]
  | tuple items => rw [render, render]
  | array items => rw [render, render, renderAll_congr renderer hsame ht]
  | object members =>
      obtain ⟨htest, hbelow⟩ := Tree.everyNode_object.mp ht
      rw [render, render, renderBelow_congr renderer hsame hbelow]
      cases htype : (Tree.object members).nodeType? with
      | none => rfl
      | some type =>
          simp only [hsame _ type htest htype]
          rfl

theorem renderAll_congr (renderer : Renderer) {first second : Resolver} {test : Tree → Bool}
    (hsame : ∀ node type, test node = true → node.nodeType? = some type →
      first.resolve (.text type) = second.resolve (.text type))
    {items : List Tree} (hitems : Tree.everyItem test items = true) :
    ({ renderer with resolver := first } : Renderer).renderAll items =
      ({ renderer with resolver := second } : Renderer).renderAll items := by
  cases items with
  | nil => rfl
  | cons item rest =>
      rw [Tree.everyItem, Bool.and_eq_true] at hitems
      rw [renderAll, renderAll, render_congr renderer hsame hitems.1,
        renderAll_congr renderer hsame hitems.2]

theorem renderBelow_congr (renderer : Renderer) {first second : Resolver} {test : Tree → Bool}
    (hsame : ∀ node type, test node = true → node.nodeType? = some type →
      first.resolve (.text type) = second.resolve (.text type))
    {members : List (String × Tree)} (hmembers : Tree.everyChild test members = true) :
    ({ renderer with resolver := first } : Renderer).renderBelow members =
      ({ renderer with resolver := second } : Renderer).renderBelow members := by
  cases members with
  | nil => rfl
  | cons member rest =>
      obtain ⟨name, value⟩ := member
      rw [Tree.everyChild] at hmembers
      rw [renderBelow, renderBelow]
      split
      · next hname =>
          rw [if_pos hname] at hmembers
          rw [render_congr renderer hsame hmembers]
      · next hname =>
          rw [if_neg hname] at hmembers
          exact renderBelow_congr renderer hsame hmembers
end

theorem render_of_unresolved {renderer : Renderer} {node : Tree} {type : String}
    (htype : node.nodeType? = some type)
    (hresolve : renderer.resolver.resolve (.text type) = .ok none) :
    renderer.render node = do
      Policy.report (.unknownComponent node type)
      return .nothing := by
  cases node with
  | object members =>
      rw [render]
      simp only [htype, hresolve]
      rfl
  | _ => cases htype

end Renderer

section

variable {entries : Members Tree}

/-- A mapping and the registry made of it give the same render of every tree whose types are keys or
built-in names, but for entries that map a built-in name to null: the mapping renders as if these were
not there.  An ordinary name that is mapped to null is blocked in both. -/
theorem Renderer.render_strict_eq_layered (renderer : Renderer) (h : entries.names.Nodup) {t : Tree}
    (hcovers : t.everyNode (Resolver.covers entries) = true) :
    ({ renderer with resolver := .strict entries } : Renderer).render t =
        ({ renderer with resolver := .layered (.ofEntries (Resolver.binding entries)) } :
          Renderer).render t ∧
      ((∀ marker : Marker, entries.lookup marker.name ≠ some .null) →
        ({ renderer with resolver := .strict entries } : Renderer).render t =
          ({ renderer with resolver := .layered (.ofEntries entries) } : Renderer).render t) ∧
      ∀ node type, node.nodeType? = some type → entries.lookup type = some .null →
        Marker.ofName? type = none →
        ({ renderer with resolver := .strict entries } : Renderer).render node =
            (do
              Policy.report (.unknownComponent node type)
              return .nothing) ∧
          ({ renderer with resolver := .layered (.ofEntries entries) } : Renderer).render node =
            (do
              Policy.report (.unknownComponent node type)
              return .nothing) := by
  have hcovered : ∀ node type, Resolver.covers entries node = true → node.nodeType? = some type →
      type ≠ "" ∧ ((entries.lookup type).isSome || (Marker.ofName? type).isSome) = true := by
    intro node type hnode htype
    rw [Resolver.covers, htype, Option.all_some] at hnode
    exact ⟨Tree.ne_empty_of_nodeType? htype, hnode⟩
  refine ⟨?_, ?_, ?_⟩
  · apply render_congr renderer _ hcovers
    intro node type hnode htype
    obtain ⟨hname, hkey⟩ := hcovered node type hnode htype
    exact Resolver.strict_eq_binding h hname hkey
  · intro hfree
    apply render_congr renderer _ hcovers
    intro node type hnode htype
    obtain ⟨hname, hkey⟩ := hcovered node type hnode htype
    apply Resolver.strict_eq_layered h hname hkey
    intro hmarker
    obtain ⟨marker, hmarker⟩ := Option.ne_none_iff_exists'.mp hmarker
    rw [Marker.name_of_ofName? hmarker]
    exact hfree marker
  · intro node type htype hblocked hordinary
    have hname := Tree.ne_empty_of_nodeType? htype
    have hstrict : Resolver.resolve (.strict entries) (.text type) = .ok none := by
      show Except.ok (Resolver.strictComponent entries type) = _
      rw [Resolver.strictComponent, hblocked, hordinary]
      rfl
    have hsame := Resolver.strict_eq_layered h hname (by simp [hblocked])
      fun hmarker => absurd hordinary hmarker
    exact ⟨render_of_unresolved htype hstrict,
      render_of_unresolved htype (hsame.symm.trans hstrict)⟩

end

def board : Tree :=
  .object [("type", .text "card"), ("children", .array [.object [("type", .text "script")],
    .object [("type", .text "Fragment"), ("children", .text "pin")]])]

theorem Renderer.render_strict_eq_layered_board :
    let entries : Members Tree := [("card", .text "section"), ("script", .null), ("Portal", .null)]
    entries.names.Nodup ∧ board.everyNode (Resolver.covers entries) = true ∧
      ({ resolver := .strict entries } : Renderer).render board =
        ({ resolver := .layered (.ofEntries (Resolver.binding entries)) } : Renderer).render board ∧
      ∃ after, ({ resolver := .strict entries } : Renderer).render board (.fresh .gather []) =
          .ok (.element (.text "section") [] [.leaf (.text "pin")] none) after ∧
        after.policy.recorded.map (·.message) = ["Unknown component type: script"] := by
  intro entries
  have hnodup : entries.names.Nodup := by decide
  have hcovers : board.everyNode (Resolver.covers entries) = true := by decide
  exact ⟨hnodup, hcovers, (Renderer.render_strict_eq_layered {} hnodup hcovers).1, _, rfl, rfl⟩

/-- A mapping that maps a built-in name to null renders it all the same, while the registry made of it
blocks the name. -/
theorem Renderer.render_null_marker :
    ¬ ∀ (renderer : Renderer) (entries : Members Tree) (t : Tree), entries.names.Nodup →
      t.everyNode (Resolver.covers entries) = true →
      ({ renderer with resolver := .strict entries } : Renderer).render t =
        ({ renderer with resolver := .layered (.ofEntries entries) } : Renderer).render t := by
  intro hall
  have hsame := congrFun (hall {} [("Fragment", .null)]
    (.object [("type", .text "Fragment"), ("children", .array [.text "x"])]) (by decide) (by decide))
    (.fresh .gather [])
  cases hsame

end ViewTree
