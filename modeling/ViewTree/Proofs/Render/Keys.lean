import ViewTree.Proofs.Render.Flattening
import ViewTree.Proofs.Render.Policies
import ViewTree.Proofs.Render.Outcome

namespace ViewTree

theorem Members.names_remove (name : String) (members : Members α) :
    (members.remove name).names = members.names.filter (· ≠ name) := by
  rw [names, names, remove, List.filter_map]
  rfl

theorem Members.remove_remove (name : String) (members : Members α) :
    remove name (members.remove name) = members.remove name := by
  rw [remove, remove, List.filter_filter]
  simp only [Bool.and_self]

theorem Roster.bind_remove (roster : Roster) (asText : α → Option String) (ofAtom : Atom → α)
    (name : String) (members : Members α) :
    roster.bind asText ofAtom (members.remove name) =
      (roster.bind asText ofAtom members).remove name := by
  rw [bind, bind, Members.remove, Members.remove, List.filter_map]
  rfl

theorem Roster.misses_remove (roster : Roster) (node other : Tree) {name : String}
    {props : Members Tree}
    (h : ∀ value, (name, value) ∈ props → roster.missing? name value.text? = none) :
    (roster.misses other (props.remove name)).map (Diagnostic.mapNode fun _ => ()) =
      (roster.misses node props).map (Diagnostic.mapNode fun _ => ()) := by
  induction props with
  | nil => rfl
  | cons member rest ih =>
      obtain ⟨first, value⟩ := member
      have hrest := ih fun value hvalue => h value (List.mem_cons_of_mem _ hvalue)
      by_cases hfirst : first = name
      · subst hfirst
        have hdropped : Members.remove first ((first, value) :: rest) = Members.remove first rest := by
          simp [Members.remove]
        have hnone := h value List.mem_cons_self
        rw [hdropped, hrest, misses, misses, List.flatMap_cons, hnone]
        rfl
      · have hstays : Members.remove name ((first, value) :: rest) =
            (first, value) :: Members.remove name rest := by
          simp [Members.remove, hfirst]
        rw [misses, misses] at hrest
        rw [hstays, misses, misses, List.flatMap_cons, List.flatMap_cons, List.map_append,
          List.map_append, hrest]
        congr 1
        cases roster.missing? first value.text? <;> rfl

namespace Tree

/-- The first candidate that is neither null nor the empty text. -/
def firstKey (candidates : List Tree) : Option Tree :=
  candidates.find? fun candidate => candidate ≠ null ∧ candidate ≠ text ""

theorem firstKey_append (candidates more : List Tree) :
    firstKey (candidates ++ more) = (firstKey candidates).or (firstKey more) :=
  List.find?_append

theorem firstKey_null_cons (candidates : List Tree) :
    firstKey (null :: candidates) = firstKey candidates :=
  List.find?_cons_of_neg (by simp)

theorem firstKey_moved {key id : Tree} (h : firstKey [key, id] = none) (value other : Tree) :
    firstKey ([value, id] ++ [other]) = firstKey ([key, id] ++ [value, other]) := by
  have hid : firstKey [id] = none := by
    have hparts : firstKey ([key] ++ [id]) = none := h
    rw [firstKey_append, Option.or_eq_none_iff] at hparts
    exact hparts.2
  calc firstKey ([value] ++ ([id] ++ [other]))
      = firstKey ([value] ++ [other]) := by
        rw [firstKey_append, firstKey_append [id], hid, Option.none_or, ← firstKey_append]
    _ = firstKey ([key, id] ++ ([value] ++ [other])) := by
        rw [firstKey_append [key, id], h, Option.none_or]

def dropProp (name : String) (members : Members Tree) : Members Tree :=
  match members.lookup "props" with
  | some (.object props) => members.put "props" (.object (Members.remove name props))
  | _ => members

theorem lookup_dropProp {other : String} (h : other ≠ "props") (name : String)
    (members : Members Tree) : (dropProp name members).lookup other = members.lookup other := by
  unfold dropProp
  split
  · exact Members.lookup_put_of_ne h _ members
  · rfl

theorem member_dropProp {other : String} (h : other ≠ "props") (name : String)
    (members : Members Tree) :
    (object (dropProp name members)).member other = (object members).member other := by
  rw [member, member, lookup_dropProp h]

theorem props_dropProp (name : String) (members : Members Tree) :
    (object (dropProp name members)).props = (object members).props.remove name := by
  unfold dropProp
  split
  · next given hgiven =>
      rw [props, props, member, member, Members.lookup_put_self, hgiven]
      rfl
  · next hgiven =>
      have hnone : (object members).props = [] := by
        rw [props, member]
        cases hlookup : members.lookup "props" with
        | none => rfl
        | some value =>
            cases value with
            | object given => exact absurd hlookup (hgiven given)
            | _ => rfl
      rw [hnone]
      rfl

theorem fitsProps_dropProp (name : String) {members : Members Tree}
    (h : ((object members).member "props").fitsProps = true) :
    ((object (dropProp name members)).member "props").fitsProps = true := by
  unfold dropProp
  split
  · rw [member, Members.lookup_put_self]
    rfl
  · exact h

end Tree

namespace Rendering

/-- A render comes to this result on every desk, unless the policy refuses a report on the way. -/
def ComesTo (rendering : Rendering α) (result : Except Failure α) : Prop :=
  ∀ desk, (∃ after, rendering desk = Renderer.ofExcept result after) ∨
    ∃ failure after, rendering desk = .error failure after ∧
      desk.policy.handling.Refuses failure after

variable {rendering first second : Rendering α} {told more : List (Diagnostic Tree)}
  {result : Except Failure α}

theorem Replays.comesTo (h : Replays rendering told result) : rendering.ComesTo result := by
  intro desk
  unfold Replays at h
  rw [h, Walk.bind_apply]
  rcases Policy.forM_report_or_refused told desk with ⟨after, htold⟩ | ⟨failure, after, htold, hrefused⟩
  · rw [htold]
    exact .inl ⟨after, rfl⟩
  · rw [htold]
    exact .inr ⟨failure, after, rfl, hrefused⟩

theorem ComesTo.of_patient (h : rendering.ComesTo result) (desk : Desk Tree)
    (hfast : desk.policy.handling ≠ .failFast)
    (hlimit : ∀ limit verbose, desk.policy.handling ≠ .threshold limit verbose) :
    ∃ after, rendering desk = Renderer.ofExcept result after := by
  rcases h desk with hresult | ⟨failure, after, -, hrefused⟩
  · exact hresult
  · rcases Handling.refuses_only hrefused with hhandling | ⟨limit, verbose, hhandling⟩
    · exact absurd hhandling hfast
    · exact absurd hhandling (hlimit limit verbose)

theorem ComesTo.unique {other : Except Failure α} (h : rendering.ComesTo result)
    (hother : rendering.ComesTo other) : result = other := by
  obtain ⟨after, hafter⟩ := h.of_patient (.fresh .gather []) nofun fun _ _ => nofun
  obtain ⟨last, hlast⟩ := hother.of_patient (.fresh .gather []) nofun fun _ _ => nofun
  rw [hafter] at hlast
  cases result with
  | ok value =>
      cases other with
      | ok value => cases hlast; rfl
      | error failure => cases hlast
  | error failure =>
      cases other with
      | ok value => cases hlast
      | error failure => cases hlast; rfl

theorem Alike.forM_report
    (h : told.map (Diagnostic.mapNode fun _ => ()) = more.map (Diagnostic.mapNode fun _ => ())) :
    Alike (told.forM Policy.report) (more.forM Policy.report) := by
  induction told generalizing more with
  | nil =>
      obtain rfl : more = [] := List.map_eq_nil_iff.mp h.symm
      exact .pure _
  | cons diagnostic rest ih =>
      cases more with
      | nil => cases h
      | cons other others =>
          obtain ⟨hfirst, hrest⟩ := List.cons.inj h
          exact (Alike.report hfirst).bind fun _ => ih hrest

theorem Replays.alike (hfirst : Replays first told result) (hsecond : Replays second more result)
    (h : told.map (Diagnostic.mapNode fun _ => ()) = more.map (Diagnostic.mapNode fun _ => ())) :
    Alike first second := by
  unfold Replays at hfirst hsecond
  rw [hfirst, hsecond]
  exact (Alike.forM_report h).bind fun _ => .ofExcept result

end Rendering

namespace Renderer

open Rendering (Replays Alike)

variable {renderer : Renderer} {members : Members Tree} {component : Tree}

theorem isKey_eq (t : Tree) : isKey t = decide (t ≠ .null ∧ t ≠ .text "") := by
  cases t with
  | atom a =>
      cases a <;> simp [isKey, Tree.isNull, Tree.null, Tree.text, Tree.agrees, Atom.agrees,
        Atom.integer?]
  | _ => simp [isKey, Tree.isNull, Tree.null, Tree.text, Tree.agrees]

theorem findSome?_isKey (given : List (Option Tree)) :
    given.findSome? (Option.filter isKey) = Tree.firstKey (given.map (·.getD .null)) := by
  induction given with
  | nil => rfl
  | cons candidate rest ih =>
      rw [Tree.firstKey] at ih ⊢
      rw [List.findSome?_cons, List.map_cons, List.find?_cons, ih, ← isKey_eq]
      cases candidate with
      | none => rfl
      | some value =>
          rw [Option.filter_some, Option.getD_some]
          cases isKey value <;> rfl

theorem keyOf_eq_firstKey (members props : Members Tree) :
    keyOf members props = Tree.firstKey [(Tree.object members).member "key",
      (Tree.object members).member "id", (Tree.object props).member "key",
      (Tree.object props).member "id"] :=
  findSome?_isKey _

theorem renderBelow_eq_renderChildren (members : Members Tree) :
    renderer.renderBelow members =
      renderer.renderChildren ((Tree.object members).member "children") := by
  induction members with
  | nil => rfl
  | cons member rest ih =>
      obtain ⟨name, value⟩ := member
      rw [renderBelow]
      by_cases hname : name = "children"
      · subst hname
        rw [if_pos rfl, Tree.member, List.lookup_cons_self, Option.getD_some, renderChildren,
          map_eq_pure_bind]
      · rw [if_neg hname, ih, Tree.member, Tree.member, List.lookup_cons,
          beq_eq_false_iff_ne.mpr (Ne.symm hname)]

theorem render_element_replays (h : renderer.IsFit)
    (hcomponent : renderer.component? (.object members) = some component)
    (hplain : ∀ marker : Marker, component ≠ marker.component)
    (hprops : ((Tree.object members).member "props").fitsProps = true)
    {told : List (Diagnostic Tree)} {below : Except Failure (List Output)}
    (hbelow : Replays (renderer.renderBelow members) told below) :
    Replays (renderer.render (.object members))
      (renderer.roster.misses (.object members) (Tree.object members).props ++ told)
      (below.map fun children =>
        .element component (Members.remove "key" (renderer.boundProps (.object members))) children
          (keyOf members (renderer.boundProps (.object members)))) := by
  obtain ⟨type, htype, hfound⟩ := Option.bind_eq_some_iff.mp hcomponent
  have hbuild : ∀ children, renderer.build (.object members) component
      (Members.remove "key" (renderer.boundProps (.object members))) children
      (keyOf members (renderer.boundProps (.object members))) =
        pure (.element component (Members.remove "key" (renderer.boundProps (.object members)))
          children (keyOf members (renderer.boundProps (.object members)))) := by
    intro children
    unfold build
    split
    · exact absurd rfl (hplain .fragment)
    · exact absurd rfl (hplain .portal)
    · rfl
  rw [render]
  simp only [htype, Resolver.resolve_text h.resolver, hfound, ofExcept, pure_bind]
  apply (processProps_replays h hprops).bind
  simp only [hbuild]
  cases below with
  | error failure => exact hbelow.bind_error
  | ok children => exact hbelow.andPure _

/-- Only the props and the key of a node count for what becomes of it and not of its children. -/
theorem render_element_replays_of_same (h : renderer.IsFit) {others : Members Tree}
    (hsame : ∀ name, name ≠ "key" → name ≠ "props" → others.lookup name = members.lookup name)
    (hcomponent : renderer.component? (.object members) = some component)
    (hplain : ∀ marker : Marker, component ≠ marker.component)
    (hprops : ((Tree.object others).member "props").fitsProps = true)
    {told : List (Diagnostic Tree)} {below : Except Failure (List Output)}
    (hbelow : Replays (renderer.renderBelow members) told below) :
    Replays (renderer.render (.object others))
      (renderer.roster.misses (.object others) (Tree.object others).props ++ told)
      (below.map fun children =>
        .element component (Members.remove "key" (renderer.boundProps (.object others))) children
          (keyOf others (renderer.boundProps (.object others)))) := by
  have hother : renderer.component? (.object others) = some component := by
    rw [← hcomponent, component?, component?, Tree.nodeType?, Tree.nodeType?, Members.nodeType?,
      Members.nodeType?, hsame "type" (by decide) (by decide)]
  apply render_element_replays h hother hplain hprops
  rwa [renderBelow_eq_renderChildren, Tree.member, hsame "children" (by decide) (by decide),
    ← Tree.member, ← renderBelow_eq_renderChildren]

theorem keyOf_remove (members props : Members Tree) :
    keyOf members (Members.remove "key" props) =
      Tree.firstKey ([(Tree.object members).member "key", (Tree.object members).member "id"] ++
        [(Tree.object props).member "id"]) := by
  have hkey : (Tree.object (Members.remove "key" props)).member "key" = .null := by
    rw [Tree.member, Members.lookup_remove_self]
    rfl
  have hid : (Tree.object (Members.remove "key" props)).member "id" =
      (Tree.object props).member "id" := by
    rw [Tree.member, Tree.member, Members.lookup_remove_of_ne (by decide)]
  calc keyOf members (Members.remove "key" props)
      = Tree.firstKey ([(Tree.object members).member "key", (Tree.object members).member "id"] ++
          [.null, (Tree.object props).member "id"]) := by
        rw [keyOf_eq_firstKey, hkey, hid]
        rfl
    _ = _ := by rw [Tree.firstKey_append, Tree.firstKey_null_cons, ← Tree.firstKey_append]

/-- A node that only has another key and no key among its props: what it gives for a key counts
first, and of its props the id is left. -/
theorem render_without_key_replays (h : renderer.IsFit) {others : Members Tree}
    (hsame : ∀ name, name ≠ "key" → name ≠ "props" → others.lookup name = members.lookup name)
    (hothers : (Tree.object others).props = Members.remove "key" (Tree.object members).props)
    (hcomponent : renderer.component? (.object members) = some component)
    (hplain : ∀ marker : Marker, component ≠ marker.component)
    (hprops : ((Tree.object others).member "props").fitsProps = true)
    {told : List (Diagnostic Tree)} {below : Except Failure (List Output)}
    (hbelow : Replays (renderer.renderBelow members) told below) :
    Replays (renderer.render (.object others))
      (renderer.roster.misses (.object others) (Members.remove "key" (Tree.object members).props) ++
        told)
      (below.map (.element component (Members.remove "key" (renderer.boundProps (.object members))) ·
        (Tree.firstKey ([(Tree.object others).member "key", (Tree.object members).member "id"] ++
          [(Tree.object (renderer.boundProps (.object members))).member "id"])))) := by
  have hbound : renderer.boundProps (.object others) =
      Members.remove "key" (renderer.boundProps (.object members)) := by
    rw [boundProps, hothers, Roster.bind_remove]
    rfl
  have hid : (Tree.object others).member "id" = (Tree.object members).member "id" := by
    rw [Tree.member, Tree.member, hsame "id" (by decide) (by decide)]
  have hrendered := render_element_replays_of_same h hsame hcomponent hplain hprops hbelow
  rwa [hbound, Members.remove_remove, keyOf_remove, hothers, hid] at hrendered

theorem render_moved_key_replays (h : renderer.IsFit)
    (hcomponent : renderer.component? (.object members) = some component)
    (hplain : ∀ marker : Marker, component ≠ marker.component)
    (hprops : ((Tree.object members).member "props").fitsProps = true)
    (hnone : Tree.firstKey [(Tree.object members).member "key", (Tree.object members).member "id"] =
      none)
    {value : Tree} (hvalue : (renderer.boundProps (.object members)).lookup "key" = some value)
    {told : List (Diagnostic Tree)} {below : Except Failure (List Output)}
    (hbelow : Replays (renderer.renderBelow members) told below) :
    Replays (renderer.render (.object ((Tree.dropProp "key" members).put "key" value)))
      (renderer.roster.misses (.object ((Tree.dropProp "key" members).put "key" value))
        (Members.remove "key" (Tree.object members).props) ++ told)
      (below.map (.element component (Members.remove "key" (renderer.boundProps (.object members))) ·
        (keyOf members (renderer.boundProps (.object members))))) := by
  have hsame : ∀ name, name ≠ "key" → name ≠ "props" →
      ((Tree.dropProp "key" members).put "key" value).lookup name = members.lookup name := by
    intro name hkey hname
    rw [Members.lookup_put_of_ne hkey, Tree.lookup_dropProp hname]
  have hmember : (Tree.object ((Tree.dropProp "key" members).put "key" value)).member "props" =
      (Tree.object (Tree.dropProp "key" members)).member "props" := by
    rw [Tree.member, Tree.member, Members.lookup_put_of_ne (by decide)]
  have hothers : (Tree.object ((Tree.dropProp "key" members).put "key" value)).props =
      Members.remove "key" (Tree.object members).props := by
    rw [Tree.props, hmember, ← Tree.props, Tree.props_dropProp]
  have hfits : ((Tree.object ((Tree.dropProp "key" members).put "key" value)).member
      "props").fitsProps = true := by
    rw [hmember]
    exact Tree.fitsProps_dropProp "key" hprops
  have hfirst : (Tree.object (renderer.boundProps (.object members))).member "key" = value := by
    rw [Tree.member, hvalue, Option.getD_some]
  have hmoved := render_without_key_replays h hsame hothers hcomponent hplain hfits hbelow
  rw [Tree.member, Members.lookup_put_self, Option.getD_some, Tree.firstKey_moved hnone] at hmoved
  rw [keyOf_eq_firstKey, hfirst]
  exact hmoved

/-- An element has the props of its node, bound, in their order and without the key.  Its key is the
first of the node's key and id and the props' key and id that is neither null nor the empty text.
Without the key among the props it has the same props, and the same key if the node has a key or an
id of its own; if it has none, the key can as well stand at the node. -/
theorem render_element (h : renderer.IsFit)
    (hcomponent : renderer.component? (.object members) = some component)
    (hplain : ∀ marker : Marker, component ≠ marker.component)
    (hprops : ((Tree.object members).member "props").fitsProps = true) :
    let node := Tree.object members
    let bound := renderer.boundProps node
    let kept := Members.remove "key" bound
    let own := [node.member "key", node.member "id"]
    let key := Tree.firstKey
      (own ++ [(Tree.object bound).member "key", (Tree.object bound).member "id"])
    let dropped := Tree.dropProp "key" members
    kept.names = node.props.names.filter (· ≠ "key") ∧
    (∀ name ≠ "key", kept.names.count name = node.props.names.count name ∧
      kept.lookup name = bound.lookup name) ∧
    ∃ below, (renderer.renderChildren (node.member "children")).ComesTo below ∧
      (renderer.Fits node → below = .ok (renderer.outcomesBelow members)) ∧
      (renderer.render node).ComesTo (below.map (.element component kept · key)) ∧
      (renderer.render (.object dropped)).ComesTo (below.map
        (.element component kept · (Tree.firstKey (own ++ [(Tree.object bound).member "id"])))) ∧
      (∀ found, Tree.firstKey own = some found → key = some found ∧
        (renderer.render (.object dropped)).ComesTo
          (below.map (.element component kept · (some found)))) ∧
      (Tree.firstKey own = none → ∀ value, bound.lookup "key" = some value →
        (renderer.render (.object (dropped.put "key" value))).ComesTo
          (below.map (.element component kept · key)) ∧
        ((∀ given, ("key", given) ∈ node.props →
            renderer.roster.missing? "key" given.text? = none) →
          Rendering.Alike (renderer.render (.object (dropped.put "key" value)))
            (renderer.render node))) := by
  intro node bound kept own key dropped
  have hnames : kept.names = node.props.names.filter (· ≠ "key") := by
    rw [Members.names_remove]
    exact congrArg (List.filter _) (Roster.names_bind _ _ _ _)
  have hkey : keyOf members bound = key := keyOf_eq_firstKey members bound
  refine ⟨hnames, ?_, ?_⟩
  · intro name hname
    refine ⟨?_, Members.lookup_remove_of_ne hname bound⟩
    rw [hnames]
    exact List.count_filter (by simpa using hname)
  obtain ⟨told, below, hbelow⟩ := renderer.renderBelow_replayable members
  have hchildren : (renderer.renderChildren (node.member "children")).ComesTo below := by
    rw [← renderBelow_eq_renderChildren]
    exact hbelow.comesTo
  have hnode := render_element_replays h hcomponent hplain hprops hbelow
  rw [hkey] at hnode
  have hdropped := render_without_key_replays h
    (fun name _ hname => Tree.lookup_dropProp hname "key" members) (Tree.props_dropProp "key" members)
    hcomponent hplain (Tree.fitsProps_dropProp "key" hprops) hbelow
  rw [Tree.member_dropProp (by decide)] at hdropped
  refine ⟨below, hchildren, ?_, hnode.comesTo, hdropped.comesTo, ?_, ?_⟩
  · intro hfits
    have hoffered := renderBelow_replays h fun value => hfits.child hcomponent
    exact hbelow.comesTo.unique hoffered.comesTo
  · intro found hfound
    have hfirst : ∀ more, Tree.firstKey (own ++ more) = some found := by
      intro more
      rw [Tree.firstKey_append, hfound, Option.some_or]
    have hkept := hdropped.comesTo
    rw [hfirst] at hkept
    exact ⟨hfirst _, hkept⟩
  · intro hnone value hvalue
    have hmoved := render_moved_key_replays h hcomponent hplain hprops hnone hvalue hbelow
    rw [hkey] at hmoved
    refine ⟨hmoved.comesTo, ?_⟩
    intro hfound
    apply hmoved.alike hnode
    rw [List.map_append, List.map_append, Roster.misses_remove _ _ _ hfound]

def locksmith : Renderer :=
  { handlers := .object [("open", .atom (.callable "open"))], start := .text "k" }

def door : Members Tree :=
  [("type", .text "door"), ("key", .text ""), ("children", .text "bell"),
    ("props", .object [("kind", .text "oak"), ("key", .text "open"), ("id", .int 0)])]

theorem render_element_door :
    locksmith.IsFit ∧ locksmith.component? (.object door) = some (.text "door") ∧
      (∀ marker : Marker, Tree.text "door" ≠ marker.component) ∧
      ((Tree.object door).member "props").fitsProps = true ∧
      (locksmith.render (.object door)).ComesTo
        (.ok (.element (.text "door") [("kind", .text "oak"), ("id", .int 0)]
          [.leaf (.text "bell")] (some (.atom (.callable "open"))))) ∧
      (locksmith.render (.object (Tree.dropProp "key" door))).ComesTo
        (.ok (.element (.text "door") [("kind", .text "oak"), ("id", .int 0)]
          [.leaf (.text "bell")] (some (.int 0)))) ∧
      Rendering.Alike
        (locksmith.render (.object ((Tree.dropProp "key" door).put "key" (.atom (.callable "open")))))
        (locksmith.render (.object door)) := by
  have hfit : locksmith.IsFit := ⟨.inr ⟨_, rfl⟩, rfl, nofun⟩
  have hplain : ∀ marker : Marker, Tree.text "door" ≠ marker.component := by
    intro marker
    cases marker <;> decide
  have hcomponent : locksmith.component? (.object door) = some (.text "door") := rfl
  have hfits : locksmith.Fits (.object door) := fits_of_everyNode rfl
  obtain ⟨-, -, below, -, hbelow, hdoor, hdropped, -, hmoved⟩ :=
    render_element hfit hcomponent hplain rfl
  rw [hbelow hfits] at hdoor hdropped
  refine ⟨hfit, hcomponent, hplain, rfl, hdoor, hdropped, (hmoved rfl _ rfl).2 ?_⟩
  intro given hgiven
  have hlisted : ("key", given) ∈
      [("kind", Tree.text "oak"), ("key", .text "open"), ("id", .int 0)] := hgiven
  obtain rfl : given = .text "open" := by simpa using hlisted
  rfl

end Renderer

end ViewTree
