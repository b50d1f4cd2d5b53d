import ViewTree.Proofs.Transform.Refilling

/-!
Visits that are to be made.  Errands that are posted lie apart from each other and from the places
that hold their nodes, so one visit does not stand in the way of the next, whichever comes first.
-/

namespace ViewTree

open Store (Cell Plot)

/-- A visit that is to be made: to a plot, with the type of its parent and its depth. -/
structure Errand extends Store.Plot where
  type : Option String
  depth : Nat

namespace Errand

def entry (errand : Errand) : Slot × Nat := (errand.slot, errand.depth)

def stand (errand : Errand) : Stand := errand.slot.stand errand.depth

def revision (errand : Errand) (rules : Rules) : Except Failure Tree :=
  rules.revision errand.type errand.depth errand.tree errand.slot.index

/-- The cells of the nodes to be visited. -/
def ground (errands : List Errand) : List Cell :=
  errands.flatMap fun errand => errand.cells

def places (errands : List Errand) : List Place :=
  errands.map fun errand => errand.slot.place

@[simp] theorem ground_cons (errand : Errand) (errands : List Errand) :
    ground (errand :: errands) = errand.cells ++ ground errands := rfl

@[simp] theorem ground_append (errands others : List Errand) :
    ground (errands ++ others) = ground errands ++ ground others := by
  simp [ground]

def each (type : Option String) (depth : Nat) (plots : List Store.Plot) : List Errand :=
  plots.map fun plot => ⟨plot, type, depth⟩

theorem ground_each (type : Option String) (depth : Nat) (plots : List Store.Plot) :
    ground (each type depth plots) = Store.area plots := by
  simp only [ground, each, List.flatMap_map, Store.area]

theorem places_each (type : Option String) (depth : Nat) (plots : List Store.Plot) :
    places (each type depth plots) = (plots.map Store.Plot.slot).map Slot.place := by
  rw [places, each, List.map_map, List.map_map]
  rfl

theorem mem_ground {errands : List Errand} {errand : Errand} (h : errand ∈ errands) :
    ∀ cell ∈ errand.cells, cell ∈ ground errands :=
  fun _ hcell => List.mem_flatMap.mpr ⟨errand, h, hcell⟩

end Errand

open Errand (ground places)

namespace Store

/-- Visits can be made in any order. -/
structure Posted (s : Store) (errands : List Errand) : Prop where
  shows : ∀ errand ∈ errands, s.Shows errand.tree errand.slot.node errand.cells
  nodes : ∀ errand ∈ errands, ∀ ref, errand.slot.node ≠ .array ref
  holds : ∀ errand ∈ errands, s.at? errand.slot.place = some errand.slot.node
  child : ∀ errand ∈ errands, errand.slot.place.IsChild
  named : ∀ errand ∈ errands, s.Named errand.slot.parent errand.type
  apart : ∀ errand ∈ errands, errand.slot.place.cell ∉ ground errands
  above : ∀ errand ∈ errands, ∀ ref, errand.slot.parent = some ref → .object ref ∉ ground errands
  distinct : (places errands).Nodup
  nodup : (ground errands).Nodup

variable {s after : Store} {errand : Errand} {errands others rest below : List Errand}

theorem Held.posted {slot : Slot} {type : Option String} {t : Tree} {cells : List Cell}
    (h : s.Held slot type t cells) (harray : t.isArray = false) (hchild : slot.place.IsChild)
    (hnodup : cells.Nodup) (depth : Nat) : s.Posted [⟨⟨slot, t, cells⟩, type, depth⟩] := by
  have hground : ground [⟨⟨slot, t, cells⟩, type, depth⟩] = cells := List.append_nil cells
  refine ⟨?_, ?_, ?_, ?_, ?_, ?_, ?_, List.nodup_singleton _, hground.symm ▸ hnodup⟩
  · exact List.forall_mem_singleton.mpr h.shows
  · exact List.forall_mem_singleton.mpr (h.shows.ne_array harray)
  · exact List.forall_mem_singleton.mpr h.place
  · exact List.forall_mem_singleton.mpr hchild
  · exact List.forall_mem_singleton.mpr h.named
  · exact List.forall_mem_singleton.mpr (hground.symm ▸ h.apart)
  · exact List.forall_mem_singleton.mpr (hground.symm ▸ h.above)

theorem Posted.held (h : s.Posted errands) (herrand : errand ∈ errands) :
    s.Held errand.slot errand.type errand.tree errand.cells where
  shows := h.shows errand herrand
  place := h.holds errand herrand
  apart := fun hmem => h.apart errand herrand (Errand.mem_ground herrand _ hmem)
  named := h.named errand herrand
  above := fun ref href hmem => h.above errand herrand ref href (Errand.mem_ground herrand _ hmem)

theorem Posted.isArray (h : s.Posted errands) (herrand : errand ∈ errands) :
    errand.tree.isArray = false := by
  obtain ⟨⟨slot, tree, cells⟩, type, depth⟩ := errand
  have hshows := h.shows _ herrand
  have hnode := h.nodes _ herrand
  obtain ⟨node, parent, index, place⟩ := slot
  cases hshows with
  | @array trees ref => exact absurd rfl (hnode ref)
  | _ => rfl

theorem Posted.sublist (h : s.Posted errands) (hsub : others.Sublist errands) :
    s.Posted others := by
  have hground : (ground others).Sublist (ground errands) := hsub.flatMap _
  exact
    { shows := fun other hother => h.shows other (hsub.subset hother)
      nodes := fun other hother => h.nodes other (hsub.subset hother)
      holds := fun other hother => h.holds other (hsub.subset hother)
      child := fun other hother => h.child other (hsub.subset hother)
      named := fun other hother => h.named other (hsub.subset hother)
      apart := fun other hother hmem => h.apart other (hsub.subset hother) (hground.subset hmem)
      above := fun other hother ref href hmem =>
        h.above other (hsub.subset hother) ref href (hground.subset hmem)
      distinct := h.distinct.sublist (hsub.map _)
      nodup := h.nodup.sublist hground }

theorem Posted.perm (h : s.Posted errands) (hperm : errands.Perm others) : s.Posted others := by
  have hground : (ground errands).Perm (ground others) := hperm.flatMap_right _
  have hmem : ∀ {other}, other ∈ others → other ∈ errands := fun hother => hperm.mem_iff.mpr hother
  exact
    { shows := fun other hother => h.shows other (hmem hother)
      nodes := fun other hother => h.nodes other (hmem hother)
      holds := fun other hother => h.holds other (hmem hother)
      child := fun other hother => h.child other (hmem hother)
      named := fun other hother => h.named other (hmem hother)
      apart := fun other hother hcell =>
        h.apart other (hmem hother) (hground.mem_iff.mpr hcell)
      above := fun other hother ref href hcell =>
        h.above other (hmem hother) ref href (hground.mem_iff.mpr hcell)
      distinct := (hperm.map _).nodup h.distinct
      nodup := hground.nodup h.nodup }

theorem Posted.rewritten (h : s.Posted (errand :: rest)) {written : List Place}
    (hwritten : ∀ place ∈ written, place = errand.slot.place)
    (hrewrites : s.Rewrites written errand.cells after) : after.Posted rest := by
  have hcells : ∀ cell ∈ errand.cells, cell ∈ ground (errand :: rest) :=
    Errand.mem_ground List.mem_cons_self
  have hself := h.apart errand List.mem_cons_self
  have hnodup := h.nodup
  rw [Errand.ground_cons] at hnodup hself
  have hdisjoint := (List.nodup_append.mp hnodup).2.2
  have hrest := h.sublist (List.sublist_cons_self errand rest)
  refine { hrest with shows := ?_, holds := ?_, named := ?_ }
  · intro other hother
    refine hrewrites.shows (hrest.shows other hother) (fun cell hcell hmem => ?_)
      (fun place hplace hmem => ?_)
    · exact hdisjoint cell hmem cell (Errand.mem_ground hother cell hcell) rfl
    · rw [hwritten place hplace] at hmem
      exact hself (List.mem_append_right _ (Errand.mem_ground hother _ hmem))
  · intro other hother
    have hat := hrest.holds other hother
    have hcell := h.apart other (List.mem_cons_of_mem _ hother)
    refine (hrewrites.at? (hrest.child other hother) (contains_of_at? hat)
      (fun hmem => hcell (hcells _ hmem)) fun hplace => ?_).trans hat
    refine (List.nodup_cons.mp h.distinct).1 (List.mem_map.mpr ⟨other, hother, ?_⟩)
    exact hwritten _ hplace
  · intro other hother
    have hnamed := hrest.named other hother
    have habove := h.above other (List.mem_cons_of_mem _ hother)
    generalize other.slot.parent = parent at hnamed habove
    generalize other.type = type at hnamed
    cases hnamed with
    | none => exact .none
    | @some ref name hlookup =>
        have has : s.Contains (.object ref) := Named.contains (.some hlookup)
        refine .some ?_
        rw [hrewrites.lookup has (fun hmem => habove ref rfl (hcells _ hmem)) (by decide)]
        exact hlookup

theorem Posted.extended (h : s.Posted errands) (hextends : s.Extends after) :
    after.Posted errands :=
  { h with
    shows := fun _ hother => hextends.shows (h.shows _ hother)
    holds := fun _ hother => ((h.held hother).extends hextends).place
    named := fun _ hother => (h.named _ hother).extends hextends }

end Store

end ViewTree
