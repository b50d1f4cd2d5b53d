import ViewTree.Proofs.Visitor.Watching

/-!
Records of a walk.  A record has the shape of an outline and says of each node which phases were run
at it and what came of them.  The notices of a walk are listed from its records.
-/

namespace ViewTree

/-- What was done at a node. -/
structure Visit where
  stand : Stand
  /-- Whether the enter phase replaced the node, and whether it left the latch set. -/
  entered : Option (Bool × Bool) := none
  asked : Option Bool := none
  left : Bool := false

namespace Visit

def entering (visit : Visit) : List Notice :=
  match visit.entered with
  | some (replaced, skipping) => [.enter visit.stand, .entered visit.stand replaced skipping]
  | none => []

def asking (visit : Visit) : List Notice :=
  match visit.asked with
  | some cut => [.asked visit.stand cut]
  | none => []

def leaving (visit : Visit) : List Notice :=
  if visit.left then [.exit visit.stand] else []

/-- Whether a visit keeps a walk from what lies below the node: in post-order only the question
about descent does. -/
def Bars (order : Order) (visit : Visit) : Prop :=
  match order with
  | .postOrder => visit.asked = some true
  | .preOrder | .breadthFirst =>
    (∃ skipping, visit.entered = some (true, skipping)) ∨
      (∃ replaced, visit.entered = some (replaced, true)) ∨ visit.asked = some true

/-- What is done at a node, once it is settled whether the walk gets there. -/
structure Lawful (order : Order) (prunes : Bool) (reached top : Prop) (visit : Visit) : Prop where
  entered : visit.entered.isSome = true ↔ reached
  left : visit.left = true ↔ (∃ skipping, visit.entered = some (false, skipping)) ∧
    (order ≠ .breadthFirst ∨ top ∧ ∃ a, visit.stand.node = .atom a)
  asked : visit.asked.isSome = true ↔ reached ∧ prunes = true ∧
    (∃ ref, visit.stand.node = .object ref) ∧
    (order = .postOrder ∨ visit.entered = some (false, false))

def blank (stand : Stand) : Visit :=
  { stand := stand }

theorem blank_lawful (order : Order) (prunes : Bool) {reached : Prop} (h : ¬ reached) (top : Prop)
    (stand : Stand) : (blank stand).Lawful order prunes reached top := by
  constructor <;> simp [blank, h]

theorem Lawful.congr {order : Order} {prunes : Bool} {reached other top first : Prop}
    {visit : Visit} (h : visit.Lawful order prunes reached top) (hreached : reached ↔ other)
    (htop : top ↔ first) : visit.Lawful order prunes other first := by
  rwa [propext hreached, propext htop] at h

end Visit

namespace Rose

mutual
def map (f : α → β) : Rose α → Rose β
  | .mk value below => .mk (f value) (mapAll f below)

def mapAll (f : α → β) : List (Rose α) → List (Rose β)
  | [] => []
  | rose :: rest => rose.map f :: mapAll f rest
end

mutual
def preNotices : Rose Visit → List Notice
  | .mk visit below => visit.entering ++ visit.asking ++ preNoticesAll below ++ visit.leaving

def preNoticesAll : List (Rose Visit) → List Notice
  | [] => []
  | rose :: rest => rose.preNotices ++ preNoticesAll rest
end

mutual
def postNotices : Rose Visit → List Notice
  | .mk visit below => visit.asking ++ postNoticesAll below ++ visit.entering ++ visit.leaving

def postNoticesAll : List (Rose Visit) → List Notice
  | [] => []
  | rose :: rest => rose.postNotices ++ postNoticesAll rest
end

/-- A value lies in a rose, under the values above it. -/
inductive Holds : Rose α → List α → α → Prop
  | top (value : α) (below : List (Rose α)) : Holds (.mk value below) [] value
  | inner {rose : Rose α} {above : List α} {value : α} (top : α) {below : List (Rose α)}
      (hrose : rose ∈ below) (h : Holds rose above value) :
      Holds (.mk top below) (top :: above) value

/-- All visits are lawful: what lies below a node is reached if the node is and does not bar it. -/
inductive Lawful (order : Order) (prunes : Bool) : Prop → Prop → Rose Visit → Prop
  | mk {reached top : Prop} {visit : Visit} {below : List (Rose Visit)}
      (hvisit : visit.Lawful order prunes reached top)
      (hbelow : ∀ rose ∈ below, Lawful order prunes (reached ∧ ¬ visit.Bars order) False rose) :
      Lawful order prunes reached top (.mk visit below)

mutual
theorem induct {motive : Rose α → Prop}
    (mk : ∀ value below, (∀ rose ∈ below, motive rose) → motive (.mk value below)) :
    ∀ rose, motive rose
  | .mk value below => mk value below (inductAll mk below)

theorem inductAll {motive : Rose α → Prop}
    (mk : ∀ value below, (∀ rose ∈ below, motive rose) → motive (.mk value below)) :
    ∀ roses : List (Rose α), ∀ rose ∈ roses, motive rose
  | [] => by simp
  | first :: rest => List.forall_mem_cons.mpr ⟨induct mk first, inductAll mk rest⟩
end

theorem mapAll_eq (f : α → β) (roses : List (Rose α)) : mapAll f roses = roses.map (map f) := by
  induction roses with
  | nil => rfl
  | cons rose rest ih => rw [mapAll, ih, List.map_cons]

theorem map_mk (f : α → β) (value : α) (below : List (Rose α)) :
    (mk value below).map f = .mk (f value) (below.map (map f)) := by
  rw [map, mapAll_eq]

theorem preNoticesAll_eq (roses : List (Rose Visit)) :
    preNoticesAll roses = roses.flatMap preNotices := by
  induction roses with
  | nil => rfl
  | cons rose rest ih => rw [preNoticesAll, ih, List.flatMap_cons]

theorem postNoticesAll_eq (roses : List (Rose Visit)) :
    postNoticesAll roses = roses.flatMap postNotices := by
  induction roses with
  | nil => rfl
  | cons rose rest ih => rw [postNoticesAll, ih, List.flatMap_cons]

theorem map_stand_blank (rose : Rose Stand) : (rose.map Visit.blank).map Visit.stand = rose := by
  induction rose using induct with
  | mk stand below ih =>
      rw [map_mk, map_mk, List.map_map]
      exact congrArg _ ((List.map_congr_left ih).trans (List.map_id below))

theorem preNotices_blank (rose : Rose Stand) : (rose.map Visit.blank).preNotices = [] := by
  induction rose using induct with
  | mk stand below ih =>
      have hbelow : (below.map (map Visit.blank)).flatMap preNotices = [] := by
        rw [List.flatMap_map]
        exact List.flatMap_eq_nil_iff.mpr ih
      rw [map_mk, preNotices, preNoticesAll_eq, hbelow]
      rfl

theorem postNotices_blank (rose : Rose Stand) : (rose.map Visit.blank).postNotices = [] := by
  induction rose using induct with
  | mk stand below ih =>
      have hbelow : (below.map (map Visit.blank)).flatMap postNotices = [] := by
        rw [List.flatMap_map]
        exact List.flatMap_eq_nil_iff.mpr ih
      rw [map_mk, postNotices, postNoticesAll_eq, hbelow]
      rfl

theorem blank_lawful (order : Order) (prunes : Bool) (rose : Rose Stand) :
    ∀ {reached : Prop}, ¬ reached → ∀ top,
      (rose.map Visit.blank).Lawful order prunes reached top := by
  induction rose using induct with
  | mk stand below ih =>
      intro reached hreached top
      rw [map_mk]
      refine .mk (Visit.blank_lawful order prunes hreached top stand) fun rose hrose => ?_
      obtain ⟨outline, houtline, rfl⟩ := List.mem_map.mp hrose
      exact ih outline houtline (fun h => hreached h.1) False

theorem Lawful.visit {order : Order} {prunes : Bool} {reached top : Prop} {rose : Rose Visit}
    (h : rose.Lawful order prunes reached top) {above : List Visit} {visit : Visit}
    (hholds : rose.Holds above visit) :
    visit.Lawful order prunes (reached ∧ ∀ other ∈ above, ¬ other.Bars order)
      (top ∧ above = []) := by
  induction hholds generalizing reached top with
  | top value below =>
      cases h with
      | mk hvisit hbelow => exact hvisit.congr (by simp) (by simp)
  | inner value hrose _ ih =>
      cases h with
      | mk hvisit hbelow =>
          refine (ih (hbelow _ hrose)).congr ?_ (by simp)
          rw [List.forall_mem_cons, and_assoc]

end Rose

end ViewTree
