import Mathlib.Logic.Relation
import ViewTree.Proofs.Traverse.Showing
import ViewTree.Sample

/-!
Positions.  A step down leads from an array to one of its items, or from a structured node to what it has
as its children.  The positions that steps lead to from a root, arrays apart, are those a walk comes to,
and no two of them have the same path.
-/

namespace ViewTree

open Store (Cell)

theorem Tree.countBelow_eq_member (members : List (String × Tree)) :
    countBelow members = ((object members).member "children").countStructured := by
  rw [countBelow_eq, member]
  cases members.lookup "children" <;> rfl

inductive Step
  | item (index : Nat)
  | children

structure Position where
  /-- The steps from the root, the last one first. -/
  path : List Step
  /-- The structured nodes that were passed, the last one first. -/
  above : List ObjectRef
  node : Value

namespace Position

def top (root : Value) : Position :=
  ⟨[], [], root⟩

def item (position : Position) (index : Nat) (value : Value) : Position :=
  ⟨.item index :: position.path, position.above, value⟩

def children (position : Position) (ref : ObjectRef) (value : Value) : Position :=
  ⟨.children :: position.path, ref :: position.above, value⟩

def index (position : Position) : Nat :=
  match position.path with
  | .item index :: _ => index
  | _ => 0

/-- Where the node stands: how many structured nodes are above it, and which is the nearest.  At the top
level no index is counted. -/
def stand (position : Position) : Stand :=
  { node := position.node
    parent := position.above.head?
    depth := position.above.length
    index := if position.above.isEmpty then 0 else position.index }

end Position

/-- The stand of a slot below these nodes. -/
def Slot.standBelow (slot : Slot) (above : List ObjectRef) : Stand :=
  if above.isEmpty then Context.alone.stand slot.node else slot.stand above.length

theorem Position.standBelow (position : Position) (place : Place) :
    (Slot.mk position.node position.above.head? position.index place).standBelow position.above =
      position.stand := by
  obtain ⟨path, above, node⟩ := position
  cases above <;> rfl

namespace Store

inductive Below (s : Store) : Position → Position → Prop
  | item {position : Position} {ref : ArrayRef} {index : Nat} {value : Value}
      (hnode : position.node = .array ref) (hitem : (s.items ref)[index]? = some value) :
      Below s position (position.item index value)
  | children {position : Position} {ref : ObjectRef} (hnode : position.node = .object ref)
      (htype : (s.nodeType? (.object ref)).isSome = true)
      (hchildren : (s.member ref "children").isNull = false) :
      Below s position (position.children ref (s.member ref "children"))

def Reaches (s : Store) : Position → Position → Prop :=
  Relation.ReflTransGen s.Below

/-- The positions that are reached from one, arrays apart, within a number of steps. -/
def positionsTo (s : Store) : Nat → Position → List Position
  | 0, _ => []
  | level + 1, position =>
    match position.node with
    | .array ref => (s.items ref).zipIdx.flatMap fun (value, index) =>
        s.positionsTo level (position.item index value)
    | .object ref =>
      position ::
        if (s.nodeType? (.object ref)).isSome && !(s.member ref "children").isNull then
          s.positionsTo level (position.children ref (s.member ref "children"))
        else []
    | .atom _ | .tuple _ => [position]

variable {s : Store} {level : Nat} {position other : Position}

theorem positionsTo_array {ref : ArrayRef} (h : position.node = .array ref) :
    s.positionsTo (level + 1) position = (s.items ref).zipIdx.flatMap fun (value, index) =>
      s.positionsTo level (position.item index value) := by
  rw [positionsTo, h]

theorem positionsTo_object {ref : ObjectRef} (h : position.node = .object ref) :
    s.positionsTo (level + 1) position =
      position ::
        if (s.nodeType? (.object ref)).isSome && !(s.member ref "children").isNull then
          s.positionsTo level (position.children ref (s.member ref "children"))
        else [] := by
  rw [positionsTo, h]

theorem positionsTo_leaf (harray : ∀ ref, position.node ≠ .array ref)
    (hobject : ∀ ref, position.node ≠ .object ref) :
    s.positionsTo (level + 1) position = [position] := by
  rw [positionsTo]
  split
  · next ref hnode => exact absurd hnode (harray ref)
  · next ref hnode => exact absurd hnode (hobject ref)
  · rfl
  · rfl

theorem Below.suffix (h : s.Below position other) : ∃ step, other.path = step :: position.path := by
  cases h with
  | item => exact ⟨_, rfl⟩
  | children => exact ⟨_, rfl⟩

theorem Reaches.suffix (h : s.Reaches position other) : position.path <:+ other.path := by
  induction h with
  | refl => exact List.suffix_rfl
  | tail _ hbelow ih =>
      obtain ⟨step, hstep⟩ := hbelow.suffix
      exact hstep ▸ ih.trans (List.suffix_cons _ _)

theorem reaches_array_iff {ref : ArrayRef} (h : position.node = .array ref)
    (hother : ∀ ref, other.node ≠ .array ref) :
    s.Reaches position other ↔ ∃ index value, (s.items ref)[index]? = some value ∧
      s.Reaches (position.item index value) other := by
  rw [Reaches, Relation.ReflTransGen.cases_head_iff]
  constructor
  · rintro (rfl | ⟨next, hbelow, hreaches⟩)
    · exact absurd h (hother ref)
    · cases hbelow with
      | item hnode hitem =>
          obtain rfl := Value.array.inj (h.symm.trans hnode)
          exact ⟨_, _, hitem, hreaches⟩
      | children hnode => cases h.symm.trans hnode
  · rintro ⟨index, value, hitem, hreaches⟩
    exact .inr ⟨_, .item h hitem, hreaches⟩

theorem reaches_object_iff {ref : ObjectRef} (h : position.node = .object ref) :
    s.Reaches position other ↔ other = position ∨
      ((s.nodeType? (.object ref)).isSome && !(s.member ref "children").isNull) = true ∧
        s.Reaches (position.children ref (s.member ref "children")) other := by
  rw [Reaches, Relation.ReflTransGen.cases_head_iff, eq_comm, Bool.and_eq_true, Bool.not_eq_true']
  refine or_congr_right ⟨?_, ?_⟩
  · rintro ⟨next, hbelow, hreaches⟩
    cases hbelow with
    | item hnode => cases h.symm.trans hnode
    | children hnode htype hchildren =>
        obtain rfl := Value.object.inj (h.symm.trans hnode)
        exact ⟨⟨htype, hchildren⟩, hreaches⟩
  · rintro ⟨⟨htype, hchildren⟩, hreaches⟩
    exact ⟨_, .children h htype hchildren, hreaches⟩

theorem reaches_leaf_iff (harray : ∀ ref, position.node ≠ .array ref)
    (hobject : ∀ ref, position.node ≠ .object ref) :
    s.Reaches position other ↔ other = position := by
  rw [Reaches, Relation.ReflTransGen.cases_head_iff, eq_comm]
  refine or_iff_left ?_
  rintro ⟨next, hbelow, -⟩
  cases hbelow with
  | item hnode => exact harray _ hnode
  | children hnode => exact hobject _ hnode

theorem ShowsItems.forall₂ {trees : List Tree} {values : List Value} {cells : List Cell}
    (h : s.ShowsItems trees values cells) :
    List.Forall₂ (fun value tree => ∃ parts, s.Shows tree value parts) values trees := by
  induction trees generalizing values cells with
  | nil =>
      cases h
      exact .nil
  | cons tree trees ih =>
      cases h with
      | cons head tail => exact .cons ⟨_, head⟩ (ih tail)

theorem Shows.isArray_eq_false {tree : Tree} {value : Value} {cells : List Cell}
    (h : s.Shows tree value cells) (hvalue : ∀ ref, value ≠ .array ref) : tree.isArray = false := by
  cases h with
  | array => exact absurd rfl (hvalue _)
  | _ => rfl

theorem isValid_children {members : List (String × Tree)}
    (hvalid : (Tree.object members).isValid = true)
    (h : ((Tree.object members).member "children").isNull = false) :
    ((Tree.object members).member "children").isValid = true := by
  rw [Tree.member] at h ⊢
  cases hlookup : members.lookup "children" with
  | none =>
      rw [hlookup] at h
      cases h
  | some item => exact Tree.everyNode_of_lookup (Tree.everyNode_object.mp hvalid).2 hlookup

theorem size_member_lt {name : String} {members : List (String × Tree)}
    (h : ((Tree.object members).member name).isNull = false) :
    ((Tree.object members).member name).size < (Tree.object members).size := by
  rw [Tree.member] at h ⊢
  cases hlookup : members.lookup name with
  | none =>
      rw [hlookup] at h
      cases h
  | some item =>
      have := Tree.size_le_memberSizes hlookup
      rw [Tree.size, Option.getD_some]
      omega

/-- To prove something of a position from which so many levels are left, it may be taken to hold of the
positions one step down, with one level less. -/
theorem Shows.induct_positions {motive : Nat → Tree → Position → Prop}
    (leaf : ∀ {level tree position}, (∀ ref, position.node ≠ .array ref) →
      (∀ ref, position.node ≠ .object ref) → (∃ cells, s.Shows tree position.node cells) →
      motive (level + 1) tree position)
    (array : ∀ {level trees position} {ref : ArrayRef}, position.node = .array ref →
      (∃ cells, s.Shows (.array trees) (.array ref) cells) →
      List.Forall₂ (fun value tree => ∀ index, motive level tree (position.item index value))
        (s.items ref) trees →
      motive (level + 1) (.array trees) position)
    (object : ∀ {level members position} {ref : ObjectRef}, position.node = .object ref →
      (∃ cells, s.Shows (.object members) (.object ref) cells) →
      (∃ cells, s.Shows ((Tree.object members).member "children") (s.member ref "children") cells) →
      ((s.member ref "children").isNull = false →
        motive level ((Tree.object members).member "children")
          (position.children ref (s.member ref "children"))) →
      motive (level + 1) (.object members) position)
    {tree : Tree} {cells : List Cell} (h : s.Shows tree position.node cells)
    (hlevel : tree.size ≤ level) : motive level tree position := by
  induction level generalizing position tree cells with
  | zero => exact absurd hlevel (Nat.not_le.mpr tree.size_pos)
  | succ level ih =>
      obtain ⟨path, above, node⟩ := position
      cases h with
      | atom a => exact leaf (by simp) (by simp) ⟨_, .atom a⟩
      | tuple items => exact leaf (by simp) (by simp) ⟨_, .tuple items⟩
      | @array trees ref _ has items =>
          rw [Tree.size] at hlevel
          have hsizes : ∀ tree ∈ trees, tree.size ≤ level := fun tree htree => by
            have := Tree.size_le_sizes htree
            omega
          have hitems := (List.forall₂_and_left _ _).mpr ⟨hsizes, items.forall₂.flip⟩
          refine array rfl ⟨_, .array has items⟩ (hitems.flip.imp fun value tree hitem index => ?_)
          obtain ⟨hsize, parts, hshows⟩ := hitem
          exact ih hshows hsize
      | @object members ref _ has entries =>
          obtain ⟨parts, hmember, -⟩ := entries.member "children"
          refine object rfl ⟨_, .object has entries⟩ ⟨parts, hmember⟩ fun hchildren => ?_
          have hless := size_member_lt (hmember.isNull.symm.trans hchildren)
          exact ih hmember (by omega)

theorem reaches_of_mem_positionsTo (h : other ∈ s.positionsTo level position) :
    s.Reaches position other ∧ ∀ ref, other.node ≠ .array ref := by
  induction level generalizing position with
  | zero => cases h
  | succ level ih =>
      cases hnode : position.node with
      | array ref =>
          rw [positionsTo_array hnode] at h
          obtain ⟨⟨value, index⟩, hentry, hother⟩ := List.mem_flatMap.mp h
          obtain ⟨hreaches, harray⟩ := ih hother
          have hitem := List.mem_zipIdx_iff_getElem?.mp hentry
          exact ⟨(reaches_array_iff hnode harray).mpr ⟨index, value, hitem, hreaches⟩, harray⟩
      | object ref =>
          rw [positionsTo_object hnode] at h
          rcases List.mem_cons.mp h with rfl | h
          · exact ⟨.refl, by simp [hnode]⟩
          · split at h
            · next hopen =>
                obtain ⟨hreaches, harray⟩ := ih h
                exact ⟨(reaches_object_iff hnode).mpr (.inr ⟨hopen, hreaches⟩), harray⟩
            · cases h
      | _ =>
          rw [positionsTo, hnode] at h
          obtain rfl := List.mem_singleton.mp h
          exact ⟨.refl, by simp [hnode]⟩

theorem mem_positionsTo {tree : Tree} {cells : List Cell} (h : s.Shows tree position.node cells)
    (hlevel : tree.size ≤ level) :
    other ∈ s.positionsTo level position ↔
      s.Reaches position other ∧ ∀ ref, other.node ≠ .array ref := by
  refine ⟨reaches_of_mem_positionsTo, fun ⟨hreaches, harray⟩ => ?_⟩
  refine h.induct_positions (motive := fun level _ position =>
    s.Reaches position other → other ∈ s.positionsTo level position) ?_ ?_ ?_ hlevel hreaches
  · intro level tree position hnoArray hnoObject _ hreaches
    obtain rfl := (reaches_leaf_iff hnoArray hnoObject).mp hreaches
    rw [positionsTo_leaf hnoArray hnoObject]
    exact List.mem_singleton_self _
  · intro level trees position ref hnode _ hitems hreaches
    obtain ⟨index, value, hitem, hreaches⟩ := (reaches_array_iff hnode harray).mp hreaches
    obtain ⟨tree, -, hbelow⟩ := exists_of_forall₂ hitems value (List.mem_of_getElem? hitem)
    rw [positionsTo_array hnode]
    exact List.mem_flatMap.mpr
      ⟨(value, index), List.mem_zipIdx_iff_getElem?.mpr hitem, hbelow index hreaches⟩
  · intro level members position ref hnode _ _ hbelow hreaches
    rw [positionsTo_object hnode]
    rcases (reaches_object_iff hnode).mp hreaches with rfl | ⟨hopen, hreaches⟩
    · exact List.mem_cons_self
    · have hchildren := ((Bool.and_eq_true _ _).mp hopen).2
      rw [if_pos hopen]
      exact List.mem_cons_of_mem _ (hbelow (by simpa using hchildren) hreaches)

theorem nodup_positionsTo (s : Store) (level : Nat) (position : Position) :
    ((s.positionsTo level position).map Position.path).Nodup := by
  induction level generalizing position with
  | zero => exact List.nodup_nil
  | succ level ih =>
      cases hnode : position.node with
      | array ref =>
          rw [positionsTo_array hnode, List.map_flatMap, List.nodup_flatMap]
          have hindices : ((s.items ref).zipIdx.map Prod.snd).Nodup := by
            rw [List.zipIdx_map_snd]
            exact List.nodup_range'
          -- the paths through two items go apart in the step into the array
          refine ⟨fun entry _ => ih _, (List.pairwise_map.mp hindices).imp ?_⟩
          intro first second hne path hfirst hsecond
          obtain ⟨one, hone, rfl⟩ := List.mem_map.mp hfirst
          obtain ⟨two, htwo, hpath⟩ := List.mem_map.mp hsecond
          have hsuffix := (reaches_of_mem_positionsTo hone).1.suffix
          have hother := (reaches_of_mem_positionsTo htwo).1.suffix
          rw [hpath] at hother
          have hsame := (List.suffix_of_suffix_length_le hsuffix hother (Nat.le_refl _)).eq_of_length
            rfl
          exact hne (Step.item.inj (List.cons.inj hsame).1)
      | object ref =>
          rw [positionsTo_object hnode, List.map_cons, List.nodup_cons]
          split
          · refine ⟨fun hmem => ?_, ih _⟩
            obtain ⟨other, hother, hpath⟩ := List.mem_map.mp hmem
            have hlonger := (reaches_of_mem_positionsTo hother).1.suffix.length_le
            rw [hpath] at hlonger
            exact absurd hlonger (Nat.not_succ_le_self _)
          · exact ⟨List.not_mem_nil, List.nodup_nil⟩
      | _ =>
          rw [positionsTo, hnode]
          exact List.nodup_singleton _

theorem Fits.preOrder_outlineTo {bound : Nat} {place : Place}
    (h : s.Fits bound ⟨position.node, none, 0, place⟩) :
    (s.outlineTo bound position.stand).preOrder =
      position.stand :: (s.childSlots position.node).flatMap fun child =>
        (s.outlineTo bound (child.stand (position.above.length + 1))).preOrder := by
  let slot : Slot := ⟨position.node, position.above.head?, position.stand.index, place⟩
  have hfits : s.Fits bound slot := h
  have hmk : s.outlineTo bound position.stand = _ := hfits.outlineTo_mk position.above.length
  rw [hmk, Rose.preOrder, Rose.preOrders_eq, List.flatMap_map]
  rfl

theorem Shows.map_stand_positionsTo {tree : Tree} {cells : List Cell}
    (h : s.Shows tree position.node cells) (hvalid : tree.isValid = true)
    (hlevel : tree.size ≤ level) {bound : Nat} (hbound : tree.size ≤ bound) (place : Place) :
    (s.positionsTo level position).map Position.stand =
      (s.expand ⟨position.node, position.above.head?, position.index, place⟩).flatMap fun slot =>
        (s.outlineTo bound (slot.standBelow position.above)).preOrder := by
  refine h.induct_positions (motive := fun level tree position =>
    tree.isValid = true → tree.size ≤ bound → ∀ place,
      (s.positionsTo level position).map Position.stand =
        (s.expand ⟨position.node, position.above.head?, position.index, place⟩).flatMap fun slot =>
          (s.outlineTo bound (slot.standBelow position.above)).preOrder)
    ?_ ?_ ?_ hlevel hvalid hbound place
  · intro level tree position hnoArray hnoObject hshows hvalid hbound place
    obtain ⟨cells, hshows⟩ := hshows
    have hfits : s.Fits bound ⟨position.node, none, 0, place⟩ :=
      ⟨tree, cells, hshows, hvalid, hshows.isArray_eq_false hnoArray, hbound⟩
    rw [positionsTo_leaf hnoArray hnoObject, expand_of_ne_array hnoArray, List.flatMap_singleton,
      position.standBelow, hfits.preOrder_outlineTo, childSlots_of_ne_object hnoObject]
    rfl
  · intro level trees position ref hnode hshows hitems hvalid hbound place
    obtain ⟨cells, hshows⟩ := hshows
    cases hshows with
    | array has items =>
        rw [Tree.isValid, Tree.everyNode] at hvalid
        rw [Tree.size] at hbound
        rw [positionsTo_array hnode, hnode, items.expand_eq has, List.map_flatMap,
          List.flatMap_assoc]
        refine List.flatMap_congr fun entry hentry => ?_
        obtain ⟨tree, htree, hbelow⟩ :=
          exists_of_forall₂ hitems entry.1 (List.fst_mem_of_mem_zipIdx hentry)
        have hsize := Tree.size_le_sizes htree
        exact hbelow entry.2 (Tree.everyNode_of_mem hvalid htree) (by omega) _
  · intro level members position ref hnode hshows hmember hbelow hvalid hbound place
    obtain ⟨cells, hshows⟩ := hshows
    obtain ⟨parts, hmember⟩ := hmember
    have hfits : s.Fits bound ⟨position.node, none, 0, place⟩ :=
      ⟨_, cells, hnode ▸ hshows, hvalid, rfl, hbound⟩
    rw [positionsTo_object hnode, expand_of_ne_array (by simp [hnode]), List.flatMap_singleton,
      position.standBelow, hfits.preOrder_outlineTo, hnode, List.map_cons, childSlots]
    refine congrArg (List.cons _) ?_
    split
    · next hopen =>
        rw [Bool.and_eq_true, Bool.not_eq_true'] at hopen
        have hchildren := hmember.isNull.symm.trans hopen.2
        have hless := size_member_lt hchildren
        exact hbelow hopen.2 (isValid_children hvalid hchildren) (by omega) _
    · rfl

theorem countP_flatMap_zipIdx {values : List Value} {trees : List Tree}
    {found : Value × Nat → List Position} {counted : Position → Bool}
    (h : List.Forall₂ (fun value tree =>
      ∀ index, (found (value, index)).countP counted = tree.countStructured) values trees)
    (start : Nat) :
    ((values.zipIdx start).flatMap found).countP counted = Tree.countAll trees := by
  induction h generalizing start with
  | nil => rfl
  | cons hhead _ ih =>
      rw [List.zipIdx_cons, List.flatMap_cons, List.countP_append, hhead, ih, Tree.countAll]

theorem Shows.countP_positionsTo {tree : Tree} {cells : List Cell}
    (h : s.Shows tree position.node cells) (hlevel : tree.size ≤ level) :
    (s.positionsTo level position).countP (fun position => (s.nodeType? position.node).isSome) =
      tree.countStructured := by
  refine h.induct_positions (motive := fun level tree position =>
    (s.positionsTo level position).countP (fun position => (s.nodeType? position.node).isSome) =
      tree.countStructured) ?_ ?_ ?_ hlevel
  · intro level tree position hnoArray hnoObject hshows
    obtain ⟨cells, hshows⟩ := hshows
    rw [positionsTo_leaf hnoArray hnoObject, List.countP_singleton, hshows.nodeType?]
    obtain ⟨path, above, node⟩ := position
    cases hshows with
    | atom a => rfl
    | tuple items => rfl
    | array => exact absurd rfl (hnoArray _)
    | object => exact absurd rfl (hnoObject _)
  · intro level trees position ref hnode _ hitems
    rw [positionsTo_array hnode, Tree.countStructured]
    exact countP_flatMap_zipIdx hitems 0
  · intro level members position ref hnode hshows hmember hbelow
    obtain ⟨cells, hshows⟩ := hshows
    obtain ⟨parts, hmember⟩ := hmember
    have htype : s.nodeType? (.object ref) = (Tree.object members).nodeType? := hshows.nodeType?
    have hopen : (s.nodeType? position.node).isSome = (Tree.object members).isStructured := by
      rw [hnode, htype, Tree.isStructured]
    rw [positionsTo_object hnode, List.countP_cons, hopen, Tree.countStructured, htype,
      ← Tree.isStructured, Tree.countBelow_eq_member]
    cases hstructured : (Tree.object members).isStructured with
    | false => rfl
    | true =>
        cases hnull : (s.member ref "children").isNull with
        | true =>
            have hmemberNull := Tree.eq_null_of_isNull (hmember.isNull.symm.trans hnull)
            rw [hmemberNull]
            rfl
        | false => exact (Nat.add_comm _ _).trans (congrArg (1 + ·) (hbelow hnull))

end Store

end ViewTree
