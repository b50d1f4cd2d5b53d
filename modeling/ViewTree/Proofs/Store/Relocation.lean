import ViewTree.Proofs.Store.Expansion
import ViewTree.Proofs.Store.Writing
import ViewTree.Visit.Context

/-!
Relocation.  A store can be put above another: its cells then follow the cells of the other, and its
references move up with them.  Whatever is done in a store is done the same way where it was put,
and it reads the same.
-/

namespace ViewTree

open Store (Cell)

def ArrayRef.above (base : Store) (ref : ArrayRef) : ArrayRef :=
  ⟨base.arrays.size + ref.index⟩

def ObjectRef.above (base : Store) (ref : ObjectRef) : ObjectRef :=
  ⟨base.objects.size + ref.index⟩

theorem ArrayRef.above_injective (base : Store) : Function.Injective (ArrayRef.above base) := by
  rintro ⟨first⟩ ⟨second⟩ h
  simp only [ArrayRef.above, ArrayRef.mk.injEq, Nat.add_left_cancel_iff] at h
  rw [h]

theorem ObjectRef.above_injective (base : Store) : Function.Injective (ObjectRef.above base) := by
  rintro ⟨first⟩ ⟨second⟩ h
  simp only [ObjectRef.above, ObjectRef.mk.injEq, Nat.add_left_cancel_iff] at h
  rw [h]

namespace Members

def mapValues (f : α → β) (members : Members α) : Members β :=
  members.map fun member => (member.1, f member.2)

theorem lookup_mapValues (f : α → β) (name : String) (members : Members α) :
    (members.mapValues f).lookup name = (members.lookup name).map f := by
  induction members with
  | nil => rfl
  | cons member rest ih =>
      obtain ⟨first, value⟩ := member
      rw [mapValues, List.map_cons, List.lookup_cons, List.lookup_cons]
      cases name == first with
      | true => rfl
      | false => exact ih

theorem put_mapValues (f : α → β) (name : String) (value : α) (members : Members α) :
    (members.mapValues f).put name (f value) = (members.put name value).mapValues f := by
  induction members with
  | nil => rfl
  | cons member rest ih =>
      obtain ⟨first, old⟩ := member
      simp only [mapValues, List.map_cons, put] at ih ⊢
      split
      · rfl
      · rw [List.map_cons, ih]

theorem remove_mapValues (f : α → β) (name : String) (members : Members α) :
    (members.mapValues f).remove name = (members.remove name).mapValues f := by
  simp only [mapValues, remove, List.filter_map]
  rfl

theorem nodeType?_mapValues {f : α → β} {asText : α → Option String}
    {image : β → Option String} (h : ∀ value, image (f value) = asText value)
    (members : Members α) :
    nodeType? image (members.mapValues f) = nodeType? asText members := by
  unfold nodeType?
  rw [lookup_mapValues]
  cases members.lookup "type" with
  | none => rfl
  | some value =>
      rw [Option.map_some, Option.bind_some, Option.bind_some, h]

end Members

namespace Value

def above (base : Store) : Value → Value
  | .atom a => .atom a
  | .tuple items => .tuple items
  | .array ref => .array (ref.above base)
  | .object ref => .object (ref.above base)

@[simp] theorem above_atom (base : Store) (a : Atom) : (Value.atom a).above base = .atom a := rfl

@[simp] theorem above_tuple (base : Store) (items : List Tree) :
    (Value.tuple items).above base = .tuple items := rfl

@[simp] theorem above_array (base : Store) (ref : ArrayRef) :
    (Value.array ref).above base = .array (ref.above base) := rfl

@[simp] theorem above_object (base : Store) (ref : ObjectRef) :
    (Value.object ref).above base = .object (ref.above base) := rfl

@[simp] theorem isNull_above (base : Store) (value : Value) :
    (value.above base).isNull = value.isNull := by
  cases value <;> rfl

@[simp] theorem text?_above (base : Store) (value : Value) :
    (value.above base).text? = value.text? := by
  cases value <;> rfl

end Value

namespace Store

def above (s base : Store) : Store where
  arrays := base.arrays ++ s.arrays.map (List.map (Value.above base))
  objects := base.objects ++ s.objects.map (Members.mapValues (Value.above base))

def Cell.above (base : Store) : Cell → Cell
  | .array ref => .array (ref.above base)
  | .object ref => .object (ref.above base)

variable (base : Store) (s : Store)

theorem empty_above : ({} : Store).above base = base := by
  simp [above]

@[simp] theorem items_above (ref : ArrayRef) :
    (s.above base).items (ref.above base) = (s.items ref).map (Value.above base) := by
  simp only [Store.items, above, ArrayRef.above,
    Array.getElem?_append_right (Nat.le_add_right _ _), Nat.add_sub_cancel_left,
    Array.getElem?_map]
  cases s.arrays[ref.index]? with
  | none => rfl
  | some items => rfl

@[simp] theorem members_above (ref : ObjectRef) :
    (s.above base).members (ref.above base) =
      (s.members ref).mapValues (Value.above base) := by
  simp only [Store.members, above, ObjectRef.above,
    Array.getElem?_append_right (Nat.le_add_right _ _), Nat.add_sub_cancel_left,
    Array.getElem?_map]
  cases s.objects[ref.index]? with
  | none => rfl
  | some members => rfl

@[simp] theorem member_above (ref : ObjectRef) (name : String) :
    (s.above base).member (ref.above base) name = (s.member ref name).above base := by
  rw [Store.member, Store.member, members_above, Members.lookup_mapValues]
  cases (s.members ref).lookup name with
  | none => rfl
  | some value => rfl

theorem setItems_above (ref : ArrayRef) (items : List Value) :
    (s.above base).setItems (ref.above base) (items.map (Value.above base)) =
      (s.setItems ref items).above base := by
  simp only [setItems, above, ArrayRef.above,
    Array.setIfInBounds_append_right (Nat.le_add_right _ _), Nat.add_sub_cancel_left,
    Array.map_setIfInBounds]

theorem setMembers_above (ref : ObjectRef) (members : Members Value) :
    (s.above base).setMembers (ref.above base) (members.mapValues (Value.above base)) =
      (s.setMembers ref members).above base := by
  simp only [setMembers, above, ObjectRef.above,
    Array.setIfInBounds_append_right (Nat.le_add_right _ _), Nat.add_sub_cancel_left,
    Array.map_setIfInBounds]

theorem newArray_above (items : List Value) :
    newArray (items.map (Value.above base)) (s.above base) =
      ((newArray items s).1.above base, (newArray items s).2.above base) := by
  simp only [newArray, above, Value.above, ArrayRef.above, Array.size_append, Array.size_map,
    Array.push_append, Array.map_push]

theorem newObject_above (members : Members Value) :
    newObject (members.mapValues (Value.above base)) (s.above base) =
      ((newObject members s).1.above base, (newObject members s).2.above base) := by
  simp only [newObject, above, Value.above, ObjectRef.above, Array.size_append, Array.size_map,
    Array.push_append, Array.map_push]

mutual
theorem load_above (tree : Tree) (s : Store) :
    load tree (s.above base) = ((load tree s).1.above base, (load tree s).2.above base) := by
  cases tree with
  | atom a => rfl
  | tuple items => rfl
  | array trees =>
      rw [load_array, load_array, loadItems_above trees s]
      exact newArray_above base _ _
  | object trees =>
      rw [load_object, load_object, loadMembers_above trees s]
      exact newObject_above base _ _

theorem loadItems_above (trees : List Tree) (s : Store) :
    loadItems trees (s.above base) =
      ((loadItems trees s).1.map (Value.above base), (loadItems trees s).2.above base) := by
  cases trees with
  | nil => rfl
  | cons tree trees =>
      simp only [loadItems, load_above tree s, loadItems_above trees (load tree s).2, List.map_cons]

theorem loadMembers_above (trees : List (String × Tree)) (s : Store) :
    loadMembers trees (s.above base) =
      ((loadMembers trees s).1.mapValues (Value.above base),
        (loadMembers trees s).2.above base) := by
  cases trees with
  | nil => rfl
  | cons member trees =>
      obtain ⟨name, tree⟩ := member
      simp only [loadMembers, load_above tree s, loadMembers_above trees (load tree s).2,
        Members.mapValues, List.map_cons]
end

/-- A tree that is laid out in a store is the tree laid out alone, and put above that store. -/
theorem load_eq_above (tree : Tree) (s : Store) :
    load tree s = ((load tree {}).1.above s, (load tree {}).2.above s) := by
  have hload := load_above s tree {}
  rw [empty_above] at hload
  exact hload

end Store

def Place.above (base : Store) : Place → Place
  | .element array position => .element (array.above base) position
  | .member object name => .member (object.above base) name

def Slot.above (base : Store) (slot : Slot) : Slot :=
  { node := slot.node.above base
    parent := slot.parent.map (ObjectRef.above base)
    index := slot.index
    place := slot.place.above base }

def Context.above (base : Store) (ctx : Context) : Context :=
  { ctx with parent := ctx.parent.map (ObjectRef.above base) }

namespace Store

variable (base : Store) (s : Store)

@[simp] theorem has_above (place : Place) : (s.above base).has (place.above base) = s.has place := by
  cases place with
  | element array position => simp only [has, Place.above, items_above, List.length_map]
  | member object name => rfl

theorem write_above (place : Place) (value : Value) :
    (s.above base).write (place.above base) (value.above base) =
      (s.write place value).above base := by
  cases place with
  | element array position =>
      simp only [write, Place.above, items_above, ← List.map_set, setItems_above]
  | member object name =>
      simp only [write, Place.above, members_above, Members.put_mapValues, setMembers_above]

variable {s}

theorem readTo_succ (level : Nat) :
    ∀ {path : List Cell}, s.IsPath path → s.cellCount < path.length + level →
      ∀ value, s.readTo (level + 1) path value = s.readTo level path value := by
  induction level with
  | zero =>
      intro path hpath hlevel value
      exact absurd hpath.length_le (Nat.not_le.mpr hlevel)
  | succ level ih =>
      intro path hpath hlevel value
      cases value with
      | atom a => rfl
      | tuple items => rfl
      | array ref =>
          rw [readTo, readTo]
          split
          · rfl
          · next hnew =>
              by_cases has : s.Contains (.array ref)
              · have hbelow : s.cellCount < (Cell.array ref :: path).length + level := by
                  rw [List.length_cons]
                  omega
                rw [List.map_congr_left fun item _ => ih (hpath.cons has hnew) hbelow item]
              · rw [items_of_not_contains has, List.map_nil, List.map_nil]
      | object ref =>
          rw [readTo, readTo]
          split
          · rfl
          · next hnew =>
              by_cases has : s.Contains (.object ref)
              · have hbelow : s.cellCount < (Cell.object ref :: path).length + level := by
                  rw [List.length_cons]
                  omega
                have hmembers : ∀ member ∈ s.members ref,
                    (member.1, s.readTo (level + 1) (Cell.object ref :: path) member.2) =
                      (member.1, s.readTo level (Cell.object ref :: path) member.2) := by
                  intro member _
                  rw [ih (hpath.cons has hnew) hbelow member.2]
                rw [List.map_congr_left hmembers]
              · rw [members_of_not_contains has, List.map_nil, List.map_nil]

theorem readTo_eq_read {level : Nat} (hlevel : s.cellCount < level) (value : Value) :
    s.readTo level [] value = s.read value := by
  induction level, hlevel using Nat.le_induction with
  | base => rfl
  | succ level hlevel ih =>
      rw [readTo_succ level (.nil s) (by rw [List.length_nil]; omega), ih]

variable (s)

theorem Cell.above_injective : Function.Injective (Cell.above base) := by
  intro first second h
  cases first with
  | array ref =>
      cases second with
      | array other => exact congrArg Cell.array (ref.above_injective base (Cell.array.inj h))
      | object other => cases h
  | object ref =>
      cases second with
      | array other => cases h
      | object other => exact congrArg Cell.object (ref.above_injective base (Cell.object.inj h))

theorem readTo_above (level : Nat) :
    ∀ (path : List Cell) (value : Value),
      (s.above base).readTo level (path.map (Cell.above base)) (value.above base) =
        s.readTo level path value := by
  induction level with
  | zero =>
      intro path value
      cases value <;> rfl
  | succ level ih =>
      intro path value
      cases value with
      | atom a => rfl
      | tuple items => rfl
      | array ref =>
          have hmem : Cell.array (ref.above base) ∈ path.map (Cell.above base) ↔
              Cell.array ref ∈ path :=
            List.mem_map_of_injective (Cell.above_injective base) (a := .array ref)
          have hitems := fun item => ih (Cell.array ref :: path) item
          simp only [List.map_cons, Cell.above] at hitems
          simp only [Value.above_array, readTo, hmem, items_above, List.map_map, Function.comp_def, hitems]
      | object ref =>
          have hmem : Cell.object (ref.above base) ∈ path.map (Cell.above base) ↔
              Cell.object ref ∈ path :=
            List.mem_map_of_injective (Cell.above_injective base) (a := .object ref)
          have hmembers := fun item => ih (Cell.object ref :: path) item
          simp only [List.map_cons, Cell.above] at hmembers
          simp only [Value.above_object, readTo, hmem, members_above, Members.mapValues, List.map_map,
            Function.comp_def, hmembers]

@[simp] theorem read_above (value : Value) : (s.above base).read (value.above base) = s.read value := by
  have hcount : (s.above base).cellCount = base.cellCount + s.cellCount := by
    simp only [cellCount, above, Array.size_append, Array.size_map]
    omega
  have hlevel : s.cellCount < (s.above base).cellCount + 1 := by omega
  rw [read, ← readTo_eq_read hlevel]
  exact readTo_above base s _ [] value

@[simp] theorem nodeType?_above (value : Value) :
    (s.above base).nodeType? (value.above base) = s.nodeType? value := by
  cases value with
  | object ref =>
      simp only [Value.above, nodeType?, members_above]
      exact Members.nodeType?_mapValues (Value.text?_above base) _
  | _ => rfl

theorem classify_above (value : Value) :
    (s.above base).classify (value.above base) = s.classify value := by
  cases value with
  | object ref =>
      have hread : (s.above base).read (.object (ref.above base)) = s.read (.object ref) :=
        read_above base s (.object ref)
      simp only [Value.above, classify, members_above, hread,
        Members.nodeType?_mapValues (Value.text?_above base)]
  | _ => rfl

@[simp] theorem isTruthy_above (value : Value) :
    (s.above base).isTruthy (value.above base) = s.isTruthy value := by
  cases value with
  | array ref => simp only [Value.above, isTruthy, items_above, List.isEmpty_map]
  | object ref => simp only [Value.above, isTruthy, members_above, Members.mapValues, List.isEmpty_map]
  | _ => rfl

@[simp] theorem typeMember_above (ref : ObjectRef) :
    (s.above base).typeMember (ref.above base) = s.typeMember ref := by
  rw [typeMember, typeMember, member_above, read_above]

variable {s}

theorem expandTo_array_of_mem (s : Store) (level : Nat) {path : List ArrayRef} {ref : ArrayRef}
    (hpassed : ref ∈ path) (parent : Option ObjectRef) (index : Nat) (place : Place) :
    s.expandTo level path ⟨.array ref, parent, index, place⟩ = [] := by
  cases level with
  | zero => rfl
  | succ level => exact if_pos hpassed

theorem expandTo_succ (level : Nat) :
    ∀ {path : List ArrayRef}, s.IsArrayPath path → s.arrays.size ≤ path.length + level →
      ∀ slot, s.expandTo (level + 1) path slot = s.expandTo level path slot := by
  induction level with
  | zero =>
      rintro path hpath hlevel ⟨value, parent, index, place⟩
      cases value with
      | array ref =>
          by_cases hpassed : ref ∈ path
          · rw [expandTo_array_of_mem s _ hpassed, expandTo_array_of_mem s _ hpassed]
          · have hnone : ¬ s.Contains (.array ref) := by
              intro has
              have hroom := (hpath.cons has hpassed).length_le
              rw [List.length_cons] at hroom
              omega
            rw [expandTo_array s 0 hpassed, items_of_not_contains hnone]
            rfl
      | _ => rw [expandTo_of_ne_array (by simp), expandTo_of_ne_array (by simp)]
  | succ level ih =>
      rintro path hpath hlevel ⟨value, parent, index, place⟩
      cases value with
      | array ref =>
          by_cases hpassed : ref ∈ path
          · rw [expandTo_array_of_mem s _ hpassed, expandTo_array_of_mem s _ hpassed]
          · rw [expandTo_array s (level + 1) hpassed, expandTo_array s level hpassed]
            by_cases has : s.Contains (.array ref)
            · have hroom : s.arrays.size ≤ (ref :: path).length + level := by
                rw [List.length_cons]
                omega
              simp only [ih (hpath.cons has hpassed) hroom]
            · rw [items_of_not_contains has]
              rfl
      | _ => rw [expandTo_of_ne_array (by simp), expandTo_of_ne_array (by simp)]

theorem expandTo_eq_expand {level : Nat} (hlevel : s.arrays.size ≤ level) (slot : Slot) :
    s.expandTo level [] slot = s.expand slot := by
  induction level, hlevel using Nat.le_induction with
  | base => rfl
  | succ level hlevel ih =>
      rw [expandTo_succ level (.nil s) (by rw [List.length_nil]; omega), ih]

variable (s)

theorem expandTo_above (level : Nat) :
    ∀ (path : List ArrayRef) (slot : Slot),
      (s.above base).expandTo level (path.map (ArrayRef.above base)) (slot.above base) =
        (s.expandTo level path slot).map (Slot.above base) := by
  induction level with
  | zero =>
      rintro path ⟨value, parent, index, place⟩
      cases value <;> rfl
  | succ level ih =>
      rintro path ⟨value, parent, index, place⟩
      cases value with
      | array ref =>
          have hmem : ref.above base ∈ path.map (ArrayRef.above base) ↔ ref ∈ path :=
            List.mem_map_of_injective (ArrayRef.above_injective base)
          by_cases hpassed : ref ∈ path
          · rw [expandTo_array_of_mem s _ hpassed]
            exact expandTo_array_of_mem _ _ (hmem.mpr hpassed) _ _ _
          · rw [expandTo_array s level hpassed]
            rw [Slot.above, Value.above_array, expandTo_array _ level (mt hmem.mp hpassed),
              items_above, List.zipIdx_map, List.flatMap_map, List.map_flatMap]
            have hitem := fun entry : Value × Nat =>
              ih (ref :: path) ⟨entry.1, parent, entry.2, .element ref entry.2⟩
            exact List.flatMap_congr fun entry _ => hitem entry
      | _ => rfl

theorem expand_above (slot : Slot) :
    (s.above base).expand (slot.above base) = (s.expand slot).map (Slot.above base) := by
  have hlevel : s.arrays.size ≤ (s.above base).arrays.size := by
    simp [above]
  rw [expand, ← expandTo_eq_expand hlevel]
  exact expandTo_above base s _ [] slot

theorem childSlots_above (node : Value) :
    (s.above base).childSlots (node.above base) = (s.childSlots node).map (Slot.above base) := by
  cases node with
  | object ref =>
      have hexpand := expand_above base s
        ⟨s.member ref "children", some ref, 0, .member ref "children"⟩
      have htype := nodeType?_above base s (.object ref)
      rw [Value.above_object] at htype
      simp only [Value.above_object, childSlots, htype, member_above, Value.isNull_above]
      split
      · exact hexpand
      · rfl
  | _ => rfl

theorem headD_items_above (box : ArrayRef) :
    ((s.above base).items (box.above base)).headD .null =
      ((s.items box).headD .null).above base := by
  rw [items_above]
  cases s.items box <;> rfl

theorem rootSlots_above (box : ArrayRef) :
    (s.above base).rootSlots (box.above base) = (s.rootSlots box).map (Slot.above base) := by
  have hexpand := expand_above base s ⟨(s.items box).headD .null, none, 0, .element box 0⟩
  unfold rootSlots
  rw [headD_items_above]
  refine (congrArg (List.map fun slot : Slot => { slot with index := 0 }) hexpand).trans ?_
  rw [List.map_map, List.map_map]
  rfl

end Store

theorem Context.view_above (base s : Store) (ctx : Context) (node : Value) :
    (ctx.above base).view (s.above base) (node.above base) = ctx.view s node := by
  simp only [Context.view, Context.above, Store.read_above, Option.map_map]
  congr 1
  cases ctx.parent with
  | none => rfl
  | some ref => exact congrArg some (Store.typeMember_above base s ref)

theorem Value.above_empty (value : Value) : value.above {} = value := by
  cases value with
  | array ref => simp [Value.above, ArrayRef.above]
  | object ref => simp [Value.above, ObjectRef.above]
  | _ => rfl

theorem Store.above_empty (s : Store) : s.above {} = s := by
  have hitems : List.map (Value.above {}) = id := by
    funext items
    exact List.map_id'' Value.above_empty items
  have hmembers : Members.mapValues (Value.above {}) = id := by
    funext members
    simp only [Members.mapValues, Value.above_empty]
    exact List.map_id' members
  simp [Store.above, hitems, hmembers]

theorem Context.above_empty (ctx : Context) : ctx.above {} = ctx := by
  have hparent : ctx.parent.map (ObjectRef.above {}) = ctx.parent := by
    cases ctx.parent with
    | none => rfl
    | some ref => simp [ObjectRef.above]
  rw [Context.above, hparent]

end ViewTree
