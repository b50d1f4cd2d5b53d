import ViewTree.Handler
import ViewTree.Node

/-!
Bound trees.  A roster tells which props are looked at and which handlers they are bound to.  In a
bound tree the handlers stand in the props of all structured nodes reached through arrays and
children; all else is as it was.
-/

namespace ViewTree

def NameStart.covers (start : NameStart) (name : String) : Bool :=
  start.texts.any fun text => text.toList.isPrefixOf name.toList

theorem NameStart.begins_of_textsOnly {start : NameStart} (h : start.textsOnly = true)
    (name : String) : start.begins name = .ok (start.covers name) := by
  unfold begins covers
  cases start.texts.any fun text => text.toList.isPrefixOf name.toList with
  | true => rfl
  | false => simp only [h, Bool.false_eq_true, if_false, if_true]

def Handler.among (entries : Members Tree) (name : String) : Option Atom :=
  match entries.lookup name with
  | some (.atom (.callable handler)) => some (.callable handler)
  | _ => none

theorem Handler.find?_object (entries : Members Tree) (name : String) :
    find? (.object entries) name = .ok (among entries name) := by
  show (match entries.lookup name with
    | some (.atom (.callable handler)) => .ok (some (.callable handler))
    | _ => .ok none : Except Failure (Option Atom)) = _
  unfold among
  split <;> rfl

theorem Handler.text?_of_among {entries : Members Tree} {name : String} {handler : Atom}
    (h : among entries name = some handler) : handler.text? = none := by
  unfold among at h
  split at h
  · cases h
    rfl
  · cases h

/-- Which props are looked at, and what callables their texts stand for. -/
structure Roster where
  entries : Members Tree
  start : NameStart

namespace Roster

variable (roster : Roster)

def handler? (name : String) (text? : Option String) : Option Atom :=
  if roster.start.covers name then text?.bind (Handler.among roster.entries) else none

def bind (asText : α → Option String) (ofAtom : Atom → α) (members : Members α) : Members α :=
  members.map fun member =>
    (member.1, ((roster.handler? member.1 (asText member.2)).map ofAtom).getD member.2)

def bindProps : Tree → Tree
  | .object members => .object (roster.bind Tree.text? .atom members)
  | t => t

@[simp] theorem bind_nil (asText : α → Option String) (ofAtom : Atom → α) :
    roster.bind asText ofAtom [] = [] := rfl

@[simp] theorem names_bind (asText : α → Option String) (ofAtom : Atom → α) (members : Members α) :
    (roster.bind asText ofAtom members).names = members.names := by
  simp [bind, Members.names]

theorem text?_of_handler? {name : String} {text? : Option String} {handler : Atom}
    (h : roster.handler? name text? = some handler) : handler.text? = none := by
  unfold handler? at h
  split at h
  · obtain ⟨text, -, hamong⟩ := Option.bind_eq_some_iff.mp h
    exact Handler.text?_of_among hamong
  · cases h

theorem handler?_none (name : String) : roster.handler? name none = none := by
  unfold handler?
  split <;> rfl

theorem bind_bind {asText : α → Option String} {ofAtom : Atom → α}
    (hatom : ∀ a, asText (ofAtom a) = a.text?) (members : Members α) :
    roster.bind asText ofAtom (roster.bind asText ofAtom members) =
      roster.bind asText ofAtom members := by
  rw [bind, bind, List.map_map]
  refine List.map_congr_left fun member _ => ?_
  rw [Function.comp_apply]
  cases hhandler : roster.handler? member.1 (asText member.2) with
  | none => rw [Option.map_none, Option.getD_none, hhandler]; rfl
  | some handler =>
      rw [Option.map_some, Option.getD_some, hatom, roster.text?_of_handler? hhandler,
        roster.handler?_none]
      rfl

end Roster

namespace Tree

/-- The props of a node, none where they are no object. -/
def props (t : Tree) : Members Tree :=
  match t.member "props" with
  | .object props => props
  | _ => []

mutual
def bound (roster : Roster) : Tree → Tree
  | .atom a => .atom a
  | .tuple items => .tuple items
  | .array items => .array (boundItems roster items)
  | .object members =>
    .object (if (object members).isStructured then boundMembers roster members else members)

def boundItems (roster : Roster) : List Tree → List Tree
  | [] => []
  | item :: rest => item.bound roster :: boundItems roster rest

def boundMembers (roster : Roster) : List (String × Tree) → List (String × Tree)
  | [] => []
  | (name, item) :: rest =>
    (name,
      if name = "children" then item.bound roster
      else if name = "props" then roster.bindProps item
      else item) :: boundMembers roster rest
end

theorem lookup_boundMembers (roster : Roster) (members : List (String × Tree)) (name : String) :
    (boundMembers roster members).lookup name =
      (members.lookup name).map fun item =>
        if name = "children" then item.bound roster
        else if name = "props" then roster.bindProps item
        else item := by
  induction members with
  | nil => rfl
  | cons member rest ih =>
      obtain ⟨first, item⟩ := member
      rw [boundMembers, List.lookup_cons, List.lookup_cons]
      by_cases hname : name = first
      · subst hname
        rw [beq_self_eq_true]
        rfl
      · rw [beq_eq_false_iff_ne.mpr hname]
        exact ih

theorem lookup_boundMembers_of_ne (roster : Roster) (members : List (String × Tree)) {name : String}
    (hchildren : name ≠ "children") (hprops : name ≠ "props") :
    (boundMembers roster members).lookup name = members.lookup name := by
  rw [lookup_boundMembers]
  simp only [hchildren, hprops, if_false, Option.map_id_fun']
  rfl

theorem nodeType?_boundMembers (roster : Roster) (members : List (String × Tree)) :
    (object (boundMembers roster members)).nodeType? = (object members).nodeType? := by
  rw [nodeType?, nodeType?, Members.nodeType?, Members.nodeType?,
    lookup_boundMembers_of_ne roster members (by decide) (by decide)]

theorem isStructured_boundMembers (roster : Roster) (members : List (String × Tree)) :
    (object (boundMembers roster members)).isStructured = (object members).isStructured := by
  rw [isStructured, isStructured, nodeType?_boundMembers]

theorem props_boundMembers (roster : Roster) (members : List (String × Tree)) :
    (object (boundMembers roster members)).props =
      roster.bind text? .atom (object members).props := by
  rw [props, props, member, member, lookup_boundMembers]
  cases members.lookup "props" with
  | none => rfl
  | some value => cases value <;> rfl

end Tree

end ViewTree
