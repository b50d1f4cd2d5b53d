import ViewTree.Proofs.Tree.Binding
import ViewTree.Proofs.Tree.Children

namespace ViewTree

def NameStart.called (start : NameStart) (asText : α → Option String) (members : Members α) :
    List (String × String) :=
  members.filterMap fun member =>
    if start.covers member.1 then (asText member.2).map (member.1, ·) else none

theorem NameStart.called_cons (start : NameStart) (asText : α → Option String)
    (member : String × α) (rest : Members α) :
    start.called asText (member :: rest) =
      start.called asText [member] ++ start.called asText rest := by
  rw [called, called, called, ← List.filterMap_append, List.singleton_append]

namespace Tree

mutual
/-- The props of a tree that go by the name of a handler: those of all structured nodes reached
through arrays and children. -/
def calls (start : NameStart) : Tree → List (String × String)
  | .array items => callsOfItems start items
  | .object members =>
    if (object members).isStructured then
      start.called text? (object members).props ++ callsBelow start members
    else []
  | .atom _ | .tuple _ => []

def callsOfItems (start : NameStart) : List Tree → List (String × String)
  | [] => []
  | item :: rest => calls start item ++ callsOfItems start rest

def callsBelow (start : NameStart) : List (String × Tree) → List (String × String)
  | [] => []
  | (name, value) :: rest => if name = "children" then calls start value else callsBelow start rest
end

mutual
theorem flatMap_spread {gather : Tree → List α}
    (h : ∀ items, gather (.array items) = items.flatMap gather) (t : Tree) (index : Nat) :
    (t.spread index).flatMap (fun item => gather item.1) = gather t := by
  cases t with
  | array items =>
      rw [spread, h]
      exact flatMap_spreadItems h items 0
  | _ => exact List.append_nil _

theorem flatMap_spreadItems {gather : Tree → List α}
    (h : ∀ items, gather (.array items) = items.flatMap gather) (items : List Tree)
    (position : Nat) :
    (spreadItems items position).flatMap (fun item => gather item.1) = items.flatMap gather := by
  cases items with
  | nil => rfl
  | cons item rest =>
      rw [spreadItems, List.flatMap_append, List.flatMap_cons, flatMap_spread h item position,
        flatMap_spreadItems h rest (position + 1)]
end

end Tree

namespace Roster

variable (roster : Roster)

def leftover (t : Tree) : List (String × String) :=
  (t.bound roster).calls roster.start

theorem leftover_array (items : List Tree) :
    roster.leftover (.array items) = items.flatMap roster.leftover := by
  have hitems : ∀ items, Tree.callsOfItems roster.start (Tree.boundItems roster items) =
      items.flatMap roster.leftover := by
    intro items
    induction items with
    | nil => rfl
    | cons item rest ih => rw [Tree.boundItems, Tree.callsOfItems, List.flatMap_cons, ih, leftover]
  rw [leftover, Tree.bound, Tree.calls, hitems]

theorem callsBelow_boundMembers (members : List (String × Tree)) :
    Tree.callsBelow roster.start (Tree.boundMembers roster members) =
      roster.leftover ((Tree.object members).member "children") := by
  induction members with
  | nil => rfl
  | cons member rest ih =>
      obtain ⟨name, value⟩ := member
      rw [Tree.boundMembers, Tree.callsBelow]
      by_cases hname : name = "children"
      · subst hname
        rw [if_pos rfl, if_pos rfl, Tree.member, List.lookup_cons_self, Option.getD_some, leftover]
      · rw [if_neg hname, ih, Tree.member_cons_of_ne hname]

theorem leftover_object {members : List (String × Tree)}
    (h : (Tree.object members).isStructured = true) :
    roster.leftover (.object members) =
      roster.start.called Tree.text? (roster.bind Tree.text? .atom (Tree.object members).props) ++
        (Tree.object members).children.flatMap fun child => roster.leftover child.1 := by
  have hchildren : (Tree.object members).children.flatMap (fun child => roster.leftover child.1) =
      roster.leftover ((Tree.object members).member "children") := by
    rw [Tree.children, Tree.hasChildren, h, Bool.true_and]
    cases hnull : ((Tree.object members).member "children").isNull with
    | true =>
        rw [Tree.eq_null_of_isNull hnull]
        rfl
    | false => exact Tree.flatMap_spread roster.leftover_array _ 0
  rw [leftover, Tree.bound, if_pos h, Tree.calls, if_pos, Tree.props_boundMembers,
    callsBelow_boundMembers, hchildren]
  rw [Tree.isStructured_boundMembers, h]

end Roster

end ViewTree
