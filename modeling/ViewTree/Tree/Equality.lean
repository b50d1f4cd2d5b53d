import ViewTree.Tree

namespace ViewTree.Tree

mutual
def decEq : (a b : Tree) → Decidable (a = b)
  | .atom a, .atom b => decidable_of_iff (a = b) (by simp)
  | .tuple as, .tuple bs =>
    match decEqItems as bs with
    | isTrue h => isTrue (by rw [h])
    | isFalse h => isFalse fun heq => h (by injection heq)
  | .array as, .array bs =>
    match decEqItems as bs with
    | isTrue h => isTrue (by rw [h])
    | isFalse h => isFalse fun heq => h (by injection heq)
  | .object as, .object bs =>
    match decEqMembers as bs with
    | isTrue h => isTrue (by rw [h])
    | isFalse h => isFalse fun heq => h (by injection heq)
  | .atom _, .tuple _ | .atom _, .array _ | .atom _, .object _
  | .tuple _, .atom _ | .tuple _, .array _ | .tuple _, .object _
  | .array _, .atom _ | .array _, .tuple _ | .array _, .object _
  | .object _, .atom _ | .object _, .tuple _ | .object _, .array _ =>
    isFalse fun heq => by cases heq

def decEqItems : (as bs : List Tree) → Decidable (as = bs)
  | [], [] => isTrue rfl
  | [], _ :: _ | _ :: _, [] => isFalse fun heq => by cases heq
  | a :: as, b :: bs =>
    match decEq a b with
    | isFalse h => isFalse fun heq => h (List.cons.inj heq).1
    | isTrue ha =>
      match decEqItems as bs with
      | isFalse h => isFalse fun heq => h (List.cons.inj heq).2
      | isTrue has => isTrue (by rw [ha, has])

def decEqMembers : (as bs : List (String × Tree)) → Decidable (as = bs)
  | [], [] => isTrue rfl
  | [], _ :: _ | _ :: _, [] => isFalse fun heq => by cases heq
  | (name, a) :: as, (other, b) :: bs =>
    if hname : name = other then
      match decEq a b with
      | isFalse h => isFalse fun heq => h (Prod.mk.inj (List.cons.inj heq).1).2
      | isTrue ha =>
        match decEqMembers as bs with
        | isFalse h => isFalse fun heq => h (List.cons.inj heq).2
        | isTrue has => isTrue (by rw [hname, ha, has])
    else isFalse fun heq => hname (Prod.mk.inj (List.cons.inj heq).1).1
end

instance : DecidableEq Tree := decEq

end ViewTree.Tree
