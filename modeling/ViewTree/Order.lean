namespace ViewTree

inductive Order
  | preOrder
  | postOrder
  | breadthFirst
deriving DecidableEq, Repr

namespace Order

def name : Order → String
  | preOrder => "dfs_pre"
  | postOrder => "dfs_post"
  | breadthFirst => "bfs"

def longName : Order → String
  | preOrder => "depthFirstPre"
  | postOrder => "depthFirstPost"
  | breadthFirst => "breadthFirst"

def all : List Order := [preOrder, postOrder, breadthFirst]

def ofName? (text : String) : Option Order :=
  all.find? fun order => order.name = text || order.longName = text

@[simp] theorem mem_all (order : Order) : order ∈ all := by
  cases order <;> decide

@[simp] theorem ofName?_name (order : Order) : ofName? order.name = some order := by
  cases order <;> decide

@[simp] theorem ofName?_longName (order : Order) : ofName? order.longName = some order := by
  cases order <;> decide

end Order

end ViewTree
