import ViewTree.Members
import ViewTree.Number.Double

namespace ViewTree

inductive Json
  | null
  | bool (value : Bool)
  | int (value : Int)
  | float (value : Double)
  | text (value : String)
  | array (items : List Json)
  | object (members : List (String × Json))

instance : Inhabited Json := ⟨.null⟩

namespace Json

def field? (name : String) : Json → Option Json
  | .object members => members.lookup name
  | _ => none

def field (name : String) (json : Json) : Json :=
  (json.field? name).getD .null

def items : Json → List Json
  | .array items => items
  | _ => []

def fields : Json → Members Json
  | .object members => members
  | _ => []

def asText : Json → String
  | .text value => value
  | _ => ""

def isNull : Json → Bool
  | .null => true
  | _ => false

end Json

end ViewTree
