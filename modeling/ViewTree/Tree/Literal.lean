import ViewTree.Tree
import ViewTree.Number.Decimal
import ViewTree.Text.Quoted

namespace ViewTree

/-- Numbers are positional from one ten-thousandth up to sixteen digits before the point; beyond
that they have an exponent with a sign and at least two digits. -/
def numberStyle : DecimalStyle := ⟨-4, 15, 2⟩

example : numberStyle.text (.ofDecimal false 1 15) = "1000000000000000.0" := by decide +kernel

example : numberStyle.text (.ofDecimal false 1 16) = "1e+16" := by decide +kernel

example : numberStyle.text (.ofDecimal true 1 (-4)) = "-0.0001" := by decide +kernel

example : numberStyle.text (.ofDecimal false 5 (-324)) = "5e-324" := by decide +kernel

def Order.constant : Order → String
  | .preOrder => "DEPTH_FIRST_PRE"
  | .postOrder => "DEPTH_FIRST_POST"
  | .breadthFirst => "BREADTH_FIRST"

def Atom.literal : Atom → String
  | .null => "None"
  | .bool true => "True"
  | .bool false => "False"
  | .int value => toString value
  | .float value => numberStyle.text value
  | .text value => Text.quoted value
  | .bytes value => Text.quotedBytes value
  | .callable name => "<fn " ++ name ++ ">"
  | .token name => "<obj " ++ name ++ ">"
  | .marker value => "<builtin " ++ value.name ++ ">"
  | .order value => "<TraversalOrder." ++ value.constant ++ ": '" ++ value.name ++ "'>"

def tupleText : List String → String
  | [item] => "(" ++ item ++ ",)"
  | items => "(" ++ ", ".intercalate items ++ ")"

namespace Tree

mutual
def literal : Tree → String
  | .atom a => a.literal
  | .tuple items => tupleText (literals items)
  | .array items => "[" ++ ", ".intercalate (literals items) ++ "]"
  | .object members => "\x7b" ++ ", ".intercalate (memberLiterals members) ++ "\x7d"

def literals : List Tree → List String
  | [] => []
  | item :: rest => item.literal :: literals rest

def memberLiterals : List (String × Tree) → List String
  | [] => []
  | (name, value) :: rest => (Text.quoted name ++ ": " ++ value.literal) :: memberLiterals rest
end

def display : Tree → String
  | .atom (.text value) => value
  | .atom (.order value) => "TraversalOrder." ++ value.constant
  | t => t.literal

@[simp] theorem display_text (value : String) : (text value).display = value := rfl

@[simp] theorem literal_atom (a : Atom) : (atom a).literal = a.literal := rfl

end Tree

end ViewTree
