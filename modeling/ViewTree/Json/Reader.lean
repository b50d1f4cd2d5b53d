import ViewTree.Json

/-!
Reading JSON.  Every reader takes what is left of the text and gives what it read with the rest.  A
pair of brackets takes two steps and any other character at most one, so the length of the text
bounds the steps.  Of members with one name the last value counts, in the place of the first.
-/

namespace ViewTree.Json

namespace Reader

abbrev Rest := List Char

def skipBlanks (cs : Rest) : Rest :=
  cs.dropWhile fun c => c = ' ' ∨ c = '\n' ∨ c = '\r' ∨ c = '\t'

def hexDigit? (c : Char) : Option Nat :=
  if '0' ≤ c ∧ c ≤ '9' then some (c.toNat - 48)
  else if 'a' ≤ c ∧ c ≤ 'f' then some (c.toNat - 87)
  else if 'A' ≤ c ∧ c ≤ 'F' then some (c.toNat - 55)
  else none

def fourHex? : Rest → Option (Nat × Rest)
  | a :: b :: c :: d :: rest => do
    let a ← hexDigit? a
    let b ← hexDigit? b
    let c ← hexDigit? c
    let d ← hexDigit? d
    return (((a * 16 + b) * 16 + c) * 16 + d, rest)
  | _ => none

/-- The character after `\u`; a high surrogate takes the low one that follows with it. -/
def codePoint? (cs : Rest) : Option (Char × Rest) := do
  let (high, rest) ← fourHex? cs
  if 0xd800 ≤ high ∧ high < 0xdc00 then
    match rest with
    | '\\' :: 'u' :: rest =>
      let (low, rest) ← fourHex? rest
      return (Char.ofNat (0x10000 + (high - 0xd800) * 0x400 + (low - 0xdc00)), rest)
    | _ => none
  else return (Char.ofNat high, rest)

def escape? : Rest → Option (Char × Rest)
  | 'u' :: rest => codePoint? rest
  | 'n' :: rest => some ('\n', rest)
  | 'r' :: rest => some ('\r', rest)
  | 't' :: rest => some ('\t', rest)
  | 'b' :: rest => some ('\x08', rest)
  | 'f' :: rest => some ('\x0c', rest)
  | c :: rest => if c ∈ ['\x22', '\\', '/'] then some (c, rest) else none
  | [] => none

/-- The text up to the closing quote; `seen` holds what was read, last character first. -/
def textBody : Nat → List Char → Rest → Option (String × Rest)
  | steps + 1, seen, c :: rest =>
    if c = '\x22' then some (String.ofList seen.reverse, rest)
    else if c = '\\' then do
      let (c, rest) ← escape? rest
      textBody steps (c :: seen) rest
    else textBody steps (c :: seen) rest
  | _, _, _ => none

def text? (steps : Nat) : Rest → Option (String × Rest)
  | c :: rest => if c = '\x22' then textBody steps [] rest else none
  | [] => none

def digits (cs : Rest) : List Char × Rest :=
  (cs.takeWhile Char.isDigit, cs.dropWhile Char.isDigit)

def digitsValue (cs : List Char) : Nat :=
  cs.foldl (fun n c => 10 * n + (c.toNat - 48)) 0

def fraction : Rest → List Char × Rest
  | '.' :: rest => digits rest
  | cs => ([], cs)

def power : Rest → Option Int × Rest
  | c :: rest =>
    if c = 'e' ∨ c = 'E' then
      let (negative, rest) := match rest with
        | '-' :: rest => (true, rest)
        | '+' :: rest => (false, rest)
        | rest => (false, rest)
      let (ds, rest) := digits rest
      (some (if negative then -(digitsValue ds : Int) else digitsValue ds), rest)
    else (none, c :: rest)
  | [] => (none, [])

def number? (cs : Rest) : Option (Json × Rest) :=
  let (negative, cs) := match cs with
    | '-' :: cs => (true, cs)
    | cs => (false, cs)
  let (whole, cs) := digits cs
  let (part, cs) := fraction cs
  let (exponent, cs) := power cs
  if whole.isEmpty then none
  else if part.isEmpty && exponent.isNone then
    some (.int (if negative then -(digitsValue whole : Int) else digitsValue whole), cs)
  else
    let value := digitsValue (whole ++ part)
    some (.float (.ofDecimal negative value (exponent.getD 0 - part.length)), cs)

def word? (word : String) (value : Json) (cs : Rest) : Option (Json × Rest) :=
  if word.toList.isPrefixOf cs then some (value, cs.drop word.length) else none

mutual
def value? : Nat → Rest → Option (Json × Rest)
  | 0, _ => none
  | steps + 1, cs =>
    match skipBlanks cs with
    | '[' :: rest =>
      match skipBlanks rest with
      | ']' :: rest => some (.array [], rest)
      | rest => items? steps [] rest
    | '\x7b' :: rest =>
      match skipBlanks rest with
      | '\x7d' :: rest => some (.object [], rest)
      | rest => members? steps [] rest
    | '\x22' :: rest => (text? steps ('\x22' :: rest)).map fun (body, rest) => (.text body, rest)
    | 'n' :: rest => word? "null" .null ('n' :: rest)
    | 't' :: rest => word? "true" (.bool true) ('t' :: rest)
    | 'f' :: rest => word? "false" (.bool false) ('f' :: rest)
    | cs => number? cs

def items? : Nat → List Json → Rest → Option (Json × Rest)
  | 0, _, _ => none
  | steps + 1, seen, cs => do
    let (item, rest) ← value? steps cs
    match skipBlanks rest with
    | ',' :: rest => items? steps (item :: seen) rest
    | ']' :: rest => return (.array (item :: seen).reverse, rest)
    | _ => none

def members? : Nat → Members Json → Rest → Option (Json × Rest)
  | 0, _, _ => none
  | steps + 1, seen, cs => do
    let (name, rest) ← text? steps (skipBlanks cs)
    match skipBlanks rest with
    | ':' :: rest =>
      let (item, rest) ← value? steps rest
      match skipBlanks rest with
      | ',' :: rest => members? steps (seen.put name item) rest
      | '\x7d' :: rest => return (.object (seen.put name item), rest)
      | _ => none
    | _ => none
end

end Reader

def ofText? (text : String) : Option Json := do
  let (json, rest) ← Reader.value? (text.length + 1) text.toList
  guard (Reader.skipBlanks rest).isEmpty
  return json

end ViewTree.Json
