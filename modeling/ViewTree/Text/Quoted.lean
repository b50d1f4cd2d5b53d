import ViewTree.Text.Printable

namespace ViewTree.Text

def hex (width n : Nat) : List Char :=
  let digits := Nat.toDigits 16 n
  List.replicate (width - digits.length) '0' ++ digits

def quoteFor (cs : List Char) : Char :=
  if '\'' ∈ cs ∧ '"' ∉ cs then '"' else '\''

/-- The escapes every quoted form shares. -/
def shortEscape? (quote c : Char) : Option (List Char) :=
  if c = quote ∨ c = '\\' then some ['\\', c]
  else if c = '\n' then some ['\\', 'n']
  else if c = '\r' then some ['\\', 'r']
  else if c = '\t' then some ['\\', 't']
  else none

def escapeChar (quote c : Char) : List Char :=
  match shortEscape? quote c with
  | some escape => escape
  | none =>
    if isPrintable c then [c]
    else if c.toNat < 0x100 then '\\' :: 'x' :: hex 2 c.toNat
    else if c.toNat < 0x10000 then '\\' :: 'u' :: hex 4 c.toNat
    else '\\' :: 'U' :: hex 8 c.toNat

def quoted (text : String) : String :=
  let quote := quoteFor text.toList
  String.ofList (quote :: text.toList.flatMap (escapeChar quote) ++ [quote])

example : quoted "it is" = "'it is'" := by decide +kernel

example : quoted "it's" = "\x22it's\x22" := by decide +kernel

example : quoted "a\n\\\u200b" = "'a\\n\\\\\\u200b'" := by decide +kernel

def escapeByte (quote : Char) (byte : UInt8) : List Char :=
  let c := Char.ofNat byte.toNat
  match shortEscape? quote c with
  | some escape => escape
  | none => if 0x20 ≤ byte ∧ byte < 0x7f then [c] else '\\' :: 'x' :: hex 2 byte.toNat

def quotedBytes (bytes : List UInt8) : String :=
  let quote := quoteFor (bytes.map fun byte => Char.ofNat byte.toNat)
  String.ofList ('b' :: quote :: bytes.flatMap (escapeByte quote) ++ [quote])

end ViewTree.Text
