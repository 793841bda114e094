/-
# JSON documents

A document keeps what was written: numbers as their digits, the entries of an
object in order and with repeated keys. A string is a text, or nothing when it
names half of a character. `render` writes a document without blanks.
-/
namespace Playscript

namespace Json

/-- A number as it is written. -/
structure Numeral where
  negative : Bool
  whole : List Char
  /-- The digits after the point; empty without a point. -/
  fraction : List Char
  /-- Whether the exponent is negative, and its digits. -/
  exponent? : Option (Bool × List Char)
deriving DecidableEq, Repr

/-- What a string stands for; nothing when it names half of a character. -/
abbrev Wording := Option String

end Json

/-- A JSON document. -/
inductive Json where
  | null
  | bool (b : Bool)
  | number (n : Json.Numeral)
  | string (s : Json.Wording)
  | array (items : List Json)
  | object (entries : List (Json.Wording × Json))
deriving Repr

namespace Json

/-- A text as a document. -/
def ofText (s : String) : Json := string (some s)

/-- A natural number as a document. -/
def ofNat (n : Nat) : Json := number ⟨false, Nat.toDigits 10 n, [], none⟩

/-- An object of entries with readable keys. -/
def ofFields (fields : List (String × Json)) : Json :=
  object (fields.map fun f => (some f.1, f.2))

/-! ### Writing -/

/-- A character inside quotes: quotes, backslashes and controls are escaped, by a letter where
there is one. -/
def escaped (c : Char) : List Char :=
  if c = '"' then ['\\', '"']
  else if c = '\\' then ['\\', '\\']
  else if c = '\x08' then ['\\', 'b']
  else if c = '\t' then ['\\', 't']
  else if c = '\n' then ['\\', 'n']
  else if c = '\x0c' then ['\\', 'f']
  else if c = '\r' then ['\\', 'r']
  else if c.toNat < 0x20 then
    ['\\', 'u', '0', '0', Nat.digitChar (c.toNat / 16), Nat.digitChar (c.toNat % 16)]
  else [c]

/-- A text in quotes. -/
def quoted (s : String) : List Char := '"' :: s.toList.flatMap escaped ++ ['"']

/-- A number as it is written. -/
def Numeral.render (n : Numeral) : List Char :=
  (if n.negative then ['-'] else []) ++ n.whole
    ++ (if n.fraction.isEmpty then [] else '.' :: n.fraction)
    ++ (match n.exponent? with
      | none => []
      | some (negative, digits) => 'e' :: (if negative then ['-'] else []) ++ digits)

mutual

/-- The characters of a document, without blanks. Half a character is written as nothing. -/
def chars : Json → List Char
  | null => ['n', 'u', 'l', 'l']
  | bool b => if b then ['t', 'r', 'u', 'e'] else ['f', 'a', 'l', 's', 'e']
  | number n => n.render
  | string s => quoted (s.getD "")
  | array items => '[' :: itemChars items
  | object entries => '{' :: entryChars entries

/-- The characters of items, and the closing bracket. -/
def itemChars : List Json → List Char
  | [] => [']']
  | [j] => j.chars ++ [']']
  | j :: rest => j.chars ++ ',' :: itemChars rest

/-- The characters of entries, and the closing brace. -/
def entryChars : List (Wording × Json) → List Char
  | [] => ['}']
  | [(k, j)] => quoted (k.getD "") ++ ':' :: j.chars ++ ['}']
  | (k, j) :: rest => quoted (k.getD "") ++ ':' :: j.chars ++ ',' :: entryChars rest

end

/-- The text of a document. -/
def render (j : Json) : String := String.ofList j.chars

end Json

end Playscript
