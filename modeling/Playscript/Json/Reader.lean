/-
# Reading JSON

A reader takes what it reads from the front of a text and leaves the rest. The
grammar is the strict one: no blanks but space, tab, line feed and carriage
return, no control characters in strings, no zeros in front of a number, no
comma before a closing bracket. An escape may name half of a character; such a
string is well formed but stands for no text.
-/
import Playscript.Json.Basic

namespace Playscript.Json

def isBlank (c : Char) : Bool := c == ' ' || c == '\t' || c == '\n' || c == '\r'

/-- A text without the blanks in front. -/
def skip (s : List Char) : List Char := s.dropWhile isBlank

/-- What follows a word in front of a text. -/
def after? (word s : List Char) : Option (List Char) :=
  if word.isPrefixOf s then some (s.drop word.length) else none

/-! ### Strings -/

/-- The value of a hexadecimal digit. -/
def hexValue? (c : Char) : Option Nat :=
  if c.isDigit then some (c.toNat - '0'.toNat)
  else if 'a' ≤ c && c ≤ 'f' then some (c.toNat - 'a'.toNat + 10)
  else if 'A' ≤ c && c ≤ 'F' then some (c.toNat - 'A'.toNat + 10)
  else none

/-- A 16-bit unit in four hexadecimal digits. -/
def unit? : List Char → Option (Nat × List Char)
  | a :: b :: c :: d :: rest => do
    let a ← hexValue? a
    let b ← hexValue? b
    let c ← hexValue? c
    let d ← hexValue? d
    return (((a * 16 + b) * 16 + c) * 16 + d, rest)
  | _ => none

/-- The character a letter after a backslash stands for. -/
def letterEscape? (c : Char) : Option Char :=
  match c with
  | '"' => some '"'
  | '\\' => some '\\'
  | '/' => some '/'
  | 'b' => some '\x08'
  | 'f' => some '\x0c'
  | 'n' => some '\n'
  | 'r' => some '\r'
  | 't' => some '\t'
  | _ => none

/-- A piece of a string: a character, or a 16-bit unit. -/
inductive Piece where
  | char (c : Char)
  | unit (u : Nat)
deriving DecidableEq, Repr

/-- One piece of a string; none at its end and where it is malformed. -/
def piece? : List Char → Option (Piece × List Char)
  | '\\' :: 'u' :: rest => (unit? rest).map fun (u, rest) => (.unit u, rest)
  | '\\' :: c :: rest => (letterEscape? c).map fun c => (.char c, rest)
  | c :: rest => if c = '"' || c = '\\' || c.toNat < 0x20 then none else some (.char c, rest)
  | [] => none

/-- The pieces of a string up to its closing quote, at most `bound` of them. -/
def pieces : Nat → List Char → Option (List Piece × List Char)
  | 0, _ => none
  | bound + 1, s =>
    match s with
    | '"' :: rest => some ([], rest)
    | _ => do
      let (p, rest) ← piece? s
      let (ps, rest) ← pieces bound rest
      return (p :: ps, rest)

/-- The text of pieces: a high unit and a low one after it make one character, and no other
unit from the range of halves stands for anything. -/
def textOf : List Piece → Option (List Char)
  | [] => some []
  | .char c :: rest => (textOf rest).map (c :: ·)
  | .unit u :: rest =>
    if u < 0xd800 || 0xe000 ≤ u then (textOf rest).map (Char.ofNat u :: ·)
    else match rest with
      | .unit v :: rest =>
        if u < 0xdc00 && 0xdc00 ≤ v && v < 0xe000 then
          (textOf rest).map (Char.ofNat (0x10000 + (u - 0xd800) * 0x400 + (v - 0xdc00)) :: ·)
        else none
      | _ => none

/-- A string whose opening quote has been read. -/
def string? (s : List Char) : Option (Wording × List Char) := do
  let (ps, rest) ← pieces (s.length + 1) s
  return ((textOf ps).map String.ofList, rest)

/-! ### Numbers -/

/-- The digits in front of a text, and the rest. -/
def digits (s : List Char) : List Char × List Char := s.span Char.isDigit

/-- At least one digit. -/
def someDigits? (s : List Char) : Option (List Char × List Char) :=
  match digits s with
  | ([], _) => none
  | found => some found

/-- The digits before a point: a zero stands alone. -/
def whole? (s : List Char) : Option (List Char × List Char) :=
  match someDigits? s with
  | some ('0' :: _ :: _, _) => none
  | found => found

/-- The point and the digits after it, if there is a point. -/
def fraction? : List Char → Option (List Char × List Char)
  | '.' :: rest => someDigits? rest
  | rest => some ([], rest)

/-- The sign in front of an exponent: whether it is negative. -/
def exponentSign : List Char → Bool × List Char
  | '-' :: rest => (true, rest)
  | '+' :: rest => (false, rest)
  | rest => (false, rest)

/-- The exponent, if there is one. -/
def exponent? (s : List Char) : Option (Option (Bool × List Char) × List Char) :=
  match s with
  | c :: rest =>
    if c = 'e' || c = 'E' then do
      let (negative, rest) := exponentSign rest
      let (ds, rest) ← someDigits? rest
      return (some (negative, ds), rest)
    else some (none, s)
  | [] => some (none, [])

/-- A number. -/
def numeral? (s : List Char) : Option (Numeral × List Char) := do
  let (negative, s) := match s with
    | '-' :: rest => (true, rest)
    | _ => (false, s)
  let (whole, s) ← whole? s
  let (fraction, s) ← fraction? s
  let (exponent?, s) ← exponent? s
  return (⟨negative, whole, fraction, exponent?⟩, s)

/-! ### Documents -/

/-- A constant or a number. -/
def plain? (s : List Char) : Option (Json × List Char) :=
  match after? ['n', 'u', 'l', 'l'] s, after? ['t', 'r', 'u', 'e'] s,
    after? ['f', 'a', 'l', 's', 'e'] s with
  | some rest, _, _ => some (null, rest)
  | _, some rest, _ => some (bool true, rest)
  | _, _, some rest => some (bool false, rest)
  | _, _, _ => (numeral? s).map fun (n, rest) => (number n, rest)

mutual

/-- A value, with blanks in front of it. -/
def value? : Nat → List Char → Option (Json × List Char)
  | 0, _ => none
  | bound + 1, s =>
    match skip s with
    | '"' :: rest => (string? rest).map fun (t, rest) => (string t, rest)
    | '[' :: rest =>
      match skip rest with
      | ']' :: rest => some (array [], rest)
      | rest => (items? bound rest).map fun (js, rest) => (array js, rest)
    | '{' :: rest =>
      match skip rest with
      | '}' :: rest => some (object [], rest)
      | rest => (entries? bound rest).map fun (es, rest) => (object es, rest)
    | s => plain? s

/-- One item or more, and the closing bracket. -/
def items? : Nat → List Char → Option (List Json × List Char)
  | 0, _ => none
  | bound + 1, s => do
    let (j, s) ← value? bound s
    match skip s with
    | ']' :: rest => return ([j], rest)
    | ',' :: rest =>
      let (js, rest) ← items? bound rest
      return (j :: js, rest)
    | _ => none

/-- One entry or more, and the closing brace. -/
def entries? : Nat → List Char → Option (List (Wording × Json) × List Char)
  | 0, _ => none
  | bound + 1, s => do
    match skip s with
    | '"' :: rest =>
      let (key, rest) ← string? rest
      match skip rest with
      | ':' :: rest =>
        let (j, rest) ← value? bound rest
        match skip rest with
        | '}' :: rest => return ([(key, j)], rest)
        | ',' :: rest =>
          let (es, rest) ← entries? bound rest
          return ((key, j) :: es, rest)
        | _ => none
      | _ => none
    | _ => none

end

/-- The document a text is. Two steps for each character are more than a reading takes. -/
def ofText? (text : String) : Option Json := do
  let s := text.toList
  let (j, rest) ← value? (2 * s.length + 2) s
  if skip rest = [] then return j else none

end Playscript.Json
