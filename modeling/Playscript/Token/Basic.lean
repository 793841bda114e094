/-
# Tokens

A token is a kind and the span it was read from. The reserved words and the
marks are one enumeration each with its spelling in one table, so a word is
reserved exactly when the table holds it (`Word.ofText?_eq_some`).
-/
import Playscript.Source.Span
import Playscript.Number.Text

namespace Playscript

/-- The reserved words. -/
inductive Word where
  | int | float | string | bool | any
  | ifWord | elseWord | whileWord | forWord | inWord | range
  | returnWord | showWord | action | use | asWord | importWord | fromWord
  | trueWord | falseWord
deriving DecidableEq, Repr

namespace Word

/-- Every reserved word. -/
def all : List Word :=
  [int, float, string, bool, any, ifWord, elseWord, whileWord, forWord, inWord, range,
   returnWord, showWord, action, use, asWord, importWord, fromWord, trueWord, falseWord]

/-- The spelling of a reserved word. -/
def text : Word → String
  | int => "int"
  | float => "float"
  | string => "string"
  | bool => "bool"
  | any => "any"
  | ifWord => "if"
  | elseWord => "else"
  | whileWord => "while"
  | forWord => "for"
  | inWord => "in"
  | range => "range"
  | returnWord => "return"
  | showWord => "show"
  | action => "action"
  | use => "use"
  | asWord => "as"
  | importWord => "import"
  | fromWord => "from"
  | trueWord => "true"
  | falseWord => "false"

/-- The words that name a type. -/
def isType : Word → Bool
  | int | float | string | bool | any => true
  | _ => false

/-- The reserved word with this spelling. -/
def ofText? (s : String) : Option Word := all.find? fun w => w.text == s

theorem mem_all (w : Word) : w ∈ all := by cases w <;> decide

theorem text_injective {v w : Word} (h : v.text = w.text) : v = w := by
  revert h; cases v <;> cases w <;> decide

theorem ofText?_eq_some {s : String} {w : Word} : ofText? s = some w ↔ w.text = s := by
  constructor
  · intro h
    have := List.find?_some h
    simpa using this
  · rintro rfl
    have hw : (all.find? fun v => v.text == w.text).isSome := by
      rw [List.find?_isSome]
      exact ⟨w, mem_all w, by simp⟩
    obtain ⟨v, hv⟩ := Option.isSome_iff_exists.mp hw
    have hvw : v.text = w.text := by simpa using List.find?_some hv
    rw [ofText?, hv, text_injective hvw]

end Word

/-- The marks. -/
inductive Mark where
  | assign | equal
  | plus | minus | star | slash | percent
  | less | greater
  | leftParen | rightParen | leftBrace | rightBrace | leftBracket | rightBracket
  | semicolon | comma
deriving DecidableEq, Repr

namespace Mark

/-- The spelling of a mark. -/
def text : Mark → String
  | assign => "="
  | equal => "=="
  | plus => "+"
  | minus => "-"
  | star => "*"
  | slash => "/"
  | percent => "%"
  | less => "<"
  | greater => ">"
  | leftParen => "("
  | rightParen => ")"
  | leftBrace => "\x7b"
  | rightBrace => "\x7d"
  | leftBracket => "["
  | rightBracket => "]"
  | semicolon => ";"
  | comma => ","

/-- The mark one character stands for on its own. -/
def ofChar? : Char → Option Mark
  | '=' => some assign
  | '+' => some plus
  | '-' => some minus
  | '*' => some star
  | '/' => some slash
  | '%' => some percent
  | '<' => some less
  | '>' => some greater
  | '(' => some leftParen
  | ')' => some rightParen
  | '\x7b' => some leftBrace
  | '\x7d' => some rightBrace
  | '[' => some leftBracket
  | ']' => some rightBracket
  | ';' => some semicolon
  | ',' => some comma
  | _ => none

end Mark

namespace Token

/-- What a token stands for. -/
inductive Kind where
  | number (value : Float)
  | string (text : String)
  | name (text : String)
  | word (w : Word)
  | mark (m : Mark)
  | endOfFile
deriving DecidableEq, Repr

namespace Kind

/-- The kind of a row of letters, digits and underscores. -/
def ofWord (s : String) : Kind :=
  match Word.ofText? s with
  | some w => word w
  | none => name s

/-- Whether the kind names a type. -/
def isType : Kind → Bool
  | word w => w.isType
  | _ => false

/-- How a kind is spelled in messages. -/
def text : Kind → String
  | number x => Number.plain.text x
  | string s => "\"" ++ s ++ "\""
  | name s => s
  | word w => w.text
  | mark m => m.text
  | endOfFile => "end of file"

end Kind

end Token

/-- A kind and where it was read. -/
structure Token where
  kind : Token.Kind
  span : Span
deriving DecidableEq, Repr

end Playscript
