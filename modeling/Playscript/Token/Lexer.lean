/-
# From a source to tokens

The lexemes of a text are laid out one after the other; a token keeps the span
of its lexeme, and an unknown character is reported and skipped. The tokens
always end in one end of file (`tokens_getLast`).
-/
import Playscript.Token.Lexeme
import Playscript.Diagnostic

namespace Playscript

/-- A lexeme at its place in the text. -/
structure Placed where
  lexeme : Lexeme
  start : Place
deriving Repr

namespace Placed

/-- Where the text goes on after the lexeme. -/
def next (p : Placed) : Place := p.start.afterAll p.lexeme.text

/-- The span up to the column before the next place, on that place's line. -/
def span (p : Placed) : Span := ⟨p.start, ⟨p.next.line, max (p.next.column - 1) 1⟩⟩

/-- The token of a lexeme, if it stands for one. -/
def token? (p : Placed) : Option Token := p.lexeme.kind?.map (⟨·, p.span⟩)

/-- The diagnostic of a lexeme that belongs to no class. -/
def diagnostic? (source : Source) (p : Placed) : Option Diagnostic :=
  match p.lexeme with
  | .unknown c =>
    some (.inSource source .unexpectedCharacter s!"Unknown character '{c}'" p.span none)
  | _ => none

end Placed

/-- Lexemes laid out from a place on. -/
def layOut (start : Place) : List Lexeme → List Placed
  | [] => []
  | l :: rest => ⟨l, start⟩ :: layOut (start.afterAll l.text) rest

/-- The tokens of a source and what was found wrong on the way. -/
structure Lexed where
  tokens : List Token
  log : Log

namespace Source

/-- The lexemes of a source at their places. -/
def placed (s : Source) : List Placed := layOut .first (lexemes s.text.toList)

/-- The end of file stands where the text ends. -/
def endOfFile (s : Source) : Token :=
  ⟨.endOfFile, .point (Place.first.afterAll s.text.toList)⟩

/-- The tokens of a source. -/
def tokens (s : Source) : List Token := s.placed.filterMap Placed.token? ++ [s.endOfFile]

/-- One diagnostic for each unknown character. -/
def unknowns (s : Source) : List Diagnostic := s.placed.filterMap (Placed.diagnostic? s)

/-- Tokens and diagnostics together. -/
def lex (s : Source) : Lexed := ⟨s.tokens, .ofList s.unknowns⟩

theorem tokens_getLast (s : Source) : s.tokens.getLast? = some s.endOfFile := by
  simp [tokens]

end Source

end Playscript
