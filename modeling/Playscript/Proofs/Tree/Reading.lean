/-
# What the small readers do

A cursor is seen as the kinds in front of it (`Cursor.At`), where the last token
is an end of file. A reader that answers has passed some kinds, none of them an
end of file (`Cursor.Passes`, `Reads`). The readers that look at one token are
described once, by what they answer at which kind.

Key definitions: `Cursor.At`, `Cursor.Passes`, `Reads`.
Key theorems: `Reader.run_bind_ok`, `Cursor.passes_advance`.
-/
import Playscript.Tree.Parser

namespace Playscript

open Token (Kind)

theorem Token.Kind.exists_word {k : Kind} (h : k.isType) : ∃ w, k = .word w ∧ w.isType := by
  cases k with
  | word w => exact ⟨w, rfl, h⟩
  | _ => cases h

namespace Cursor

/-- The kinds that have not been consumed. -/
def kinds (c : Cursor) : List Kind := c.rest.map (·.kind)

/-- What is seen behind the list is an end of file. -/
def Ends (c : Cursor) : Prop := c.last.kind = .endOfFile

/-- The kinds in front of a cursor. -/
structure At (c : Cursor) (ks : List Kind) : Prop where
  ends : c.Ends
  kinds : c.kinds = ks

/-- The kinds between two places of a cursor. -/
structure Passes (c : Cursor) (ks : List Kind) (d : Cursor) : Prop where
  ends : d.Ends
  kinds : c.kinds = ks ++ d.kinds
  inside : Kind.endOfFile ∉ ks

variable {c d e : Cursor} {k : Kind} {ks ls : List Kind}

theorem kind_eq (hc : c.Ends) : c.kind = c.kinds.headD .endOfFile := by
  rw [kind, token, kinds]
  cases c.rest with
  | nil => exact hc
  | cons t rest => rfl

theorem ahead_eq (c : Cursor) (n : Nat) : c.ahead n = (c.kinds[n]?).getD .endOfFile := by
  rw [ahead, kinds, List.getElem?_map]
  cases c.rest[n]? <;> rfl

theorem kinds_advance (c : Cursor) : c.advance.kinds = c.kinds.tail := by
  rw [advance]
  split
  · rename_i h
    rw [kinds, h]
    rfl
  · rename_i h
    rw [kinds, kinds, h]
    rfl

theorem Ends.advance (hc : c.Ends) : c.advance.Ends := by
  rw [Cursor.advance]
  split
  · exact hc
  · exact hc

theorem At.kind (h : c.At (k :: ks)) : c.kind = k := by
  rw [Cursor.kind_eq h.ends, h.kinds]
  rfl

theorem At.kind_eq (h : c.At ks) : c.kind = ks.headD .endOfFile := by
  rw [Cursor.kind_eq h.ends, h.kinds]

theorem At.advance (h : c.At (k :: ks)) : c.advance.At ks :=
  ⟨h.ends.advance, by rw [kinds_advance, h.kinds]; rfl⟩

theorem Passes.refl (hc : c.Ends) : c.Passes [] c := ⟨hc, rfl, List.not_mem_nil⟩

theorem Passes.trans (h : c.Passes ks d) (h' : d.Passes ls e) : c.Passes (ks ++ ls) e where
  ends := h'.ends
  kinds := by rw [h.kinds, h'.kinds, List.append_assoc]
  inside := by
    rw [List.mem_append]
    exact not_or.2 ⟨h.inside, h'.inside⟩

/-- A token other than an end of file is passed. -/
theorem passes_advance (hc : c.Ends) (hk : c.kind = k) (hne : k ≠ .endOfFile) :
    c.Passes [k] c.advance := by
  refine ⟨hc.advance, ?_, fun h => hne (List.mem_singleton.1 h).symm⟩
  rw [kind_eq hc] at hk
  rw [kinds_advance]
  cases h : c.kinds with
  | nil =>
    rw [h] at hk
    exact absurd hk.symm hne
  | cons j js =>
    rw [h] at hk
    rw [show j = k from hk]
    rfl

end Cursor

namespace Reader

variable {α β : Type} {c d : Cursor}

/-! ### Runs -/

theorem run_bind_ok {r : Reader α} {f : α → Reader β} {b : β} :
    (r >>= f).run c = .ok (b, d) ↔
      ∃ a e, r.run c = .ok (a, e) ∧ (f a).run e = .ok (b, d) := by
  rw [StateT.run_bind]
  cases r.run c with
  | error x => exact ⟨nofun, by rintro ⟨a, e, ⟨⟩, -⟩⟩
  | ok p => exact ⟨fun h => ⟨p.1, p.2, rfl, h⟩, by rintro ⟨a, e, ⟨⟩, h⟩; exact h⟩

theorem run_bind_of_ok {r : Reader α} {f : α → Reader β} {a : α} (h : r.run c = .ok (a, d)) :
    (r >>= f).run c = (f a).run d := by
  rw [StateT.run_bind, h]
  rfl

theorem run_pure_ok {a b : α} : (pure a : Reader α).run c = .ok (b, d) ↔ b = a ∧ d = c := by
  rw [StateT.run_pure]
  constructor
  · rintro ⟨⟩
    exact ⟨rfl, rfl⟩
  · rintro ⟨rfl, rfl⟩
    rfl

theorem not_run_endless {a : α} : (endless : Reader α).run c ≠ .ok (a, d) := nofun

theorem not_run_expected {x : Expected} {a : α} : (expected x : Reader α).run c ≠ .ok (a, d) :=
  nofun

@[simp] theorem run_kind (c : Cursor) : kind.run c = .ok (c.kind, c) := rfl

@[simp] theorem run_here (c : Cursor) : here.run c = .ok (c.token.span, c) := rfl

@[simp] theorem run_advance (c : Cursor) : advance.run c = .ok ((), c.advance) := rfl

@[simp] theorem run_sees (c : Cursor) (m : Mark) :
    (sees m).run c = .ok (c.kind == .mark m, c) := rfl

theorem run_eats_of_eq {m : Mark} (h : c.kind = .mark m) :
    (eats m).run c = .ok (true, c.advance) := by
  rw [eats, run_bind_of_ok (run_sees c m), h, beq_self_eq_true]
  rfl

theorem run_eats_of_ne {m : Mark} (h : c.kind ≠ .mark m) : (eats m).run c = .ok (false, c) := by
  rw [eats, run_bind_of_ok (run_sees c m), beq_eq_false_iff_ne.2 h]
  rfl

theorem run_eatsWord_of_eq {w : Word} (h : c.kind = .word w) :
    (eatsWord w).run c = .ok (true, c.advance) := by
  rw [eatsWord, run_bind_of_ok (run_kind c), h, beq_self_eq_true]
  rfl

theorem run_eatsWord_of_ne {w : Word} (h : c.kind ≠ .word w) :
    (eatsWord w).run c = .ok (false, c) := by
  rw [eatsWord, run_bind_of_ok (run_kind c), beq_eq_false_iff_ne.2 h]
  rfl

theorem run_mark_of_eq {m : Mark} (h : c.kind = .mark m) :
    (mark m).run c = .ok ((), c.advance) := by
  rw [mark, run_bind_of_ok (run_eats_of_eq h)]
  rfl

theorem run_word_of_eq {w : Word} (h : c.kind = .word w) :
    (word w).run c = .ok ((), c.advance) := by
  rw [word, run_bind_of_ok (run_eatsWord_of_eq h)]
  rfl

theorem run_name_of_eq {n : String} (h : c.kind = .name n) :
    name.run c = .ok (⟨n, c.token.span⟩, c.advance) := by
  rw [name, run_bind_of_ok (run_kind c), h]
  rfl

theorem run_string_of_eq {s : String} (h : c.kind = .string s) :
    string.run c = .ok (s, c.advance) := by
  rw [string, run_bind_of_ok (run_kind c), h]
  rfl

end Reader

/-! ### Lists between commas -/

namespace Reader

/-- One phrase, and the others if a comma follows. -/
def commas {α : Type} (one : Reader α) (others : Reader (List α)) : Reader (List α) := do
  let first ← one
  if ← eats .comma then
    let rest ← others
    return first :: rest
  else return [first]

theorem several_succ (bound : Nat) :
    several (bound + 1) = commas (expression bound) (several bound) := rfl

theorem someParams_succ (bound : Nat) :
    someParams (bound + 1) = commas (param bound) (someParams bound) := rfl

theorem someItems_succ (bound : Nat) :
    someItems (bound + 1) = commas importItem (someItems bound) := rfl

end Reader

/-! ### What readers pass -/

/-- Where the reader answers, it has passed kinds that go with the answer. -/
def Reads {α : Type} (r : Reader α) (P : List Kind → α → Prop) : Prop :=
  ∀ ⦃c a d⦄, c.Ends → r.run c = .ok (a, d) → ∃ ks, c.Passes ks d ∧ P ks a

/-- The first of two readers, and the run of the second. -/
theorem Reads.bind {α β : Type} {r : Reader α} {P : List Kind → α → Prop} (hr : Reads r P)
    {f : α → Reader β} {c d : Cursor} {b : β} (hc : c.Ends)
    (h : (r >>= f).run c = .ok (b, d)) :
    ∃ a ks e, c.Passes ks e ∧ P ks a ∧ (f a).run e = .ok (b, d) := by
  obtain ⟨a, e, hrun, hrest⟩ := Reader.run_bind_ok.1 h
  obtain ⟨ks, hks, ha⟩ := hr hc hrun
  exact ⟨a, ks, e, hks, ha, hrest⟩

namespace Reader

variable {β : Type} {c d : Cursor} {b : β} {f : Bool → Reader β}

/-- A mark that may be there is passed, or not there. -/
theorem eats_bind {m : Mark} (hc : c.Ends) (h : (eats m >>= f).run c = .ok (b, d)) :
    (∃ e, c.Passes [.mark m] e ∧ (f true).run e = .ok (b, d)) ∨
      (c.kind ≠ .mark m ∧ (f false).run c = .ok (b, d)) := by
  by_cases hk : c.kind = .mark m
  · rw [run_bind_of_ok (run_eats_of_eq hk)] at h
    exact .inl ⟨_, Cursor.passes_advance hc hk nofun, h⟩
  · rw [run_bind_of_ok (run_eats_of_ne hk)] at h
    exact .inr ⟨hk, h⟩

theorem eatsWord_bind {w : Word} (hc : c.Ends) (h : (eatsWord w >>= f).run c = .ok (b, d)) :
    (∃ e, c.Passes [.word w] e ∧ (f true).run e = .ok (b, d)) ∨
      (c.kind ≠ .word w ∧ (f false).run c = .ok (b, d)) := by
  by_cases hk : c.kind = .word w
  · rw [run_bind_of_ok (run_eatsWord_of_eq hk)] at h
    exact .inl ⟨_, Cursor.passes_advance hc hk nofun, h⟩
  · rw [run_bind_of_ok (run_eatsWord_of_ne hk)] at h
    exact .inr ⟨hk, h⟩

theorem reads_mark (m : Mark) : Reads (mark m) fun ks _ => ks = [.mark m] := by
  intro c a d hc h
  obtain ⟨e, hpass, h⟩ | ⟨-, h⟩ := eats_bind hc h
  · obtain ⟨-, rfl⟩ := run_pure_ok.1 h
    exact ⟨_, hpass, rfl⟩
  · exact absurd h not_run_expected

theorem reads_word (w : Word) : Reads (word w) fun ks _ => ks = [.word w] := by
  intro c a d hc h
  obtain ⟨e, hpass, h⟩ | ⟨-, h⟩ := eatsWord_bind hc h
  · obtain ⟨-, rfl⟩ := run_pure_ok.1 h
    exact ⟨_, hpass, rfl⟩
  · exact absurd h not_run_expected

theorem reads_name : Reads name fun ks i => ks = [.name i.name] := by
  intro c a d hc h
  rw [name, run_bind_of_ok (run_kind c)] at h
  split at h
  · rename_i n hk
    cases h
    exact ⟨_, Cursor.passes_advance hc hk nofun, rfl⟩
  · exact absurd h not_run_expected

theorem reads_string : Reads string fun ks s => ks = [.string s] := by
  intro c a d hc h
  rw [string, run_bind_of_ok (run_kind c)] at h
  split at h
  · rename_i s hk
    cases h
    exact ⟨_, Cursor.passes_advance hc hk nofun, rfl⟩
  · exact absurd h not_run_expected

end Reader

/-! ### Programs -/

/-- The program of a list of tokens is what the reader of programs answers at its start. -/
theorem Program.ofTokens_eq_ok {tokens : List Token} {p : Program} :
    ofTokens tokens = .ok p ↔
      ∃ d, (Reader.program (callBound tokens)).run (.ofTokens tokens) = .ok (p, d) := by
  rw [ofTokens, StateT.run'_eq]
  cases (Reader.program (callBound tokens)).run (.ofTokens tokens) with
  | error x => exact ⟨nofun, nofun⟩
  | ok a =>
    obtain ⟨q, d⟩ := a
    exact ⟨by rintro ⟨⟩; exact ⟨d, rfl⟩, by rintro ⟨_, ⟨⟩⟩; rfl⟩

theorem Program.ofTokens_of_ofSource {source : Source} {p : Program}
    (h : (ofSource source).1 = .ok p) : ofTokens source.lex.tokens = .ok p := by
  rw [ofSource] at h
  dsimp only at h
  cases hp : ofTokens source.lex.tokens with
  | error refusal =>
    rw [hp] at h
    cases h
  | ok q =>
    rw [hp] at h
    cases h
    rfl

end Playscript
