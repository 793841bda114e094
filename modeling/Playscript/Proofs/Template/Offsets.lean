/-
# Filling in by offsets

`scan` fills in a text in rounds, as a program that keeps what is left of the text as bytes
does: it looks for two opening braces, measures a placeholder there in bytes, and cuts where the
measures say. A cut inside a character fails. Every round takes off some of the parts of what is
left, in order (`turn?_cases`), so that `scan` comes to its end with every placeholder asked for
once, and no cut fails (`scan_eq`, `fill_exact`).

A value is asked for with a state, which may change from one question to the next.

Key definitions: `cut?`, `candidate?`, `turn?`, `scan`, `fillParts`.
Key theorems: `turn?_cases`, `scan_eq`, `fill_exact`.
-/
import Playscript.Proofs.Template.Occurrences
import Playscript.Proofs.Token.Bytes

namespace Playscript.Template

open String (utf8Len)

/-! ### A round -/

/-- The characters in front of an offset and those behind it, if it does not lie inside a
character. -/
def cut? (cs : List Char) (offset : Nat) : Option (List Char × List Char) := do
  let front ← slice? (String.ofList cs) 0 offset
  let back ← slice? (String.ofList cs) offset (utf8Len cs)
  return (front, back)

/-- The offset of the first two opening braces. -/
def open? : List Char → Option Nat
  | [] => none
  | c :: rest =>
    if c == '{' && rest.head? == some '{' then some 0 else (open? rest).map (c.utf8Size + ·)

/-- The offset where a name ends that starts at zero, when the characters in front of an offset
belong to it. -/
def nameEnd (offset : Nat) : List Char → Nat
  | [] => offset
  | c :: rest =>
    if startsName c || (0 < offset && isDigit c) then nameEnd (offset + c.utf8Size) rest
    else offset

/-- The name of a placeholder at the start of a text and the placeholder's size, if one is there
and no cut fails. -/
def candidate? : List Char → Option (Option (List Char × Nat))
  | '{' :: '{' :: inside => do
    let inner := inside.dropWhile isSpace
    let size := nameEnd 0 inner
    if size = 0 then return none
    let (name, after) ← cut? inner size
    match close? (after.dropWhile isSpace) with
    | some tail => return some (name, utf8Len ('{' :: '{' :: inside) - utf8Len tail)
    | none => return none
  | _ => some none

/-- What a round finds. -/
inductive Turn where
  /-- No two opening braces are left. -/
  | finished
  /-- The first brace after some characters opens no placeholder. -/
  | passed (before after : List Char)
  | found (before : List Char) (p : Placeholder) (after : List Char)

/-- What a round finds in what is left of a text, if no cut fails. -/
def turn? (rest : List Char) : Option Turn :=
  match open? rest with
  | none => some .finished
  | some start => do
    let (before, candidate) ← cut? rest start
    match ← candidate? candidate with
    | some (name, size) =>
      let (written, after) ← cut? candidate size
      return .found before ⟨name, written⟩ after
    | none =>
      let (_, after) ← cut? candidate 1
      return .passed before after

/-! ### Rounds in a row -/

section Asking

variable {σ : Type} (ask : String → StateM σ (Option String))

/-- Fills in what is left of a text, behind what is written already. There is no result if a cut
fails or so many rounds do not suffice. -/
def scan : Nat → List Char → List Char → StateM σ (Option (List Char))
  | 0, _, _ => pure none
  | turns + 1, out, rest =>
    match turn? rest with
    | none => pure none
    | some .finished => pure (some (out ++ rest))
    | some (.passed before after) => scan turns (out ++ before ++ ['{']) after
    | some (.found before p after) => do
      let value? ← ask (String.ofList p.name)
      scan turns (out ++ before ++ value?.elim p.written String.toList) after

/-- Fills in parts: every placeholder is asked for when its turn comes. -/
def fillParts : List Piece → StateM σ (List Char)
  | [] => pure []
  | .char c :: ps => (c :: ·) <$> fillParts ps
  | .placeholder p :: ps => do
    let value? ← ask (String.ofList p.name)
    (value?.elim p.written String.toList ++ ·) <$> fillParts ps

/-- Asks, and writes down what was asked for. -/
def recording (name : String) : StateM (List String × σ) (Option String) := fun (asked, s) =>
  let (value?, s) := ask name s
  (value?, (asked ++ [name], s))

end Asking

/-! ### Cuts and measures -/

variable {cs front back name rest : List Char} {p : Placeholder} {c : Char}

/-- A cut at the end of a character does not fail. -/
theorem cut?_utf8Len (front back : List Char) :
    cut? (front ++ back) (utf8Len front) = some (front, back) := by
  have hfront : slice? (String.ofList (front ++ back)) 0 (utf8Len front) = some front := by
    have hsplit : (String.ofList (front ++ back)).toList = [] ++ front ++ back := by simp
    simpa using slice?_utf8Len hsplit
  have hback : slice? (String.ofList (front ++ back)) (utf8Len front) (utf8Len (front ++ back)) =
      some back := by
    have hsplit : (String.ofList (front ++ back)).toList = front ++ back ++ [] := by simp
    rw [String.utf8Len_append]
    exact slice?_utf8Len hsplit
  rw [cut?, hfront, Option.bind_eq_bind, Option.bind_some, hback]
  rfl

theorem nameEnd_of_pos {offset : Nat} (h : 0 < offset) (cs : List Char) :
    nameEnd offset cs = offset + utf8Len (cs.takeWhile continuesName) := by
  induction cs generalizing offset with
  | nil => rfl
  | cons c cs ih =>
    have hcontinues : (startsName c || (decide (0 < offset) && isDigit c)) = continuesName c := by
      rw [decide_eq_true h, Bool.true_and, continuesName]
    rw [nameEnd, hcontinues, List.takeWhile_cons]
    split
    · rw [ih (by omega), String.utf8Len_cons]
      omega
    · rfl

theorem nameEnd_of_name? (h : name? cs = some (name, rest)) : nameEnd 0 cs = utf8Len name := by
  cases cs with
  | nil => cases h
  | cons c cs =>
    rw [name?] at h
    split at h
    · rename_i hc
      cases h
      rw [nameEnd, hc, Bool.true_or, if_pos rfl, nameEnd_of_pos (by have := c.utf8Size_pos; omega),
        String.utf8Len_cons]
      omega
    · cases h

theorem nameEnd_of_none (h : name? cs = none) : nameEnd 0 cs = 0 := by
  cases cs with
  | nil => rfl
  | cons c cs =>
    rw [name?] at h
    split at h
    · cases h
    · rename_i hc
      rw [nameEnd, if_neg (by simpa using hc)]

theorem utf8Len_pos_of_name? (h : name? cs = some (name, rest)) : utf8Len name ≠ 0 := by
  obtain ⟨⟨c, t, rfl, -⟩, -⟩ := name?_eq_some_iff.1 h
  have hc := c.utf8Size_pos
  rw [String.utf8Len_cons]
  omega

theorem candidate?_braces (inside : List Char) :
    candidate? ('{' :: '{' :: inside) = some ((placeholder? ('{' :: '{' :: inside)).map
      fun found => (found.1.name, utf8Len found.1.written)) := by
  rcases hname : name? (inside.dropWhile isSpace) with _ | ⟨name, after⟩
  · simp [candidate?, placeholder?, hname, nameEnd_of_none hname]
  · have hcut : cut? (inside.dropWhile isSpace) (utf8Len name) = some (name, after) := by
      rw [← (name?_eq_some_iff.1 hname).2.1, cut?_utf8Len]
    have hmeasure := nameEnd_of_name? hname
    have hpos := utf8Len_pos_of_name? hname
    rcases hclose : close? (after.dropWhile isSpace) with _ | tail
    · simp [candidate?, placeholder?, hname, hmeasure, hpos, hcut, hclose]
    · obtain ⟨written, hread⟩ : ∃ written,
          placeholder? ('{' :: '{' :: inside) = some (⟨name, written⟩, tail) := by
        simp [placeholder?, hname, hclose]
      -- what the size of the text has more than that of the tail is the placeholder's
      have hsize : utf8Len ('{' :: '{' :: inside) - utf8Len tail = utf8Len written := by
        rw [← (formed_of_placeholder? hread).2, String.utf8Len_append, Nat.add_sub_cancel]
      rw [candidate?, hread]
      simp [hmeasure, hpos, hcut, hclose, ← hsize]

/-- A placeholder is measured where one stands. -/
theorem candidate?_eq (cs : List Char) : candidate? cs =
    some ((placeholder? cs).map fun found => (found.1.name, utf8Len found.1.written)) := by
  rcases hread : placeholder? cs with _ | ⟨p, rest⟩
  · unfold candidate?
    split
    · rw [← candidate?, candidate?_braces, hread]
    · rfl
  · obtain ⟨hformed, htext⟩ := formed_of_placeholder? hread
    obtain ⟨c, t, hwritten, -⟩ := hformed.written_eq
    rw [hwritten] at htext
    rw [← hread, ← htext]
    exact candidate?_braces _

/-! ### The rounds -/

theorem pieces_of_not_open (h : ¬ (c = '{' ∧ rest.head? = some '{')) :
    pieces (c :: rest) = .char c :: pieces rest := by
  refine pieces_of_none (Option.eq_none_iff_forall_ne_some.2 fun ⟨p, after⟩ hp => h ?_)
  obtain ⟨hopen, hopen'⟩ := (occursAt_zero_iff.2 ⟨after, hp⟩).braces
  exact ⟨Option.some.inj hopen, by rwa [List.head?_eq_getElem?]⟩

/-- In front of the first two opening braces there are only characters. -/
theorem open?_cases (cs : List Char) :
    (open? cs = none ∧ pieces cs = cs.map .char) ∨
    ∃ before rest, open? cs = some (utf8Len before) ∧ cs = before ++ '{' :: rest ∧
      pieces cs = before.map .char ++ pieces ('{' :: rest) := by
  induction cs with
  | nil => exact .inl ⟨rfl, by rw [pieces]; rfl⟩
  | cons c cs ih =>
    by_cases hopen : c = '{' ∧ cs.head? = some '{'
    · obtain ⟨rfl, hhead⟩ := hopen
      exact .inr ⟨[], cs, by simp [open?, hhead], rfl, rfl⟩
    · have hskip : open? (c :: cs) = (open? cs).map (c.utf8Size + ·) := by
        rw [open?, if_neg (by simpa using hopen)]
      rw [hskip, pieces_of_not_open hopen]
      rcases ih with ⟨hnone, hpieces⟩ | ⟨before, rest, hsome, rfl, hpieces⟩
      · exact .inl ⟨by rw [hnone]; rfl, by rw [hpieces]; rfl⟩
      · refine .inr ⟨c :: before, rest, ?_, rfl, by rw [hpieces]; rfl⟩
        rw [hsome, String.utf8Len_cons, Nat.add_comm]
        rfl

/-- A round takes off some of the parts, and leaves less than there was; no cut in it fails. -/
theorem turn?_cases (cs : List Char) :
    (turn? cs = some .finished ∧ pieces cs = cs.map .char) ∨
    (∃ before after, turn? cs = some (.passed before after) ∧ after.length < cs.length ∧
      pieces cs = (before ++ ['{']).map .char ++ pieces after) ∨
    (∃ before p after, turn? cs = some (.found before p after) ∧ after.length < cs.length ∧
      pieces cs = before.map .char ++ .placeholder p :: pieces after) := by
  rcases open?_cases cs with ⟨hnone, hpieces⟩ | ⟨before, rest, hsome, rfl, hpieces⟩
  · exact .inl ⟨by rw [turn?, hnone], hpieces⟩
  · have hcut := cut?_utf8Len before ('{' :: rest)
    rcases hread : placeholder? ('{' :: rest) with _ | ⟨p, after⟩
    · refine .inr (.inl ⟨before, rest, ?_,
        by simp only [List.length_append, List.length_cons]; omega, ?_⟩)
      · have hstep : cut? ('{' :: rest) 1 = some (['{'], rest) := cut?_utf8Len ['{'] rest
        simp [turn?, hsome, hcut, candidate?_eq, hread, hstep]
      · rw [hpieces, pieces_of_none hread]
        simp
    · obtain ⟨-, htext⟩ := formed_of_placeholder? hread
      have hless := placeholder?_smaller hread
      refine .inr (.inr ⟨before, p, after, ?_, ?_, ?_⟩)
      · have hstep : cut? ('{' :: rest) (utf8Len p.written) = some (p.written, after) := by
          rw [← htext, cut?_utf8Len]
        simp [turn?, hsome, hcut, candidate?_eq, hread, hstep]
      · rw [List.length_append]
        omega
      · rw [hpieces, pieces_of_placeholder? hread]

/-! ### All rounds -/

section Asking

variable {σ : Type} (ask : String → StateM σ (Option String))

theorem fillParts_chars (cs : List Char) (ps : List Piece) :
    fillParts ask (cs.map .char ++ ps) = (cs ++ ·) <$> fillParts ask ps := by
  induction cs with
  | nil => exact (id_map _).symm
  | cons c cs ih =>
    rw [List.map_cons, List.cons_append, fillParts, ih, Functor.map_map]
    rfl

/-- With more rounds than characters a scan comes to its end, and has filled in the parts. -/
theorem scan_eq {turns : Nat} (out cs : List Char) (h : cs.length < turns) :
    scan ask turns out cs = (fun filled => some (out ++ filled)) <$> fillParts ask (pieces cs) := by
  induction turns generalizing out cs with
  | zero => cases h
  | succ turns ih =>
    rcases turn?_cases cs with ⟨hturn, hpieces⟩ | ⟨before, after, hturn, hless, hpieces⟩ |
      ⟨before, p, after, hturn, hless, hpieces⟩
    · rw [scan, hturn, hpieces, ← List.append_nil (cs.map _), fillParts_chars]
      simp [fillParts]
    · rw [scan, hturn, hpieces, fillParts_chars, Functor.map_map]
      simp [ih _ after (by omega : after.length < turns)]
    · rw [scan, hturn, hpieces, fillParts_chars, fillParts]
      simp [ih _ after (by omega : after.length < turns)]

theorem run_fillParts_char (c : Char) (ps : List Piece) (s : σ) :
    (fillParts ask (.char c :: ps)).run s =
      (c :: ((fillParts ask ps).run s).1, ((fillParts ask ps).run s).2) := rfl

theorem run_fillParts_placeholder (p : Placeholder) (ps : List Piece) (s : σ) :
    (fillParts ask (.placeholder p :: ps)).run s =
      let answer := (ask (String.ofList p.name)).run s
      let filled := (fillParts ask ps).run answer.2
      (answer.1.elim p.written String.toList ++ filled.1, filled.2) := rfl

theorem run_recording (name : String) (asked : List String) (s : σ) :
    (recording ask name).run (asked, s) =
      (((ask name).run s).1, (asked ++ [name], ((ask name).run s).2)) := rfl

/-- What is written down is the parts' names in order, and nothing else is different. -/
theorem fillParts_recording (ps : List Piece) (asked : List String) (s : σ) :
    (fillParts (recording ask) ps).run (asked, s) =
      (((fillParts ask ps).run s).1,
        (asked ++ ps.filterMap Piece.name?, ((fillParts ask ps).run s).2)) := by
  induction ps generalizing asked s with
  | nil => rw [List.filterMap_nil, List.append_nil]; rfl
  | cons x ps ih =>
    cases x with
    | char c => rw [run_fillParts_char, ih]; rfl
    | placeholder p =>
      rw [run_fillParts_placeholder, run_recording]
      dsimp only
      rw [ih, List.append_assoc]
      rfl

/-- Where asking changes nothing, a part is filled in by itself. -/
theorem fillParts_pure (value? : String → Option String) (ps : List Piece) :
    fillParts (σ := σ) (fun name => pure (value? name)) ps =
      pure (ps.flatMap (Piece.fill value?)) := by
  induction ps with
  | nil => rfl
  | cons x ps ih =>
    cases x with
    | char c =>
      rw [fillParts, ih]
      rfl
    | placeholder p =>
      rw [fillParts, ih, List.flatMap_cons, Piece.fill]
      rcases value? (String.ofList p.name) <;> rfl

end Asking

theorem fill_none_eq_written : Piece.fill (fun _ => none) = Piece.written := by
  funext x
  cases x <;> rfl

/-- The occurrences of placeholders in a text do not overlap. The text is cut into them and the
characters between them; filling in puts the value of its name for each that has one, and leaves
all else as it is written. A scan by offsets does this within as many rounds as there are
characters, without a cut that fails; it asks once for each occurrence, from left to right. -/
theorem fill_exact {σ : Type} (ask : String → StateM σ (Option String)) (text : String) :
    (∀ i j p q, OccursAt text.toList i p → OccursAt text.toList j q →
      (i = j → p = q) ∧ (i < j → i + p.written.length ≤ j)) ∧
    ∃ ps : List Piece, ps.flatMap Piece.written = text.toList ∧
      (∀ i p, OccursAt text.toList i p ↔ StandsAt ps i (.placeholder p)) ∧
      (∀ value? : String → Option String,
        (fill value? text).toList = ps.flatMap (Piece.fill value?)) ∧
      fill (fun _ => none) text = text ∧
      names text = ps.filterMap Piece.name? ∧
      scan ask (text.length + 1) [] text.toList = some <$> fillParts ask ps ∧
      (∀ asked s, (scan (recording ask) (text.length + 1) [] text.toList).run (asked, s) =
        (some ((fillParts ask ps).run s).1, (asked ++ names text, ((fillParts ask ps).run s).2))) ∧
      ∀ value? : String → Option String,
        scan (σ := σ) (fun name => pure (value? name)) (text.length + 1) [] text.toList =
          pure (some (fill value? text).toList) := by
  have hturns : text.toList.length < text.length + 1 := by
    rw [String.length_toList]
    exact Nat.lt_succ_self _
  refine ⟨fun i j p q hp hq => ⟨by rintro rfl; exact hp.unique hq, hp.disjoint hq⟩,
    pieces text.toList, written_pieces _, occursAt_iff _, fun value? => String.toList_ofList, ?_,
    rfl, ?_, fun asked s => ?_, fun value? => ?_⟩
  · rw [fill, fill_none_eq_written, written_pieces, String.ofList_toList]
  · rw [scan_eq _ _ _ hturns]
    rfl
  · rw [scan_eq _ _ _ hturns, StateT.run_map, fillParts_recording]
    rfl
  · rw [scan_eq _ _ _ hturns, fillParts_pure, fill, String.toList_ofList]
    rfl

example : fill (fun name => if name = "n" then some "<\x7b\x7bn\x7d\x7d>" else none)
    "\x7b\x7b\x7bn\x7d\x7d \x7b\x7b m \x7d\x7d \x7b\x7bn m\x7d\x7d" =
      "\x7b<\x7b\x7bn\x7d\x7d> \x7b\x7b m \x7d\x7d \x7b\x7bn m\x7d\x7d" := by cbv

end Playscript.Template
