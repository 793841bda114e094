/-
# Equal values cannot be told apart

Equality of values is symmetric and transitive, and a value equals itself if no number in it,
at any depth, is one that is not a number (`same_self_iff`). Equal values have one kind, are both
true or both false as conditions, pass the same checks of type, and have one text. The two zeros
are equal, and all of these agree on them.

Closures are equal by identity, so equal values have one text where an identity names one closure.
It does: an identity is given once, and the closures that live in a session, in what the host holds,
what modules export and what frames bind, all have their own (`distinct_after`).

Key definitions: `Same`, `Contains`, `Attuned`.
Key theorems: `same_iff`, `Same.text_eq`, `distinct_after`, `same_congruence`.
-/
import Playscript.Proofs.Number.Bits
import Playscript.Proofs.Pairing.Leftovers
import Playscript.Value.Conformance
import Playscript.Value.Equality
import Playscript.Value.Text

namespace Playscript

/-! ### Numbers -/

namespace Number

variable {x y : Float}

/-- Values show both zeros alike. -/
theorem shown_text_of_zero (h : ∃ s, x.toModel.unpack = .zero s) : shown.text x = "0" := by
  have hfinite := isFinite_of_zero h
  rw [Wording.text, isNaN_of_isFinite hfinite, isInf_of_isFinite hfinite, beq_zero_iff.2 h]
  rfl

theorem beq_self_iff : (x == x) = true ↔ x.isNaN = false := by
  rw [beq_iff]
  exact ⟨fun h => h.elim And.right fun h => isNaN_of_isFinite (isFinite_of_zero h.1),
    fun h => .inl ⟨rfl, h⟩⟩

theorem beq_symm (h : (x == y) = true) : (y == x) = true := by
  rw [beq_iff] at h ⊢
  rcases h with ⟨rfl, hx⟩ | ⟨hx, hy⟩
  · exact .inl ⟨rfl, hx⟩
  · exact .inr ⟨hy, hx⟩

theorem beq_trans {z : Float} (h : (x == y) = true) (h' : (y == z) = true) : (x == z) = true := by
  rcases beq_iff.1 h with ⟨rfl, -⟩ | ⟨hx, hy⟩
  · exact h'
  · rcases beq_iff.1 h' with ⟨rfl, -⟩ | ⟨-, hz⟩
    · exact h
    · exact beq_iff.2 (.inr ⟨hx, hz⟩)

/-- Equal numbers are one number, or both are zero. -/
theorem eq_or_zeros_of_beq (h : (x == y) = true) :
    x = y ∨ (∃ s, x.toModel.unpack = .zero s) ∧ ∃ s, y.toModel.unpack = .zero s :=
  (beq_iff.1 h).imp_left And.left

end Number

namespace Value

/-! ### Equality as a relation -/

mutual

/-- Two values are equal. -/
inductive Same : Value → Value → Prop where
  | null : Same .null .null
  | number {x y : Float} : (x == y) = true → Same (.number x) (.number y)
  | string (s : String) : Same (.string s) (.string s)
  | bool (b : Bool) : Same (.bool b) (.bool b)
  | array {xs ys : List Value} : SameAll xs ys → Same (.array xs) (.array ys)
  | capsule {c d : Capsule Value} : c.name = d.name → Same (.capsule c) (.capsule d)
  | closure {c d : Closure} : c.identity = d.identity → Same (.closure c) (.closure d)

/-- Two lists are equal item by item. -/
inductive SameAll : List Value → List Value → Prop where
  | nil : SameAll [] []
  | cons {x y : Value} {xs ys : List Value} : Same x y → SameAll xs ys →
    SameAll (x :: xs) (y :: ys)

end

/-- A value is another, or an item in it at some depth. -/
inductive Contains : Value → Value → Prop where
  | self (v : Value) : Contains v v
  | item {items : List Value} {v w : Value} : v ∈ items → Contains v w → Contains (.array items) w

/-- Closures of one identity in two values are one closure. -/
def Attuned (v w : Value) : Prop :=
  ∀ c ∈ v.closures, ∀ d ∈ w.closures, c.identity = d.identity → c = d

variable {u v w : Value} {us vs ws : List Value}

mutual

theorem same_of_same : ∀ v w : Value, v.same w = true → Same v w
  | null, w, h => by
    cases w <;> simp only [same, Bool.false_eq_true] at h
    exact .null
  | number x, w, h => by
    cases w <;> simp only [same, Bool.false_eq_true] at h
    exact .number h
  | string s, w, h => by
    cases w <;> simp only [same, Bool.false_eq_true, beq_iff_eq] at h
    exact h ▸ .string s
  | bool b, w, h => by
    cases w <;> simp only [same, Bool.false_eq_true, beq_iff_eq] at h
    exact h ▸ .bool b
  | array xs, w, h => by
    cases w <;> simp only [same, Bool.false_eq_true] at h
    exact .array (sameAll_of_sameAll xs _ h)
  | capsule c, w, h => by
    cases w <;> simp only [same, Bool.false_eq_true, beq_iff_eq] at h
    exact .capsule h
  | closure c, w, h => by
    cases w <;> simp only [same, Bool.false_eq_true, beq_iff_eq] at h
    exact .closure h

theorem sameAll_of_sameAll : ∀ vs ws : List Value, sameAll vs ws = true → SameAll vs ws
  | [], [], _ => .nil
  | [], _ :: _, h => by cases h
  | _ :: _, [], h => by cases h
  | v :: vs, w :: ws, h => by
    rw [sameAll, Bool.and_eq_true] at h
    exact .cons (same_of_same v w h.1) (sameAll_of_sameAll vs ws h.2)

end

mutual

theorem Same.same : ∀ {v w : Value}, Same v w → v.same w = true
  | _, _, .null => rfl
  | _, _, .number h => h
  | _, _, .string s => beq_self_eq_true s
  | _, _, .bool b => beq_self_eq_true b
  | _, _, .array h => by rw [Value.same, h.sameAll]
  | _, _, .capsule h => beq_iff_eq.2 h
  | _, _, .closure h => beq_iff_eq.2 h

theorem SameAll.sameAll : ∀ {vs ws : List Value}, SameAll vs ws → Value.sameAll vs ws = true
  | _, _, .nil => rfl
  | _, _, .cons h hrest => by rw [Value.sameAll, h.same, hrest.sameAll]; rfl

end

theorem same_iff : v.same w = true ↔ Same v w := ⟨same_of_same v w, Same.same⟩

/-! ### Symmetry, transitivity and what is not a number -/

mutual

theorem Same.symm : ∀ {v w : Value}, Same v w → Same w v
  | _, _, .null => .null
  | _, _, .number h => .number (Number.beq_symm h)
  | _, _, .string s => .string s
  | _, _, .bool b => .bool b
  | _, _, .array h => .array h.symm
  | _, _, .capsule h => .capsule h.symm
  | _, _, .closure h => .closure h.symm

theorem SameAll.symm : ∀ {vs ws : List Value}, SameAll vs ws → SameAll ws vs
  | _, _, .nil => .nil
  | _, _, .cons h hrest => .cons h.symm hrest.symm

end

mutual

theorem Same.trans : ∀ {u v w : Value}, Same u v → Same v w → Same u w
  | _, _, _, .null, .null => .null
  | _, _, _, .number h, .number h' => .number (Number.beq_trans h h')
  | _, _, _, .string s, .string _ => .string s
  | _, _, _, .bool b, .bool _ => .bool b
  | _, _, _, .array h, .array h' => .array (h.trans h')
  | _, _, _, .capsule h, .capsule h' => .capsule (h.trans h')
  | _, _, _, .closure h, .closure h' => .closure (h.trans h')

theorem SameAll.trans : ∀ {us vs ws : List Value}, SameAll us vs → SameAll vs ws → SameAll us ws
  | _, _, _, .nil, .nil => .nil
  | _, _, _, .cons h hrest, .cons h' hrest' => .cons (h.trans h') (hrest.trans hrest')

end

theorem same_comm (v w : Value) : v.same w = w.same v :=
  Bool.eq_iff_iff.2 ⟨fun h => (same_iff.1 h).symm.same, fun h => (same_iff.1 h).symm.same⟩

/-- The number in a number is itself. -/
theorem contains_number_iff {x y : Float} : Contains (.number x) (.number y) ↔ y = x :=
  ⟨fun h => by cases h; rfl, by rintro rfl; exact .self _⟩

mutual

/-- A value equals itself if no number in it is one that is not a number. -/
theorem same_self_iff : ∀ v : Value,
    v.same v = true ↔ ∀ x, Contains v (.number x) → x.isNaN = false
  | null => iff_of_true rfl fun x h => by cases h
  | number x => by
    simp only [same, contains_number_iff, forall_eq]
    exact Number.beq_self_iff
  | string s => iff_of_true (beq_self_eq_true s) fun x h => by cases h
  | bool b => iff_of_true (beq_self_eq_true b) fun x h => by cases h
  | array items => by
    rw [same, sameAll_self_iff items]
    constructor
    · rintro hitems x (_ | ⟨hv, hx⟩)
      exact hitems _ hv x hx
    · exact fun hitems v hv x hx => hitems x (.item hv hx)
  | capsule c => iff_of_true (beq_self_eq_true c.name) fun x h => by cases h
  | closure c => iff_of_true (beq_self_eq_true c.identity) fun x h => by cases h

theorem sameAll_self_iff : ∀ vs : List Value,
    sameAll vs vs = true ↔ ∀ v ∈ vs, ∀ x, Contains v (.number x) → x.isNaN = false
  | [] => iff_of_true rfl fun v hv => by cases hv
  | v :: vs => by
    rw [sameAll, Bool.and_eq_true, same_self_iff v, sameAll_self_iff vs, List.forall_mem_cons]

end

/-! ### What equal values have in common -/

theorem Same.kindName_eq (h : Same v w) : v.kindName = w.kindName := by
  cases h <;> rfl

theorem Same.isTruthy_eq (h : Same v w) : v.isTruthy = w.isTruthy := by
  cases h with
  | number h =>
    rcases Number.eq_or_zeros_of_beq h with rfl | ⟨hx, hy⟩
    · rfl
    · rw [isTruthy, isTruthy, bne, bne, Number.beq_zero_iff.2 hx, Number.beq_zero_iff.2 hy]
      rfl
  | _ => rfl

/-- A check against the name of a type looks at the kind of a value only. -/
theorem admits_named (name : String) (v : Value) : (TypeName.named name).admits v =
    if name = "int" ∨ name = "float" then v.kindName == "number"
    else if name = "string" then v.kindName == "string"
    else if name = "bool" then v.kindName == "bool"
    else true := by
  by_cases hint : name = "int"
  · subst hint
    cases v <;> rfl
  by_cases hfloat : name = "float"
  · subst hfloat
    cases v <;> rfl
  by_cases hstring : name = "string"
  · subst hstring
    cases v <;> rfl
  by_cases hbool : name = "bool"
  · subst hbool
    cases v <;> rfl
  rw [if_neg (not_or.2 ⟨hint, hfloat⟩), if_neg hstring, if_neg hbool]
  cases v <;> simp [TypeName.admits, hint, hfloat, hstring, hbool]

theorem SameAll.all_admits_eq {element : TypeName}
    (helement : ∀ v w, Same v w → element.admits v = element.admits w) :
    ∀ {vs ws : List Value}, SameAll vs ws → vs.all element.admits = ws.all element.admits
  | _, _, .nil => rfl
  | _, _, .cons h hrest => by
    rw [List.all_cons, List.all_cons, helement _ _ h, hrest.all_admits_eq helement]

theorem Same.admits_eq (h : Same v w) (type : TypeName) : type.admits v = type.admits w := by
  induction type generalizing v w with
  | named name => rw [admits_named, admits_named, h.kindName_eq]
  | array element ih =>
    cases h with
    | array h => exact h.all_admits_eq fun v w => ih
    | _ => rfl

theorem Attuned.of_cons (h : Attuned (.array (v :: vs)) (.array (w :: ws))) :
    Attuned v w ∧ Attuned (.array vs) (.array ws) := by
  refine ⟨fun c hc d hd => h c ?_ d ?_, fun c hc d hd => h c ?_ d ?_⟩
  · exact List.mem_append_left _ hc
  · exact List.mem_append_left _ hd
  · exact List.mem_append_right _ hc
  · exact List.mem_append_right _ hd

mutual

theorem Same.text_eq : ∀ {v w : Value}, Same v w → Attuned v w → v.text = w.text
  | _, _, .null, _ => rfl
  | _, _, .number h, _ => by
    rcases Number.eq_or_zeros_of_beq h with rfl | ⟨hx, hy⟩
    · rfl
    · exact (Number.shown_text_of_zero hx).trans (Number.shown_text_of_zero hy).symm
  | _, _, .string s, _ => rfl
  | _, _, .bool b, _ => rfl
  | _, _, .array h, ha => by rw [text, text, h.texts_eq ha]
  | _, _, .capsule h, _ => by rw [text, text, h]
  | .closure c, .closure d, .closure h, ha => by
    rw [ha c List.mem_cons_self d List.mem_cons_self h]

theorem SameAll.texts_eq : ∀ {vs ws : List Value}, SameAll vs ws →
    Attuned (.array vs) (.array ws) → texts vs = texts ws
  | _, _, .nil, _ => rfl
  | _, _, .cons h hrest, ha => by
    rw [texts, texts, h.text_eq ha.of_cons.1, hrest.texts_eq ha.of_cons.2]

end

end Value

/-! ### Closures of a session -/

namespace Session

/-- In a session every closure that lives has an identity of its own. -/
theorem distinct_after (settings : Settings) (bound : Nat) (clock : Clock) (disk : Disk)
    (requests : List Request) :
    let i := ((start clock disk).after settings true bound requests).interpreter
    ∀ c d, i.machine.Living i.held c → i.machine.Living i.held d → c.identity = d.identity →
      c = d := by
  obtain ⟨moved, htwins⟩ := (Twins.start clock disk).after settings bound requests
  exact htwins.interpreter.agrees.sound.distinct

/-- Equality of values is symmetric and transitive, and a value equals itself if it contains no
number that is not a number. Equal values have one kind, count alike as conditions and pass the same
checks of type. They have one text where an identity names one closure, and so have all equal values
of a session, whatever was asked of it. -/
theorem same_congruence (settings : Settings) (bound : Nat) (clock : Clock) (disk : Disk)
    (requests : List Request) :
    (∀ v w : Value, v.same w = w.same v) ∧
    (∀ u v w : Value, u.same v = true → v.same w = true → u.same w = true) ∧
    (∀ v : Value, v.same v = true ↔ ∀ x, v.Contains (.number x) → x.isNaN = false) ∧
    (∀ v w : Value, v.same w = true → v.kindName = w.kindName ∧ v.isTruthy = w.isTruthy ∧
      (∀ type : TypeName, type.admits v = type.admits w) ∧ (v.Attuned w → v.text = w.text)) ∧
    let i := ((start clock disk).after settings true bound requests).interpreter
    ∀ v w : Value, (∀ c ∈ v.closures ++ w.closures, i.machine.Living i.held c) →
      v.Attuned w ∧ (v.same w = true → v.text = w.text) := by
  refine ⟨Value.same_comm, fun u v w h h' => ?_, Value.same_self_iff, fun v w h => ?_, ?_⟩
  · exact ((Value.same_iff.1 h).trans (Value.same_iff.1 h')).same
  · have hsame := Value.same_iff.1 h
    exact ⟨hsame.kindName_eq, hsame.isTruthy_eq, hsame.admits_eq, hsame.text_eq⟩
  · intro i v w hliving
    have hattuned : v.Attuned w := fun c hc d hd =>
      distinct_after settings bound clock disk requests c d
        (hliving c (List.mem_append_left _ hc)) (hliving d (List.mem_append_right _ hd))
    exact ⟨hattuned, fun h => (Value.same_iff.1 h).text_eq hattuned⟩

example : (Value.array [.number 0, .null]).same (.array [.number (-0), .null]) = true ∧
    (Value.array [.number (-0), .null]).text = "[0, null]" := ⟨rfl, rfl⟩

end Session
end Playscript
