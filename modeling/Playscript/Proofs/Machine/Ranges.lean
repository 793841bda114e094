/-
# A counted loop visits its range

The counter of a loop is a name of a scope that lasts as long as the loop. In front of
every execution of the body it is set to a float of the loop's own (`turns_of_lt`), so
what the body assigns to it is lost, and whatever the body does, the name is still there
(`Counting.after`). The float starts at the first bound and grows by one; the second
bound is evaluated once.

So there is one execution of the body for each integer of the range, and the counter
reads these integers in order, as long as floats stand for them (`counts_rangeLoop`).
Numbers are floats: they do where the range is empty or lies between `-2 ^ 53` and
`2 ^ 53`, and in any other range there is an integer that no counter can read
(`Loop.visits_iff`).

Key definitions: `Visit.turns`, `Machine.number?`, `Loop.Visits`, `Visit.Counts`.
Key theorems: `counts_rangeLoop`, `Loop.visits_iff`, `Session.counts_reached`.
-/
import Playscript.Proofs.Machine.Bounds
import Playscript.Proofs.Machine.Names
import Playscript.Proofs.Number.Values

namespace Playscript

open Eval Job

/-! ### The counter -/

/-- The frame that binds a name itself is the one that is found. -/
theorem Arena.owner?_of_binds {a : Arena} {s : Slot} {name : String} (hs : (a.frame? s).isSome)
    (hbinds : (a.bindings s).binds name = true) : a.owner? s name = some s := by
  obtain ⟨f, hf⟩ := Option.isSome_iff_exists.1 hs
  obtain ⟨steps, hsteps⟩ : ∃ steps, a.slots.size = steps + 1 :=
    Nat.exists_eq_add_one_of_ne_zero (Nat.ne_zero_of_lt (Arena.lt_size hf))
  rw [Arena.bindings_of_frame? hf] at hbinds
  rw [Arena.owner?, hsteps, Arena.ownerWithin, hf]
  dsimp only
  rw [if_pos hbinds]

/-- The number that a name has for its value. -/
def Machine.number? (m : Machine) (name : String) : Option ℚ :=
  match m.get? name with
  | some (.number x) => Number.value? x
  | _ => none

/-- What a name reads is the number of a float. -/
theorem Machine.exists_of_number? {m : Machine} {name : String} {q : ℚ}
    (h : m.number? name = some q) : ∃ x, Number.value? x = some q := by
  unfold number? at h
  split at h
  · exact ⟨_, h⟩
  · cases h

/-- A machine in order, in a scope at work that binds the counter of a loop. -/
structure Counting (host : Host) (m : Machine) (counter : String) : Prop where
  reclaims : host.reclaims = true
  sturdy : m.arena.Sturdy
  live : m.arena.Live m.current
  binds : (m.arena.bindings m.current).binds counter = true

namespace Counting

variable {host : Host} {held : List Value} {m n : Machine} {counter : String} {bound : Nat}
  {body : Stmt}

theorem of_define (hreclaims : host.reclaims = true) (hsturdy : m.arena.Sturdy)
    (hlive : m.arena.Live m.current) (counter : String) (v : Value) :
    Counting host (m.define counter v) counter := by
  have halike := Arena.Alike.define m.arena m.current counter v
  refine ⟨hreclaims, hsturdy.congr halike, (halike.live _).2 hlive, ?_⟩
  rw [Machine.define, Arena.bindings_define_self hlive.isSome, Bindings.binds_insert]
  simp

theorem define (h : Counting host m counter) (v : Value) :
    Counting host (m.define counter v) counter := of_define h.reclaims h.sturdy h.live counter v

/-- The scope that the loop starts, with its counter. -/
theorem enter {v : Visit} (hv : v.Working) (counter : String) (x : Value) :
    Counting v.host ((v.machine.enter v.machine.current).define counter x) counter := by
  refine of_define hv.reclaims (hv.sturdy.push _) ?_ counter x
  exact hv.sturdy.ledger.live_push.2 (.inl (Arena.push_fst _ _))

theorem working (h : Counting host m counter) (t : Job) : Visit.Working ⟨bound, t, host, held, m⟩ :=
  ⟨⟨h.reclaims, h.sturdy⟩, h.live⟩

/-- The loop sets its counter. -/
theorem assign (h : Counting host m counter) (v : Value) :
    Eval.assign counter v host held m = (.done (), m.define counter v) := by
  have hassign : m.arena.assign? m.current counter v =
      some (m.arena.define m.current counter v) := by
    rw [Arena.assign?, Arena.owner?_of_binds h.live.isSome h.binds]
    rfl
  rw [Eval.run_assign, hassign]
  rfl

/-- The counter reads what it has been set to. -/
theorem number?_define (h : Counting host m counter) (x : Float) :
    (m.define counter (.number x)).number? counter = Number.value? x := by
  have hset := h.define (.number x)
  have hget : (m.define counter (.number x)).get? counter = some (.number x) := by
    rw [Machine.get?, Arena.get?, Arena.owner?_of_binds hset.live.isSome hset.binds]
    show ((m.arena.define m.current counter (.number x)).bindings m.current).get? counter = _
    rw [Arena.bindings_define_self h.live.isSome, Bindings.get?_insert_self]
  rw [Machine.number?, hget]

/-- The body leaves the counter where it is, whatever it assigns to it. -/
theorem after (h : Counting host m counter)
    (hbody : Eval.execute bound body host held m = (.done .normal, n)) :
    Counting host n counter := by
  let v : Visit := ⟨bound, .execute body, host, held, m⟩
  have hv : v.Working := h.working _
  have hanswer : v.answer.2 = n := congrArg Prod.snd hbody
  have hafter : Visit.Working ⟨bound, .execute body, host, held, n⟩ := hanswer ▸ hv.after
  have hscope : n.current = m.current := hanswer ▸ v.scope_eq
  have hkeeps := (keepsStatements bound).execute hv
  rw [hbody] at hkeeps
  exact ⟨h.reclaims, hafter.sturdy, hafter.live, hscope ▸ hkeeps counter h.binds⟩

end Counting

/-! ### Turns -/

/-- The executions of its body that a counted loop asks for, one after the other. -/
def Visit.turnsWithin : Nat → Visit → List Visit
  | 0, _ => []
  | steps + 1, v => v.asks.flatMap fun u =>
    match u.job with
    | .execute _ => [u]
    | .perform _ | .rangeLoop _ _ _ _ => turnsWithin steps u
    | _ => []

/-- The executions of its body that a counted loop asks for; no loop is longer than its bound. -/
def Visit.turns (v : Visit) : List Visit := turnsWithin v.bound v

section Turns

variable {host : Host} {held : List Value} {m n : Machine} {counter : String} {x y : Float}
  {body : Stmt} {bound : Nat}

theorem turns_of_not_lt (hlt : ¬x < y) :
    Visit.turns ⟨bound, .rangeLoop counter x y body, host, held, m⟩ = [] := by
  cases bound with
  | zero => rfl
  | succ bound =>
    rw [Visit.turns, Visit.turnsWithin, Visit.asks]
    dsimp only
    rw [Job.below, if_neg hlt]
    rfl

/-- The loop sets its counter and asks for its body; if that is done, it goes on from there. -/
theorem turns_of_lt (h : Counting host m counter) (hlt : x < y) :
    Visit.turns ⟨bound + 1, .rangeLoop counter x y body, host, held, m⟩ =
      ⟨bound, .execute body, host, held, m.define counter (.number x)⟩ ::
        match Eval.execute bound body host held (m.define counter (.number x)) with
        | (.done .normal, n) =>
          Visit.turns ⟨bound, .rangeLoop counter (x + 1) y body, host, held, n⟩
        | _ => [] := by
  rw [Visit.turns, Visit.turnsWithin, Visit.asks]
  dsimp only
  rw [Job.below, if_pos hlt, Trace.andThen_of_done (h.assign _)]
  unfold Trace.andThen
  rw [List.flatMap_append]
  refine congrArg (_ :: ·) ?_
  rcases Eval.execute bound body host held (m.define counter (.number x)) with
    ⟨(flow | fault | _), n⟩
  · cases flow with
    | normal => exact List.append_nil _
    | returned vs => rfl
  · rfl
  · rfl

theorem turns_of_done (h : Counting host m counter) (hlt : x < y)
    (hbody : Eval.execute bound body host held (m.define counter (.number x)) =
      (.done .normal, n)) :
    Visit.turns ⟨bound + 1, .rangeLoop counter x y body, host, held, m⟩ =
      ⟨bound, .execute body, host, held, m.define counter (.number x)⟩ ::
        Visit.turns ⟨bound, .rangeLoop counter (x + 1) y body, host, held, n⟩ := by
  rw [turns_of_lt h hlt, hbody]

theorem run_rangeLoop_of_not_lt (hlt : ¬x < y) :
    Eval.rangeLoop (bound + 1) counter x y body host held m = (.done .normal, m) := by
  rw [Eval.rangeLoop, if_neg hlt]
  rfl

theorem run_rangeLoop_of_done (h : Counting host m counter) (hlt : x < y)
    (hbody : Eval.execute bound body host held (m.define counter (.number x)) =
      (.done .normal, n)) :
    Eval.rangeLoop (bound + 1) counter x y body host held m =
      Eval.rangeLoop bound counter (x + 1) y body host held n := by
  rw [Eval.rangeLoop, if_pos hlt]
  exact (bind_of_done (h.assign _)).trans (bind_of_done hbody)

/-- A larger bound starts with the same executions. -/
theorem turns_of_le (h : Counting host m counter) {bound' : Nat} (hle : bound ≤ bound') :
    (Visit.turns ⟨bound, .rangeLoop counter x y body, host, held, m⟩).map Visit.machine <+:
      (Visit.turns ⟨bound', .rangeLoop counter x y body, host, held, m⟩).map Visit.machine := by
  induction bound generalizing bound' x m with
  | zero => exact List.nil_prefix
  | succ bound ih =>
    obtain ⟨bound', rfl⟩ := Nat.exists_eq_add_one_of_ne_zero (Nat.ne_zero_of_lt hle)
    by_cases hlt : x < y
    · have hle := Nat.le_of_succ_le_succ hle
      have hsame := approximates_of_le hle (.execute body) host held (m.define counter (.number x))
      rw [turns_of_lt h hlt]
      rcases hbody : Eval.execute bound body host held (m.define counter (.number x)) with
        ⟨outcome, n⟩
      rw [Job.run, Job.run, hbody] at hsame
      rcases outcome with (_ | vs) | fault | _
      · have hbody' := hsame trivial
        rw [turns_of_done h hlt hbody']
        exact List.cons_prefix_cons.2 ⟨rfl, ih ((h.define _).after hbody) hle⟩
      all_goals
        rw [turns_of_lt h hlt]
        exact List.cons_prefix_cons.2 ⟨rfl, List.nil_prefix⟩
    · rw [turns_of_not_lt hlt, turns_of_not_lt hlt]

/-- What the loop asks for is its body, where the counter is bound. -/
theorem of_mem_turns (h : Counting host m counter) {u : Visit}
    (hu : u ∈ Visit.turns ⟨bound, .rangeLoop counter x y body, host, held, m⟩) :
    u.job = .execute body ∧ Counting host u.machine counter := by
  induction bound generalizing x m with
  | zero => cases hu
  | succ bound ih =>
    by_cases hlt : x < y
    · rw [turns_of_lt h hlt] at hu
      rcases hbody : Eval.execute bound body host held (m.define counter (.number x)) with
        ⟨(_ | vs) | fault | _, n⟩ <;> rw [hbody] at hu <;> obtain rfl | hu := List.mem_cons.1 hu
      · exact ⟨rfl, h.define _⟩
      · exact ih ((h.define _).after hbody) hu
      all_goals first | exact ⟨rfl, h.define _⟩ | cases hu
    · rw [turns_of_not_lt hlt] at hu
      cases hu

/-- The body of a loop is done normally wherever the loop asks for it. -/
def AlwaysNormal (host : Host) (held : List Value) (body : Stmt) (turns : Nat → List Visit) :
    Prop :=
  ∀ bound, ∀ u ∈ turns bound, ∃ n,
    (Job.execute body).EndsWith host held u.machine (.done .normal) n

theorem AlwaysNormal.mono {turns turns' : Nat → List Visit}
    (hall : AlwaysNormal host held body turns) (hturns : ∀ bound, ∃ bound',
      (turns' bound).map Visit.machine ⊆ (turns bound').map Visit.machine) :
    AlwaysNormal host held body turns' := by
  intro bound u hu
  obtain ⟨bound', hsubset⟩ := hturns bound
  obtain ⟨u', hu', heq⟩ := List.mem_map.1 (hsubset (List.mem_map_of_mem hu))
  exact heq ▸ hall bound' u' hu'

/-- Where the loop goes on it has the rest of its turns left. -/
theorem AlwaysNormal.rest {least : Nat}
    (hall : AlwaysNormal host held body fun bound =>
      Visit.turns ⟨bound, .rangeLoop counter x y body, host, held, m⟩)
    (h : Counting host m counter) (hlt : x < y)
    (hbody : ∀ bound, least ≤ bound →
      Eval.execute bound body host held (m.define counter (.number x)) = (.done .normal, n)) :
    AlwaysNormal host held body fun bound =>
      Visit.turns ⟨bound, .rangeLoop counter (x + 1) y body, host, held, n⟩ := by
  refine hall.mono fun bound => ⟨max bound least + 1, ?_⟩
  have hleast := hbody (max bound least) (Nat.le_max_right _ _)
  have hcounting := (h.define (.number x)).after hleast
  rw [turns_of_done h hlt hleast]
  exact List.Subset.trans (turns_of_le hcounting (Nat.le_max_left _ _)).subset
    (List.subset_cons_self _ _)

end Turns

/-! ### Ranges -/

section Ranges

variable {host : Host} {held : List Value} {m : Machine} {counter : String} {x y : Float}
  {body : Stmt} {first limit : Int}

/-- If all integers of its range are numbers, a loop asks for its body once for each of them, in
order, with the counter set to it. -/
theorem counts_rangeLoop (hx : Number.value? x = some (first : ℚ))
    (hy : Number.value? y = some (limit : ℚ))
    (hnumbers : ∀ k : Int, first ≤ k → k < limit → ∃ z, Number.value? z = some (k : ℚ))
    (h : Counting host m counter)
    (hall : AlwaysNormal host held body fun bound =>
      Visit.turns ⟨bound, .rangeLoop counter x y body, host, held, m⟩) :
    ∃ n least, ∀ bound, least ≤ bound →
      Eval.rangeLoop bound counter x y body host held m = (.done .normal, n) ∧
        (Visit.turns ⟨bound, .rangeLoop counter x y body, host, held, m⟩).map
          (fun u => u.machine.number? counter) = (Number.range first limit).map some := by
  have hlt : x < y ↔ first < limit := by rw [Number.lt_iff hx hy, Int.cast_lt]
  induction hleft : (limit - first).toNat generalizing first x m with
  | zero =>
    refine ⟨m, 1, fun bound hbound => ?_⟩
    obtain ⟨bound, rfl⟩ := Nat.exists_eq_add_one_of_ne_zero (Nat.ne_zero_of_lt hbound)
    have hend : ¬x < y := by rw [hlt]; omega
    rw [run_rangeLoop_of_not_lt hend, turns_of_not_lt hend, Number.range_of_le (by omega)]
    exact ⟨rfl, rfl⟩
  | succ left ih =>
    have hfirst : first < limit := by omega
    have hgoes := hlt.2 hfirst
    -- the body ends at the first turn, which any bound but zero comes to
    obtain ⟨n, hbody⟩ := hall 1 ⟨0, .execute body, host, held, m.define counter (.number x)⟩
      (by dsimp only; rw [turns_of_lt h hgoes]; exact List.mem_cons_self)
    obtain ⟨least, hleast⟩ := hbody.exists_least
    have hnext : Number.value? (x + 1) = some ((first + 1 : Int) : ℚ) := by
      obtain ⟨z, hz⟩ : ∃ z, Number.value? z = some ((first + 1 : Int) : ℚ) := by
        rcases Int.lt_or_le (first + 1) limit with hlast | hlast
        · exact hnumbers (first + 1) (by omega) hlast
        · exact ⟨y, by rw [hy, show limit = first + 1 by omega]⟩
      rw [Int.cast_add, Int.cast_one] at hz ⊢
      exact Number.value?_add hx Number.value?_one hz
    have hcounting := (h.define (.number x)).after (hleast least (Nat.le_refl _))
    obtain ⟨o, least', hrest⟩ := ih hnext (fun k hk => hnumbers k (by omega)) hcounting
      (hall.rest h hgoes hleast) (by rw [Number.lt_iff hnext hy, Int.cast_lt]) (by omega)
    refine ⟨o, max least least' + 1, fun bound hbound => ?_⟩
    obtain ⟨bound, rfl⟩ := Nat.exists_eq_add_one_of_ne_zero (Nat.ne_zero_of_lt hbound)
    have hdone := hleast bound (by omega)
    obtain ⟨hrun, hturns⟩ := hrest bound (by omega)
    rw [run_rangeLoop_of_done h hgoes hdone, turns_of_done h hgoes hdone,
      Number.range_of_lt hfirst, List.map_cons, List.map_cons, hturns, h.number?_define, hx]
    exact ⟨hrun, rfl⟩

end Ranges

/-! ### Loops -/

/-- A counted loop. -/
structure Loop where
  span : Span
  counter : Ident
  start : Expr
  stop : Expr
  body : Stmt

namespace Loop

def stmt (l : Loop) : Stmt := .loopRange l.span l.counter l.start l.stop l.body

/-- The executions of its body that the loop asks for. -/
def turns (l : Loop) (host : Host) (held : List Value) (m : Machine) (bound : Nat) : List Visit :=
  Visit.turns ⟨bound, .execute l.stmt, host, held, m⟩

/-- The bounds of the loop evaluate to floats for two integers, one after the other. -/
def Spans (l : Loop) (host : Host) (held : List Value) (m : Machine) (first limit : Int) : Prop :=
  ∃ (x y : Float) (k n : Machine),
    (Job.evaluateNumber "range start" l.start).EndsWith host held m (.done x) k ∧
    (Job.evaluateNumber "range end" l.stop).EndsWith host held k (.done y) n ∧
    Number.value? x = some (first : ℚ) ∧ Number.value? y = some (limit : ℚ)

/-- The loop ends, and it has asked for its body once for each integer of a range, in order, with
the counter set to it. -/
def Visits (l : Loop) (host : Host) (held : List Value) (m : Machine) (first limit : Int) : Prop :=
  ∃ n least, ∀ bound, least ≤ bound →
    Eval.execute bound l.stmt host held m = (.done .normal, n) ∧
      (l.turns host held m bound).map (fun u => u.machine.number? l.counter.name) =
        (Number.range first limit).map some ∧
      ∀ u ∈ l.turns host held m bound, u.job = .execute l.body

variable {l : Loop} {host : Host} {held : List Value} {m k n o : Machine} {x y : Float}
  {bound : Nat} {first limit : Int}

/-- The turns are those that the parts of the loop ask for. -/
theorem turns_perform : l.turns host held m (bound + 2) =
    (Visit.asks ⟨bound + 1, .perform l.stmt, host, held, m⟩).flatMap fun u =>
      match u.job with
      | .execute _ => [u]
      | .perform _ | .rangeLoop _ _ _ _ => Visit.turnsWithin bound u
      | _ => [] := by
  have hperform : Visit.asks ⟨bound + 2, .execute l.stmt, host, held, m⟩ =
      [⟨bound + 1, .perform l.stmt, host, held, m⟩] := rfl
  rw [turns, Visit.turns, Visit.turnsWithin, hperform, List.flatMap_singleton]
  rfl

theorem turns_eq (hx : Eval.evaluateNumber bound "range start" l.start host held m = (.done x, k))
    (hy : Eval.evaluateNumber bound "range end" l.stop host held k = (.done y, n)) :
    l.turns host held m (bound + 2) = Visit.turns ⟨bound, .rangeLoop l.counter.name x y l.body,
      host, held, (n.enter n.current).define l.counter.name (.number x)⟩ := by
  have hasks : Visit.asks ⟨bound + 1, .perform l.stmt, host, held, m⟩ =
      [⟨bound, .evaluateNumber "range start" l.start, host, held, m⟩,
        ⟨bound, .evaluateNumber "range end" l.stop, host, held, k⟩,
        ⟨bound, .rangeLoop l.counter.name x y l.body, host, held,
          (n.enter n.current).define l.counter.name (.number x)⟩] := by
    show Trace.andThen _ _ _ host held m = _
    rw [Trace.append_of_done hx, Trace.append_of_done hy]
    rfl
  rw [turns_perform, hasks]
  exact List.append_nil _

theorem run_eq (hx : Eval.evaluateNumber bound "range start" l.start host held m = (.done x, k))
    (hy : Eval.evaluateNumber bound "range end" l.stop host held k = (.done y, n))
    (hloop : Eval.rangeLoop bound l.counter.name x y l.body host held
      ((n.enter n.current).define l.counter.name (.number x)) = (.done .normal, o)) :
    Eval.execute (bound + 2) l.stmt host held m = (.done .normal, o.leave host held n.current) := by
  rw [Eval.execute]
  refine claiming_of_done ?_
  rw [stmt, Eval.perform]
  refine (bind_of_done hx).trans ((bind_of_done hy).trans ((bind_of_done rfl).trans ?_))
  have hbody : (Eval.define l.counter.name (.number x) >>= fun _ =>
      Eval.rangeLoop bound l.counter.name x y l.body) host held (n.enter n.current) =
        (.done .normal, o) := (bind_of_done rfl).trans hloop
  rw [inScope_eq, hbody]
  rfl

/-- A loop that visits a range has set its counter to all of its integers. -/
theorem Visits.numbers (h : l.Visits host held m first limit) (k : Int) (hk : first ≤ k)
    (hk' : k < limit) : ∃ z, Number.value? z = some (k : ℚ) := by
  obtain ⟨n, least, hleast⟩ := h
  obtain ⟨-, hturns, -⟩ := hleast least (Nat.le_refl _)
  have hmem : some (k : ℚ) ∈ (Number.range first limit).map some :=
    List.mem_map_of_mem (Number.mem_range hk hk')
  rw [← hturns] at hmem
  obtain ⟨u, -, hu⟩ := List.mem_map.1 hmem
  exact Machine.exists_of_number? hu

/-- A loop that has a turn has had both its bounds. -/
theorem exists_of_mem_turns {u : Visit} (hu : u ∈ l.turns host held m bound) :
    ∃ b x k y n, bound = b + 2 ∧
      Eval.evaluateNumber b "range start" l.start host held m = (.done x, k) ∧
      Eval.evaluateNumber b "range end" l.stop host held k = (.done y, n) := by
  match bound with
  | 0 | 1 => cases hu
  | b + 2 =>
    rw [turns_perform] at hu
    change u ∈ List.flatMap _ (Trace.andThen _ _ _ host held m) at hu
    rcases hx : Eval.evaluateNumber b "range start" l.start host held m with ⟨x | fault | _, k⟩
    · rw [Trace.append_of_done hx] at hu
      rcases hy : Eval.evaluateNumber b "range end" l.stop host held k with ⟨y | fault | _, n⟩
      · exact ⟨b, x, k, y, n, rfl, hx, hy⟩
      all_goals
        unfold Trace.andThen at hu
        rw [hy] at hu
        cases hu
    all_goals
      unfold Trace.andThen at hu
      rw [hx] at hu
      cases hu

/-- Where both bounds are done the counter is bound, in a scope of its own. -/
theorem counting {v : Visit} (hv : v.Working)
    (hx : Eval.evaluateNumber bound "range start" l.start v.host v.held v.machine = (.done x, k))
    {bound' : Nat}
    (hy : Eval.evaluateNumber bound' "range end" l.stop v.host v.held k = (.done y, n)) :
    Counting v.host ((n.enter n.current).define l.counter.name (.number x)) l.counter.name := by
  let u : Visit := ⟨bound, .evaluateNumber "range start" l.start, v.host, v.held, v.machine⟩
  let u' : Visit := ⟨bound', .evaluateNumber "range end" l.stop, v.host, v.held, k⟩
  have hu : u.answer.2 = k := congrArg Prod.snd hx
  have hu' : u'.answer.2 = n := congrArg Prod.snd hy
  have hk : Visit.Working ⟨bound', u'.job, v.host, v.held, u.answer.2⟩ :=
    (hv.also : u.Working).after
  rw [hu] at hk
  have hn : Visit.Working ⟨bound', u'.job, v.host, v.held, u'.answer.2⟩ :=
    (hk : u'.Working).after
  rw [hu'] at hn
  exact .enter hn _ _

theorem counting_of_mem_turns {u v : Visit} (hv : v.Working)
    (hu : u ∈ l.turns v.host v.held v.machine bound) :
    Counting v.host u.machine l.counter.name := by
  obtain ⟨b, x, k, y, n, rfl, hx, hy⟩ := exists_of_mem_turns hu
  rw [turns_eq hx hy] at hu
  exact (of_mem_turns (counting hv hx hy) hu).2

/-- Where its body is done normally each time, a loop visits its range if and only if there are
floats for all integers of the range. -/
theorem visits_iff {v : Visit} (hv : v.Working)
    (hspans : l.Spans v.host v.held v.machine first limit)
    (hall : AlwaysNormal v.host v.held l.body (l.turns v.host v.held v.machine)) :
    l.Visits v.host v.held v.machine first limit ↔
      limit ≤ first ∨ -2 ^ 53 ≤ first ∧ limit ≤ 2 ^ 53 := by
  obtain ⟨x, y, k, n, hstart, hstop, hx, hy⟩ := hspans
  rw [← Number.integers_iff hx hy]
  refine ⟨Visits.numbers, fun hnumbers => ?_⟩
  obtain ⟨least, hleast⟩ := hstart.exists_least
  obtain ⟨least', hleast'⟩ := hstop.exists_least
  have hcounting : Counting v.host ((n.enter n.current).define l.counter.name (.number x))
      l.counter.name := counting hv (hleast least (Nat.le_refl _)) (hleast' least' (Nat.le_refl _))
  have hrest : AlwaysNormal v.host v.held l.body fun bound =>
      Visit.turns ⟨bound, .rangeLoop l.counter.name x y l.body, v.host, v.held,
        (n.enter n.current).define l.counter.name (.number x)⟩ := by
    refine hall.mono fun bound => ⟨max bound (max least least') + 2, ?_⟩
    rw [turns_eq (hleast _ (by omega)) (hleast' _ (by omega))]
    exact (turns_of_le hcounting (Nat.le_max_left _ _)).subset
  obtain ⟨o, least'', hloop⟩ := counts_rangeLoop hx hy hnumbers hcounting hrest
  refine ⟨o.leave v.host v.held n.current, max (max least least') least'' + 2, ?_⟩
  intro bound hbound
  obtain ⟨bound, rfl⟩ : ∃ b, bound = b + 2 := ⟨bound - 2, by omega⟩
  obtain ⟨hrun, hturns⟩ := hloop bound (by omega)
  have hstart := hleast bound (by omega)
  have hstop := hleast' bound (by omega)
  rw [turns_eq hstart hstop]
  exact ⟨run_eq hstart hstop hrun, hturns, fun u hu => (of_mem_turns hcounting hu).1⟩

end Loop

/-! ### Sessions -/

/-- What loops do that start where a visit does, with integers for their bounds. -/
structure Visit.Counts (v : Visit) : Prop where
  /-- Where its body is done normally each time, the loop visits its range if and only if that is
  empty or not beyond `2 ^ 53` on either side. -/
  visits : ∀ (l : Loop) (first limit : Int), l.Spans v.host v.held v.machine first limit →
    AlwaysNormal v.host v.held l.body (l.turns v.host v.held v.machine) →
      (l.Visits v.host v.held v.machine first limit ↔
        limit ≤ first ∨ -2 ^ 53 ≤ first ∧ limit ≤ 2 ^ 53)
  /-- These are the ranges with a float for each of their integers. -/
  numbers : ∀ (l : Loop) (first limit : Int), l.Spans v.host v.held v.machine first limit →
    ((∀ k : Int, first ≤ k → k < limit → ∃ z, Number.value? z = some (k : ℚ)) ↔
      limit ≤ first ∨ -2 ^ 53 ≤ first ∧ limit ≤ 2 ^ 53)

theorem Visit.Working.counts {v : Visit} (hv : v.Working) : v.Counts where
  visits _ _ _ := Loop.visits_iff hv
  numbers _ _ _ := fun ⟨_, _, _, _, _, _, hx, hy⟩ => Number.integers_iff hx hy

namespace Session

/-- Every loop counts in this way on every machine in order whose scope in use is at work. In a
session every machine is. -/
theorem counts_reached :
    (∀ v : Visit, v.Working → v.Counts) ∧
    ∀ (settings : Settings) (bound : Nat) (clock : Clock) (disk : Disk) (requests : List Request),
      ∀ v ∈ (start clock disk).visits settings true bound requests, v.Working ∧ v.Counts := by
  refine ⟨fun v hv => hv.counts, fun settings bound clock disk requests v hv => ?_⟩
  have hstart := orderly_start clock disk
  have hworking : v.Working := ⟨(orderly_after settings bound hstart requests).2 v hv,
    working_after settings bound hstart (working_start clock disk) requests v hv⟩
  exact ⟨hworking, hworking.counts⟩

/-- The counter of a loop from 0 to 2 is set to 100 by its body. -/
def overwriting : Loop :=
  { span := default, counter := ⟨"i", default⟩
    start := .number default 0, stop := .number default 3
    body := .evaluate default (.assign default ⟨"i", default⟩ (.number default 100)) }

theorem counts_reached_overwriting :
    let host : Host := (start ⟨0, 0⟩ ⟨fun _ => none, fun _ => .error .missing⟩).host .standard true
    let v : Visit := ⟨0, .execute overwriting.stmt, host, [], Machine.start ⟨0, 0⟩⟩
    v.Working ∧ overwriting.Spans v.host v.held v.machine 0 3 ∧
      AlwaysNormal v.host v.held overwriting.body (overwriting.turns v.host v.held v.machine) ∧
      overwriting.Visits v.host v.held v.machine 0 3 := by
  intro host v
  have hv : v.Working := ⟨⟨rfl, orderly_start ⟨0, 0⟩ host.disk⟩, working_start ⟨0, 0⟩ host.disk⟩
  have hspans : overwriting.Spans v.host v.held v.machine 0 3 := by
    refine ⟨0, 3, v.machine, v.machine, ⟨trivial, 4, rfl⟩, ⟨trivial, 4, rfl⟩, ?_, ?_⟩
    · rw [Int.cast_zero]
      rfl
    · have hvalue : Number.value? 3 = some (Number.signed .positive (3 * 2 ^ 51) (-51)) := rfl
      rw [hvalue, Number.signed_positive]
      norm_num
  have hall : AlwaysNormal v.host v.held overwriting.body
      (overwriting.turns v.host v.held v.machine) := by
    intro bound u hu
    have hcounting := Loop.counting_of_mem_turns hv hu
    refine ⟨u.machine.define "i" (.number 100), trivial, 6, ?_⟩
    have hassign : Eval.evaluate 4 (.assign default ⟨"i", default⟩ (.number default 100)) v.host
        v.held u.machine = (.done (.number 100), u.machine.define "i" (.number 100)) :=
      claiming_of_done ((bind_of_done rfl).trans ((bind_of_done (hcounting.assign _)).trans rfl))
    exact claiming_of_done ((bind_of_done hassign).trans rfl)
  have hcounts := counts_reached.1 v hv
  exact ⟨hv, hspans, hall, (hcounts.visits overwriting 0 3 hspans hall).2 (.inr (by norm_num))⟩

/-- From `-2 ^ 53 - 2` on: the next integer is one that no float stands for. -/
def beyond : Loop :=
  { span := default, counter := ⟨"i", default⟩
    start := .negate default (.number default 9007199254740994)
    stop := .negate default (.number default 9007199254740990)
    body := .display default [.string default "x"] }

/-- The loop ends after three turns instead of four. -/
theorem beyond_falls_short :
    let host : Host := (start ⟨0, 0⟩ ⟨fun _ => none, fun _ => .error .missing⟩).host .standard true
    let m := Machine.start ⟨0, 0⟩
    beyond.Spans host [] m (-9007199254740994) (-9007199254740990) ∧
      AlwaysNormal host [] beyond.body (beyond.turns host [] m) ∧
      (Eval.execute 40 beyond.stmt host [] m).1.isDone = true ∧
      (beyond.turns host [] m 40).length = 3 ∧
      ¬beyond.Visits host [] m (-9007199254740994) (-9007199254740990) := by
  intro host m
  refine ⟨?_, ?_, by decide +kernel, by decide +kernel, fun h => ?_⟩
  · refine ⟨-9007199254740994, -9007199254740990, m, m, ⟨trivial, 6, rfl⟩, ⟨trivial, 6, rfl⟩,
      ?_, ?_⟩
    · have hvalue : Number.value? (-9007199254740994) =
          some (Number.signed .negative (2 ^ 52 + 1) 1) := rfl
      rw [hvalue, Number.signed_negative]
      norm_num
    · have hvalue : Number.value? (-9007199254740990) =
          some (Number.signed .negative (2 ^ 53 - 2) 0) := rfl
      rw [hvalue, Number.signed_negative]
      norm_num
  · intro bound u hu
    exact ⟨_, trivial, 6, rfl⟩
  · obtain ⟨z, hz⟩ := h.numbers (-9007199254740993) (by decide) (by decide)
    exact absurd (Number.abs_lt_of_odd hz (by decide)) (by decide)

end Session

end Playscript
