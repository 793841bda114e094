/-
# No frame is left over between programs

After a program, however it ended, no scope is open but the outermost, and the
arena holds exactly the frames that are reached from the root and from the
functions that modules export and the host holds (`Settled`). This is so after
every session, whatever was run, called and failed before
(`Session.settled_after`).

The host's capsules may have functions among their defaults. A script does not
see these, so a collection counts them with what the host holds, also where the
capsule is bound in a frame that the collection takes. Where no request gives
such a capsule there are none.

Key definitions: `Interpreter.Settled`, `Request.Plain`.
Key theorems: `Twins.settled_collect`, `Session.plain_after`, `Session.settled_after`.
-/
import Playscript.Proofs.Arena.Exactness
import Playscript.Proofs.Machine.Plainness
import Playscript.Proofs.Pairing.Sessions

namespace Playscript

/-! ### Collecting between programs -/

namespace Interpreter

/-- The root, and the frames of the functions that the host keeps, of those that modules export
and of some more. -/
def Kept (i : Interpreter) (more : List Closure) : Slot → Prop :=
  Arena.Kept (Value.placesAll (i.machine.outside i.held) ++ more)

/-- No scope is open but the outermost, and the frames are exactly those that are reached, from
what the host keeps, what modules export and the functions that count besides. -/
structure Settled (i : Interpreter) (more : List Closure) : Prop where
  current : i.machine.current = Arena.root
  live : ∀ s, i.machine.arena.Live s ↔ s = Arena.root
  frames : ∀ s, (i.machine.arena.frame? s).isSome ↔ i.machine.arena.Reaches (i.Kept more) s
  frameCount : i.frameCount = Set.ncard {s | i.machine.arena.Reaches (i.Kept more) s}

namespace Twins

variable {place : Slot → Slot} {more : List Value} {i j : Interpreter}

/-- After a collection the machine is settled. What is in hand meanwhile and what is in the
defaults of capsules counts. -/
theorem settled_collect (h : i.Twins place more j) (host : Host) :
    (i.collect host.reclaiming more).Settled
      (Value.placesAll more ++ i.machine.arena.buried) := by
  have hsound := h.agrees.sound
  have hafter := h.collect host []
  have hkept : Arena.Kept (Value.placesAll (i.machine.outside (more ++ i.held)) ++
        i.machine.arena.buried) =
      i.Kept (Value.placesAll more ++ i.machine.arena.buried) := Arena.Kept.congr fun c => by
    simp only [Machine.outside, List.mem_append, Value.mem_placesAll_append]
    tauto
  -- no frame is at work but the root, so the collection starts at what is kept
  have hstarts : i.machine.arena.Starts (i.machine.outside (more ++ i.held)) = _ :=
    Arena.starts_eq_kept h.live
  have hframes := fun s => (Arena.Prunes.collect _ _).isSome_iff_reaches (s := s)
    fun _ => hsound.isSome_collect
  rw [hstarts, hkept] at hframes
  exact
    { current := hafter.current
      live := hafter.live
      frames := hframes
      frameCount := (hsound.shape.collect _).ledger.occupied_eq_ncard hframes }

/-! ### Programs -/

theorem settled_interpret (h : i.Twins place [] j) (host : Host) (bound : Nat)
    (program : Program) :
    (i.interpret bound host.reclaiming program).2.Settled
      (i.cleared.perform host.reclaiming (runTop bound program.body)).2.machine.arena.buried := by
  obtain ⟨moved, htwins, -⟩ :=
    h.cleared.perform host (tracks_runTop bound program.body _ _ h.agrees)
  unfold Interpreter.interpret
  generalize i.cleared.perform host.reclaiming (runTop bound program.body) = r at htwins
  obtain ⟨outcome, i'⟩ := r
  cases outcome with
  | done u => exact htwins.settled_collect host
  | failed fault => exact (htwins.report host program fault.failure).settled_collect host
  | exhausted => exact htwins.settled_collect host

theorem settled_run (h : i.Twins place [] j) (host : Host) (bound : Nat) (program : Program) :
    let all := i.cleared.perform host.reclaiming (Eval.executeAll bound program.body)
    (i.run bound host.reclaiming program).2.Settled
      (Value.placesAll all.1.cargo ++ all.2.machine.arena.buried) := by
  obtain ⟨moved, htwins, -⟩ := h.cleared.perform host
    ((Eval.Tracked.tracked host bound).executeAll program.body _ _ h.agrees)
  dsimp only
  unfold Interpreter.run
  generalize i.cleared.perform host.reclaiming (Eval.executeAll bound program.body) = r at htwins ⊢
  obtain ⟨outcome, i'⟩ := r
  cases outcome with
  | done flow => cases flow <;> exact htwins.settled_collect host
  | failed fault => exact htwins.settled_collect host
  | exhausted => exact htwins.settled_collect host

end Twins
end Interpreter

/-! ### Sessions without functions in defaults -/

/-- Made of values whose capsules have no functions in their defaults, a value has none. -/
def Pick.Plain (p : Pick) : Prop :=
  ∀ kept : List Value, (∀ v ∈ kept, v.Plain) → (p.value kept).Plain

/-- The request gives no capsule with functions in its defaults. -/
def Request.Plain : Request → Prop
  | .call f args _ => f.Plain ∧ ∀ p ∈ args, p.Plain
  | _ => True

namespace Interpreter

/-- No value of the interpreter has a capsule with functions in its defaults. -/
structure Plain (i : Interpreter) : Prop where
  machine : i.machine.Plain
  held : ∀ v ∈ i.held, v.Plain

variable {i : Interpreter}

theorem Plain.perform {α : Type} [Cargo α] {x : Eval α} (h : i.Plain) (host : Host) (hx : x.Keeps) :
    (i.perform host x).2.Plain ∧ ∀ v ∈ (i.perform host x).1.cargo, v.Plain :=
  have hx := hx host i.held i.machine h.machine
  ⟨⟨hx.1, h.held⟩, hx.2⟩

theorem Plain.cleared (h : i.Plain) : i.cleared.Plain := ⟨h.machine, h.held⟩

theorem Plain.collect (h : i.Plain) (host : Host) (more : List Value) :
    (i.collect host more).Plain :=
  ⟨h.machine.collect host _, h.held⟩

theorem keeps_runTop (bound : Nat) (ss : List Stmt) : (runTop bound ss).Keeps := by
  induction ss with
  | nil => exact .bare rfl
  | cons s rest ih =>
    refine .bind ((Eval.Kept.kept bound).execute s) fun flow _ => ?_
    cases flow with
    | normal => exact ih
    | returned vs => exact .claiming s.span (.fail _)

/-- Values let go leave plain values. -/
theorem plain_letGo {given : List Nat} {kept : List Value} (h : ∀ v ∈ kept, v.Plain) :
    ∀ v ∈ Session.letGo given kept, v.Plain := by
  induction given generalizing kept with
  | nil => exact h
  | cons k given ih =>
    refine ih fun v hv => ?_
    rcases List.mem_or_eq_of_mem_set hv with hv | rfl
    · exact h v hv
    · rfl

/-- Values made for a plain request are plain. -/
theorem plain_valueAll {kept : List Value} (h : ∀ v ∈ kept, v.Plain) {ps : List Pick}
    (hps : ∀ p ∈ ps, p.Plain) : ∀ v ∈ Pick.valueAll kept ps, v.Plain := by
  induction ps with
  | nil => exact fun v hv => by cases hv
  | cons p ps ih =>
    intro v hv
    rcases List.mem_cons.1 hv with rfl | hv
    · exact hps p List.mem_cons_self kept h
    · exact ih (fun q hq => hps q (List.mem_cons_of_mem _ hq)) v hv

theorem Plain.interpret (h : i.Plain) (host : Host) (bound : Nat) (program : Program) :
    (i.interpret bound host program).2.Plain := by
  have hperform := (h.cleared.perform host (keeps_runTop bound program.body)).1
  unfold Interpreter.interpret
  generalize i.cleared.perform host (runTop bound program.body) = r at hperform
  obtain ⟨outcome, i'⟩ := r
  cases outcome with
  | done u => exact hperform.collect host _
  | failed fault =>
    have hreport : (i'.report host program fault.failure).Plain :=
      ⟨hperform.machine.congr rfl rfl, hperform.held⟩
    exact hreport.collect host _
  | exhausted => exact hperform.collect host _

theorem Plain.run (h : i.Plain) (host : Host) (bound : Nat) (program : Program) :
    (i.run bound host program).2.Plain := by
  have hperform :=
    (h.cleared.perform host ((Eval.Kept.kept bound).executeAll program.body)).1
  unfold Interpreter.run
  generalize i.cleared.perform host (Eval.executeAll bound program.body) = r at hperform
  obtain ⟨outcome, i'⟩ := r
  cases outcome with
  | done flow => cases flow <;> exact hperform.collect host _
  | failed fault => exact hperform.collect host _
  | exhausted => exact hperform.collect host _

/-- A plain request is answered with plain values, and leaves an interpreter plain. -/
theorem Plain.answer (h : i.Plain) (host : Host) (bound : Nat) {r : Request} (hr : r.Plain) :
    (Session.answer bound i host r).2.Plain ∧
      ∀ v ∈ (Session.answer bound i host r).1.values, v.Plain := by
  have hnone : ∀ v ∈ ([] : List Value), v.Plain := fun v hv => by cases hv
  cases r with
  | interpret program => exact ⟨h.interpret host bound program, hnone⟩
  | run program => exact ⟨h.run host bound program, hnone⟩
  | execute s =>
    have hperform := h.perform host ((Eval.Kept.kept bound).execute s)
    rw [Twins.values_flowed] at hperform
    exact hperform
  | evaluate e =>
    have hperform := h.perform host ((Eval.Kept.kept bound).evaluate e)
    rw [Twins.values_answered] at hperform
    exact hperform
  | call f args given =>
    have hgiven : Plain { i with held := Session.letGo given i.held } :=
      ⟨h.machine, plain_letGo h.held⟩
    have hcall := (Eval.Kept.kept bound).call (hr.1 i.held h.held) (plain_valueAll h.held hr.2)
    have hperform := hgiven.perform host (.holding [f.value i.held] hcall)
    rw [Twins.values_answered] at hperform
    exact hperform
  | look name =>
    refine ⟨h, fun v hv => ?_⟩
    change v ∈ (Reply.found (i.machine.get? name)).values at hv
    rcases hget : i.machine.get? name with _ | w <;> rw [hget] at hv
    · cases hv
    · rw [List.mem_singleton.1 hv]
      exact h.machine.of_get? hget
  | invalidate => exact ⟨⟨⟨h.machine.bindings, hnone⟩, h.held⟩, hnone⟩
  | drop given => exact ⟨⟨h.machine, plain_letGo h.held⟩, hnone⟩
  | edit disk => exact ⟨h, hnone⟩
  | wait clock => exact ⟨⟨h.machine.congr rfl rfl, h.held⟩, hnone⟩

end Interpreter

/-! ### Sessions -/

namespace Session

variable {place : Slot → Slot} {s s' : Session} {settings : Settings} {reclaims : Bool}
  {bound : Nat}

theorem plain_step (h : s.interpreter.Plain) {r : Request} (hr : r.Plain) :
    (s.step settings reclaims bound r).2.interpreter.Plain := by
  obtain ⟨hplain, hvalues⟩ := h.answer (s.host settings reclaims) bound hr
  exact ⟨hplain.machine, fun v hv => (List.mem_append.1 hv).elim (hplain.held v) (hvalues v)⟩

/-- Plain requests leave a session plain. -/
theorem plain_after (h : s.interpreter.Plain) {requests : List Request}
    (hrequests : ∀ r ∈ requests, r.Plain) :
    (s.after settings reclaims bound requests).interpreter.Plain := by
  induction requests generalizing s with
  | nil => exact h
  | cons r rest ih =>
    exact ih (plain_step h (hrequests r List.mem_cons_self)) fun q hq =>
      hrequests q (List.mem_cons_of_mem _ hq)

/-- Requests leave twin sessions. -/
theorem Twins.after (h : Twins place s s') (settings : Settings) (bound : Nat)
    (requests : List Request) :
    ∃ moved, Twins moved (s.after settings true bound requests)
      (s'.after settings false bound requests) := by
  induction requests generalizing place s s' with
  | nil => exact ⟨place, h⟩
  | cons r rest ih =>
    obtain ⟨moved, htwins, -⟩ := h.step settings bound r
    exact ih htwins

/-- After a program the interpreter is settled, whatever the session was before: what an escaped
`return` carries counts after `run`, and what is in the defaults of capsules counts too, of which
there is nothing if no request gave any. -/
theorem settled_after (settings : Settings) (bound : Nat) (clock : Clock) (disk : Disk)
    (requests : List Request) (program : Program) :
    let s := (start clock disk).after settings true bound requests
    let i := s.interpreter
    let host := s.host settings true
    let top := i.perform host (Interpreter.runTop bound program.body)
    let all := i.perform host (Eval.executeAll bound program.body)
    (i.interpret bound host program).2.Settled top.2.machine.arena.buried ∧
      (i.run bound host program).2.Settled
        (Value.placesAll all.1.cargo ++ all.2.machine.arena.buried) ∧
      ((∀ r ∈ requests, r.Plain) →
        (i.interpret bound host program).2.Settled [] ∧
          (i.run bound host program).2.Settled (Value.placesAll all.1.cargo)) := by
  intro s i host top all
  obtain ⟨moved, htwins⟩ :=
    (Twins.start clock disk).after settings bound requests
  have hinterpret : (i.interpret bound host program).2.Settled top.2.machine.arena.buried :=
    htwins.interpreter.settled_interpret host bound program
  have hrun : (i.run bound host program).2.Settled
      (Value.placesAll all.1.cargo ++ all.2.machine.arena.buried) :=
    htwins.interpreter.settled_run host bound program
  refine ⟨hinterpret, hrun, fun hplain => ?_⟩
  -- plain requests leave nothing in defaults, neither before the program nor after it
  have hstart : (start clock disk).interpreter.Plain :=
    ⟨.start clock, fun v hv => by cases hv⟩
  have hi : i.Plain := plain_after hstart hplain
  have htop : top.2.machine.arena.buried = [] :=
    (hi.perform host (Interpreter.keeps_runTop bound program.body)).1.machine.buried
  have hall : all.2.machine.arena.buried = [] :=
    (hi.perform host ((Eval.Kept.kept bound).executeAll program.body)).1.machine.buried
  rw [htop] at hinterpret
  rw [hall, List.append_nil] at hrun
  exact ⟨hinterpret, hrun⟩

/-- A call of a capsule that has a number for a default. -/
def tally : Request :=
  .call (.capsule ⟨"tally", [⟨"any", "n", some (.number 1)⟩], .gather⟩) [] []

/-- A program that returns a function made in an inner scope. -/
def escaping : Program :=
  ⟨default, [.block ⟨default, [.action default ⟨"f", default⟩ [] none ⟨default, []⟩,
    .returnValues default [.name default "f"]]⟩]⟩

/-- A session without files that has called the capsule. -/
def tallied : Session :=
  (start ⟨0, 0⟩ ⟨fun _ => none, fun _ => .error .missing⟩).after .standard true 20 [tally]

theorem settled_after_tally :
    (∀ r ∈ [tally], r.Plain) ∧
      (tallied.interpreter.interpret 20 (tallied.host .standard true) escaping).2.Settled [] ∧
      ∃ f, (tallied.interpreter.run 20 (tallied.host .standard true) escaping).2.Settled [f] ∧
        f.frame = 1 := by
  have hplain : ∀ r ∈ [tally], r.Plain := by
    intro r hr
    rw [List.mem_singleton.1 hr]
    exact ⟨fun _ _ => rfl, fun p hp => by cases hp⟩
  obtain ⟨hinterpret, hrun⟩ := (settled_after .standard 20 ⟨0, 0⟩
    ⟨fun _ => none, fun _ => .error .missing⟩ [tally] escaping).2.2 hplain
  exact ⟨hplain, hinterpret, _, hrun, rfl⟩

end Session
end Playscript
