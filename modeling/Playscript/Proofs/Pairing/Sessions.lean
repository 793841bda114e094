/-
# Reclaiming is not to be seen

Two interpreters are twins when their machines agree, the one reclaiming frames
and the other never, and their hosts keep the same values but for the places of
closures. Every request leaves twins twins, and answers alike
(`Twins.answer`). So a host sees the same in every session, whether frames are
reclaimed or not (`Session.views_reclaiming`): the lines shown and reported, the
results and faults, the names it can look up and the modules that are kept.

Key definitions: `Interpreter.Twins`.
Key theorems: `Twins.interpret`, `Twins.run`, `Twins.answer`, `Session.views_reclaiming`.
-/
import Playscript.Proofs.Pairing.Evaluation
import Playscript.Session

namespace Playscript

variable {place : Slot → Slot} {kept more : List Value} {host : Host} {c : Closure}

/-! ### Values that a host makes -/

namespace Pick

theorem itemAt_relocate (k : Nat) (v : Value) :
    itemAt k (v.relocate place) = (itemAt k v).relocate place := by
  cases v with
  | array items =>
    simp only [Value.relocate, itemAt, Value.relocateAll_eq_map, List.getD_eq_getElem?_getD,
      List.getElem?_map]
    rcases items[k]? with _ | v <;> rfl
  | _ => rfl

theorem mem_places_itemAt {k : Nat} {v : Value} (h : c ∈ (itemAt k v).places) : c ∈ v.places := by
  cases v with
  | array items =>
    simp only [itemAt, List.getD_eq_getElem?_getD] at h
    rcases hv : items[k]? with _ | w <;> rw [hv] at h
    · cases h
    · exact Value.mem_placesAll.2 ⟨w, List.mem_of_getElem? hv, h⟩
  | _ => cases h

mutual

/-- A value made from moved values is the moved value. -/
theorem value_relocate : ∀ p : Pick,
    p.value (Value.relocateAll place kept) = (p.value kept).relocate place
  | null | number _ | string _ | bool _ => rfl
  | array items => congrArg Value.array (valueAll_relocate items)
  | capsule ⟨_, params, _⟩ => by
    rw [value, value, Value.relocate, valueParams_relocate params]
  | .kept k => by
    simp only [value, Value.relocateAll_eq_map, List.getD_eq_getElem?_getD, List.getElem?_map]
    rcases kept[k]? with _ | v <;> rfl
  | item p k => by rw [value, value, value_relocate p, itemAt_relocate]

theorem valueAll_relocate : ∀ ps : List Pick,
    valueAll (Value.relocateAll place kept) ps = Value.relocateAll place (valueAll kept ps)
  | [] => rfl
  | p :: rest => by
    rw [valueAll, valueAll, Value.relocateAll, value_relocate p, valueAll_relocate rest]

theorem valueParams_relocate : ∀ ps : List (CapsuleParam Pick),
    valueParams (Value.relocateAll place kept) ps =
      Value.relocateParams place (valueParams kept ps)
  | [] => rfl
  | ⟨_, _, none⟩ :: rest => by
    rw [valueParams, valueParams, Value.relocateParams, valueParams_relocate rest]
  | ⟨_, _, some d⟩ :: rest => by
    rw [valueParams, valueParams, Value.relocateParams, value_relocate d,
      valueParams_relocate rest]

end

mutual

/-- A host has no closures but those in what it keeps. -/
theorem mem_places_value : ∀ p : Pick, c ∈ (p.value kept).places → c ∈ Value.placesAll kept
  | null, h | number _, h | string _, h | bool _, h => by cases h
  | array items, h => mem_places_valueAll items h
  | capsule ⟨_, params, _⟩, h => mem_buried_valueParams params h
  | .kept k, h => by
    simp only [value, List.getD_eq_getElem?_getD] at h
    rcases hv : kept[k]? with _ | v <;> rw [hv] at h
    · cases h
    · exact Value.mem_placesAll.2 ⟨v, List.mem_of_getElem? hv, h⟩
  | item p k, h => mem_places_value p (mem_places_itemAt h)

theorem mem_places_valueAll : ∀ ps : List Pick,
    c ∈ Value.placesAll (valueAll kept ps) → c ∈ Value.placesAll kept
  | [], h => by cases h
  | p :: rest, h =>
    (Value.mem_placesAll_cons.1 h).elim (mem_places_value p) (mem_places_valueAll rest)

theorem mem_buried_valueParams : ∀ ps : List (CapsuleParam Pick),
    c ∈ Value.buriedParams (valueParams kept ps) → c ∈ Value.placesAll kept
  | [], h => by cases h
  | ⟨_, _, none⟩ :: rest, h => mem_buried_valueParams rest h
  | ⟨_, _, some d⟩ :: rest, h =>
    (List.mem_append.1 h).elim (mem_places_value d) (mem_buried_valueParams rest)

end

end Pick

namespace Session

theorem letGo_relocate (given : List Nat) (kept : List Value) :
    letGo given (Value.relocateAll place kept) = Value.relocateAll place (letGo given kept) := by
  induction given generalizing kept with
  | nil => rfl
  | cons k given ih =>
    have hset : (Value.relocateAll place kept).set k .null =
        Value.relocateAll place (kept.set k .null) := by
      rw [Value.relocateAll_eq_map, Value.relocateAll_eq_map, List.map_set]
      rfl
    exact (congrArg (letGo given) hset).trans (ih _)

theorem mem_places_letGo {given : List Nat} (h : c ∈ Value.placesAll (letGo given kept)) :
    c ∈ Value.placesAll kept := by
  induction given generalizing kept with
  | nil => exact h
  | cons k given ih =>
    obtain ⟨v, hv, hc⟩ := Value.mem_placesAll.1 (ih h)
    rcases List.mem_or_eq_of_mem_set hv with hv | rfl
    · exact Value.mem_placesAll.2 ⟨v, hv, hc⟩
    · cases hc

end Session

/-! ### Twins -/

namespace Interpreter

/-- Two interpreters between requests whose machines agree while the values of an answer are in
hand, besides what the host keeps. No scope is open. -/
structure Twins (place : Slot → Slot) (more : List Value) (i j : Interpreter) : Prop where
  agrees : (⟨place, i.machine, j.machine⟩ : Pairing).Agrees (more ++ i.held)
  held : j.held = Value.relocateAll place i.held
  reports : j.reports = i.reports
  pending : j.pending? = i.pending?
  current : i.machine.current = Arena.root
  live : ∀ s, i.machine.arena.Live s ↔ s = Arena.root

namespace Twins

variable {i j : Interpreter}

theorem start (clock : Clock) : Twins id [] (.start clock) (.start clock) where
  agrees :=
    { sound := Machine.Sound.start clock
      shape := .empty
      mirrors := by
        refine ⟨fun s f hf => ⟨f, hf, ?_⟩, fun _ _ _ _ h => h⟩
        change Arena.empty.frame? s = some f at hf
        rw [Arena.frame?_empty] at hf
        split at hf <;> cases hf
        exact ⟨rfl, rfl⟩
      current := rfl
      fresh := rfl
      modules := rfl
      files := rfl
      clock := rfl
      output := rfl
      errors := rfl }
  held := rfl
  reports := rfl
  pending := rfl
  current := rfl
  live s := by
    refine ⟨fun ⟨f, hf, _⟩ => ?_, fun hs => ?_⟩
    · change Arena.empty.frame? s = some f at hf
      rw [Arena.frame?_empty] at hf
      by_contra hs
      rw [if_neg hs] at hf
      cases hf
    · subst hs
      exact ⟨.inside none, rfl, rfl⟩

/-- The values of an answer may be let go. -/
theorem nil (h : i.Twins place more j) : i.Twins place [] j := { h with agrees := h.agrees.right }

/-- A host may keep what it is answered. -/
theorem keep (h : i.Twins place more j) :
    Twins place [] { i with held := i.held ++ more }
      { j with held := j.held ++ Value.relocateAll place more } :=
  { h with
    agrees := h.agrees.hold fun c hc => by
      have hc : c ∈ Value.placesAll (i.held ++ more) := hc
      exact .of_held (Value.mem_placesAll_append.2 (Value.mem_placesAll_append.1 hc).symm)
    held := by
      show j.held ++ _ = Value.relocateAll place (i.held ++ more)
      rw [h.held, Value.relocateAll_append] }

/-- An evaluation that follows another leaves twins. -/
theorem perform {α : Type} [Cargo α] {x y : Eval α} (h : i.Twins place more j) (host : Host)
    (hx : Pairing.Follows host ⟨place, i.machine, j.machine⟩ i.held x y) :
    ∃ moved, (i.perform host.reclaiming x).2.Twins moved (i.perform host.reclaiming x).1.cargo
        (j.perform host.lavish y).2 ∧
      (j.perform host.lavish y).1 =
        (i.perform host.reclaiming x).1.map (Cargo.relocate moved) := by
  have hx := hx j.held
  unfold Interpreter.perform Eval.run
  dsimp only at hx ⊢
  generalize x host.reclaiming i.held i.machine = r at hx
  generalize y host.lavish j.held j.machine = r' at hx
  have htwins : ∀ (τ : Pairing) (now : List Value) (site? : Option Site),
      (⟨place, i.machine, j.machine⟩ : Pairing).Resumes i.held τ → τ.Agrees (now ++ i.held) →
      Twins τ.place now { i with machine := τ.left, pending? := i.pending?.or site? }
        { j with machine := τ.right, pending? := j.pending?.or site? } :=
    fun τ now site? hτ ha =>
      { agrees := ha
        held := h.held.trans (Value.relocateAll_congr _ fun c hc => (hτ.held c hc).symm)
        reports := h.reports
        pending := congrArg (Option.or · site?) h.pending
        current := hτ.current.trans h.current
        live := fun s => (hτ.live s).trans (h.live s) }
  cases hx with
  | @done τ a hτ ha => exact ⟨τ.place, htwins τ _ none hτ ha, rfl⟩
  | @failed τ fault hτ ha => exact ⟨τ.place, htwins τ [] fault.site? hτ ha, rfl⟩
  | @exhausted τ hτ ha => exact ⟨τ.place, htwins τ [] none hτ ha, rfl⟩

theorem cleared (h : i.Twins place more j) : i.cleared.Twins place more j.cleared :=
  { h with pending := rfl }

/-- A collection leaves twins, and no scope is open after it. -/
theorem collect (h : i.Twins place more j) (host : Host) (lavishly : List Value) :
    (i.collect host.reclaiming more).Twins place more (j.collect host.lavish lavishly) :=
  { h with
    agrees := h.agrees.collect host _
    live := fun s => Arena.live_collect.trans (h.live s) }

theorem report (h : i.Twins place more j) (host : Host) (program : Program) (failure : Failure) :
    (i.report host.reclaiming program failure).Twins place more
      (j.report host.lavish program failure) := by
  unfold Interpreter.report
  rw [h.pending]
  exact
    { h.cleared with
      agrees :=
        { h.agrees with
          sound := h.agrees.sound.congr rfl rfl rfl rfl
          errors := congrArg (Array.push · _) h.agrees.errors }
      reports := congrArg (Array.push · _) h.reports }

/-! ### Programs -/

theorem tracks_runTop (bound : Nat) (ss : List Stmt) :
    Eval.Tracks host (runTop bound ss) := by
  induction ss with
  | nil => exact fun _ _ h => .pure h rfl
  | cons s rest ih =>
    intro σ held h
    refine .bind ((Eval.Tracked.tracked host bound).execute s σ held h) fun τ flow _ ha => ?_
    cases flow with
    | normal => exact ih τ held ha
    | returned vs => exact .claiming s.span (.fail ha.right _)

theorem interpret (h : i.Twins place more j) (host : Host) (bound : Nat) (program : Program) :
    ∃ moved, (i.interpret bound host.reclaiming program).2.Twins moved []
        (j.interpret bound host.lavish program).2 ∧
      (j.interpret bound host.lavish program).1 =
        (i.interpret bound host.reclaiming program).1 := by
  obtain ⟨moved, htwins, houtcome⟩ :=
    h.cleared.perform host (tracks_runTop bound program.body _ _ h.agrees.right)
  unfold Interpreter.interpret
  generalize i.cleared.perform host.reclaiming (runTop bound program.body) = r at htwins houtcome
  generalize j.cleared.perform host.lavish (runTop bound program.body) = r' at htwins houtcome
  obtain ⟨outcome, i'⟩ := r
  obtain ⟨_, j'⟩ := r'
  dsimp only at houtcome
  subst houtcome
  cases outcome with
  | done u => exact ⟨moved, htwins.collect host _, rfl⟩
  | failed fault => exact ⟨moved, (htwins.report host program fault.failure).collect host _, rfl⟩
  | exhausted => exact ⟨moved, htwins.collect host _, rfl⟩

theorem run (h : i.Twins place more j) (host : Host) (bound : Nat) (program : Program) :
    ∃ moved, (i.run bound host.reclaiming program).2.Twins moved []
        (j.run bound host.lavish program).2 ∧
      (j.run bound host.lavish program).1 = (i.run bound host.reclaiming program).1 := by
  obtain ⟨moved, htwins, houtcome⟩ := h.cleared.perform host
    ((Eval.Tracked.tracked host bound).executeAll program.body _ _ h.agrees.right)
  unfold Interpreter.run
  generalize i.cleared.perform host.reclaiming (Eval.executeAll bound program.body) = r
    at htwins houtcome
  generalize j.cleared.perform host.lavish (Eval.executeAll bound program.body) = r'
    at htwins houtcome
  obtain ⟨outcome, i'⟩ := r
  obtain ⟨_, j'⟩ := r'
  dsimp only at houtcome
  subst houtcome
  cases outcome with
  | done flow =>
    cases flow with
    | normal => exact ⟨moved, htwins.collect host _, rfl⟩
    | returned vs => exact ⟨moved, (htwins.collect host _).nil, rfl⟩
  | failed fault => exact ⟨moved, htwins.collect host _, rfl⟩
  | exhausted => exact ⟨moved, htwins.collect host _, rfl⟩

/-! ### Requests -/

theorem values_flowed (outcome : Outcome Flow) :
    outcome.cargo = (Reply.flowed outcome).values := by cases outcome <;> rfl

theorem values_answered (outcome : Outcome Value) :
    outcome.cargo = (Reply.answered outcome).values := by cases outcome <;> rfl

/-- A host may let go of some values. -/
theorem given (h : i.Twins place [] j) (given : List Nat) :
    Twins place [] { i with held := Session.letGo given i.held }
      { j with held := Session.letGo given j.held } :=
  { h with
    agrees := h.agrees.hold fun c hc => .of_held (Session.mem_places_letGo hc)
    held := by
      show Session.letGo given j.held = Value.relocateAll place (Session.letGo given i.held)
      rw [h.held, Session.letGo_relocate] }

theorem invalidate (h : i.Twins place [] j) :
    i.invalidateModules.Twins place [] j.invalidateModules :=
  { h with
    agrees :=
      { h.agrees with
        sound := h.agrees.sound.forget
        modules := by
          show j.machine.modules.clear = i.machine.modules.clear.relocate place
          rw [show j.machine.modules = i.machine.modules.relocate place from h.agrees.modules]
          rfl } }

/-- Every request is answered alike, and leaves twins. -/
theorem answer (h : i.Twins place [] j) (host : Host) (bound : Nat) (r : Request) :
    ∃ moved, (Session.answer bound i host.reclaiming r).2.Twins moved
        (Session.answer bound i host.reclaiming r).1.values
        (Session.answer bound j host.lavish r).2 ∧
      (Session.answer bound j host.lavish r).1 =
        (Session.answer bound i host.reclaiming r).1.relocate moved := by
  cases r with
  | interpret program =>
    obtain ⟨moved, htwins, houtcome⟩ := h.interpret host bound program
    exact ⟨moved, htwins, congrArg Reply.ended houtcome⟩
  | run program =>
    obtain ⟨moved, htwins, houtcome⟩ := h.run host bound program
    exact ⟨moved, htwins, congrArg Reply.ended houtcome⟩
  | execute s =>
    obtain ⟨moved, htwins, houtcome⟩ := h.perform host
      ((Eval.Tracked.tracked host bound).execute s _ _ h.agrees.right)
    exact ⟨moved, values_flowed _ ▸ htwins, congrArg Reply.flowed houtcome⟩
  | evaluate e =>
    obtain ⟨moved, htwins, houtcome⟩ := h.perform host
      ((Eval.Tracked.tracked host bound).evaluate e _ _ h.agrees.right)
    exact ⟨moved, values_answered _ ▸ htwins, congrArg Reply.answered houtcome⟩
  | call f args given =>
    have hf : f.value j.held = (f.value i.held).relocate place := by
      rw [h.held, Pick.value_relocate]
    have hargs : Pick.valueAll j.held args =
        Value.relocateAll place (Pick.valueAll i.held args) := by
      rw [h.held, Pick.valueAll_relocate]
    have hagrees : (⟨place, i.machine, j.machine⟩ : Pairing).Agrees
        (Pick.valueAll i.held args ++ ([f.value i.held] ++ Session.letGo given i.held)) := by
      refine h.agrees.hold fun c hc => .of_held ?_
      rcases Value.mem_placesAll_append.1 hc with hc | hc
      · exact Pick.mem_places_valueAll args hc
      · exact (Value.mem_placesAll_cons.1 hc).elim (Pick.mem_places_value f)
          Session.mem_places_letGo
    have hcall := (Eval.Tracked.tracked host bound).call hagrees
      (List.mem_append_left _ List.mem_cons_self)
    rw [← hf, ← hargs] at hcall
    obtain ⟨moved, htwins, houtcome⟩ := (h.given given).perform host (.holding hcall)
    exact ⟨moved, values_answered _ ▸ htwins, congrArg Reply.answered houtcome⟩
  | look name =>
    have hget := h.agrees.get? name
    refine ⟨place, { h with agrees := h.agrees.take fun c hc => ?_ }, congrArg Reply.found hget⟩
    change c ∈ Value.placesAll (Reply.found (i.machine.get? name)).values at hc
    rcases hv : i.machine.get? name with _ | v <;> rw [hv] at hc
    · cases hc
    · exact .of_get? hv ((Value.mem_placesAll_cons.1 hc).resolve_right fun hc => by cases hc)
  | invalidate => exact ⟨place, h.invalidate, rfl⟩
  | drop given => exact ⟨place, h.given given, rfl⟩
  | edit disk => exact ⟨place, h, rfl⟩
  | wait clock => exact ⟨place, { h with agrees := h.agrees.setClock clock }, rfl⟩

end Twins
end Interpreter

/-! ### Sessions -/

namespace Session

variable {settings : Settings} {bound : Nat} {s s' : Session}

/-- Two sessions with twin interpreters and the same files. -/
structure Twins (place : Slot → Slot) (s s' : Session) : Prop where
  interpreter : s.interpreter.Twins place [] s'.interpreter
  disk : s'.disk = s.disk

theorem Twins.start (clock : Clock) (disk : Disk) :
    Twins id (start clock disk) (start clock disk) :=
  ⟨.start clock, rfl⟩

theorem values_relocate (reply : Reply) :
    (reply.relocate place).values = Value.relocateAll place reply.values := by
  cases reply with
  | flowed outcome =>
    cases outcome with
    | done flow => cases flow <;> rfl
    | _ => rfl
  | answered outcome => cases outcome <;> rfl
  | found v? => cases v? <;> rfl
  | _ => rfl

/-- A request leaves twin sessions, and is answered alike. -/
theorem Twins.step (h : Twins place s s') (settings : Settings) (bound : Nat) (r : Request) :
    ∃ moved, Twins moved (s.step settings true bound r).2 (s'.step settings false bound r).2 ∧
      (s'.step settings false bound r).1 =
        (s.step settings true bound r).1.relocate moved := by
  obtain ⟨moved, htwins, hreply⟩ :=
    h.interpreter.answer ⟨settings, s.disk, true⟩ bound r
  have hhost : s'.host settings false = (⟨settings, s.disk, true⟩ : Host).lavish := by
    rw [host, h.disk]
    rfl
  refine ⟨moved, ⟨?_, ?_⟩, ?_⟩
  · unfold Session.step
    rw [hhost]
    dsimp only
    rw [hreply, values_relocate]
    exact htwins.keep
  · show diskAfter s'.disk r = diskAfter s.disk r
    rw [h.disk]
  · unfold Session.step
    rw [hhost]
    exact hreply

/-- Forgetting places forgets what has been moved. -/
theorem relocate_reply (reply : Reply) :
    (reply.relocate place).relocate (fun _ => Arena.root) =
      reply.relocate fun _ => Arena.root := by
  have hvalue : ∀ v : Value,
      (v.relocate place).relocate (fun _ => Arena.root) = v.relocate fun _ => Arena.root :=
    fun v => v.relocate_relocate place _
  cases reply with
  | flowed outcome =>
    rcases outcome with flow | _ | _
    · cases flow with
      | normal => rfl
      | returned vs => simp [Reply.relocate, Outcome.map, Flow.relocate,
          Value.relocateAll_eq_map, hvalue]
    · rfl
    · rfl
  | answered outcome => cases outcome <;> simp [Reply.relocate, Outcome.map, hvalue]
  | found v? => cases v? <;> simp [Reply.relocate, hvalue]
  | _ => rfl

/-- Twin sessions look the same. -/
theorem Twins.view (h : Twins place s s') (reply : Reply) :
    s'.view (reply.relocate place) = s.view reply := by
  have hagrees := h.interpreter.agrees
  have hmodules : s'.interpreter.machine.modules.relocate (fun _ => Arena.root) =
      s.interpreter.machine.modules.relocate fun _ => Arena.root :=
    (congrArg (ModuleCache.relocate _) hagrees.modules).trans
      (ModuleCache.relocate_relocate place _ _)
  have hglobal : ∀ name,
      (s'.interpreter.global? name).map (Value.relocate fun _ => Arena.root) =
        (s.interpreter.global? name).map (Value.relocate fun _ => Arena.root) := by
    intro name
    have hget : s'.interpreter.global? name = _ := hagrees.get? name
    rw [hget, Option.map_map]
    exact congrArg (Option.map · _) (funext fun v => v.relocate_relocate place _)
  simp only [Session.view, View.mk.injEq]
  exact ⟨relocate_reply reply, hagrees.output, hagrees.errors, h.interpreter.reports, hmodules,
    funext hglobal⟩

theorem Twins.views (h : Twins place s s') (requests : List Request) :
    Session.views settings true bound s requests =
      Session.views settings false bound s' requests := by
  induction requests generalizing place s s' with
  | nil => rfl
  | cons r rest ih =>
    obtain ⟨moved, htwins, hreply⟩ := h.step settings bound r
    simp only [Session.views, ih htwins, hreply, htwins.view]

/-- What a host sees in a session does not depend on whether frames are reclaimed. -/
theorem views_reclaiming (settings : Settings) (bound : Nat) (clock : Clock) (disk : Disk)
    (requests : List Request) :
    views settings true bound (start clock disk) requests =
      views settings false bound (start clock disk) requests :=
  (Twins.start clock disk).views requests

end Session
end Playscript
