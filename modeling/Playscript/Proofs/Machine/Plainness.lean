/-
# Scripts put no function into the defaults of a capsule

A value is plain when no capsule in it has a function among its defaults. Only
a host makes capsules; a script can pass them on, bind them and call them, but
not change their defaults. So where every value is plain at first, every value
is plain after any evaluation (`Kept.kept`): each function of the
evaluator keeps machines plain and answers plain values.

Key definitions: `Value.Plain`, `Machine.Plain`, `Eval.Keeps`.
Key theorems: `Keeps.bind`, `Keeps.inScope`, `Kept.kept`.
-/
import Playscript.Proofs.Machine.Cargo
import Playscript.Proofs.Machine.Soundness
import Playscript.Proofs.Pairing.Relocation

namespace Playscript

/-! ### Plain values -/

/-- No capsule in the value has a function among its defaults. -/
def Value.Plain (v : Value) : Prop := v.buried = []

/-- No frame and no module has a value that is not plain. -/
structure Machine.Plain (m : Machine) : Prop where
  bindings : ∀ s, ∀ v ∈ (m.arena.bindings s).values, v.Plain
  modules : ∀ v ∈ m.modules.values, v.Plain

namespace Value

variable {v : Value} {vs : List Value}

theorem buriedAll_eq_nil : buriedAll vs = [] ↔ ∀ v ∈ vs, v.Plain := by
  simp [buriedAll_eq_flatMap, Plain]

theorem Plain.of_places (h : v.places = []) : v.Plain := (List.append_eq_nil_iff.1 h).2

theorem plain_ofReturned (h : ∀ v ∈ vs, v.Plain) : (ofReturned vs).Plain := by
  rcases vs with _ | ⟨v, _ | ⟨w, vs⟩⟩
  · rfl
  · exact h v List.mem_cons_self
  · exact buriedAll_eq_nil.2 h

/-- The defaults of a plain capsule are plain. -/
theorem plain_of_default {ps : List (CapsuleParam Value)} {p : CapsuleParam Value} {d : Value}
    (h : buriedParams ps = []) (hp : p ∈ ps) (hd : p.default? = some d) : d.Plain := by
  refine .of_places (List.eq_nil_iff_forall_not_mem.2 fun c hc => ?_)
  have hburied : c ∈ buriedParams ps := mem_buriedParams.2 ⟨p, hp, d, hd, hc⟩
  rw [h] at hburied
  cases hburied

end Value

/-! ### Plain machines -/

namespace Machine

variable {m n : Machine} {s p : Slot} {v : Value}

theorem Plain.start (clock : Clock) : (Machine.start clock).Plain where
  bindings s v hv := by
    rw [Arena.bindings, show (Machine.start clock).arena = Arena.empty from rfl,
      Arena.frame?_empty] at hv
    split at hv <;> cases hv
  modules v hv := by cases hv

theorem Plain.of_frames (h : m.Plain)
    (hframe : ∀ s f, n.arena.frame? s = some f → ∀ v ∈ f.bindings.values,
      v.Plain ∨ ∃ t, v ∈ (m.arena.bindings t).values)
    (hmodules : n.modules.entries = m.modules.entries) : n.Plain where
  bindings s v hv := by
    rw [Arena.bindings] at hv
    rcases hf : n.arena.frame? s with _ | f <;> rw [hf] at hv
    · cases hv
    · rcases hframe s f hf v hv with hplain | ⟨t, hv⟩
      · exact hplain
      · exact h.bindings t v hv
  modules v hv := by
    rw [ModuleCache.values, hmodules] at hv
    exact h.modules v hv

theorem Plain.of_get? (h : m.Plain) {name : String} (hget : m.get? name = some v) : v.Plain := by
  obtain ⟨o, -, hv⟩ := Option.bind_eq_some_iff.1 hget
  exact h.bindings o v (Bindings.mem_values_of_get? hv)

theorem Plain.define (h : m.Plain) (s : Slot) (name : String) (hv : v.Plain) :
    ({ m with arena := m.arena.define s name v } : Machine).Plain := by
  refine h.of_frames (fun t f hf w hw => ?_) rfl
  change (m.arena.modify s (Frame.define name v)).frame? t = some f at hf
  rw [Arena.frame?_modify] at hf
  split at hf
  · obtain ⟨g, hg, rfl⟩ := Option.map_eq_some_iff.1 hf
    rcases Bindings.mem_values_insert hw with rfl | hw
    · exact .inl hv
    · exact .inr ⟨t, by rwa [Arena.bindings_of_frame? hg]⟩
  · exact .inr ⟨t, by rwa [Arena.bindings_of_frame? hf]⟩

theorem Plain.capture (h : m.Plain) (fresh : Nat) (s : Slot) (identity : Nat) :
    ({ m with fresh, arena := m.arena.capture s identity } : Machine).Plain where
  bindings t v hv := by
    have hsame : (m.arena.capture s identity).bindings t = m.arena.bindings t :=
      Arena.bindings_modify (u := Frame.capture identity) (fun _ => rfl) t
    change v ∈ ((m.arena.capture s identity).bindings t).values at hv
    rw [hsame] at hv
    exact h.bindings t v hv
  modules := h.modules

theorem Plain.enter (h : m.Plain) (p : Slot) : (m.enter p).Plain where
  bindings s v hv := h.bindings s v (Arena.mem_bindings_push hv)
  modules := h.modules

theorem Plain.leave (h : m.Plain) (host : Host) (held : List Value) (back : Slot) :
    (m.leave host held back).Plain := by
  unfold Machine.leave
  split
  · refine h.of_frames (fun s f hf v hv => .inr ⟨s, ?_⟩) rfl
    obtain ⟨g, hg, -, hbindings, -⟩ := Arena.frame?_release hf
    rwa [Arena.bindings_of_frame? hg, ← hbindings]
  · exact ⟨h.bindings, h.modules⟩

theorem Plain.collect (h : m.Plain) (host : Host) (held : List Value) :
    (m.collect host held).Plain := by
  unfold Machine.collect
  split
  · refine h.of_frames (fun s f hf v hv => .inr ⟨s, ?_⟩) rfl
    rw [← (Arena.Prunes.collect m.arena (m.outside held)).bindings (by rw [hf]; rfl)]
    rwa [Arena.bindings_of_frame? hf]
  · exact h

theorem Plain.keep (h : m.Plain) (path digest : String) {exports : Bindings}
    (he : ∀ v ∈ exports.values, v.Plain) :
    ({ m with modules := m.modules.insert path ⟨digest, exports⟩ } : Machine).Plain where
  bindings := h.bindings
  modules v hv := by
    obtain ⟨e, hmem, hv⟩ := List.mem_flatMap.1 hv
    rcases List.mem_cons.1 hmem with rfl | hmem
    · exact he v hv
    · exact h.modules v (List.mem_flatMap.2 ⟨e, (List.mem_filter.1 hmem).1, hv⟩)

/-- What frames bind and modules export is all that matters. -/
theorem Plain.congr (h : m.Plain) (harena : n.arena = m.arena)
    (hmodules : n.modules.entries = m.modules.entries) : n.Plain where
  bindings := harena ▸ h.bindings
  modules v hv := h.modules v (by rwa [ModuleCache.values, hmodules] at hv)

/-- No function is in the defaults of a capsule that is bound. -/
theorem Plain.buried (h : m.Plain) : m.arena.buried = [] := by
  refine List.eq_nil_iff_forall_not_mem.2 fun c hc => ?_
  obtain ⟨s, f, hf, hc⟩ := Arena.mem_buried.1 hc
  have hnone : f.bindings.buried = [] := Value.buriedAll_eq_nil.2 fun v hv =>
    h.bindings s v (by rwa [Arena.bindings_of_frame? hf])
  rw [hnone] at hc
  cases hc

end Machine

/-! ### Evaluations -/

namespace Eval

variable {α β : Type} [Cargo α] [Cargo β]

/-- From plain machines, an evaluation leads to plain machines and to plain values. -/
def Keeps (x : Eval α) : Prop := ∀ host held m, m.Plain →
  (x host held m).2.Plain ∧ ∀ v ∈ (x host held m).1.cargo, v.Plain

namespace Keeps

variable {x : Eval α} {k : α → Eval β}

theorem pure {a : α} (ha : ∀ v ∈ Cargo.values a, v.Plain) : Keeps (Pure.pure a) :=
  fun _ _ _ hm => ⟨hm, ha⟩

/-- A result without values. -/
theorem bare {a : α} (ha : Cargo.values a = []) : Keeps (Pure.pure a) := by
  refine pure fun v hv => ?_
  rw [ha] at hv
  cases hv

theorem value {v : Value} (hv : v.Plain) : Keeps (Pure.pure v) := by
  refine pure fun w hw => ?_
  rwa [List.mem_singleton.1 hw]

theorem fail (failure : Failure) : Keeps (Eval.fail failure : Eval α) :=
  fun _ _ _ hm => ⟨hm, fun _ hv => by cases hv⟩

theorem exhausted : Keeps (Eval.exhausted : Eval α) :=
  fun _ _ _ hm => ⟨hm, fun _ hv => by cases hv⟩

theorem ofExcept {r : Except Failure α} (hr : ∀ a, r = .ok a → ∀ v ∈ Cargo.values a, v.Plain) :
    Keeps (Eval.ofExcept r) := by
  cases r with
  | ok a => exact pure (hr a rfl)
  | error failure => exact fail failure

theorem ofExcept_value {r : Except Failure Value} (hr : ∀ v, r = .ok v → v.Plain) :
    Keeps (Eval.ofExcept r) := by
  cases r with
  | ok v => exact value (hr v rfl)
  | error failure => exact fail failure

theorem bind (hx : Keeps x) (hk : ∀ a, (∀ v ∈ Cargo.values a, v.Plain) → Keeps (k a)) :
    Keeps (x >>= k) := by
  intro host held m hm
  have hx := hx host held m hm
  show (Eval.bind x k host held m).2.Plain ∧ ∀ v ∈ (Eval.bind x k host held m).1.cargo, v.Plain
  unfold Eval.bind
  generalize x host held m = r at hx
  obtain ⟨outcome, n⟩ := r
  cases outcome with
  | done a => exact hk a hx.2 host held n hx.1
  | failed fault => exact ⟨hx.1, fun _ hv => by cases hv⟩
  | exhausted => exact ⟨hx.1, fun _ hv => by cases hv⟩

/-- The rest reads the machine. -/
theorem machine {k : Machine → Eval β} (h : ∀ m, m.Plain → Keeps (k m)) :
    Keeps (Eval.machine >>= k) := fun host held m hm => h m hm host held m hm

/-- The rest reads the host. -/
theorem host {k : Host → Eval β} (h : ∀ host, Keeps (k host)) : Keeps (Eval.host >>= k) :=
  fun host => h host host

theorem change {f : Machine → Machine} (h : ∀ m, m.Plain → (f m).Plain) :
    Keeps (Eval.change f) := fun _ _ m hm => ⟨h m hm, fun _ hv => by cases hv⟩

theorem holding (vs : List Value) (hx : Keeps x) : Keeps (Eval.holding vs x) :=
  fun host held => hx host (vs ++ held)

theorem ite {b : Bool} {y : Eval α} (hx : Keeps x) (hy : Keeps y) :
    Keeps (if b then x else y) := by
  split
  · exact hx
  · exact hy

theorem claiming (span : Span) (hx : Keeps x) : Keeps (Eval.claiming span x) := by
  intro host held m hm
  have hx := hx host held m hm
  unfold Eval.claiming
  generalize x host held m = r at hx
  obtain ⟨outcome, n⟩ := r
  cases outcome with
  | done a => exact hx
  | failed fault => exact ⟨hx.1, fun _ hv => by cases hv⟩
  | exhausted => exact hx

theorem inScope (p : Slot) (values : α → List Value) (hx : Keeps x) :
    Keeps (Eval.inScope p values x) := by
  intro host held m hm
  have hx := hx host held (m.enter p) (hm.enter p)
  unfold Eval.inScope
  dsimp only
  generalize x host held (m.enter p) = r at hx
  obtain ⟨outcome, n⟩ := r
  cases outcome with
  | done a => exact ⟨hx.1.leave _ _ _, hx.2⟩
  | failed fault => exact ⟨hx.1.leave _ _ _, hx.2⟩
  | exhausted => exact ⟨hx.1.leave _ _ _, hx.2⟩

theorem inModule (path : String) (hx : Keeps x) : Keeps (Eval.inModule path x) := by
  intro host held m hm
  have hx := hx host held (m.beginModule path) (hm.congr rfl rfl)
  exact ⟨hx.1.congr rfl rfl, hx.2⟩

end Keeps

/-! ### Names -/

theorem keeps_get? (name : String) : Keeps (get? name) := .machine fun m hm => .pure fun v hv => by
  rcases hget : m.get? name with _ | w <;> rw [hget] at hv
  · cases hv
  · rw [List.mem_singleton.1 hv]
    exact hm.of_get? hget

theorem keeps_get (name : String) : Keeps (get name) := by
  have hget := keeps_get? name
  refine .bind hget fun a ha => ?_
  cases a with
  | some v => exact .pure ha
  | none => exact .fail _

theorem keeps_define (name : String) {v : Value} (hv : v.Plain) : Keeps (define name v) :=
  .change fun m hm => hm.define m.current name hv

theorem keeps_assign (name : String) {v : Value} (hv : v.Plain) : Keeps (assign name v) := by
  refine .machine fun m hm => ?_
  rw [Arena.assign?]
  rcases m.arena.owner? m.current name with _ | o
  · exact .fail _
  · exact .change fun n hn => ⟨(hm.define o name hv).bindings, hn.modules⟩

theorem keeps_functionOf (name : String) : Keeps (functionOf name) := by
  have hget := keeps_get? name
  refine .bind hget fun a ha => ?_
  cases a with
  | some v => exact .ite (.pure ha) (.fail _)
  | none => exact .fail _

theorem keeps_itemOf (array : String) (position : Float) : Keeps (itemOf array position) := by
  have hget := keeps_get array
  refine .bind hget fun a ha => ?_
  cases a with
  | array items =>
    dsimp only
    rcases hv : Value.item? items position with _ | v
    · exact .fail _
    · have hitems : ∀ w ∈ items, w.Plain := Value.buriedAll_eq_nil.1 (ha _ List.mem_cons_self)
      exact .value (hitems v (Value.mem_of_item? hv))
  | _ => exact .fail _

theorem keeps_defineAll {b : Bindings} (hb : ∀ v ∈ b.values, v.Plain) : Keeps (defineAll b) := by
  refine .change fun m hm => ?_
  have hall : ∀ e ∈ b.entries, e.2.Plain := fun e he => hb _ (List.mem_map_of_mem he)
  generalize b.entries = es at hall
  induction es generalizing m with
  | nil => exact hm
  | cons e es ih =>
    exact ih _ (hm.define m.current e.1 (hall e List.mem_cons_self)) fun d hd =>
      hall d (List.mem_cons_of_mem _ hd)

theorem keeps_bindItems {exports : Bindings} (hexports : ∀ v ∈ exports.values, v.Plain)
    (source : String) (items : List ImportItem) : Keeps (bindItems exports source items) := by
  induction items with
  | nil => exact .bare rfl
  | cons item items ih =>
    rw [bindItems]
    rcases hv : exports.get? item.name.name with _ | v
    · exact .bind (.fail _) fun _ _ => ih
    · exact .bind (keeps_define _ (hexports v (Bindings.mem_values_of_get? hv))) fun _ _ => ih

/-! ### Texts and lines -/

theorem keeps_shownText (v : Value) : Keeps (shownText v) := by
  refine .machine fun m _ => ?_
  cases v <;> exact .bare rfl

theorem keeps_writeLine (line : String) : Keeps (writeLine line) :=
  .change fun _ hm => hm.congr rfl rfl

theorem keeps_report (lines : List String) : Keeps (report lines) :=
  .change fun _ hm => hm.congr rfl rfl

/-! ### Functions -/

theorem keeps_newClosure (name : String) (params : List Param) (body : Block Stmt) :
    Keeps (newClosure name params body) := by
  refine .machine fun m _ => .bind (.change fun n hn => hn.capture _ _ _) fun _ _ => ?_
  exact .value rfl

theorem keeps_runCapsule (c : Capsule Value) {args : List Value} (hargs : ∀ v ∈ args, v.Plain) :
    Keeps (runCapsule c args) := by
  refine .machine fun m _ => .bind (.ofExcept fun answer hanswer v hv => ?_) fun answer ha => ?_
  · obtain ⟨w, clock⟩ := answer
    rw [show v = w from List.mem_singleton.1 hv]
    rcases Capsule.eq_of_run hanswer with rfl | hplaces
    · exact Value.buriedAll_eq_nil.2 hargs
    · exact .of_places hplaces
  · refine .bind (.change fun n hn => hn.congr rfl rfl) fun _ _ => .pure fun v hv => ?_
    exact ha v hv

/-! ### Modules -/

theorem keeps_moduleText (source path : String) : Keeps (moduleText source path) := by
  refine .host fun host => ?_
  rcases host.disk.read path with _ | text
  · exact .fail _
  · exact .bare rfl

theorem keeps_moduleProgram (path text : String) : Keeps (moduleProgram path text) := by
  unfold moduleProgram
  generalize Program.ofSource ⟨path, text⟩ = result
  obtain ⟨program, log⟩ := result
  have hreport := keeps_report (log.kept.map Diagnostic.text)
  refine .bind hreport fun _ _ => ?_
  cases program with
  | ok p => exact .bare rfl
  | error d => exact .fail _

theorem keeps_reusable? (path : String) : Keeps (reusable? path) := by
  refine .host fun host => ?_
  cases host.settings.policy with
  | reuse =>
    refine .machine fun m hm => .pure fun v hv => ?_
    rcases hkept : m.modules.get? path with _ | kept <;> rw [hkept] at hv
    · cases hv
    · exact hm.modules v (ModuleCache.mem_values_of_get? hkept hv)
  | _ => exact .bare rfl

theorem keeps_unchanged? (path digest : String) : Keeps (unchanged? path digest) := by
  refine .host fun host => .machine fun m hm => ?_
  rcases hkept : m.modules.get? path with _ | kept
  · cases host.settings.policy <;> exact .bare rfl
  · cases host.settings.policy with
    | revalidate =>
      refine .pure fun v hv => ?_
      split at hv
      · exact hm.modules v (ModuleCache.mem_values_of_get? hkept hv)
      · cases hv
    | _ => exact .bare rfl

theorem keeps_keep (path digest : String) {exports : Bindings}
    (hexports : ∀ v ∈ exports.values, v.Plain) : Keeps (keep path digest exports) := by
  refine .host fun host => ?_
  split
  · exact .bare rfl
  · exact .change fun m hm => hm.keep path digest hexports

/-! ### The evaluator -/

/-- What holds of the functions of the evaluator with a bound. -/
structure Kept (bound : Nat) : Prop where
  execute : ∀ s, Keeps (execute bound s)
  perform : ∀ s, Keeps (perform bound s)
  executeAll : ∀ ss, Keeps (executeAll bound ss)
  whileLoop : ∀ condition body, Keeps (whileLoop bound condition body)
  rangeLoop : ∀ counter next limit body, Keeps (rangeLoop bound counter next limit body)
  evaluate : ∀ e, Keeps (evaluate bound e)
  compute : ∀ e, Keeps (compute bound e)
  evaluateNumber : ∀ purpose e, Keeps (evaluateNumber bound purpose e)
  evaluateAll : ∀ es, Keeps (evaluateAll bound es)
  showAll : ∀ es, Keeps (showAll bound es)
  call : ∀ {f args}, f.Plain → (∀ v ∈ args, v.Plain) → Keeps (call bound f args)
  bindParams : ∀ function ps {vs}, (∀ v ∈ vs, v.Plain) → Keeps (bindParams bound function ps vs)
  moduleExports : ∀ source, Keeps (moduleExports bound source)
  fileExports : ∀ source path, Keeps (fileExports bound source path)
  runModule : ∀ path text, Keeps (runModule bound path text)

theorem Kept.zero : Kept 0 where
  execute _ := .exhausted
  perform _ := .exhausted
  executeAll _ := .exhausted
  whileLoop _ _ := .exhausted
  rangeLoop _ _ _ _ := .exhausted
  evaluate _ := .exhausted
  compute _ := .exhausted
  evaluateNumber _ _ := .exhausted
  evaluateAll _ := .exhausted
  showAll _ := .exhausted
  call _ _ := .exhausted
  bindParams _ _ _ _ := .exhausted
  moduleExports _ := .exhausted
  fileExports _ _ := .exhausted
  runModule _ _ := .exhausted

namespace Kept

variable {bound : Nat}

/-- The end of a statement. -/
theorem keeps_normal : Keeps (Pure.pure Flow.normal) := .bare rfl

theorem perform_succ (ih : Kept bound) (s : Stmt) : Keeps (Eval.perform (bound + 1) s) := by
  cases s with
  | declare _ type name value? =>
    cases value? with
    | none =>
      rw [Eval.perform]
      exact .bind (keeps_define _ rfl) fun _ _ => keeps_normal
    | some e =>
      rw [Eval.perform]
      have hvalue := ih.evaluate e
      refine .bind hvalue fun v hv => ?_
      refine .ite (.bind (keeps_define _ (hv v List.mem_cons_self)) fun _ _ => keeps_normal) ?_
      exact .bind (.fail _) fun _ _ => keeps_normal
  | display _ args =>
    rw [Eval.perform]
    have hparts := ih.showAll args
    exact .bind hparts fun _ _ => .bind (keeps_writeLine _) fun _ _ => keeps_normal
  | block b =>
    rw [Eval.perform]
    exact .machine fun m _ => .inScope _ _ (ih.executeAll b.body)
  | branch _ condition yes no? =>
    rw [Eval.perform.eq_def]
    have htest := ih.evaluate condition
    refine .bind htest fun test _ => .ite (ih.execute yes) ?_
    cases no? with
    | none => exact keeps_normal
    | some no => exact ih.execute no
  | loopWhile _ condition body =>
    rw [Eval.perform]
    exact ih.whileLoop condition body
  | loopRange _ counter first limit body =>
    rw [Eval.perform]
    have hfirst := ih.evaluateNumber "range start" first
    refine .bind hfirst fun first _ => ?_
    have hlimit := ih.evaluateNumber "range end" limit
    refine .bind hlimit fun limit _ => .machine fun m _ => .inScope _ _ ?_
    exact .bind (keeps_define _ rfl) fun _ _ => ih.rangeLoop counter.name first limit body
  | evaluate _ e =>
    rw [Eval.perform]
    have hvalue := ih.evaluate e
    exact .bind hvalue fun _ _ => keeps_normal
  | action _ name params _ body =>
    rw [Eval.perform]
    have hclosure := keeps_newClosure name.name params body
    refine .bind hclosure fun f hf => ?_
    exact .bind (keeps_define _ (hf f List.mem_cons_self)) fun _ _ => keeps_normal
  | rename _ oldName newName =>
    rw [Eval.perform]
    have hget := keeps_get oldName.name
    refine .bind hget fun v hv => ?_
    have hv : v.Plain := hv v List.mem_cons_self
    refine .ite ?_ (.bind (.fail _) fun _ _ => keeps_normal)
    exact .bind (keeps_define _ hv) fun _ _ => keeps_normal
  | returnValues _ es =>
    rw [Eval.perform]
    have hvalues := ih.evaluateAll es
    exact .bind hvalues fun vs hvs => .pure hvs
  | importFrom _ items? source =>
    rw [Eval.perform]
    have hexports := ih.moduleExports source
    refine .bind hexports fun exports hexports => ?_
    cases items? with
    | none => exact .bind (keeps_defineAll hexports) fun _ _ => keeps_normal
    | some items => exact .bind (keeps_bindItems hexports source items) fun _ _ => keeps_normal

theorem executeAll_succ (ih : Kept bound) (ss : List Stmt) :
    Keeps (Eval.executeAll (bound + 1) ss) := by
  cases ss with
  | nil => exact keeps_normal
  | cons s rest =>
    rw [Eval.executeAll]
    have hrun := ih.execute s
    refine .bind hrun fun flow hflow => ?_
    cases flow with
    | normal => exact ih.executeAll rest
    | returned vs => exact .pure hflow

theorem whileLoop_succ (ih : Kept bound) (condition : Expr) (body : Stmt) :
    Keeps (Eval.whileLoop (bound + 1) condition body) := by
  rw [Eval.whileLoop]
  have htest := ih.evaluate condition
  refine .bind htest fun test _ => .ite ?_ keeps_normal
  have hrun := ih.execute body
  refine .bind hrun fun flow hflow => ?_
  cases flow with
  | normal => exact ih.whileLoop condition body
  | returned vs => exact .pure hflow

theorem rangeLoop_succ (ih : Kept bound) (counter : String) (next limit : Float) (body : Stmt) :
    Keeps (Eval.rangeLoop (bound + 1) counter next limit body) := by
  rw [Eval.rangeLoop]
  split
  · refine .bind (keeps_assign _ rfl) fun _ _ => .bind (ih.execute body) fun flow hflow => ?_
    cases flow with
    | normal => exact ih.rangeLoop counter (next + 1) limit body
    | returned vs => exact .pure hflow
  · exact keeps_normal

theorem compute_succ (ih : Kept bound) (e : Expr) : Keeps (Eval.compute (bound + 1) e) := by
  cases e with
  | number _ x | string _ s | bool _ b =>
    rw [Eval.compute]
    exact .value rfl
  | array _ es =>
    rw [Eval.compute]
    have hvalues := ih.evaluateAll es
    refine .bind hvalues fun vs hvs => ?_
    have harray : (Value.array vs).Plain := Value.buriedAll_eq_nil.2 hvs
    exact .value harray
  | name _ n =>
    rw [Eval.compute]
    exact keeps_get n
  | index _ array position =>
    rw [Eval.compute]
    have hposition := ih.evaluateNumber "array index" position
    exact .bind hposition fun i _ => keeps_itemOf array.name i
  | call _ callee args =>
    rw [Eval.compute]
    have hfunction := keeps_functionOf callee.name
    refine .bind hfunction fun f hf => ?_
    refine .bind (.holding _ (ih.evaluateAll args)) fun vs hvs => .holding _ ?_
    exact ih.call (hf f List.mem_cons_self) hvs
  | assign _ target value =>
    rw [Eval.compute]
    have hvalue := ih.evaluate value
    refine .bind hvalue fun v hv => ?_
    exact .bind (keeps_assign _ (hv v List.mem_cons_self)) fun _ _ => .pure hv
  | binary _ op left right =>
    rw [Eval.compute]
    have hleft := ih.evaluate left
    refine .bind hleft fun l _ => ?_
    refine .bind (.holding _ (ih.evaluate right)) fun r _ => ?_
    exact .ofExcept_value fun v hv => .of_places (Operator.places_apply hv)
  | negate _ operand =>
    rw [Eval.compute]
    have hoperand := ih.evaluate operand
    refine .bind hoperand fun v _ => ?_
    exact .ofExcept_value fun w hw => .of_places (Value.places_negated hw)

theorem evaluateNumber_succ (ih : Kept bound) (purpose : String) (e : Expr) :
    Keeps (Eval.evaluateNumber (bound + 1) purpose e) := by
  rw [Eval.evaluateNumber]
  have hvalue := ih.evaluate e
  exact .bind hvalue fun v _ => .ofExcept fun x _ w hw => by cases hw

theorem evaluateAll_succ (ih : Kept bound) (es : List Expr) :
    Keeps (Eval.evaluateAll (bound + 1) es) := by
  cases es with
  | nil => exact .bare rfl
  | cons e rest =>
    rw [Eval.evaluateAll]
    have hvalue := ih.evaluate e
    refine .bind hvalue fun v hv => ?_
    refine .bind (.holding _ (ih.evaluateAll rest)) fun vs hvs => .pure fun w hw => ?_
    rcases List.mem_cons.1 hw with rfl | hw
    · exact hv w List.mem_cons_self
    · exact hvs w hw

theorem showAll_succ (ih : Kept bound) (es : List Expr) :
    Keeps (Eval.showAll (bound + 1) es) := by
  cases es with
  | nil => exact .bare rfl
  | cons e rest =>
    rw [Eval.showAll]
    have hvalue := ih.evaluate e
    refine .bind hvalue fun v _ => .bind (keeps_shownText v) fun text _ => ?_
    have hparts := ih.showAll rest
    exact .bind hparts fun texts _ => .bare rfl

theorem call_succ (ih : Kept bound) {f : Value} {args : List Value} (hf : f.Plain)
    (hargs : ∀ v ∈ args, v.Plain) : Keeps (Eval.call (bound + 1) f args) := by
  cases f with
  | capsule c =>
    show Keeps (Eval.ofExcept (Capsule.bind c.name c.params args) >>= fun bound =>
      runCapsule c bound)
    refine .bind (.ofExcept fun vs hvs v hv => ?_) fun vs hvs => keeps_runCapsule c hvs
    rcases Capsule.mem_of_bind hvs hv with hv | ⟨p, hp, hd⟩
    · exact hargs v hv
    · exact Value.plain_of_default hf hp hd
  | closure c =>
    rw [Eval.call]
    refine .inScope _ _ (.holding _ (.bind (ih.bindParams c.name c.params hargs) fun _ _ => ?_))
    have hbody := ih.executeAll c.body.body
    refine .bind hbody fun flow hflow => ?_
    exact .value (Value.plain_ofReturned hflow)
  | _ => exact Keeps.value (v := Value.null) rfl

theorem bindParams_succ (ih : Kept bound) (function : String) (ps : List Param)
    {vs : List Value} (hvs : ∀ v ∈ vs, v.Plain) :
    Keeps (Eval.bindParams (bound + 1) function ps vs) := by
  cases ps with
  | nil =>
    rw [Eval.bindParams]
    exact .bare rfl
  | cons p ps =>
    cases vs with
    | cons v vs =>
      rw [Eval.bindParams]
      refine .bind (keeps_define _ (hvs v List.mem_cons_self)) fun _ _ => ?_
      exact ih.bindParams function ps fun w hw => hvs w (List.mem_cons_of_mem _ hw)
    | nil =>
      rw [Eval.bindParams]
      rcases p.default? with _ | e
      · exact .fail _
      · have hvalue := ih.evaluate e
        refine .bind hvalue fun v hv => ?_
        refine .bind (keeps_define _ (hv v List.mem_cons_self)) fun _ _ => ?_
        exact ih.bindParams function ps hvs

theorem moduleExports_succ (ih : Kept bound) (source : String) :
    Keeps (Eval.moduleExports (bound + 1) source) := by
  rw [Eval.moduleExports]
  rcases Library.moduleOf? source with _ | name
  · refine .machine fun m _ => .host fun host => ?_
    rcases host.disk.canonical? _ with _ | path
    · exact .fail _
    · exact ih.fileExports source path
  · dsimp only
    rcases hb : Library.exports? name with _ | b
    · exact .fail _
    · refine .pure fun v hv => .of_places (List.eq_nil_iff_forall_not_mem.2 fun c hc => ?_)
      have hnone : b.places = [] := Library.places_exports? hb
      have hmem : c ∈ b.places := Value.mem_placesAll.2 ⟨v, hv, hc⟩
      rw [hnone] at hmem
      cases hmem

theorem fileExports_succ (ih : Kept bound) (source path : String) :
    Keeps (Eval.fileExports (bound + 1) source path) := by
  rw [Eval.fileExports]
  have hreusable := keeps_reusable? path
  refine .bind hreusable fun reusable? hreusable => ?_
  cases reusable? with
  | some exports => exact .pure hreusable
  | none =>
    refine .machine fun m _ => .ite (.fail _) ?_
    have htext := keeps_moduleText source path
    refine .bind htext fun found _ => ?_
    obtain ⟨text, digest⟩ := found
    have hunchanged := keeps_unchanged? path digest
    refine .bind hunchanged fun unchanged? hunchanged => ?_
    cases unchanged? with
    | some exports => exact .pure hunchanged
    | none =>
      have hmodule := ih.runModule path text
      refine .bind hmodule fun exports hexports => ?_
      exact .bind (keeps_keep path digest hexports) fun _ _ => .pure hexports

theorem runModule_succ (ih : Kept bound) (path text : String) :
    Keeps (Eval.runModule (bound + 1) path text) := by
  rw [Eval.runModule.eq_def]
  have hprogram := keeps_moduleProgram path text
  refine .bind hprogram fun program _ => .inModule path ?_
  refine .machine fun m _ => .inScope _ _ (.bind (ih.executeAll program.body) fun flow _ => ?_)
  cases flow with
  | returned vs => exact .fail _
  | normal => exact .machine fun n hn => .pure (hn.bindings n.current)

/-- The evaluator keeps machines plain, whatever the bound. -/
theorem kept : ∀ bound, Kept bound
  | 0 => .zero
  | bound + 1 =>
    have ih := kept bound
    { execute := fun s => by rw [Eval.execute]; exact .claiming s.span (ih.perform s)
      perform := ih.perform_succ
      executeAll := ih.executeAll_succ
      whileLoop := ih.whileLoop_succ
      rangeLoop := ih.rangeLoop_succ
      evaluate := fun e => by rw [Eval.evaluate]; exact .claiming e.span (ih.compute e)
      compute := ih.compute_succ
      evaluateNumber := ih.evaluateNumber_succ
      evaluateAll := ih.evaluateAll_succ
      showAll := ih.showAll_succ
      call := ih.call_succ
      bindParams := ih.bindParams_succ
      moduleExports := ih.moduleExports_succ
      fileExports := ih.fileExports_succ
      runModule := ih.runModule_succ }

end Kept
end Eval
end Playscript
