/-
# The evaluator follows itself

Every statement, expression and call on the machine that reclaims frames is
followed by the same one on the machine that does not. The proof goes along the
evaluator: one lemma for each of its functions, which takes what holds of all
of them with a smaller bound (`Tracked`), and an induction on the bound.

Key definitions: `Tracks`, `Tracked`.
Key theorems: `tracked`.
-/
import Playscript.Proofs.Pairing.Following

namespace Playscript
namespace Eval

open Pairing

variable {α β : Type} [Cargo α] [Cargo β] {σ : Pairing} {held more : List Value}
  {host : Host}

/-- An evaluation follows itself wherever the machines agree. -/
def Tracks (host : Host) (x : Eval α) : Prop :=
  ∀ σ held, σ.Agrees held → Follows host σ held x x

/-! ### Names -/

theorem tracks_get? (name : String) : Tracks host (get? name) := by
  intro σ held h
  refine .machine (.pure (h.take fun c hc => ?_) (h.get? name))
  rcases hv : σ.left.get? name with _ | v <;> rw [hv] at hc
  · cases hc
  · obtain ⟨w, hw, hc⟩ := Value.mem_placesAll.1 hc
    rw [List.mem_singleton.1 hw] at hc
    exact .of_get? hv hc

theorem tracks_get (name : String) : Tracks host (get name) := by
  intro σ held h
  have hget : Follows host σ held _ _ := tracks_get? name σ held h
  refine .bind hget fun τ a hτ ha => ?_
  cases a with
  | some v => exact .pure ha rfl
  | none => exact .fail ha _

/-- A definition of a value in hand, and the rest. -/
theorem follows_define_bind (h : σ.Agrees more) (name : String) {v : Value} (hv : v ∈ more)
    {k l : Unit → Eval β}
    (hk : ∀ τ, τ.place = σ.place → τ.Agrees more → Follows host τ held (k ()) (l ())) :
    Follows host σ held (define name v >>= k) (define name (v.relocate σ.place) >>= l) :=
  .change_bind (.define σ held name v _) (hk _ rfl (h.define name hv))

/-- An assignment of a value in hand, and the rest. -/
theorem follows_assign_bind (h : σ.Agrees more) (name : String) {v : Value} (hv : v ∈ more)
    (hsub : ∀ w ∈ held, w ∈ more) {k l : Unit → Eval β}
    (hk : ∀ τ, τ.place = σ.place → τ.Agrees more → Follows host τ held (k ()) (l ())) :
    Follows host σ held (assign name v >>= k) (assign name (v.relocate σ.place) >>= l) := by
  have howner := h.mirrors.owner? h.sound.shape.tree h.shape.tree h.isSome_current name
  have hfinds := h.sound.shape.tree.finds_owner? h.isSome_current name
  rw [← h.current] at howner
  refine .machine_bind ?_
  rw [Arena.assign?, Arena.assign?, howner]
  rcases ho : σ.left.arena.owner? σ.left.current name with _ | o
  · exact .fail_bind (h.drop hsub) _
  · rw [ho] at hfinds
    have hset : Follows host σ held
        (Eval.change (fun m => { m with arena := m.arena.define o name v }) >>= k)
        (Eval.change (fun m =>
          { m with arena := m.arena.define (σ.place o) name (v.relocate σ.place) }) >>= l) :=
      .change_bind (.setName σ held o name v _) (hk _ rfl (h.setName hfinds.isSome_owner name hv))
    exact hset

theorem tracks_functionOf (name : String) : Tracks host (functionOf name) := by
  intro σ held h
  have hget : Follows host σ held _ _ := tracks_get? name σ held h
  refine .bind hget fun τ a hτ ha => ?_
  cases a with
  | none => exact .fail ha _
  | some v =>
    exact .ite (Value.isFunction_relocate v) (.pure ha rfl) (.fail ha.right _)

theorem tracks_itemOf (array : String) (position : Float) :
    Tracks host (itemOf array position) := by
  intro σ held h
  have hget : Follows host σ held _ _ := tracks_get array σ held h
  refine .bind hget fun τ a hτ ha => ?_
  have hdrop : τ.Agrees held := ha.right
  cases a with
  | array items =>
    dsimp only [Cargo.relocate, Value.relocate]
    rw [Value.item?_relocate, Value.length_relocateAll]
    rcases hv : Value.item? items position with _ | v
    · exact .fail hdrop _
    · refine .pure (ha.hold fun c hc => ?_) rfl
      rcases Value.mem_placesAll_cons.1 hc with hc | hc
      · have hitems : c ∈ Value.placesAll items :=
          Value.mem_placesAll.2 ⟨v, Value.mem_of_item? hv, hc⟩
        exact .of_mem List.mem_cons_self hitems
      · exact .of_held (Value.mem_placesAll_cons.2 (.inr hc))
  | _ => exact .fail hdrop _

/-- Definitions of the values of a table in hand. -/
theorem agrees_defineAll (h : σ.Agrees more) (es : List (String × Value))
    (hes : ∀ e ∈ es, e.2 ∈ more) (held : List Value) :
    (σ.change (fun m => es.foldl (fun m e => m.define e.1 e.2) m) fun m =>
        (es.map fun e => (e.1, e.2.relocate σ.place)).foldl (fun m e => m.define e.1 e.2)
          m).Agrees more ∧
      σ.Resumes held (σ.change (fun m => es.foldl (fun m e => m.define e.1 e.2) m) fun m =>
        (es.map fun e => (e.1, e.2.relocate σ.place)).foldl (fun m e => m.define e.1 e.2) m) := by
  induction es generalizing σ with
  | nil => exact ⟨h, .refl σ held⟩
  | cons e es ih =>
    have hfirst := h.define e.1 (hes e List.mem_cons_self)
    obtain ⟨hagrees, hresumes⟩ := ih hfirst fun d hd => hes d (List.mem_cons_of_mem _ hd)
    exact ⟨hagrees, .trans (.define σ held e.1 e.2 _) hresumes⟩

theorem follows_defineAll {b : Bindings} (h : σ.Agrees (b.values ++ held)) :
    Follows host σ held (defineAll b) (defineAll (b.relocate σ.place)) := by
  obtain ⟨hagrees, hresumes⟩ := agrees_defineAll h b.entries
    (fun e he => List.mem_append_left _ (List.mem_map_of_mem he)) held
  exact .change hresumes hagrees.right

/-- The names of an import list, each bound to a value in hand. -/
theorem follows_bindItems {exports : Bindings} (source : String) (items : List ImportItem)
    (h : σ.Agrees (exports.values ++ held)) :
    Follows host σ held (bindItems exports source items)
      (bindItems (exports.relocate σ.place) source items) := by
  induction items generalizing σ with
  | nil => exact .pure h.right rfl
  | cons item items ih =>
    rw [bindItems, bindItems, Bindings.get?_relocate]
    rcases hv : exports.get? item.name.name with _ | v
    · exact .fail_bind h.right _
    · refine follows_define_bind h item.localName
        (List.mem_append_left _ (Bindings.mem_values_of_get? hv)) fun τ hplace ha => ?_
      rw [← hplace]
      exact ih ha

/-! ### Texts and lines -/

theorem follows_shownText (h : σ.Agrees held) (v : Value) :
    Follows host σ held (shownText v) (shownText (v.relocate σ.place)) := by
  refine .machine ?_
  cases v with
  | string s =>
    have htexts : (fun name => (σ.right.get? name).map Value.text) =
        fun name => (σ.left.get? name).map Value.text := funext fun name => by
      rw [h.get? name, Option.map_map]
      congr 1
      exact funext fun v => Value.text_relocate v
    show Follows host σ held (Pure.pure _)
      (Pure.pure (Template.fill (fun name => (σ.right.get? name).map Value.text) s))
    rw [htexts]
    exact .pure h rfl
  | array items =>
    exact .pure h (Value.text_relocate (.array items))
  | _ => exact .pure h rfl

theorem tracks_writeLine (line : String) : Tracks host (writeLine line) := fun _ _ h =>
  .change ⟨rfl, fun _ => .rfl, fun _ _ => rfl, fun _ _ => rfl⟩ (h.writeLine line)

theorem tracks_report (lines : List String) : Tracks host (report lines) := fun _ _ h =>
  .change ⟨rfl, fun _ => .rfl, fun _ _ => rfl, fun _ _ => rfl⟩ (h.report lines)

/-! ### Functions -/

theorem tracks_newClosure (name : String) (params : List Param) (body : Block Stmt) :
    Tracks host (newClosure name params body) := by
  intro σ held h
  refine .machine (.change_bind (.capture σ held _) ?_)
  refine .pure (h.capture rfl rfl) ?_
  rw [h.fresh, h.current]
  rfl

/-- A capsule run on arguments in hand. -/
theorem follows_runCapsule {c : Capsule Value} {args : List Value} (h : σ.Agrees (args ++ held)) :
    Follows host σ held (runCapsule c args)
      (runCapsule (c.relocate σ.place) (Value.relocateAll σ.place args)) := by
  refine .machine (.ofExcept_bind h.right ?_ fun answer hanswer => ?_)
  · rw [h.clock]
    exact Capsule.run_relocate c args σ.left.clock
  · obtain ⟨v, clock⟩ := answer
    refine .change_bind (f := fun m => { m with clock }) (g := fun m => { m with clock })
      ⟨rfl, fun _ => .rfl, fun _ _ => rfl, fun _ _ => rfl⟩ ?_
    have hv : σ.Agrees (v :: held) := h.hold fun d hd => by
      refine .of_held (Value.mem_placesAll_append.2 ?_)
      exact (Value.mem_placesAll_cons.1 hd).imp_left (Capsule.mem_places_run hanswer)
    exact .pure (hv.setClock clock) rfl

/-! ### Modules -/

theorem follows_moduleText (h : σ.Agrees held) (source path : String) :
    Follows host σ held (moduleText source path) (moduleText source path) := by
  refine .host_bind ?_
  rw [Host.disk_lavish, Host.disk_reclaiming]
  rcases host.disk.read path with _ | text
  · exact .fail h _
  · exact .pure h rfl

theorem tracks_moduleProgram (path text : String) :
    Tracks host (moduleProgram path text) := by
  intro σ held h
  unfold moduleProgram
  generalize Program.ofSource ⟨path, text⟩ = result
  obtain ⟨program, log⟩ := result
  have hreport : Follows host σ held _ _ := tracks_report (log.kept.map Diagnostic.text) σ held h
  refine .bind hreport fun τ a hτ ha => ?_
  cases program with
  | ok p => exact .pure ha rfl
  | error d => exact .fail ha _

/-- What a kept module exports, in hand. -/
theorem agrees_exports (h : σ.Agrees held) {path : String} {kept : CachedModule}
    (hkept : σ.left.modules.get? path = some kept) :
    σ.Agrees (kept.exports.values ++ held) := by
  refine h.take fun c hc => Machine.living_iff.2 (.inr (.inl ?_))
  obtain ⟨v, hv, hc⟩ := Value.mem_placesAll.1 hc
  exact Value.mem_placesAll.2 ⟨v, ModuleCache.mem_values_of_get? hkept hv, hc⟩

theorem tracks_reusable? (path : String) : Tracks host (reusable? path) := by
  intro σ held h
  refine .host_bind ?_
  rw [Host.settings_lavish, Host.settings_reclaiming]
  cases host.settings.policy with
  | reuse =>
    refine .machine ?_
    rw [h.modules, ModuleCache.get?_relocate]
    rcases hkept : σ.left.modules.get? path with _ | kept
    · exact .pure h rfl
    · exact .pure (agrees_exports h hkept) rfl
  | _ => exact .pure h rfl

theorem tracks_unchanged? (path digest : String) :
    Tracks host (unchanged? path digest) := by
  intro σ held h
  refine .host_bind (.machine ?_)
  rw [h.modules, ModuleCache.get?_relocate]
  rw [Host.settings_lavish, Host.settings_reclaiming]
  rcases hkept : σ.left.modules.get? path with _ | kept
  · cases host.settings.policy <;> exact .pure h rfl
  · cases host.settings.policy with
    | revalidate =>
      by_cases hdigest : kept.digest = digest
      · simp only [Option.map_some, if_pos hdigest]
        exact .pure (agrees_exports h hkept) rfl
      · simp only [Option.map_some, if_neg hdigest]
        exact .pure h rfl
    | _ => exact .pure h rfl

/-- A module that has run is kept, and answered. -/
theorem follows_keep_bind {exports : Bindings} (h : σ.Agrees (exports.values ++ held))
    (path digest : String) :
    Follows host σ held (keep path digest exports >>= fun _ => Pure.pure exports)
      (keep path digest (exports.relocate σ.place) >>= fun _ =>
        Pure.pure (exports.relocate σ.place)) := by
  show Follows host σ held
    ((if host.settings.policy = .disabled then Pure.pure () else _) >>= fun _ => Pure.pure exports)
    ((if host.settings.policy = .disabled then Pure.pure () else _) >>= fun _ =>
      Pure.pure (exports.relocate σ.place))
  by_cases hpolicy : host.settings.policy = .disabled
  · rw [if_pos hpolicy, if_pos hpolicy]
    exact .pure h rfl
  · rw [if_neg hpolicy, if_neg hpolicy]
    have hliving : ∀ c ∈ exports.places, σ.left.Living (exports.values ++ held) c :=
      fun c hc => .of_held (Value.mem_placesAll_append.2 (.inl hc))
    refine .change_bind ⟨rfl, fun _ => .rfl, fun _ _ => rfl, fun _ _ => rfl⟩ ?_
    exact .pure (h.keep path digest hliving) rfl

/-! ### The evaluator -/

/-- What holds of the functions of the evaluator with a bound. -/
structure Tracked (host : Host) (bound : Nat) : Prop where
  execute : ∀ s, Tracks host (execute bound s)
  perform : ∀ s, Tracks host (perform bound s)
  executeAll : ∀ ss, Tracks host (executeAll bound ss)
  whileLoop : ∀ condition body, Tracks host (whileLoop bound condition body)
  rangeLoop : ∀ counter next limit body, Tracks host (rangeLoop bound counter next limit body)
  evaluate : ∀ e, Tracks host (evaluate bound e)
  compute : ∀ e, Tracks host (compute bound e)
  evaluateNumber : ∀ purpose e, Tracks host (evaluateNumber bound purpose e)
  evaluateAll : ∀ es, Tracks host (evaluateAll bound es)
  showAll : ∀ es, Tracks host (showAll bound es)
  /-- The function and the arguments are in hand. -/
  call : ∀ {σ held f args}, σ.Agrees (args ++ held) → f ∈ held → Follows host σ held
    (call bound f args) (call bound (f.relocate σ.place) (Value.relocateAll σ.place args))
  /-- The arguments are in hand. -/
  bindParams : ∀ {σ held} function ps vs, σ.Agrees (vs ++ held) → Follows host σ held
    (bindParams bound function ps vs) (bindParams bound function ps (Value.relocateAll σ.place vs))
  moduleExports : ∀ source, Tracks host (moduleExports bound source)
  fileExports : ∀ source path, Tracks host (fileExports bound source path)
  runModule : ∀ path text, Tracks host (runModule bound path text)

theorem Tracked.zero : Tracked host 0 where
  execute _ _ _ h := .exhausted h
  perform _ _ _ h := .exhausted h
  executeAll _ _ _ h := .exhausted h
  whileLoop _ _ _ _ h := .exhausted h
  rangeLoop _ _ _ _ _ _ h := .exhausted h
  evaluate _ _ _ h := .exhausted h
  compute _ _ _ h := .exhausted h
  evaluateNumber _ _ _ _ h := .exhausted h
  evaluateAll _ _ _ h := .exhausted h
  showAll _ _ _ h := .exhausted h
  call h _ := .exhausted h.right
  bindParams _ _ _ h := .exhausted h.right
  moduleExports _ _ _ h := .exhausted h
  fileExports _ _ _ _ h := .exhausted h
  runModule _ _ _ _ h := .exhausted h

namespace Tracked

variable {bound : Nat}

/-! ### Statements -/

theorem execute_succ (ih : Tracked host bound) (s : Stmt) :
    Tracks host (Eval.execute (bound + 1) s) := by
  intro σ held h
  rw [Eval.execute]
  exact .claiming s.span (ih.perform s σ held h)

/-- The end of a statement. -/
theorem tracks_normal : Tracks host (Pure.pure Flow.normal) := fun _ _ h => .pure h rfl

theorem perform_succ (ih : Tracked host bound) (s : Stmt) :
    Tracks host (Eval.perform (bound + 1) s) := by
  intro σ held h
  cases s with
  | declare _ type name value? =>
    cases value? with
    | none =>
      rw [Eval.perform]
      refine follows_define_bind (h.cons (v := .null) rfl) _ List.mem_cons_self fun τ _ ha => ?_
      exact tracks_normal τ held ha.tail
    | some e =>
      rw [Eval.perform]
      have hvalue := ih.evaluate e σ held h
      refine .bind hvalue fun τ v _ hv => ?_
      dsimp only [Cargo.relocate]
      rw [Value.kindName_relocate]
      refine .ite (TypeName.admits_relocate _ v) ?_ (.fail_bind hv.right _)
      exact follows_define_bind hv _ List.mem_cons_self fun υ _ ha => tracks_normal υ held ha.right
  | display _ args =>
    rw [Eval.perform]
    have hparts := ih.showAll args σ held h
    refine .bind hparts fun τ parts _ ha => ?_
    have hline : Follows host τ held _ _ := tracks_writeLine (" ".intercalate parts) τ held ha
    exact .bind hline fun υ _ _ ha => tracks_normal υ held ha
  | block b =>
    rw [Eval.perform]
    refine .machine (.inScope h h.current ?_)
    exact ih.executeAll b.body _ held (h.enter h.isSome_current)
  | branch _ condition yes no? =>
    rw [Eval.perform.eq_def]
    have htest := ih.evaluate condition σ held h
    refine .bind htest fun τ test _ ha => ?_
    refine .ite (Value.isTruthy_relocate test) (ih.execute yes τ held ha.right) ?_
    cases no? with
    | none => exact tracks_normal τ held ha.right
    | some no => exact ih.execute no τ held ha.right
  | loopWhile _ condition body =>
    rw [Eval.perform]
    exact ih.whileLoop condition body σ held h
  | loopRange _ counter first limit body =>
    rw [Eval.perform]
    have hfirst := ih.evaluateNumber "range start" first σ held h
    refine .bind hfirst fun τ first _ ha => ?_
    have hlimit := ih.evaluateNumber "range end" limit τ held ha
    refine .bind hlimit fun υ limit _ ha => ?_
    refine .machine (.inScope ha ha.current ?_)
    have hfirst := (ha.enter ha.isSome_current).cons (v := .number first) rfl
    refine follows_define_bind hfirst _ List.mem_cons_self fun φ _ hφ => ?_
    exact ih.rangeLoop counter.name first limit body φ held hφ.tail
  | evaluate _ e =>
    rw [Eval.perform]
    have hvalue := ih.evaluate e σ held h
    exact .bind hvalue fun τ v _ ha => tracks_normal τ held ha.right
  | action _ name params _ body =>
    rw [Eval.perform]
    have hclosure : Follows host σ held _ _ := tracks_newClosure name.name params body σ held h
    refine .bind hclosure fun τ f _ hf => ?_
    exact follows_define_bind hf _ List.mem_cons_self fun υ _ ha => tracks_normal υ held ha.right
  | rename _ oldName newName =>
    rw [Eval.perform]
    have hget : Follows host σ held _ _ := tracks_get oldName.name σ held h
    refine .bind hget fun τ v _ hv => ?_
    refine .ite (Value.isFunction_relocate v) ?_ (.fail_bind hv.right _)
    exact follows_define_bind hv _ List.mem_cons_self fun υ _ ha => tracks_normal υ held ha.right
  | returnValues _ es =>
    rw [Eval.perform]
    have hvalues := ih.evaluateAll es σ held h
    exact .bind hvalues fun τ vs _ ha => .pure ha rfl
  | importFrom _ items? source =>
    rw [Eval.perform]
    have hexports := ih.moduleExports source σ held h
    refine .bind hexports fun τ exports _ ha => ?_
    cases items? with
    | none => exact .bind (follows_defineAll ha) fun υ _ _ ha => tracks_normal υ held ha
    | some items =>
      exact .bind (follows_bindItems source items ha) fun υ _ _ ha => tracks_normal υ held ha

theorem executeAll_succ (ih : Tracked host bound) (ss : List Stmt) :
    Tracks host (Eval.executeAll (bound + 1) ss) := by
  intro σ held h
  cases ss with
  | nil => exact tracks_normal σ held h
  | cons s rest =>
    rw [Eval.executeAll]
    have hrun := ih.execute s σ held h
    refine .bind hrun fun τ flow _ ha => ?_
    cases flow with
    | normal => exact ih.executeAll rest τ held ha
    | returned vs => exact .pure ha rfl

theorem whileLoop_succ (ih : Tracked host bound) (condition : Expr) (body : Stmt) :
    Tracks host (Eval.whileLoop (bound + 1) condition body) := by
  intro σ held h
  rw [Eval.whileLoop]
  have htest := ih.evaluate condition σ held h
  refine .bind htest fun τ test _ ha => ?_
  refine .ite (Value.isTruthy_relocate test) ?_ (tracks_normal τ held ha.right)
  have hrun := ih.execute body τ held ha.right
  refine .bind hrun fun υ flow _ ha => ?_
  cases flow with
  | normal => exact ih.whileLoop condition body υ held ha
  | returned vs => exact .pure ha rfl

theorem rangeLoop_succ (ih : Tracked host bound) (counter : String) (next limit : Float)
    (body : Stmt) : Tracks host (Eval.rangeLoop (bound + 1) counter next limit body) := by
  intro σ held h
  rw [Eval.rangeLoop]
  split
  · have hnext := h.cons (v := .number next) rfl
    refine follows_assign_bind hnext counter List.mem_cons_self
      (fun _ => List.mem_cons_of_mem _) fun τ _ hτ => ?_
    have hheld : τ.Agrees held := hτ.tail
    have hrun := ih.execute body τ held hheld
    refine .bind hrun fun υ flow _ ha => ?_
    cases flow with
    | normal => exact ih.rangeLoop counter (next + 1) limit body υ held ha
    | returned vs => exact .pure ha rfl
  · exact tracks_normal σ held h

/-! ### Expressions -/

theorem evaluate_succ (ih : Tracked host bound) (e : Expr) :
    Tracks host (Eval.evaluate (bound + 1) e) := by
  intro σ held h
  rw [Eval.evaluate]
  exact .claiming e.span (ih.compute e σ held h)

theorem compute_succ (ih : Tracked host bound) (e : Expr) :
    Tracks host (Eval.compute (bound + 1) e) := by
  intro σ held h
  cases e with
  | number _ x | string _ s | bool _ b =>
    rw [Eval.compute]
    exact .pure (h.cons rfl) rfl
  | array _ es =>
    rw [Eval.compute]
    have hvalues := ih.evaluateAll es σ held h
    refine .bind hvalues fun τ vs _ ha => .pure (ha.hold fun c hc => ?_) rfl
    refine .of_held (Value.mem_placesAll_append.2 ((Value.mem_placesAll_cons.1 hc).imp_left id))
  | name _ n =>
    rw [Eval.compute]
    exact tracks_get n σ held h
  | index _ array position =>
    rw [Eval.compute]
    have hposition := ih.evaluateNumber "array index" position σ held h
    refine .bind hposition fun τ i _ ha => ?_
    exact tracks_itemOf array.name i τ held ha
  | call _ callee args =>
    rw [Eval.compute]
    have hfunction : Follows host σ held _ _ := tracks_functionOf callee.name σ held h
    refine .bind hfunction fun τ f _ hf => ?_
    have hvalues := ih.evaluateAll args τ _ hf
    refine .holding_bind hvalues fun υ vs hυ ha => ?_
    refine .holding ?_
    have hcall := ih.call ha (f := f) List.mem_cons_self
    rwa [hυ.relocate List.mem_cons_self] at hcall
  | assign _ target value =>
    rw [Eval.compute]
    have hvalue := ih.evaluate value σ held h
    refine .bind hvalue fun τ v _ ha => ?_
    refine follows_assign_bind ha target.name List.mem_cons_self
      (fun _ => List.mem_cons_of_mem _) fun υ hplace hυ => ?_
    exact .pure hυ (congrArg (Value.relocate · v) hplace.symm)
  | binary _ op left right =>
    rw [Eval.compute]
    have hleft := ih.evaluate left σ held h
    refine .bind hleft fun τ l _ hl => ?_
    have hright := ih.evaluate right τ _ hl
    refine .holding_bind hright fun υ r hυ hr => ?_
    have hheld : υ.Agrees held := hr.right.right
    refine .ofExcept hheld ?_ fun v hv => hheld.cons (Operator.places_apply hv)
    show op.apply (l.relocate τ.place) (r.relocate υ.place) = _
    rw [← hυ.relocate List.mem_cons_self]
    exact op.apply_relocate l r
  | negate _ operand =>
    rw [Eval.compute]
    have hoperand := ih.evaluate operand σ held h
    refine .bind hoperand fun τ v _ ha => ?_
    exact .ofExcept ha.right (Value.negated_relocate v) fun w hw =>
      ha.right.cons (Value.places_negated hw)

theorem evaluateNumber_succ (ih : Tracked host bound) (purpose : String) (e : Expr) :
    Tracks host (Eval.evaluateNumber (bound + 1) purpose e) := by
  intro σ held h
  rw [Eval.evaluateNumber]
  have hvalue := ih.evaluate e σ held h
  refine .bind hvalue fun τ v _ ha => ?_
  refine .ofExcept ha.right ?_ fun _ _ => ha.right
  exact (Value.toNumber_relocate purpose v).trans (by cases v.toNumber purpose <;> rfl)

theorem evaluateAll_succ (ih : Tracked host bound) (es : List Expr) :
    Tracks host (Eval.evaluateAll (bound + 1) es) := by
  intro σ held h
  cases es with
  | nil => exact .pure h rfl
  | cons e rest =>
    rw [Eval.evaluateAll]
    have hvalue := ih.evaluate e σ held h
    refine .bind hvalue fun τ v _ hv => ?_
    have hvalues := ih.evaluateAll rest τ _ hv
    refine .holding_bind hvalues fun υ vs hυ ha => ?_
    refine .pure (ha.drop fun w hw => ?_) ?_
    · simp only [Cargo.values, id_eq, List.cons_append, List.nil_append, List.mem_cons,
        List.mem_append] at hw ⊢
      tauto
    · show v.relocate τ.place :: Value.relocateAll υ.place vs = _
      rw [← hυ.relocate List.mem_cons_self]
      rfl

theorem showAll_succ (ih : Tracked host bound) (es : List Expr) :
    Tracks host (Eval.showAll (bound + 1) es) := by
  intro σ held h
  cases es with
  | nil => exact .pure h rfl
  | cons e rest =>
    rw [Eval.showAll]
    have hvalue := ih.evaluate e σ held h
    refine .bind hvalue fun τ v _ hv => ?_
    have hshown : Follows host τ held _ _ := follows_shownText hv.right v
    refine .bind hshown fun υ text _ ha => ?_
    have hparts := ih.showAll rest υ held ha
    exact .bind hparts fun φ texts _ ha => .pure ha rfl

/-! ### Calls -/

theorem call_succ (ih : Tracked host bound) {f : Value} {args : List Value}
    (h : σ.Agrees (args ++ held)) (hf : f ∈ held) :
    Follows host σ held (Eval.call (bound + 1) f args)
      (Eval.call (bound + 1) (f.relocate σ.place) (Value.relocateAll σ.place args)) := by
  cases f with
  | capsule c =>
    show Follows host σ held
      (Eval.ofExcept (Capsule.bind c.name c.params args) >>= fun bound => runCapsule c bound)
      (Eval.ofExcept (Capsule.bind c.name (Value.relocateParams σ.place c.params)
        (Value.relocateAll σ.place args)) >>= fun bound => runCapsule (c.relocate σ.place) bound)
    refine .ofExcept_bind h.right (Capsule.bind_relocate c.name c.params args) fun bound hb => ?_
    refine follows_runCapsule (h.hold fun d hd => ?_)
    rcases Value.mem_placesAll_append.1 hd with hd | hd
    · rcases Capsule.mem_places_bind hb hd with hd | hd
      · exact .of_mem (List.mem_append_right _ hf) (List.mem_append_right _ hd)
      · exact .of_held (Value.mem_placesAll_append.2 (.inl hd))
    · exact .of_held (Value.mem_placesAll_append.2 (.inr hd))
  | closure c =>
    have hhome : (σ.left.arena.frame? c.frame).isSome :=
      h.sound.isSome (.of_mem (List.mem_append_right _ hf) (List.mem_singleton_self c))
    show Follows host σ held (Eval.call (bound + 1) (.closure c) args)
      (Eval.call (bound + 1) (.closure (c.relocate σ.place)) (Value.relocateAll σ.place args))
    rw [Eval.call, Eval.call]
    refine .inScope h.right rfl (.holding ?_)
    have henter : (σ.enter c.frame).Agrees (args ++ (args.drop c.params.length ++ held)) :=
      (h.enter hhome).drop fun w hw => by
        simp only [List.mem_append] at hw ⊢
        rcases hw with hw | hw | hw
        · exact .inl hw
        · exact .inl (List.mem_of_mem_drop hw)
        · exact .inr hw
    refine .bind ?_ fun τ _ _ ha => ?_
    · rw [← h.relocateAll_enter c.frame]
      exact ih.bindParams c.name c.params args henter
    · have hbody := ih.executeAll c.body.body τ _ ha
      refine .bind hbody fun υ flow _ ha => ?_
      refine .pure (ha.hold fun d hd => .of_held ?_) ?_
      · exact Value.mem_placesAll_append.2
          ((Value.mem_placesAll_cons.1 hd).imp_left Value.mem_places_ofReturned)
      · cases flow with
        | normal => rfl
        | returned vs => exact Value.ofReturned_relocate vs
  | _ => exact .pure (h.right.cons rfl) rfl

theorem bindParams_succ (ih : Tracked host bound) (function : String) (ps : List Param)
    (vs : List Value) (h : σ.Agrees (vs ++ held)) :
    Follows host σ held (Eval.bindParams (bound + 1) function ps vs)
      (Eval.bindParams (bound + 1) function ps (Value.relocateAll σ.place vs)) := by
  cases ps with
  | nil =>
    rw [Eval.bindParams, Eval.bindParams]
    exact .pure h.right rfl
  | cons p ps =>
    cases vs with
    | cons v vs =>
      rw [Value.relocateAll, Eval.bindParams, Eval.bindParams]
      refine follows_define_bind h _ List.mem_cons_self fun τ hplace ha => ?_
      rw [← hplace]
      exact ih.bindParams function ps vs ha.tail
    | nil =>
      rw [Value.relocateAll, Eval.bindParams]
      rcases p.default? with _ | e
      · exact .fail h.right _
      · have hvalue := ih.evaluate e σ held h.right
        refine .bind hvalue fun τ v _ hv => ?_
        refine follows_define_bind hv _ List.mem_cons_self fun υ _ ha => ?_
        exact ih.bindParams function ps [] ha.right

/-! ### Modules -/

theorem moduleExports_succ (ih : Tracked host bound) (source : String) :
    Tracks host (Eval.moduleExports (bound + 1) source) := by
  intro σ held h
  rw [Eval.moduleExports]
  rcases Library.moduleOf? source with _ | name
  · refine .machine (.host_bind ?_)
    have hdirectory : σ.right.directory host.settings = σ.left.directory host.settings := by
      rw [Machine.directory, Machine.directory, h.files]
    rw [Host.settings_lavish, Host.settings_reclaiming, Host.disk_lavish, Host.disk_reclaiming,
      hdirectory]
    rcases host.disk.canonical? _ with _ | path
    · exact .fail h _
    · exact ih.fileExports source path σ held h
  · dsimp only
    rcases hb : Library.exports? name with _ | b
    · exact .fail h _
    · refine .pure (h.take fun c hc => ?_) (Library.relocate_exports? hb).symm
      have hnone : Value.placesAll b.values = [] := Library.places_exports? hb
      change c ∈ Value.placesAll b.values at hc
      rw [hnone] at hc
      cases hc

theorem fileExports_succ (ih : Tracked host bound) (source path : String) :
    Tracks host (Eval.fileExports (bound + 1) source path) := by
  intro σ held h
  rw [Eval.fileExports]
  have hreusable : Follows host σ held _ _ := tracks_reusable? path σ held h
  refine .bind hreusable fun τ reusable? _ ha => ?_
  cases reusable? with
  | some exports => exact .pure ha rfl
  | none =>
    refine .machine (.ite ?_ (.fail ha _) ?_)
    · rw [ha.modules]; rfl
    · have htext : Follows host τ held _ _ := follows_moduleText ha source path
      refine .bind htext fun υ found _ ha => ?_
      obtain ⟨text, digest⟩ := found
      have hunchanged : Follows host υ held _ _ := tracks_unchanged? path digest υ held ha
      refine .bind hunchanged fun φ unchanged? _ ha => ?_
      cases unchanged? with
      | some exports => exact .pure ha rfl
      | none =>
        have hmodule := ih.runModule path text φ held ha
        refine .bind hmodule fun χ exports _ ha => ?_
        exact follows_keep_bind ha path digest

theorem runModule_succ (ih : Tracked host bound) (path text : String) :
    Tracks host (Eval.runModule (bound + 1) path text) := by
  intro σ held h
  rw [Eval.runModule.eq_def]
  have hprogram : Follows host σ held _ _ := tracks_moduleProgram path text σ held h
  refine .bind hprogram fun τ program _ ha => ?_
  have hbegin := ha.beginModule path
  refine .inModule path (.machine (.inScope hbegin hbegin.current ?_))
  have henter := hbegin.enter hbegin.isSome_current
  have hbody := ih.executeAll program.body _ held henter
  refine .bind hbody fun υ flow _ ha => ?_
  cases flow with
  | returned vs => exact .fail ha.right _
  | normal =>
    exact .machine (.pure (ha.take fun c hc => .of_bindings hc) ha.bindings)

/-- The evaluator follows itself, whatever the bound. -/
theorem tracked (host : Host) : ∀ bound, Tracked host bound
  | 0 => .zero
  | bound + 1 =>
    have ih := tracked host bound
    { execute := ih.execute_succ
      perform := ih.perform_succ
      executeAll := ih.executeAll_succ
      whileLoop := ih.whileLoop_succ
      rangeLoop := ih.rangeLoop_succ
      evaluate := ih.evaluate_succ
      compute := ih.compute_succ
      evaluateNumber := ih.evaluateNumber_succ
      evaluateAll := ih.evaluateAll_succ
      showAll := ih.showAll_succ
      call := ih.call_succ
      bindParams := ih.bindParams_succ
      moduleExports := ih.moduleExports_succ
      fileExports := ih.fileExports_succ
      runModule := ih.runModule_succ }

end Tracked
end Eval
end Playscript
