/-
# Evaluations that follow one another

An evaluation on the machine that reclaims frames is followed by one on the
machine that does not when both end alike: both done, with the same result but
for the places of closures, or both with the same fault, or both for lack of
depth; and the machines agree again, with the frames around the evaluation as
they were (`Ends`). There is one rule for each way of putting evaluations
together, so a claim about the evaluator follows its text.

Key definitions: `Pairing.Ends`, `Pairing.Follows`.
Key theorems: `Follows.bind`, `Follows.holding`, `Follows.inScope`, `Follows.claiming`.
-/
import Playscript.Proofs.Pairing.Agreement
import Playscript.Proofs.Machine.Cargo

namespace Playscript

namespace Pairing

variable {α β : Type} [Cargo α] [Cargo β] {σ τ υ : Pairing} {held more : List Value}
  {c : Closure} {s t p : Slot} {v : Value} {host : Host}

/-- Both evaluations end alike, and the machines agree. -/
inductive Ends (σ : Pairing) (held : List Value) :
    Outcome α × Machine → Outcome α × Machine → Prop where
  | done {τ : Pairing} {a : α} : σ.Resumes held τ → τ.Agrees (Cargo.values a ++ held) →
      Ends σ held (.done a, τ.left) (.done (Cargo.relocate τ.place a), τ.right)
  | failed {τ : Pairing} {fault : Fault} : σ.Resumes held τ → τ.Agrees held →
      Ends σ held (.failed fault, τ.left) (.failed fault, τ.right)
  | exhausted {τ : Pairing} : σ.Resumes held τ → τ.Agrees held →
      Ends σ held (.exhausted, τ.left) (.exhausted, τ.right)

/-- The second evaluation, on the right machine and without reclaiming, ends as the first does
on the left machine with reclaiming. What is held on the right does not matter. -/
def Follows (host : Host) (σ : Pairing) (held : List Value) (x y : Eval α) : Prop :=
  ∀ lavishly, Ends σ held (x host.reclaiming held σ.left) (y host.lavish lavishly σ.right)

/-- Where the machines have come to by steps that resume. -/
theorem Ends.of_resumes {r r' : Outcome α × Machine} (hτ : σ.Resumes held τ)
    (h : Ends τ held r r') : Ends σ held r r' := by
  cases h with
  | done hυ ha => exact .done (hτ.trans hυ) ha
  | failed hυ ha => exact .failed (hτ.trans hυ) ha
  | exhausted hυ ha => exact .exhausted (hτ.trans hυ) ha

/-- Fewer values in hand. -/
theorem Ends.drop {r r' : Outcome α × Machine} (h : Ends σ held r r')
    (hsub : ∀ v ∈ more, v ∈ held) : Ends σ more r r' := by
  cases h with
  | done hτ ha =>
    refine .done (hτ.drop hsub) (ha.drop fun v hv => ?_)
    exact (List.mem_append.1 hv).elim (List.mem_append_left _)
      fun hv => List.mem_append_right _ (hsub v hv)
  | failed hτ ha => exact .failed (hτ.drop hsub) (ha.drop hsub)
  | exhausted hτ ha => exact .exhausted (hτ.drop hsub) (ha.drop hsub)

namespace Follows

/-! ### Ending -/

theorem pure {a a' : α} (h : σ.Agrees (Cargo.values a ++ held))
    (ha : a' = Cargo.relocate σ.place a) :
    Follows host σ held (Pure.pure a) (Pure.pure a') := by
  intro _
  subst ha
  exact .done (.refl σ held) h

theorem fail (h : σ.Agrees held) (failure : Failure) :
    Follows host σ held (Eval.fail failure : Eval α) (Eval.fail failure) := fun _ =>
  .failed (.refl σ held) h

theorem fail_bind (h : σ.Agrees held) (failure : Failure) {γ : Type} {k l : γ → Eval β} :
    Follows host σ held (Eval.fail failure >>= k) (Eval.fail failure >>= l) := fun _ =>
  .failed (.refl σ held) h

theorem exhausted (h : σ.Agrees held) :
    Follows host σ held (Eval.exhausted : Eval α) Eval.exhausted := fun _ =>
  .exhausted (.refl σ held) h

theorem ofExcept (h : σ.Agrees held) {r r' : Except Failure α}
    (hr : r' = r.map (Cargo.relocate σ.place))
    (hdone : ∀ a, r = .ok a → σ.Agrees (Cargo.values a ++ held)) :
    Follows host σ held (Eval.ofExcept r) (Eval.ofExcept r') := by
  subst hr
  cases r with
  | ok a => exact pure (hdone a rfl) rfl
  | error failure => exact fail h failure

theorem ofExcept_bind (h : σ.Agrees held) {r r' : Except Failure α} {k l : α → Eval β}
    (hr : r' = r.map (Cargo.relocate σ.place))
    (hk : ∀ a, r = .ok a → Follows host σ held (k a) (l (Cargo.relocate σ.place a))) :
    Follows host σ held (Eval.ofExcept r >>= k) (Eval.ofExcept r' >>= l) := by
  subst hr
  cases r with
  | ok a => exact hk a rfl
  | error failure => exact fail_bind h failure

/-! ### One after another -/

/-- The rest of an evaluation takes up where its beginning ends, more values in hand. -/
theorem bind {x y : Eval α} {k l : α → Eval β} (hx : Follows host σ held x y)
    (hk : ∀ τ a, σ.Resumes held τ → τ.Agrees (Cargo.values a ++ held) →
      Follows host τ held (k a) (l (Cargo.relocate τ.place a))) :
    Follows host σ held (x >>= k) (y >>= l) := by
  intro lavishly
  show Ends σ held (Eval.bind x k _ _ _) (Eval.bind y l _ _ _)
  have hx := hx lavishly
  unfold Eval.bind
  generalize x host.reclaiming held σ.left = r at hx
  generalize y host.lavish lavishly σ.right = r' at hx
  cases hx with
  | done hτ ha => exact (hk _ _ hτ ha lavishly).of_resumes hτ
  | failed hτ ha => exact .failed hτ ha
  | exhausted hτ ha => exact .exhausted hτ ha

/-- More values held. -/
theorem holding {x y : Eval α} {vs ws : List Value} (hx : Follows host σ (vs ++ held) x y) :
    Follows host σ held (Eval.holding vs x) (Eval.holding ws y) := fun lavishly =>
  (hx (ws ++ lavishly)).drop fun _ => List.mem_append_right vs

/-- More values held during the beginning: the rest still has them in hand. -/
theorem holding_bind {x y : Eval α} {k l : α → Eval β} {vs ws : List Value}
    (hx : Follows host σ (vs ++ held) x y)
    (hk : ∀ τ a, σ.Resumes (vs ++ held) τ → τ.Agrees (Cargo.values a ++ (vs ++ held)) →
      Follows host τ held (k a) (l (Cargo.relocate τ.place a))) :
    Follows host σ held (Eval.holding vs x >>= k) (Eval.holding ws y >>= l) := by
  intro lavishly
  show Ends σ held (Eval.bind (Eval.holding vs x) k _ _ _)
    (Eval.bind (Eval.holding ws y) l _ _ _)
  have hx := hx (ws ++ lavishly)
  have hdrop : ∀ v ∈ held, v ∈ vs ++ held := fun _ => List.mem_append_right vs
  unfold Eval.bind Eval.holding
  generalize x host.reclaiming (vs ++ held) σ.left = r at hx
  generalize y host.lavish (ws ++ lavishly) σ.right = r' at hx
  cases hx with
  | done hτ ha => exact (hk _ _ hτ ha lavishly).of_resumes (hτ.drop hdrop)
  | failed hτ ha => exact .failed (hτ.drop hdrop) (ha.drop hdrop)
  | exhausted hτ ha => exact .exhausted (hτ.drop hdrop) (ha.drop hdrop)

/-- A condition that comes out the same on both sides. -/
theorem ite {b b' : Bool} {x y x' y' : Eval α} (hb : b' = b) (hx : Follows host σ held x x')
    (hy : Follows host σ held y y') :
    Follows host σ held (if b then x else y) (if b' then x' else y') := by
  subst hb
  split
  · exact hx
  · exact hy

/-- The rest reads the machine. -/
theorem machine {k l : Machine → Eval β} (h : Follows host σ held (k σ.left) (l σ.right)) :
    Follows host σ held (Eval.machine >>= k) (Eval.machine >>= l) := h

/-- The beginning reads the machine. -/
theorem machine_bind {γ : Type} {f g : Machine → Eval γ} {k l : γ → Eval β}
    (h : Follows host σ held (f σ.left >>= k) (g σ.right >>= l)) :
    Follows host σ held ((Eval.machine >>= f) >>= k) ((Eval.machine >>= g) >>= l) := h

/-- The rest reads the host. -/
theorem host_bind {k l : Host → Eval β}
    (h : Follows host σ held (k host.reclaiming) (l host.lavish)) :
    Follows host σ held (Eval.host >>= k) (Eval.host >>= l) := h

/-- A change to both machines. -/
theorem change {f g : Machine → Machine} (hτ : σ.Resumes held (σ.change f g))
    (h : (σ.change f g).Agrees held) :
    Follows host σ held (Eval.change f) (Eval.change g) := fun _ => .done (a := ()) hτ h

/-- A change to both machines, and the rest. -/
theorem change_bind {f g : Machine → Machine} {k l : Unit → Eval β}
    (hτ : σ.Resumes held (σ.change f g)) (hk : Follows host (σ.change f g) held (k ()) (l ())) :
    Follows host σ held (Eval.change f >>= k) (Eval.change g >>= l) := fun lavishly =>
  (hk lavishly).of_resumes hτ

/-! ### Claims, scopes and modules -/

theorem claiming {x y : Eval α} (span : Span) (hx : Follows host σ held x y) :
    Follows host σ held (Eval.claiming span x) (Eval.claiming span y) := by
  intro lavishly
  have hx := hx lavishly
  unfold Eval.claiming
  generalize x host.reclaiming held σ.left = r at hx
  generalize y host.lavish lavishly σ.right = r' at hx
  cases hx with
  | done hτ ha => exact .done hτ ha
  | @failed τ fault hτ ha =>
    have hfile : τ.right.file host.lavish.settings = τ.left.file host.reclaiming.settings := by
      rw [Machine.file, Machine.file, ha.files]
      rfl
    dsimp only
    rw [hfile]
    exact .failed hτ ha
  | exhausted hτ ha => exact .exhausted hτ ha

/-- A scope around two evaluations: its frame is pushed to both arenas, and given back on the
left. -/
theorem inScope {x y : Eval α} {values : α → List Value} {p' : Slot} (h : σ.Agrees held)
    (hp : p' = σ.place p) (hx : Follows host (σ.enter p) held x y) :
    Follows host σ held (Eval.inScope p Cargo.values x) (Eval.inScope p' values y) := by
  intro lavishly
  subst hp
  have hx := hx lavishly
  have hback : ∀ {τ : Pairing}, (σ.enter p).Resumes held τ →
      τ.left.arena.Live σ.left.current ∧ σ.left.current ≠ τ.left.current ∧
        τ.place σ.left.current = σ.right.current := fun {τ} hτ => by
    have hlive : (σ.enter p).left.arena.Live σ.left.current :=
      h.sound.shape.ledger.live_push.2 (.inr h.sound.current)
    refine ⟨(hτ.live _).2 hlive, fun heq => ?_, ?_⟩
    · have hnext := heq.trans (hτ.current.trans (Machine.current_enter σ.left p))
      have := h.isSome_current
      rw [hnext, h.sound.shape.ledger.frame?_next] at this
      cases this
    · rw [hτ.place _ hlive, h.place_enter h.isSome_current, h.current]
  unfold Eval.inScope
  change Ends (σ.enter p) held (x host.reclaiming held (σ.left.enter p))
    (y host.lavish lavishly (σ.right.enter (σ.place p))) at hx
  dsimp only
  generalize x host.reclaiming held (σ.left.enter p) = r at hx
  generalize y host.lavish lavishly (σ.right.enter (σ.place p)) = r' at hx
  cases hx with
  | done hτ ha =>
    obtain ⟨hlive, hne, hplace⟩ := hback hτ
    rw [← hplace]
    exact .done (.scope h hτ host _ _) (ha.leave hlive hne host _)
  | failed hτ ha =>
    obtain ⟨hlive, hne, hplace⟩ := hback hτ
    rw [← hplace]
    exact .failed (.scope h hτ host _ _) (ha.leave hlive hne host _)
  | exhausted hτ ha =>
    obtain ⟨hlive, hne, hplace⟩ := hback hτ
    rw [← hplace]
    exact .exhausted (.scope h hτ host _ _) (ha.leave hlive hne host _)

theorem inModule {x y : Eval α} (path : String)
    (hx : Follows host (σ.change (·.beginModule path) (·.beginModule path)) held x y) :
    Follows host σ held (Eval.inModule path x) (Eval.inModule path y) := by
  intro lavishly
  have hx := hx lavishly
  unfold Eval.inModule
  change Ends _ held (x host.reclaiming held (σ.left.beginModule path))
    (y host.lavish lavishly (σ.right.beginModule path)) at hx
  generalize x host.reclaiming held (σ.left.beginModule path) = r at hx
  generalize y host.lavish lavishly (σ.right.beginModule path) = r' at hx
  have hend : ∀ {τ : Pairing}, (σ.change (·.beginModule path) (·.beginModule path)).Resumes held τ →
      σ.Resumes held (τ.change Machine.endModule Machine.endModule) := fun hτ =>
    ⟨hτ.current, hτ.live, hτ.place, hτ.held⟩
  cases hx with
  | done hτ ha => exact .done (hend hτ) ha.endModule
  | failed hτ ha => exact .failed (hend hτ) ha.endModule
  | exhausted hτ ha => exact .exhausted (hend hτ) ha.endModule

end Follows
end Pairing
end Playscript
