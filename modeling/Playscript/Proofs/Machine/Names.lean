/-
# What is bound stays bound

A statement may bind more names in the scope that it runs in, and none is lost there
(`keepsStatements`). Declarations add the names they declare; a branch and a loop may
declare in the bodies they run, which is why the proof goes along these; everything
else leaves the names as they are.

Key definitions: `Machine.Keeps`, `KeepsStatements`.
Key theorem: `keepsStatements`.
-/
import Playscript.Proofs.Modules.TopLevel

namespace Playscript

open Eval Job

/-- Whatever starts on the same machine is at work as well. -/
theorem Visit.Working.also {v : Visit} (hv : v.Working) {bound : Nat} {t : Job}
    {held : List Value} : Visit.Working ⟨bound, t, v.host, held, v.machine⟩ :=
  ⟨⟨hv.reclaims, hv.sturdy⟩, hv.live⟩

/-! ### Names that stay -/

/-- What is bound in the scope in use stays bound. -/
def Machine.Keeps (m n : Machine) : Prop := ∀ name,
  (m.arena.bindings m.current).binds name = true → (n.arena.bindings m.current).binds name = true

namespace Machine.Keeps

variable {m n o : Machine} {names : List String}

theorem refl (m : Machine) : m.Keeps m := fun _ h => h

theorem trans (hscope : n.current = m.current) (h : m.Keeps n) (h' : n.Keeps o) : m.Keeps o :=
  fun name hname => hscope ▸ h' name (hscope ▸ h name hname)

theorem of_adds (h : m.Adds n names) : m.Keeps n := fun name hname => (h name).2 (.inl hname)

variable {host : Host} {held : List Value} {bound : Nat} {β : Type}

/-- A whole job, and the rest. -/
theorem bind {t : Job} {k : t.Result → Eval β} (hv : Visit.Working ⟨bound, t, host, held, m⟩)
    (ht : m.Keeps (t.run bound host held m).2)
    (hk : ∀ a n, (∀ u, Visit.Working ⟨bound, u, host, held, n⟩) → n.Keeps (k a host held n).2) :
    m.Keeps ((t.run bound >>= k) host held m).2 := by
  let v : Visit := ⟨bound, t, host, held, m⟩
  have hscope : (t.run bound host held m).2.current = m.current := v.scope_eq
  have hafter (u : Job) : Visit.Working ⟨bound, u, host, held, (t.run bound host held m).2⟩ :=
    hv.after
  rcases h : t.run bound host held m with ⟨outcome, n⟩
  rw [h] at ht hscope hafter
  cases outcome with
  | done a =>
    rw [bind_of_done h]
    exact .trans hscope ht (hk a n hafter)
  | failed fault =>
    rw [bind_of_failed h]
    exact ht
  | exhausted =>
    rw [bind_of_exhausted h]
    exact ht

/-- A job that may not declare, and the rest. -/
theorem bind_still {t : Job} {k : t.Result → Eval β} (hsets : t.declares = false)
    (hv : Visit.Working ⟨bound, t, host, held, m⟩)
    (hk : ∀ a n, (∀ u, Visit.Working ⟨bound, u, host, held, n⟩) → n.Keeps (k a host held n).2) :
    m.Keeps ((t.run bound >>= k) host held m).2 := by
  have hadds := Visit.adds_nil hv hsets
  exact .bind hv (.of_adds hadds) hk

end Machine.Keeps

/-- Statements leave bound what is bound in the scope in use. -/
structure KeepsStatements (bound : Nat) : Prop where
  execute : ∀ {s host held m}, Visit.Working ⟨bound, .execute s, host, held, m⟩ →
    m.Keeps (Eval.execute bound s host held m).2
  perform : ∀ {s host held m}, s.isDeclaration = false →
    Visit.Working ⟨bound, .perform s, host, held, m⟩ → m.Keeps (Eval.perform bound s host held m).2
  whileLoop : ∀ {condition body host held m},
    Visit.Working ⟨bound, .whileLoop condition body, host, held, m⟩ →
    m.Keeps (Eval.whileLoop bound condition body host held m).2

namespace KeepsStatements

variable {bound : Nat} {host : Host} {held : List Value} {m : Machine}

theorem zero : KeepsStatements 0 := ⟨fun _ => .refl _, fun _ _ => .refl _, fun _ => .refl _⟩

variable (ih : KeepsStatements bound)
include ih

theorem execute_succ {s : Stmt} (hv : Visit.Working ⟨bound + 1, .execute s, host, held, m⟩) :
    m.Keeps (Eval.execute (bound + 1) s host held m).2 := by
  cases hdeclaration : s.isDeclaration with
  | true =>
    obtain ⟨names, hadds, -⟩ := (Visit.extends_declaration hv hdeclaration).some
    exact .of_adds hadds
  | false =>
    rw [Eval.execute, machine_claiming]
    exact ih.perform hdeclaration hv.also

theorem perform_succ {s : Stmt} (hdeclaration : s.isDeclaration = false)
    (hv : Visit.Working ⟨bound + 1, .perform s, host, held, m⟩) :
    m.Keeps (Eval.perform (bound + 1) s host held m).2 := by
  have hstill (hsets : s.declares = false) :
      m.Keeps (Eval.perform (bound + 1) s host held m).2 := by
    let v : Visit := ⟨bound + 1, .perform s, host, held, m⟩
    have hadds : m.Adds (Eval.perform (bound + 1) s host held m).2 [] := v.adds_nil hv hsets
    exact .of_adds hadds
  cases s with
  | declare | action | rename | importFrom => cases hdeclaration
  | branch span condition yes no? =>
    rw [Eval.perform.eq_def]
    refine .bind_still (t := .evaluate condition) rfl hv.also fun test n hn => ?_
    split
    · exact ih.execute (hn _)
    · cases no? with
      | none => exact .refl n
      | some no => exact ih.execute (hn _)
  | loopWhile span condition body =>
    rw [Eval.perform]
    exact ih.whileLoop hv.also
  | block | display | loopRange | evaluate | returnValues => exact hstill rfl

theorem whileLoop_succ {condition : Expr} {body : Stmt}
    (hv : Visit.Working ⟨bound + 1, .whileLoop condition body, host, held, m⟩) :
    m.Keeps (Eval.whileLoop (bound + 1) condition body host held m).2 := by
  rw [Eval.whileLoop]
  refine .bind_still (t := .evaluate condition) rfl hv.also fun test n hn => ?_
  split
  · refine .bind (t := .execute body) (hn _) (ih.execute (hn _)) fun flow o ho => ?_
    cases flow with
    | normal => exact ih.whileLoop (ho _)
    | returned vs => exact .refl o
  · exact .refl n

end KeepsStatements

theorem keepsStatements (bound : Nat) : KeepsStatements bound := by
  induction bound with
  | zero => exact .zero
  | succ bound ih => exact ⟨ih.execute_succ, ih.perform_succ, ih.whileLoop_succ⟩

end Playscript
