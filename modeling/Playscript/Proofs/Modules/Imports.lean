/-
# The import of a file

An import comes to one of five ends, by the policy, the cache, the modules under
way and the file (`Imports`). Only the last of them runs the module; what it
exports is then kept with the digest of the text that has run.

Key definitions: `Eval.keeping`, `Imports`.
Key theorems: `imports`.
-/
import Playscript.Proofs.Trace.Walk

namespace Playscript

open Eval Job

/-- Keeps a module that has run, under a policy. -/
def Machine.keepModule (m : Machine) (policy : CachePolicy) (path : String) (kept : CachedModule) :
    Machine :=
  if policy = .disabled then m else { m with modules := m.modules.insert path kept }

/-- What is left of the run of a module: what it exports is kept with a digest. -/
def Eval.keeping (policy : CachePolicy) (path digest : String) :
    Outcome Bindings × Machine → Outcome Bindings × Machine
  | (.done exports, m) => (.done exports, m.keepModule policy path ⟨digest, exports⟩)
  | (.failed fault, m) => (.failed fault, m)
  | (.exhausted, m) => (.exhausted, m)

/-- What the import of a file can come to, and what it visits below itself. -/
inductive Imports (bound : Nat) (source path : String) (host : Host) (held : List Value)
    (m : Machine) : Outcome Bindings × Machine → List Visit → Prop where
  | reused {kept : CachedModule} :
    host.settings.policy = .reuse → m.modules.get? path = some kept →
      Imports bound source path host held m (.done kept.exports, m) []
  | circular :
    (host.settings.policy = .reuse → m.modules.get? path = none) → path ∈ m.modules.loading →
      Imports bound source path host held m (.failed (.raised (.circularImport source)), m) []
  | unreadable {cause : ReadError} :
    (host.settings.policy = .reuse → m.modules.get? path = none) → path ∉ m.modules.loading →
      host.disk.read path = .error cause →
      Imports bound source path host held m (.failed (.raised (.importNotFound source)), m) []
  | unchanged {text : String} {kept : CachedModule} :
    path ∉ m.modules.loading → host.disk.read path = .ok text →
      host.settings.policy = .revalidate → m.modules.get? path = some kept →
      kept.digest = Digest.ofText text →
      Imports bound source path host held m (.done kept.exports, m) []
  | ran {text : String} :
    path ∉ m.modules.loading → host.disk.read path = .ok text →
      (host.settings.policy = .reuse → m.modules.get? path = none) →
      (host.settings.policy = .revalidate → ∀ kept, m.modules.get? path = some kept →
        kept.digest ≠ Digest.ofText text) →
      Imports bound source path host held m
        (keeping host.settings.policy path (Digest.ofText text)
          (Eval.runModule bound path text host held m))
        (visits bound (.runModule path text) host held m)

variable {source path digest : String} {host : Host} {held : List Value} {m : Machine}

/-- What reuse answers. -/
theorem run_reusable? :
    Eval.reusable? path host held m =
      (.done (if host.settings.policy = .reuse then (m.modules.get? path).map (·.exports)
        else none), m) := by
  unfold Eval.reusable?
  rw [bind_of_done (n := m) (a := host) rfl]
  cases host.settings.policy <;> rfl

theorem run_reusable?_some {kept : CachedModule} (hpolicy : host.settings.policy = .reuse)
    (hget : m.modules.get? path = some kept) :
    Eval.reusable? path host held m = (.done (some kept.exports), m) := by
  rw [run_reusable?, if_pos hpolicy, hget]
  rfl

theorem run_reusable?_none (h : host.settings.policy = .reuse → m.modules.get? path = none) :
    Eval.reusable? path host held m = (.done none, m) := by
  rw [run_reusable?]
  split
  · rename_i hpolicy
    rw [h hpolicy]
    rfl
  · rfl

theorem run_moduleText :
    Eval.moduleText source path host held m =
      match host.disk.read path with
      | .ok text => (.done (text, Digest.ofText text), m)
      | .error _ => (.failed (.raised (.importNotFound source)), m) := by
  unfold Eval.moduleText
  rw [bind_of_done (n := m) (a := host) rfl]
  cases host.disk.read path <;> rfl

theorem run_unchanged? :
    Eval.unchanged? path digest host held m =
      (.done (if host.settings.policy = .revalidate then
        (m.modules.get? path).bind fun kept => if kept.digest = digest then some kept.exports
          else none
        else none), m) := by
  unfold Eval.unchanged?
  rw [bind_of_done (n := m) (a := host) rfl, bind_of_done (n := m) (a := m) rfl]
  cases host.settings.policy <;> cases m.modules.get? path <;> rfl

theorem run_unchanged?_some {kept : CachedModule} (hpolicy : host.settings.policy = .revalidate)
    (hget : m.modules.get? path = some kept) (hdigest : kept.digest = digest) :
    Eval.unchanged? path digest host held m = (.done (some kept.exports), m) := by
  rw [run_unchanged?, if_pos hpolicy, hget, Option.bind_some, if_pos hdigest]

theorem run_unchanged?_none (h : host.settings.policy = .revalidate →
    ∀ kept, m.modules.get? path = some kept → kept.digest ≠ digest) :
    Eval.unchanged? path digest host held m = (.done none, m) := by
  rw [run_unchanged?]
  split
  · rename_i hpolicy
    rw [Option.bind_eq_none_iff.2 fun kept hget => if_neg (h hpolicy kept hget)]
  · rfl

theorem run_keep {exports : Bindings} :
    Eval.keep path digest exports host held m =
      (.done (), m.keepModule host.settings.policy path ⟨digest, exports⟩) := by
  unfold Eval.keep
  rw [bind_of_done (n := m) (a := host) rfl, Machine.keepModule]
  split <;> rfl

/-- The run of a module, and what is done with what it exports. -/
theorem run_keeping (x : Eval Bindings) :
    (x >>= fun exports => Eval.keep path digest exports >>= fun _ => pure exports) host held m =
      Eval.keeping host.settings.policy path digest (x host held m) := by
  show Eval.bind x _ host held m = _
  unfold Eval.bind
  generalize x host held m = r
  obtain ⟨outcome, n⟩ := r
  cases outcome with
  | done exports => exact bind_of_done run_keep
  | failed fault => rfl
  | exhausted => rfl

theorem imports (bound : Nat) (source path : String) (host : Host) (held : List Value)
    (m : Machine) :
    Imports bound source path host held m (Eval.fileExports (bound + 1) source path host held m)
      (belowFile (visits bound) source path host held m) := by
  rw [Eval.fileExports, belowFile]
  by_cases hreuse : host.settings.policy = .reuse ∧ ∃ kept, m.modules.get? path = some kept
  · obtain ⟨hpolicy, kept, hget⟩ := hreuse
    rw [bind_of_done (run_reusable?_some hpolicy hget),
      Trace.andThen_of_done (run_reusable?_some hpolicy hget)]
    exact .reused hpolicy hget
  have hnone : host.settings.policy = .reuse → m.modules.get? path = none := fun hpolicy =>
    Option.eq_none_iff_forall_ne_some.2 fun kept hget => hreuse ⟨hpolicy, kept, hget⟩
  rw [bind_of_done (run_reusable?_none hnone), Trace.andThen_of_done (run_reusable?_none hnone)]
  dsimp only
  rw [bind_of_done (n := m) (a := m) rfl, Trace.machine]
  by_cases hloading : path ∈ m.modules.loading
  · rw [if_pos (List.contains_iff_mem.2 hloading), if_pos (List.contains_iff_mem.2 hloading)]
    exact .circular hnone hloading
  rw [if_neg (mt List.contains_iff_mem.1 hloading), if_neg (mt List.contains_iff_mem.1 hloading)]
  have htext : Eval.moduleText source path host held m = _ := run_moduleText
  cases hread : host.disk.read path with
  | error cause =>
    rw [hread] at htext
    rw [bind_of_failed htext, Trace.andThen_of_failed htext]
    exact .unreadable hnone hloading hread
  | ok text =>
    rw [hread] at htext
    rw [bind_of_done htext, Trace.andThen_of_done htext]
    dsimp only
    by_cases hserves : host.settings.policy = .revalidate ∧
        ∃ kept, m.modules.get? path = some kept ∧ kept.digest = Digest.ofText text
    · obtain ⟨hpolicy, kept, hget, hdigest⟩ := hserves
      rw [bind_of_done (run_unchanged?_some hpolicy hget hdigest),
        Trace.andThen_of_done (run_unchanged?_some hpolicy hget hdigest)]
      exact .unchanged hloading hread hpolicy hget hdigest
    have hstale : host.settings.policy = .revalidate → ∀ kept, m.modules.get? path = some kept →
        kept.digest ≠ Digest.ofText text := fun hpolicy kept hget hdigest =>
      hserves ⟨hpolicy, kept, hget, hdigest⟩
    rw [bind_of_done (run_unchanged?_none hstale),
      Trace.andThen_of_done (run_unchanged?_none hstale)]
    dsimp only
    rw [run_keeping]
    exact .ran hloading hread hnone hstale

end Playscript
