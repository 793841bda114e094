/-
# The state of a running script

A machine holds the arena of scopes, the scope in use, the modules that are
done and those under way, the clock, and what has been written. A host fixes
what a script cannot change: its settings and its disk.
-/
import Playscript.Arena
import Playscript.Clock
import Playscript.Disk.Basic
import Playscript.Settings.Basic

namespace Playscript

/-- A module that has run. -/
structure CachedModule where
  /-- The digest of the text that ran. -/
  digest : String
  exports : Bindings

/-- The modules that have run, and those under way, the innermost first. -/
structure ModuleCache where
  entries : List (String × CachedModule)
  loading : List String

namespace ModuleCache

def empty : ModuleCache := ⟨[], []⟩

/-- The module of a canonical path. -/
def get? (c : ModuleCache) (path : String) : Option CachedModule := c.entries.lookup path

/-- Keeps a module in place of the one with its path. -/
def insert (c : ModuleCache) (path : String) (m : CachedModule) : ModuleCache :=
  { c with entries := (path, m) :: c.entries.filter fun e => e.1 != path }

/-- Forgets the modules that have run. -/
def clear (c : ModuleCache) : ModuleCache := { c with entries := [] }

/-- How many modules are kept. -/
def size (c : ModuleCache) : Nat := c.entries.length

/-- Everything the kept modules export. -/
def values (c : ModuleCache) : List Value := c.entries.flatMap fun e => e.2.exports.values

theorem mem_values_of_get? {c : ModuleCache} {path : String} {m : CachedModule} {v : Value}
    (h : c.get? path = some m) (hv : v ∈ m.exports.values) : v ∈ c.values := by
  obtain ⟨entries, loading⟩ := c
  simp only [get?] at h
  refine List.mem_flatMap.2 ⟨(path, m), ?_, hv⟩
  induction entries with
  | nil => cases h
  | cons e rest ih =>
    obtain ⟨key, kept⟩ := e
    rw [List.lookup_cons] at h
    split at h
    · rename_i heq
      cases h
      rw [eq_of_beq heq]
      exact List.mem_cons_self
    · exact List.mem_cons_of_mem _ (ih h)

end ModuleCache

/-- What is fixed while a script runs. -/
structure Host where
  settings : Settings
  disk : Disk
  /-- Whether finished frames are reclaimed. A host with memory to spare may leave them. -/
  reclaims : Bool

/-- The state of a run. -/
structure Machine where
  arena : Arena
  /-- The scope that names are looked up in. -/
  current : Slot
  /-- The identity of the next closure. -/
  fresh : Nat
  modules : ModuleCache
  /-- The module files under way, the innermost first. -/
  files : List String
  clock : Clock
  /-- The lines shown. -/
  output : Array String
  /-- The lines reported. -/
  errors : Array String

namespace Machine

/-- A machine before any script. -/
def start (clock : Clock) : Machine :=
  { arena := .empty, current := Arena.root, fresh := 0, modules := .empty, files := []
    clock, output := #[], errors := #[] }

/-- The file that is running. -/
def file (m : Machine) (settings : Settings) : String := m.files.headD settings.fileName

/-- Where relative imports are looked up now. -/
def directory (m : Machine) (settings : Settings) : String :=
  (m.files.head?.bind Path.parent?).getD settings.baseDirectory

/-- The value of a name in the scope in use. -/
def get? (m : Machine) (name : String) : Option Value := m.arena.get? m.current name

/-- Sets a name in the scope in use. -/
def define (m : Machine) (name : String) (v : Value) : Machine :=
  { m with arena := m.arena.define m.current name v }

/-- What the world outside the arena holds: the values in hand and what modules export. -/
def outside (m : Machine) (held : List Value) : List Value := held ++ m.modules.values

/-- Starts a scope inside another. -/
def enter (m : Machine) (parent : Slot) : Machine :=
  let (s, arena) := m.arena.push parent
  { m with arena, current := s }

/-- Ends the scope in use and goes back to another. -/
def leave (m : Machine) (host : Host) (held : List Value) (back : Slot) : Machine :=
  { m with
    current := back
    arena := if host.reclaims then m.arena.release (m.outside held) m.current else m.arena }

/-- Starts the file of a module. -/
def beginModule (m : Machine) (path : String) : Machine :=
  { m with
    files := path :: m.files
    modules := { m.modules with loading := path :: m.modules.loading } }

/-- Ends the file of the innermost module. -/
def endModule (m : Machine) : Machine :=
  { m with
    files := m.files.tail
    modules := { m.modules with loading := m.modules.loading.tail } }

/-- Reclaims what nothing reaches. -/
def collect (m : Machine) (host : Host) (held : List Value) : Machine :=
  { m with arena := if host.reclaims then m.arena.collect (m.outside held) else m.arena }

end Machine

end Playscript
