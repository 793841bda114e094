/-
# Settings of a run

Where imports are looked up, when a module that has run may serve again, and
the name of the script in reports. A script's own directory and name are the
settings where nothing is said; an overlay replaces those it names.
-/
import Playscript.Disk.Path

namespace Playscript

/-- When a module that has run may serve again. -/
inductive CachePolicy where
  /-- Always: a module runs once. -/
  | reuse
  /-- As long as its text is the same. -/
  | revalidate
  /-- Never. -/
  | disabled
deriving DecidableEq, Repr

namespace CachePolicy

/-- The name of a policy. -/
def name : CachePolicy → String
  | reuse => "reuse"
  | revalidate => "revalidate"
  | disabled => "disabled"

/-- The policy with a name. -/
def ofName? (s : String) : Option CachePolicy :=
  [reuse, revalidate, disabled].find? fun p => p.name == s

end CachePolicy

/-- How a script is run. -/
structure Settings where
  /-- Where the imports of the script itself are looked up. -/
  baseDirectory : String
  policy : CachePolicy
  /-- The name of the script in reports. -/
  fileName : String
deriving DecidableEq, Repr

/-- Settings of which some are left as they are. -/
structure Settings.Overlay where
  baseDirectory? : Option String
  policy? : Option CachePolicy
  fileName? : Option String
deriving DecidableEq, Repr

namespace Settings

/-- The settings where nothing is said. -/
def standard : Settings := ⟨".", .reuse, "<main>"⟩

/-- The settings of a script: imports are looked up next to it, and it is reported under its
path. -/
def forScript (path : String) : Settings :=
  let directory := match Path.parent? path with
    | some d => if d.isEmpty then standard.baseDirectory else d
    | none => standard.baseDirectory
  { standard with baseDirectory := directory, fileName := path }

/-- Settings under an overlay. -/
def Overlay.apply (o : Overlay) (s : Settings) : Settings :=
  { baseDirectory := o.baseDirectory?.getD s.baseDirectory
    policy := o.policy?.getD s.policy
    fileName := o.fileName?.getD s.fileName }

end Settings

end Playscript
