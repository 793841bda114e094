/-
# The arena of scopes

Frames live in numbered slots and name their parent by its slot. A frame that
is finished is reclaimed once it has no child frame and no living closure was
made in it (`release`); frames that only closures of unreachable frames hold
are found by marking (`collect`). A reclaimed slot is used again, the last one
first.

A closure is alive while a binding of some frame or a value held outside the
arena contains it, at any depth; what is held outside is given to the
operations that ask. A closure with more holders than the bindings show has
escaped, and its frame stays; the defaults of a capsule are not shown.
-/
import Playscript.Bindings

namespace Playscript

/-- The number of a frame's slot. -/
abbrev Slot := Nat

/-- A scope. -/
structure Frame where
  bindings : Bindings
  parent? : Option Slot
  /-- The construct that pushed the frame has not finished. -/
  live : Bool
  /-- How many frames have this one for their parent. -/
  children : Nat
  /-- The identities of the closures made in this frame. -/
  captured : List Nat

namespace Frame

/-- A new scope inside another. -/
def inside (parent? : Option Slot) : Frame :=
  { bindings := .empty, parent?, live := true, children := 0, captured := [] }

/-- A frame with a child more. -/
def addChild (f : Frame) : Frame := { f with children := f.children + 1 }

/-- A frame with a child less. -/
def removeChild (f : Frame) : Frame := { f with children := f.children - 1 }

/-- A frame whose construct has finished. -/
def finish (f : Frame) : Frame := { f with live := false }

/-- A frame with a name set. -/
def define (name : String) (v : Value) (f : Frame) : Frame :=
  { f with bindings := f.bindings.insert name v }

/-- A frame that remembers one more closure. -/
def capture (identity : Nat) (f : Frame) : Frame := { f with captured := identity :: f.captured }

/-- The frames a frame keeps: its parent, and where the closures it binds were made. -/
def edges (f : Frame) : List Slot :=
  f.parent?.toList ++ f.bindings.closures.map Closure.frame

end Frame

/-- The scopes of a running script. -/
structure Arena where
  slots : Array (Option Frame)
  /-- The slots to use again, the next one first. -/
  free : List Slot
  /-- How many frames there are. -/
  occupied : Nat
  /-- So many frames start a collection. -/
  threshold : Nat

namespace Arena

/-- The slot of the outermost scope. -/
def root : Slot := 0

/-- No collection is started below this number of frames. -/
def leastThreshold : Nat := 256

/-- An arena with nothing but the outermost scope. -/
def empty : Arena :=
  { slots := #[some (.inside none)], free := [], occupied := 1, threshold := leastThreshold }

instance : Inhabited Arena := ⟨empty⟩

/-- The frame in a slot. -/
def frame? (a : Arena) (s : Slot) : Option Frame := (a.slots[s]?).join

/-- The parent of the frame in a slot. -/
def parent? (a : Arena) (s : Slot) : Option Slot := (a.frame? s).bind Frame.parent?

/-- The slots that hold a frame, in order. -/
def occupiedSlots (a : Arena) : List Slot :=
  (List.range a.slots.size).filter fun s => (a.frame? s).isSome

/-- Changes the frame in a slot, if there is one. -/
def modify (a : Arena) (s : Slot) (f : Frame → Frame) : Arena :=
  { a with slots := a.slots.modify s (Option.map f) }

/-! ### Bindings -/

/-- Sets a name in a frame. -/
def define (a : Arena) (s : Slot) (name : String) (v : Value) : Arena :=
  a.modify s (Frame.define name v)

/-- The bindings of a frame itself. -/
def bindings (a : Arena) (s : Slot) : Bindings := ((a.frame? s).map Frame.bindings).getD .empty

/-- The frame that binds a name for another frame: the nearest on the way to the root. The
way is no longer than `steps`. -/
def ownerWithin (a : Arena) (name : String) : Nat → Slot → Option Slot
  | 0, _ => none
  | steps + 1, s =>
    match a.frame? s with
    | none => none
    | some f =>
      if f.bindings.binds name then some s
      else match f.parent? with
        | some p => ownerWithin a name steps p
        | none => none

/-- The frame that binds a name for a frame. No way to the root is longer than the arena. -/
def owner? (a : Arena) (s : Slot) (name : String) : Option Slot :=
  a.ownerWithin name a.slots.size s

/-- The value of a name as a frame sees it. -/
def get? (a : Arena) (s : Slot) (name : String) : Option Value :=
  (a.owner? s name).bind fun o => (a.bindings o).get? name

/-- Sets a name where it is bound; nothing if it is not. -/
def assign? (a : Arena) (s : Slot) (name : String) (v : Value) : Option Arena :=
  (a.owner? s name).map fun o => a.define o name v

/-! ### Frames -/

/-- Puts a frame into the next slot to use. -/
def place (a : Arena) (f : Frame) : Slot × Arena :=
  match a.free with
  | s :: free =>
    (s, { a with slots := a.slots.setIfInBounds s (some f), free, occupied := a.occupied + 1 })
  | [] => (a.slots.size, { a with slots := a.slots.push (some f), occupied := a.occupied + 1 })

/-- A new frame inside another, and its slot. -/
def push (a : Arena) (parent : Slot) : Slot × Arena :=
  (a.modify parent Frame.addChild).place (.inside (some parent))

/-- Remembers that a closure was made in a frame. -/
def capture (a : Arena) (s : Slot) (identity : Nat) : Arena :=
  a.modify s (Frame.capture identity)

/-- Empties a slot, and leaves the frames' counts of children as they are. -/
def clear (a : Arena) (s : Slot) : Arena :=
  { a with slots := a.slots.setIfInBounds s none, free := s :: a.free, occupied := a.occupied - 1 }

/-- Empties a slot; its parent has a child less. -/
def vacate (a : Arena) (s : Slot) : Arena :=
  match a.parent? s with
  | some p => (a.clear s).modify p Frame.removeChild
  | none => a.clear s

/-! ### Life -/

/-- How often closures with an identity occur. -/
def occurrences (closures : List Closure) (identity : Nat) : Nat :=
  closures.countP fun c => c.identity == identity

/-- The closures that the bindings of frames show. -/
def shown (a : Arena) : List Closure :=
  a.slots.toList.flatMap fun slot => (slot.map fun f => f.bindings.closures).getD []

/-- The closures in the defaults of capsules that are bound. -/
def buried (a : Arena) : List Closure :=
  a.slots.toList.flatMap fun slot => (slot.map fun f => f.bindings.buried).getD []

/-- In how many places a closure is when `held` is what the world outside holds. -/
def holders (a : Arena) (held : List Value) (identity : Nat) : Nat :=
  occurrences (Value.placesAll held) identity + occurrences a.buried identity +
    occurrences a.shown identity

/-- Whether a closure is alive. -/
def alive (a : Arena) (held : List Value) (identity : Nat) : Bool :=
  0 < a.holders held identity

/-- Whether a closure is in a place that no binding shows. -/
def escaped (a : Arena) (held : List Value) (identity : Nat) : Bool :=
  occurrences a.shown identity < a.holders held identity

/-- Whether nothing depends on a finished frame any more. -/
def spent (a : Arena) (held : List Value) (f : Frame) : Bool :=
  !f.live && f.children == 0 && !f.captured.any (a.alive held)

/-- Empties a spent frame's slot, then its parent's if that is spent now, and so on to the
root; the root stays. At most `steps` slots are emptied. -/
def reclaim (held : List Value) : Nat → Slot → Arena → Arena
  | 0, _, a => a
  | steps + 1, s, a =>
    match a.frame? s with
    | none => a
    | some f =>
      if s != root && a.spent held f then
        match f.parent? with
        | some p => reclaim held steps p (a.vacate s)
        | none => a.vacate s
      else a

/-- What marking from the pending slots leaves of the unseen ones. -/
def unmarked (edges : Slot → List Slot) (unseen pending : List Slot) : List Slot :=
  match pending with
  | [] => unseen
  | s :: pending =>
    if s ∈ unseen then unmarked edges (unseen.erase s) (edges s ++ pending)
    else unmarked edges unseen pending
termination_by (unseen.length, pending.length)
decreasing_by
  · rename_i h
    have := List.length_erase_of_mem h
    have := List.length_pos_of_mem h
    exact Prod.Lex.left _ _ (by omega)
  · exact Prod.Lex.right _ (by simp)

/-- The edges of the frame in a slot. -/
def edges (a : Arena) (s : Slot) : List Slot := ((a.frame? s).map Frame.edges).getD []

/-- Whether a collection starts at a slot: the root, a frame not finished, or one in which a
closure was made that has escaped. -/
def anchors (a : Arena) (held : List Value) (s : Slot) : Bool :=
  match a.frame? s with
  | some f => s == root || f.live || f.captured.any (a.escaped held)
  | none => false

/-- The slots of the frames that nothing reaches. -/
def garbage (a : Arena) (held : List Value) : List Slot :=
  unmarked a.edges a.occupiedSlots (a.occupiedSlots.filter (a.anchors held))

/-- Counts the child in a slot for its parent. -/
def countChild (a : Arena) (slot : Option Frame) : Arena :=
  match slot.bind Frame.parent? with
  | some p => a.modify p Frame.addChild
  | none => a

/-- Counts the children of every frame anew. -/
def recount (a : Arena) : Arena :=
  let zeroed := { a with slots := a.slots.map (Option.map fun f => { f with children := 0 }) }
  a.slots.foldl countChild zeroed

/-- Reclaims what nothing reaches. -/
def collect (a : Arena) (held : List Value) : Arena :=
  let a := ((a.garbage held).foldl clear a).recount
  { a with threshold := max leastThreshold (2 * a.occupied) }

/-- Finishes a frame and reclaims what nothing depends on; many frames start a collection. -/
def release (a : Arena) (held : List Value) (s : Slot) : Arena :=
  if s == root then a
  else
    let a := a.modify s Frame.finish
    let a := reclaim held a.slots.size s a
    if a.threshold ≤ a.occupied then a.collect held else a

/-- How many frames there are. -/
def size (a : Arena) : Nat := a.occupied

end Arena

end Playscript
