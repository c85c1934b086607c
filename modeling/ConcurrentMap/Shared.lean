import ConcurrentMap.Event
import ConcurrentMap.Slot
import ConcurrentMap.Snapshot

/-! # The state that all threads share

One map is a published snapshot, the staging area behind the mutex, and the cells that both
tables lead to. A cell is an atomic register that holds one slot; a key that is in both tables
leads to the same cell in both, which is why a write through either is seen through the other.

The remaining fields are bookkeeping. `holder` is the mutex. `clock` is the next fresh stamp, so
a stamp below it belongs to at most one slot. `walks` counts the table walks made so far, and
`log` collects the events, newest first.
-/

namespace ConcurrentMap

/-- The name of a thread. -/
abbrev ThreadId := Nat

/-- What the mutex protects: the table that will be the next snapshot, if one is being prepared,
and the number of lookups that had to consult it so far. -/
structure Staging (K : Type) where
  table : Option (Table K)
  misses : Nat
  deriving Repr, DecidableEq

namespace Staging

variable {K : Type}

/-- No table is being prepared. -/
def empty : Staging K := ⟨none, 0⟩

/-- The number of keys staged. -/
def size (g : Staging K) : Nat := (g.table.map Table.size).getD 0

/-- The cell staged for `key`, if any. -/
def find? [BEq K] (g : Staging K) (key : K) : Option CellId := g.table.bind (·.find? key)

end Staging

/-- The whole state of one map. -/
structure Shared (K V : Type) where
  snapshot : Snapshot K
  staging : Staging K
  holder : Option ThreadId
  cells : Array (Slot V)
  clock : Stamp
  walks : Nat
  log : List Event
  deriving Repr

namespace Shared

variable {K V : Type}

/-- A map that was never written. Stamp 0 belongs to no slot. -/
def initial : Shared K V where
  snapshot := .empty
  staging := .empty
  holder := none
  cells := #[]
  clock := 1
  walks := 0
  log := []

instance : Inhabited (Shared K V) := ⟨initial⟩

/-! ## Cells -/

/-- The slot that a cell holds. A name that no cell has reads as an absent slot. -/
def slot (s : Shared K V) (c : CellId) : Slot V := s.cells[c]?.getD ⟨0, .absent⟩

/-- Let the cell hold another slot. -/
def setSlot (s : Shared K V) (c : CellId) (new : Slot V) : Shared K V :=
  { s with cells := s.cells.setIfInBounds c new }

/-- Make a cell that holds `slot`, and name it. -/
def addCell (s : Shared K V) (slot : Slot V) : CellId × Shared K V :=
  (s.cells.size, { s with cells := s.cells.push slot })

/-- A write is seen in the cell that was written, if there is such a cell, and nowhere else. -/
theorem slot_setSlot (s : Shared K V) (c d : CellId) (new : Slot V) :
    (s.setSlot c new).slot d = if c = d ∧ c < s.cells.size then new else s.slot d := by
  by_cases hcd : c = d
  · subst hcd
    by_cases hlt : c < s.cells.size <;> simp [slot, setSlot, hlt]
  · simp [slot, setSlot, hcd]

/-- A new cell holds its slot, under the next name that was free. -/
theorem slot_addCell (s : Shared K V) (new : Slot V) (d : CellId) :
    (s.addCell new).2.slot d = if d = s.cells.size then new else s.slot d := by
  simp only [slot, addCell, Array.getElem?_push]
  split <;> simp_all

/-! ## What a thread can do in one step -/

/-- Take the mutex, if nobody holds it. -/
def acquire (s : Shared K V) (t : ThreadId) : Option (Shared K V) :=
  match s.holder with
  | none => some { s with holder := some t }
  | some _ => none

/-- Let the mutex go. -/
def release (s : Shared K V) : Shared K V := { s with holder := none }

/-- Replace the snapshot that readers consult. -/
def publish (s : Shared K V) (snapshot : Snapshot K) : Shared K V :=
  { s with snapshot := snapshot }

/-- Replace the staged table. -/
def setStaged (s : Shared K V) (table : Option (Table K)) : Shared K V :=
  { s with staging := { s.staging with table := table } }

/-- Replace the miss counter. -/
def setMisses (s : Shared K V) (n : Nat) : Shared K V :=
  { s with staging := { s.staging with misses := n } }

/-- Write an event to the log. -/
def record (s : Shared K V) (e : Event) : Shared K V := { s with log := e :: s.log }

/-- Draw a stamp that no slot has. -/
def drawStamp (s : Shared K V) : Stamp × Shared K V := (s.clock, { s with clock := s.clock + 1 })

/-- Walk a table, in the order that `order` prescribes for this walk. -/
def walk (s : Shared K V) (order : Enumeration K) (table : Table K) :
    List (K × CellId) × Shared K V :=
  (order.arrange s.walks table.entries, { s with walks := s.walks + 1 })

/-- Exchange the slot of a cell if it is still the slot `seen`, and tell whether it was. -/
def compareExchange (s : Shared K V) (c : CellId) (seen new : Slot V) : Bool × Shared K V :=
  if (s.slot c).stamp = seen.stamp then (true, s.setSlot c new) else (false, s)

end Shared

end ConcurrentMap
