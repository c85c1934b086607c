/-! # Slots: what a key holds at one instant

A key of the map is served by a cell, and a cell holds one slot at a time. A slot is written
once, when it is allocated, and never changes afterwards: every change of a key is the exchange
of a whole slot for another one. Its `Stamp` tells it apart from every other slot of the run, so
"the slot has not changed since it was read" is a comparison of stamps.

A slot is in one of three states.

* `present v`: the key holds `v`.
* `absent`: the key was deleted and may be written again through the same cell.
* `tombstoned`: the key is missing from the staged table, so a writer has to take the mutex and
  put the cell back there before the cell may hold a value again.
-/

namespace ConcurrentMap

/-- The identity of a slot. Every allocation draws a new one. -/
abbrev Stamp := Nat

/-- The state of a key, as one slot records it. -/
inductive Content (V : Type) where
  | absent
  | tombstoned
  | present (value : V)
  deriving Repr, DecidableEq

namespace Content

variable {V : Type}

/-- The value held, if any. -/
def value? : Content V → Option V
  | present v => some v
  | absent => none
  | tombstoned => none

/-- A value is held. -/
def isPresent : Content V → Bool
  | present _ => true
  | absent => false
  | tombstoned => false

/-- The key was deleted and may be written without the mutex. -/
def isAbsent : Content V → Bool
  | absent => true
  | present _ => false
  | tombstoned => false

/-- The key is left out of the staged table. -/
def isTombstoned : Content V → Bool
  | tombstoned => true
  | absent => false
  | present _ => false

/-- A value is held and equals `expected`. The held value stands on the left of the comparison,
which need be neither reflexive nor symmetric. -/
def holds [BEq V] (expected : V) (c : Content V) : Bool :=
  c.value?.any (· == expected)

@[simp] theorem value?_present (v : V) : (present v).value? = some v := rfl

@[simp] theorem value?_absent : (absent : Content V).value? = none := rfl

@[simp] theorem value?_tombstoned : (tombstoned : Content V).value? = none := rfl

/-- The one test is the other: a slot is present if there is a value to read from it. -/
theorem isPresent_eq_isSome (c : Content V) : c.isPresent = c.value?.isSome := by
  cases c <;> rfl

/-- Only a value that is held compares equal to anything. -/
theorem isPresent_of_holds [BEq V] {expected : V} {c : Content V} (h : c.holds expected = true) :
    c.isPresent = true := by
  cases c with
  | present v => rfl
  | absent => simp [holds] at h
  | tombstoned => simp [holds] at h

end Content

/-- A slot: its identity and the state it records. -/
structure Slot (V : Type) where
  stamp : Stamp
  content : Content V
  deriving Repr, DecidableEq

/-- A handle to a value that some write put into the map. It stays valid after the key has been
overwritten or deleted, and two handles are the same exactly if one write made both. -/
structure Handle (V : Type) where
  stamp : Stamp
  value : V
  deriving Repr, DecidableEq

namespace Handle

variable {V : Type}

/-- The slot that holds the handle's value. -/
def slot (h : Handle V) : Slot V := ⟨h.stamp, .present h.value⟩

/-- Both handles come from the same write. -/
def same (h k : Handle V) : Bool := h.stamp == k.stamp

/-- The slot of a handle holds its value. -/
@[simp] theorem slot_content (h : Handle V) : h.slot.content = .present h.value := rfl

/-- The slot of a handle has its stamp. -/
@[simp] theorem slot_stamp (h : Handle V) : h.slot.stamp = h.stamp := rfl

end Handle

namespace Slot

variable {V : Type}

/-- The handle to the value held, if any. -/
def handle? (s : Slot V) : Option (Handle V) := s.content.value?.map fun v => ⟨s.stamp, v⟩

/-- Taking the handle from its own slot gives it back. -/
@[simp] theorem handle?_slot (h : Handle V) : h.slot.handle? = some h := rfl

/-- A handle is only ever taken from a slot that holds its value. -/
theorem handle?_eq_some_iff {s : Slot V} {h : Handle V} : s.handle? = some h ↔ s = h.slot := by
  obtain ⟨stamp, content⟩ := s
  obtain ⟨stamp', v⟩ := h
  cases content <;> simp [handle?, Handle.slot]

end Slot

end ConcurrentMap
