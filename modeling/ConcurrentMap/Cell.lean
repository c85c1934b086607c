import ConcurrentMap.Program

/-! # Operations on one cell

A cell moves between the three states of a slot.

    present v  --remove-->  absent  --bury-->  tombstoned
    absent     --write--->  present v
    present v  --write--->  present w
    tombstoned --revive-->  absent

Every operation of the first section is lock-free and may run at any time. A tombstone stops it:
the cell is then missing from the staged table, and a value put into it would be lost with the
next promotion. The operations of the second section are for the holder of the mutex only, who
never meets a tombstone in a cell that was revived, or that the staged table leads to.

An operation that has to see the cell unchanged retries from what it finds instead, so its answer
always speaks of the slot that it did exchange, or of the one that stopped it.
-/

namespace ConcurrentMap

namespace Cell

variable {K V : Type}

/-! ## At any time -/

/-- The handle to the value held, if any. -/
def load (c : CellId) : Program K V (Option (Handle V)) := do
  let seen ← (Action.readCell c).program
  return seen.handle?

/-- Put `new` into the cell and answer what it replaced. No answer means that the cell is
tombstoned, and unchanged. -/
def trySwap (c : CellId) (new : Handle V) : Program K V (Option (Option (Handle V))) := do
  let seen ← (Action.readCell c).program
  match ← Update.program ⟨c, seen, new.slot, fun x => !x.isTombstoned⟩ with
  | .installed previous => return some previous.handle?
  | .refused _ => return none

/-- Put `new` into the cell, unless it is tombstoned. -/
def tryStore (c : CellId) (new : Handle V) : Program K V Bool := do
  let previous ← trySwap c new
  return previous.isSome

/-- The value held, with `true`; or, from an absent slot, `candidate` and `false`, after putting
it into the cell. No answer means that the cell is tombstoned. -/
def tryLoadOrStore (c : CellId) (candidate : Handle V) :
    Program K V (Option (Handle V × Bool)) := do
  let seen ← (Action.readCell c).program
  match ← Update.program ⟨c, seen, candidate.slot, Content.isAbsent⟩ with
  | .installed _ => return some (candidate, false)
  | .refused found => return found.handle?.map fun h => (h, true)

/-- Exchange the slot for a new absent one for as long as `wanted` holds of it, and answer the
slot that was exchanged. The absent slot is only allocated if the exchange is wanted at first
sight. -/
def vacate (c : CellId) (wanted : Content V → Bool) : Program K V (Option (Slot V)) := do
  let seen ← (Action.readCell c).program
  if wanted seen.content then
    let stamp ← Action.drawStamp.program
    match ← Update.program ⟨c, seen, ⟨stamp, .absent⟩, wanted⟩ with
    | .installed previous => return some previous
    | .refused _ => return none
  else
    return none

/-- Delete the value held and answer its handle. -/
def remove (c : CellId) : Program K V (Option (Handle V)) := do
  let previous ← vacate c Content.isPresent
  return previous.bind Slot.handle?

/-- Replace the value held by `new` if it equals `old`, and tell whether it did. -/
def compareAndSwap [BEq V] (c : CellId) (old : V) (new : Handle V) : Program K V Bool := do
  let seen ← (Action.readCell c).program
  match ← Update.program ⟨c, seen, new.slot, Content.holds old⟩ with
  | .installed _ => return true
  | .refused _ => return false

/-- Delete the value held if it equals `old`, and tell whether it did. -/
def compareAndDelete [BEq V] (c : CellId) (old : V) : Program K V Bool := do
  let previous ← vacate c (Content.holds old)
  return previous.isSome

/-! ## Under the mutex -/

/-- Put `new` into the cell and answer what it replaced. -/
def swap (c : CellId) (new : Handle V) : Program K V (Option (Handle V)) := do
  let previous ← (Action.exchange c new.slot).program
  return previous.handle?

/-- Put `new` into the cell. -/
def store (c : CellId) (new : Handle V) : Program K V Unit := do
  let _ ← (Action.exchange c new.slot).program
  return ()

/-- The value held, with `true`; or `candidate` and `false`, after putting it into the cell. -/
def loadOrStore (c : CellId) (candidate : Handle V) : Program K V (Handle V × Bool) := do
  match ← tryLoadOrStore c candidate with
  | some answer => return answer
  | none =>
    store c candidate
    return (candidate, false)

/-- Make a tombstoned cell absent, and tell whether it was tombstoned. Whoever does this has to
put the cell into the staged table before letting the mutex go. -/
def revive (c : CellId) : Program K V Bool := do
  let seen ← (Action.readCell c).program
  if seen.content.isTombstoned then
    let stamp ← Action.drawStamp.program
    (Action.compareExchange c seen ⟨stamp, .absent⟩).program
  else
    return false

/-- Make an absent cell tombstoned, and tell whether the cell is tombstoned in the end. -/
def bury (c : CellId) : Program K V Bool := do
  let seen ← (Action.readCell c).program
  if seen.content.isAbsent then
    let stamp ← Action.drawStamp.program
    match ← Update.program ⟨c, seen, ⟨stamp, .tombstoned⟩, Content.isAbsent⟩ with
    | .installed _ => return true
    | .refused found => return found.content.isTombstoned
  else
    return seen.content.isTombstoned

end Cell

end ConcurrentMap
