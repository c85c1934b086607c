import ConcurrentMap.Cell

/-! # Changes of the map's structure

The map keeps a snapshot that is complete, or a snapshot that is amended by a staged table. The
staged table has every key of the snapshot that may hold a value, with the same cell, and the keys
written since. It is prepared by `rebuild`, grows by `stageNew`, and becomes the next snapshot by
`promote`.

A rebuild walks the whole snapshot, so it has to be paid for. Each lookup that finds its key only
by way of the staged table counts one miss, and the staged table is promoted once there are as
many misses as it has keys (`recordMiss`).

All programs of this module but `locked` belong inside the mutex.
-/

namespace ConcurrentMap

namespace Map

variable {K V α : Type}

/-- Do something while holding the mutex. -/
def locked (body : Program K V α) : Program K V α := do
  Action.acquire.program
  let result ← body
  Action.release.program
  return result

/-- Publish the staged table as the next snapshot, and answer that snapshot. -/
def promote (reason : PromotionReason) : Program K V (Snapshot K) := do
  let staging ← Action.readStaging.program
  let table := staging.table.getD .empty
  (Action.emit (.promoted table.size staging.misses reason)).program
  (Action.publish (.ofTable table)).program
  Action.dropStaging.program
  return .ofTable table

/-- Count a lookup that had to consult the staged table. As many misses as there are staged keys
pay for the promotion of that table. -/
def recordMiss : Program K V Unit := do
  if ← Action.countMiss.program then
    let _ ← promote .misses
    return ()
  else
    return ()

/-- Bring a cell of the snapshot back if it is tombstoned: it becomes absent and is staged again,
under the key object that is given. -/
def readmit (key : K) (c : CellId) : Program K V Unit := do
  if ← Cell.revive c then
    (Action.stage key c).program
  else
    return ()

variable [BEq K]

/-- Copy the entries whose cell is not tombstoned in the end, after trying to bury each; answer
the copies and the number of entries left out. -/
def copyLive : List (K × CellId) → Table K → Nat → Program K V (Table K × Nat)
  | [], copies, buried => return (copies, buried)
  | (key, c) :: rest, copies, buried => do
    if ← Cell.bury c then
      copyLive rest copies (buried + 1)
    else
      copyLive rest (copies.insert key c) buried

/-- Stage a copy of the snapshot's entries, without those that hold no value. The cells left out
become tombstoned, which tells their keys apart from keys that were never staged. -/
def rebuild (snapshot : Snapshot K) : Program K V Unit := do
  if ← Action.hasStaged.program then
    return ()
  else
    let entries ← (Action.walk snapshot.table).program
    let (copies, buried) ← copyLive entries .empty 0
    (Action.emit (.rebuilt copies.size buried)).program
    (Action.installStaged copies).program

/-- Make sure that a staged table amends the snapshot. -/
def openStaging (snapshot : Snapshot K) : Program K V Unit := do
  if snapshot.amended then
    return ()
  else
    rebuild snapshot
    (Action.publish snapshot.markAmended).program

/-- Stage a key that neither table has, with a new cell. The first such key after a promotion
needs a rebuild, and makes the snapshot an amended one. -/
def stageNew (snapshot : Snapshot K) (key : K) (new : Handle V) : Program K V Unit := do
  openStaging snapshot
  let c ← (Action.newCell new.slot).program
  (Action.stage key c).program

end Map

end ConcurrentMap
