import ConcurrentMap.Map.Structure

/-! # Operations on one key

Each operation looks its key up in the snapshot first, and is done without the mutex if the key is
there and its cell is not tombstoned. Otherwise it takes the mutex and looks again, because the
snapshot may have been replaced in the meantime, and only then consults the staged table.

`load`, `loadAndDelete` and `compareAndDelete` only use the mutex to find the cell. They act on it
after letting the mutex go, when the cell may belong to no table any more.
-/

namespace ConcurrentMap

namespace Map

variable {K V α : Type} [BEq K]

/-! ## Reading -/

/-- Find the cell of `key` under the mutex, and count a miss if the staged table is consulted,
whether or not it has the key. -/
def locate (key : K) : Program K V (Option CellId) := do
  let snapshot ← Action.readSnapshot.program
  match snapshot.find? key with
  | some c => return some c
  | none =>
    if snapshot.amended then
      let found ← (Action.findStaged key).program
      recordMiss
      return found
    else
      return none

/-- Look for the cell of `key`, by way of `search` under the mutex if the snapshot does not have it,
and work on the cell without the mutex. -/
def seek (key : K) (search : Program K V (Option CellId)) (found : CellId → Program K V α)
    (missing : Program K V α) : Program K V α := do
  let snapshot ← Action.readSnapshot.program
  match snapshot.find? key with
  | some c => found c
  | none =>
    if snapshot.amended then
      match ← locked search with
      | some c => found c
      | none => missing
    else
      missing

/-- The handle to the value of `key`, if it has one. -/
def load (key : K) : Program K V (Option (Handle V)) := do
  let snapshot ← Action.readSnapshot.program
  match snapshot.find? key with
  | some c => Cell.load c
  | none =>
    if snapshot.amended then
      match ← locked (locate key) with
      | some c => Cell.load c
      | none => return none
    else
      return none

/-- To load is to seek the cell and to read it. -/
theorem load_eq_seek (key : K) :
    (load key : Program K V _) = seek key (locate key) Cell.load (return none) := rfl

/-! ## Writing -/

/-- A way of writing a key. -/
structure Write (K V α : Type) where
  /-- Write through a cell without the mutex; no answer if the cell is tombstoned. -/
  attempt : CellId → Handle V → Program K V (Option α)
  /-- Write through a cell while holding the mutex. -/
  guarded : CellId → Handle V → Program K V α
  /-- The answer after the key was staged with a new cell. -/
  inserted : Handle V → α
  /-- Finding the key in the staged table alone counts as a miss. -/
  countsMiss : Bool

/-- What finding the key in the staged table alone costs. -/
def Write.charge (w : Write K V α) : Program K V Unit :=
  if w.countsMiss then recordMiss else return ()

/-- Write a key while holding the mutex. -/
def Write.underMutex (w : Write K V α) (key : K) (new : Handle V) : Program K V α := do
  let snapshot ← Action.readSnapshot.program
  match snapshot.find? key with
  | some c => do
    readmit key c
    w.guarded c new
  | none =>
    match ← (Action.findStaged key).program with
    | some c => do
      let answer ← w.guarded c new
      w.charge
      return answer
    | none => do
      stageNew snapshot key new
      return w.inserted new

/-- Write a key, without the mutex if the snapshot leads to a cell that is not tombstoned. -/
def Write.program (w : Write K V α) (key : K) (value : V) : Program K V α := do
  let stamp ← Action.drawStamp.program
  let new : Handle V := ⟨stamp, value⟩
  let snapshot ← Action.readSnapshot.program
  match snapshot.find? key with
  | some c =>
    match ← w.attempt c new with
    | some answer => return answer
    | none => locked (w.underMutex key new)
  | none => locked (w.underMutex key new)

/-- Let `key` hold `value`. -/
def store (key : K) (value : V) : Program K V Unit :=
  Write.program
    { attempt := fun c new => do
        let stored ← Cell.tryStore c new
        return if stored then some () else none
      guarded := Cell.store
      inserted := fun _ => ()
      countsMiss := false }
    key value

/-- Let `key` hold `value`, and answer the handle to the value replaced. -/
def swap (key : K) (value : V) : Program K V (Option (Handle V)) :=
  Write.program
    { attempt := Cell.trySwap
      guarded := Cell.swap
      inserted := fun _ => none
      countsMiss := false }
    key value

/-- The handle to the value of `key`, with `true`; or, if it has none, let it hold `value` and
answer the handle to that, with `false`. -/
def loadOrStore (key : K) (value : V) : Program K V (Handle V × Bool) :=
  Write.program
    { attempt := Cell.tryLoadOrStore
      guarded := Cell.loadOrStore
      inserted := fun new => (new, false)
      countsMiss := true }
    key value

/-! ## Deleting -/

/-- Find the cell of `key` under the mutex. A key that was never in a snapshot is dropped from
the staged table at once. -/
def withdraw (key : K) : Program K V (Option CellId) := do
  let snapshot ← Action.readSnapshot.program
  match snapshot.find? key with
  | some c => return some c
  | none =>
    if snapshot.amended then
      (Action.unstage key).program
    else
      return none

/-- Delete `key` and answer the handle to the value it held. -/
def loadAndDelete (key : K) : Program K V (Option (Handle V)) := do
  let snapshot ← Action.readSnapshot.program
  match snapshot.find? key with
  | some c => Cell.remove c
  | none =>
    if snapshot.amended then
      match ← locked (withdraw key) with
      | some c => Cell.remove c
      | none => return none
    else
      return none

/-- To delete is to seek the cell and to empty it; under the mutex the key is withdrawn. -/
theorem loadAndDelete_eq_seek (key : K) :
    (loadAndDelete key : Program K V _) = seek key (withdraw key) Cell.remove (return none) := rfl

/-- Delete `key`. -/
def delete (key : K) : Program K V Unit := do
  let _ ← loadAndDelete key
  return ()

/-! ## Comparing first -/

variable [BEq V]

/-- Compare and swap while holding the mutex. Finding the key in the staged table alone counts as
a miss, whatever the comparison says. -/
def compareAndSwapLocked (key : K) (old : V) (new : Handle V) : Program K V Bool := do
  let snapshot ← Action.readSnapshot.program
  match snapshot.find? key with
  | some c => Cell.compareAndSwap c old new
  | none =>
    match ← (Action.findStaged key).program with
    | some c =>
      let swapped ← Cell.compareAndSwap c old new
      recordMiss
      return swapped
    | none => return false

/-- Let `key` hold `new` if the value it holds equals `old`, and tell whether it did. A key
without a value is left alone. -/
def compareAndSwap (key : K) (old new : V) : Program K V Bool := do
  let stamp ← Action.drawStamp.program
  let candidate : Handle V := ⟨stamp, new⟩
  let snapshot ← Action.readSnapshot.program
  match snapshot.find? key with
  | some c => Cell.compareAndSwap c old candidate
  | none =>
    if snapshot.amended then
      locked (compareAndSwapLocked key old candidate)
    else
      return false

/-- Delete `key` if the value it holds equals `old`, and tell whether it did. -/
def compareAndDelete (key : K) (old : V) : Program K V Bool := do
  let snapshot ← Action.readSnapshot.program
  match snapshot.find? key with
  | some c => Cell.compareAndDelete c old
  | none =>
    if snapshot.amended then
      match ← locked (locate key) with
      | some c => Cell.compareAndDelete c old
      | none => return false
    else
      return false

/-- To compare and delete is to seek the cell and to empty it on a match. -/
theorem compareAndDelete_eq_seek (key : K) (old : V) :
    compareAndDelete key old =
      seek key (locate key) (fun c => Cell.compareAndDelete c old) (return false) := rfl

end Map

end ConcurrentMap
