import ConcurrentMap.Shared

/-! # Atomic actions

An action is what a thread does to the shared state in one indivisible step: one access to the
mutex, to the snapshot register, to one cell, to one item behind the mutex, or to the log. Every
access is sequentially consistent: a run is some interleaving of the threads' actions, and each
action sees the effect of all that came before it.

`Action.Response` is what the thread learns, `Action.perform` the effect. The only action that
can be refused is `acquire`, while the mutex is held.
-/

namespace ConcurrentMap

/-- One indivisible step of a thread. -/
inductive Action (K V : Type) where
  /-- Take the mutex. -/
  | acquire
  /-- Let the mutex go. -/
  | release
  /-- Read the snapshot register. -/
  | readSnapshot
  /-- Write the snapshot register. -/
  | publish (snapshot : Snapshot K)
  /-- Ask whether a table is staged. -/
  | hasStaged
  /-- Look a key up in the staged table. -/
  | findStaged (key : K)
  /-- Insert a key into the staged table, which is made if it is missing. -/
  | stage (key : K) (cell : CellId)
  /-- Remove a key from the staged table and learn the cell it led to. -/
  | unstage (key : K)
  /-- Make a whole table the staged one. -/
  | installStaged (table : Table K)
  /-- Read the staged table and the miss counter, to promote the table. -/
  | readStaging
  /-- Drop the staged table and reset the miss counter. -/
  | dropStaging
  /-- Count a lookup that had to consult the staged table, and learn whether the misses have now
  paid for the promotion of that table. -/
  | countMiss
  /-- Walk the entries of a table. -/
  | walk (table : Table K)
  /-- Draw a fresh stamp for a slot. -/
  | drawStamp
  /-- Make a cell. -/
  | newCell (slot : Slot V)
  /-- Read a cell. -/
  | readCell (cell : CellId)
  /-- Write a cell and learn what it held. -/
  | exchange (cell : CellId) (new : Slot V)
  /-- Write a cell if it still holds the slot `seen`, and learn whether it did. -/
  | compareExchange (cell : CellId) (seen new : Slot V)
  /-- Write to the log. -/
  | emit (event : Event)

namespace Action

variable {K V : Type}

/-- What the thread learns from an action. -/
@[reducible] def Response : Action K V → Type
  | acquire => Unit
  | release => Unit
  | readSnapshot => Snapshot K
  | publish _ => Unit
  | hasStaged => Bool
  | findStaged _ => Option CellId
  | stage _ _ => Unit
  | unstage _ => Option CellId
  | installStaged _ => Unit
  | readStaging => Staging K
  | dropStaging => Unit
  | countMiss => Bool
  | walk _ => List (K × CellId)
  | drawStamp => Stamp
  | newCell _ => CellId
  | readCell _ => Slot V
  | exchange _ _ => Slot V
  | compareExchange _ _ _ => Bool
  | emit _ => Unit

variable [BEq K]

/-- The effect of an action of thread `t`: what it answers and the state it leaves. Refused, with
nothing changed, is only the attempt to take a mutex that is held, by whomever. -/
def perform (order : Enumeration K) (t : ThreadId) (s : Shared K V) :
    (a : Action K V) → Option (a.Response × Shared K V)
  | acquire => (s.acquire t).map fun s' => ((), s')
  | release => some ((), s.release)
  | readSnapshot => some (s.snapshot, s)
  | publish snapshot => some ((), s.publish snapshot)
  | hasStaged => some (s.staging.table.isSome, s)
  | findStaged key => some (s.staging.find? key, s)
  | stage key cell =>
    some ((), s.setStaged (some ((s.staging.table.getD .empty).insert key cell)))
  | unstage key =>
    some (s.staging.find? key, s.setStaged (s.staging.table.map (·.erase key)))
  | installStaged table => some ((), s.setStaged (some table))
  | readStaging => some (s.staging, s)
  | dropStaging => some ((), { s with staging := .empty })
  | countMiss =>
    let n := s.staging.misses + 1
    some (decide (s.staging.size ≤ n), s.setMisses n)
  | walk table => some (s.walk order table)
  | drawStamp => some s.drawStamp
  | newCell slot => some (s.addCell slot)
  | readCell cell => some (s.slot cell, s)
  | exchange cell new => some (s.slot cell, s.setSlot cell new)
  | compareExchange cell seen new => some (s.compareExchange cell seen new)
  | emit event => some ((), s.record event)

/-- An action is refused exactly if it asks for a mutex that is held. -/
theorem perform_eq_none_iff (order : Enumeration K) (t : ThreadId) (s : Shared K V)
    (a : Action K V) : a.perform order t s = none ↔ a = acquire ∧ s.holder.isSome := by
  cases a <;> simp [perform, Shared.acquire]
  cases s.holder <;> simp

/-- Whoever takes the mutex has found it free, and changes nothing else. -/
theorem of_perform_acquire {order : Enumeration K} {t : ThreadId} {s : Shared K V}
    {r : (acquire : Action K V).Response × Shared K V}
    (h : (acquire : Action K V).perform order t s = some r) :
    s.holder = none ∧ r = ((), { s with holder := some t }) := by
  obtain ⟨s', hs', rfl⟩ := Option.map_eq_some_iff.1 h
  unfold Shared.acquire at hs'
  split at hs'
  · next hfree => exact ⟨hfree, by rw [Option.some.inj hs']⟩
  · simp at hs'

end Action

/-! ## Retried exchanges -/

/-- An update of one cell that is retried until it succeeds or is no longer wanted: exchange the
slot `seen` for `candidate`; if the cell holds another slot by then, look at that one, give up
unless it is acceptable, and try again from it. -/
structure Update (V : Type) where
  cell : CellId
  seen : Slot V
  candidate : Slot V
  accepts : Content V → Bool

/-- How a retried exchange ends. -/
inductive Outcome (V : Type) where
  /-- The candidate took the place of `previous`. -/
  | installed (previous : Slot V)
  /-- The cell held `found`, which is not acceptable; nothing was changed. -/
  | refused (found : Slot V)

namespace Update

variable {K V : Type}

/-- One attempt, which is one atomic step: either the update is over, or it goes on from the slot
that was found instead. -/
def attempt (u : Update V) (s : Shared K V) : (Outcome V ⊕ Update V) × Shared K V :=
  let found := s.slot u.cell
  if found.stamp = u.seen.stamp then
    (.inl (.installed u.seen), s.setSlot u.cell u.candidate)
  else if u.accepts found.content then
    (.inr { u with seen := found }, s)
  else
    (.inl (.refused found), s)

/-- All attempts of a thread that nobody disturbs: the second one succeeds at the latest. -/
def settle (u : Update V) (s : Shared K V) : Outcome V × Shared K V :=
  let found := s.slot u.cell
  if found.stamp = u.seen.stamp then
    (.installed u.seen, s.setSlot u.cell u.candidate)
  else if u.accepts found.content then
    (.installed found, s.setSlot u.cell u.candidate)
  else
    (.refused found, s)

/-- Undisturbed attempts end as `settle` says. -/
theorem settle_eq_of_attempt (u : Update V) (s : Shared K V) :
    u.settle s = match u.attempt s with
      | (.inl o, s') => (o, s')
      | (.inr u', s') => u'.settle s' := by
  simp only [attempt, settle]
  split
  · rfl
  · split <;> simp

end Update

end ConcurrentMap
