import ConcurrentMap.Proofs.Log
import ConcurrentMap.Proofs.Solo.Cells

/-!
# What changes of the structure do alone

The changes of the map's structure as functions of the state, for a thread that nobody disturbs.
They belong inside the mutex, so there is a lemma for each of them that it does not matter who holds
it (`Shared.hold`), and `Map.run_locked` puts them there.
-/

namespace ConcurrentMap

variable {K V α : Type}

namespace Shared

/-! ## Changes of the state -/

/-- A table is walked. -/
def walked (s : Shared K V) : Shared K V := { s with walks := s.walks + 1 }

/-- Everything is dropped, unless there is nothing. -/
def cleared (s : Shared K V) : Shared K V :=
  if 0 < s.snapshot.size ∨ s.snapshot.amended = true then
    { s with snapshot := .empty, staging := .empty, log := .cleared :: s.log }
  else s

/-- Nothing amends the snapshot any more. -/
def completed (s : Shared K V) : Shared K V :=
  if s.snapshot.amended then s.promoted .traversal else s

/-- A snapshot that was completed is complete. -/
theorem amended_completed (s : Shared K V) : s.completed.snapshot.amended = false := by
  unfold completed
  split
  · rfl
  · next h => simpa using h

/-- To complete the snapshot draws no stamp. -/
theorem clock_completed (s : Shared K V) : s.completed.clock = s.clock := by
  unfold completed
  split <;> rfl

variable [BEq K]

/-- The key is staged with the cell `c`. -/
def staged (s : Shared K V) (key : K) (c : CellId) : Shared K V :=
  s.setStaged (some ((s.staging.table.getD .empty).insert key c))

/-- The key is not staged any more. -/
def erased (s : Shared K V) (key : K) : Shared K V :=
  s.setStaged (s.staging.table.map (·.erase key))

/-- A tombstoned cell is brought back and staged again. -/
def readmitted (s : Shared K V) (key : K) (c : CellId) : Shared K V :=
  if s.tombstoned c then (s.revived c).staged key c else s

/-- The key, which the snapshot leads to the cell `c`, comes to hold `held`. -/
def rewritten (s : Shared K V) (key : K) (c : CellId) : Option (Handle V) → Shared K V
  | some h => (s.readmitted key c).serve c (some h)
  | none => s.serve c none

/-- The entries are copied, except those without a value, which are buried and counted. -/
def copied : List (K × CellId) → Table K → Nat → Shared K V → (Table K × Nat) × Shared K V
  | [], copies, n, s => ((copies, n), s)
  | (key, c) :: rest, copies, n, s =>
    if (s.slot c).handle?.isNone then copied rest copies (n + 1) (s.buried c)
    else copied rest (copies.insert key c) n (s.buried c)

/-- What a copy of the snapshot comes to, how many entries are left out, and the state after it. -/
def copying (s : Shared K V) (order : Enumeration K) : (Table K × Nat) × Shared K V :=
  copied (order.arrange s.walks s.snapshot.table.entries) .empty 0 s.walked

/-- The snapshot is copied into a staged table, and announced as amended. -/
def rebuilt (s : Shared K V) (order : Enumeration K) : Shared K V :=
  let x := s.copying order
  ((x.2.record (.rebuilt x.1.1.size x.1.2)).setStaged (some x.1.1)).publish s.snapshot.markAmended

/-- There is a staged table. -/
def opened (s : Shared K V) (order : Enumeration K) : Shared K V :=
  if s.snapshot.amended then s else s.rebuilt order

/-- The key, which neither table has, is staged with a new cell. -/
def inserted (s : Shared K V) (order : Enumeration K) (key : K) (new : Handle V) : Shared K V :=
  ((s.opened order).addCell new.slot).2.staged key (s.opened order).cells.size

end Shared

open Shared

variable [BEq K]

/-! ## Under the mutex -/

namespace Shared

omit [BEq K]

/-- The mutex is taken by thread `t`. -/
def hold (s : Shared K V) (t : ThreadId) : Shared K V := { s with holder := some t }

variable (s : Shared K V) (t : ThreadId)

@[simp] theorem snapshot_hold : (s.hold t).snapshot = s.snapshot := rfl

@[simp] theorem staging_hold : (s.hold t).staging = s.staging := rfl

@[simp] theorem slot_hold (c : CellId) : (s.hold t).slot c = s.slot c := rfl

@[simp] theorem tombstoned_hold (c : CellId) : (s.hold t).tombstoned c = s.tombstoned c := rfl

/-- A mutex that was free is free again once it is let go. -/
theorem release_hold (hfree : s.holder = none) : (s.hold t).release = s := by
  rw [hold, release, ← hfree]

/-- A miss is counted, and paid for, whoever holds the mutex. -/
@[simp] theorem missed_hold : (s.hold t).missed = s.missed.hold t := by
  unfold missed
  by_cases h : s.staging.size ≤ s.staging.misses + 1
  · simp only [staging_hold, h, if_true]
    rfl
  · simp only [staging_hold, h, if_false]
    rfl

/-- A cell is served in the same way whoever holds the mutex. -/
@[simp] theorem serve_hold (c : CellId) (held : Option (Handle V)) :
    (s.hold t).serve c held = (s.serve c held).hold t := by
  cases held with
  | some h => rfl
  | none =>
      by_cases hc : (s.slot c).handle?.isSome = true
      · simp only [serve, slot_hold, hc, if_true]
        rfl
      · simp only [serve, slot_hold, hc]
        rfl

/-- A cell is buried in the same way whoever holds the mutex. -/
@[simp] theorem buried_hold (c : CellId) : (s.hold t).buried c = (s.buried c).hold t := by
  unfold buried
  rw [slot_hold]
  split <;> rfl

/-- A key is staged in the same way whoever holds the mutex. -/
@[simp] theorem staged_hold [BEq K] (key : K) (c : CellId) :
    (s.hold t).staged key c = (s.staged key c).hold t := rfl

/-- A key is erased in the same way whoever holds the mutex. -/
@[simp] theorem erased_hold [BEq K] (key : K) : (s.hold t).erased key = (s.erased key).hold t := rfl

/-- A cell is brought back in the same way whoever holds the mutex. -/
@[simp] theorem readmitted_hold [BEq K] (key : K) (c : CellId) :
    (s.hold t).readmitted key c = (s.readmitted key c).hold t := by
  unfold readmitted
  rw [tombstoned_hold]
  split <;> rfl

/-- Entries are copied in the same way whoever holds the mutex. -/
theorem copied_hold [BEq K] (entries : List (K × CellId)) (copies : Table K) (n : Nat) :
    copied entries copies n (s.hold t) =
      ((copied entries copies n s).1, (copied entries copies n s).2.hold t) := by
  induction entries generalizing copies n s with
  | nil => rfl
  | cons e entries ih =>
      simp only [copied, slot_hold, buried_hold]
      split <;> exact ih _ _ _

/-- A rebuild comes to the same whoever holds the mutex. -/
@[simp] theorem opened_hold [BEq K] (order : Enumeration K) :
    (s.hold t).opened order = (s.opened order).hold t := by
  have hwalk : (s.hold t).walked = s.walked.hold t := rfl
  simp only [opened, rebuilt, copying, snapshot_hold, hwalk, copied_hold]
  split <;> rfl

/-- A new key is staged in the same way whoever holds the mutex. -/
@[simp] theorem inserted_hold [BEq K] (order : Enumeration K) (key : K) (new : Handle V) :
    (s.hold t).inserted order key new = (s.inserted order key new).hold t := by
  unfold inserted
  rw [opened_hold]
  rfl

omit t in
/-- A miss makes no difference to cells. -/
theorem slot_missed (c : CellId) : s.missed.slot c = s.slot c := by
  unfold missed
  split <;> rfl

omit t in
/-- A miss draws no stamp. -/
theorem clock_missed : s.missed.clock = s.clock := by
  unfold missed
  split <;> rfl

omit t in
/-- A miss changes nothing that belongs to the cells. -/
theorem missed_serve (c : CellId) (held : Option (Handle V)) :
    (s.serve c held).missed = s.missed.serve c held := by
  -- the promotion that a miss may pay for looks at the staging area alone
  have hset : ∀ (s : Shared K V) x, (s.setSlot c x).missed = s.missed.setSlot c x := fun s x => by
    by_cases h : s.staging.size ≤ s.staging.misses + 1
    · simp only [missed, staging_setSlot, h, if_true]
      rfl
    · simp only [missed, staging_setSlot, h, if_false]
      rfl
  have htick : s.tick.missed = s.missed.tick := by
    unfold missed tick
    split <;> rfl
  cases held with
  | some h => exact hset s _
  | none =>
      simp only [serve, slot_missed, clock_missed]
      split
      · rw [hset, htick]
      · rfl

end Shared

/-! ## What is kept -/

/-- Where nothing is staged, no key is. -/
theorem Staging.find?_of_isSome_eq_false {g : Staging K} {key : K}
    (h : g.table.isSome = false) : g.find? key = none := by
  cases hg : g.table with
  | none => simp [find?, hg]
  | some table => simp [hg] at h

namespace Shared

variable {s : Shared K V} {key : K} {c : CellId}

omit [BEq K] in
/-- To bury a cell concerns that cell and the clock. -/
theorem steady_buried (s : Shared K V) (c : CellId) : s.Steady (s.buried c) := by
  unfold buried
  split
  · exact ⟨rfl, rfl, rfl, rfl, rfl⟩
  · exact .refl s

/-- Copying changes cells only: it buries those without a value. -/
theorem steady_copied (entries : List (K × CellId)) (copies : Table K) (n : Nat)
    (s : Shared K V) : s.Steady (copied entries copies n s).2 := by
  induction entries generalizing copies n s with
  | nil => exact .refl s
  | cons e entries ih =>
      simp only [copied]
      split <;> exact (steady_buried s e.2).trans (ih _ _ _)

/-- A copy of the snapshot counts one walk, and otherwise changes cells only. -/
theorem steady_copying (s : Shared K V) (order : Enumeration K) :
    s.walked.Steady (s.copying order).2 :=
  steady_copied _ _ _ _

/-! The clock only goes on. -/

omit [BEq K] in
/-- A burial draws one stamp at most. -/
theorem clock_le_buried (s : Shared K V) (c : CellId) : s.clock ≤ (s.buried c).clock := by
  unfold buried
  split
  · exact Nat.le_succ _
  · exact Nat.le_refl _

/-- Stamps are drawn for tombstones. -/
theorem clock_le_copied (entries : List (K × CellId)) (copies : Table K) (n : Nat)
    (s : Shared K V) : s.clock ≤ (copied entries copies n s).2.clock := by
  induction entries generalizing copies n s with
  | nil => exact Nat.le_refl _
  | cons e entries ih =>
      simp only [copied]
      split <;> exact Nat.le_trans (clock_le_buried s e.2) (ih _ _ _)

/-- To stage a new key may draw stamps for tombstones. -/
theorem clock_le_inserted (s : Shared K V) (order : Enumeration K) (key : K) (new : Handle V) :
    s.clock ≤ (s.inserted order key new).clock := by
  show s.clock ≤ (s.opened order).clock
  unfold opened
  split
  · exact Nat.le_refl _
  · exact clock_le_copied _ _ _ s.walked

/-- To rewrite a key may draw stamps for absent slots. -/
theorem clock_le_rewritten (s : Shared K V) (key : K) (c : CellId) (held : Option (Handle V)) :
    s.clock ≤ (s.rewritten key c held).clock := by
  cases held with
  | none =>
      rw [rewritten, clock_serve]
      exact Nat.le_add_right _ _
  | some h =>
      rw [rewritten, clock_serve, readmitted]
      refine Nat.le_trans ?_ (Nat.le_add_right _ _)
      split
      · exact Nat.le_succ _
      · exact Nat.le_refl _

/-- After a rebuild the copies are staged, with the misses that there were. -/
theorem staging_rebuilt (s : Shared K V) (order : Enumeration K) :
    (s.rebuilt order).staging = ⟨some (s.copying order).1.1, s.staging.misses⟩ :=
  congrArg (fun g : Staging K => (⟨some (s.copying order).1.1, g.misses⟩ : Staging K))
    (s.steady_copying order).staging

/-- A rebuild logs how many entries it copied and how many it left out. -/
theorem log_rebuilt (s : Shared K V) (order : Enumeration K) : (s.rebuilt order).log =
    .rebuilt (s.copying order).1.1.size (s.copying order).1.2 :: s.log :=
  congrArg (_ :: ·) (s.steady_copying order).log

/-- A new key is staged beside what a rebuild has staged, if there was one. -/
theorem staging_inserted (s : Shared K V) (order : Enumeration K) (key : K) (new : Handle V) :
    (s.inserted order key new).staging =
      ⟨some (((s.opened order).staging.table.getD .empty).insert key (s.opened order).cells.size),
        (s.opened order).staging.misses⟩ := rfl

/-- To stage a key logs nothing; the rebuild before it may have. -/
theorem log_inserted (s : Shared K V) (order : Enumeration K) (key : K) (new : Handle V) :
    (s.inserted order key new).log = (s.opened order).log := rfl

omit [BEq K] in
/-- A cell that was brought back is not tombstoned, and holds what it held before: nothing, if it
was tombstoned. -/
theorem slot_revived (htomb : s.tombstoned c = true) :
    (s.revived c).slot c = ⟨s.clock, .absent⟩ :=
  slot_setSlot_self (lt_of_tombstoned htomb) _

/-- A new key is staged by whoever holds the mutex, and nobody else takes it. -/
theorem holder_inserted (s : Shared K V) (order : Enumeration K) (key : K) (new : Handle V) :
    (s.inserted order key new).holder = s.holder := by
  show (s.opened order).holder = s.holder
  unfold opened
  split
  · rfl
  · exact (s.steady_copying order).holder

/-- A key whose cell has no tombstone is rewritten in place. -/
theorem rewritten_of_live (hlive : s.tombstoned c = false) (held : Option (Handle V)) :
    s.rewritten key c held = s.serve c held := by
  cases held with
  | none => rfl
  | some h => simp [rewritten, readmitted, hlive]

end Shared

/-! ## The programs -/

namespace Map

open Program

variable (order : Enumeration K) (t : ThreadId) {s s' : Shared K V} {key : K} {c : CellId}

/-- What is done under the mutex is done as if nobody held it before or after. -/
theorem run_locked {body : Program K V α} {x : α} (hfree : s.holder = none)
    (hfree' : s'.holder = none) (h : body.run order t (s.hold t) = some (x, s'.hold t)) :
    (locked body).run order t s = some (x, s') := by
  have hacq : (Action.acquire : Action K V).perform order t s = some ((), s.hold t) := by
    simp [Action.perform, acquire, hfree, hold]
  rw [locked, run_bind, Action.run_program, hacq, Option.bind_some, run_bind, h]
  exact congrArg (fun s => some (x, s)) (release_hold s' t hfree')

/-- Alone, the snapshot is read as it is. -/
theorem run_readSnapshot (f : Snapshot K → Program K V α) :
    (Action.readSnapshot.program >>= f).run order t s = (f s.snapshot).run order t s := rfl

/-- Alone, the key is looked up in what is staged. -/
theorem run_findStaged (f : Option CellId → Program K V α) :
    ((Action.findStaged key).program >>= f).run order t s =
      (f (s.staging.find? key)).run order t s := rfl

/-- A tombstone is lifted and its cell is staged; without one nothing happens. -/
theorem run_readmit (c : CellId) :
    ( readmit key c).run order t s = some ((), s.readmitted key c) := by
  rw [ readmit, run_bind, Cell.run_revive, Option.bind_some, readmitted]
  split <;> rfl

/-- The entries are buried or copied, one after the other. -/
theorem run_copyLive (entries : List (K × CellId)) (copies : Table K) (n : Nat)
    (s : Shared K V) :
    (copyLive entries copies n).run order t s = some (copied entries copies n s) := by
  induction entries generalizing copies n s with
  | nil => rfl
  | cons e entries ih =>
      rw [copyLive, run_bind, Cell.run_bury, Option.bind_some, copied]
      split <;> exact ih _ _ _

/-- If the mark of the snapshot agrees with the staging area, a rebuild is done exactly if no table
is staged. -/
theorem run_openStaging (hflag : s.snapshot.amended = s.staging.table.isSome) :
    (openStaging s.snapshot).run order t s = some ((), s.opened order) := by
  unfold openStaging opened
  cases ham : s.snapshot.amended with
  | true => rfl
  | false =>
      have hasStaged : (Action.hasStaged : Action K V).program.run order t s = some (false, s) := by
        rw [← hflag.symm.trans ham]
        rfl
      have hwalk : ∀ f : List (K × CellId) → Program K V Unit,
          ((Action.walk s.snapshot.table).program >>= f).run order t s =
            (f (order.arrange s.walks s.snapshot.table.entries)).run order t s.walked :=
        fun f => rfl
      simp only [Bool.false_eq_true, if_false]
      rw [run_bind, rebuild, run_bind, hasStaged, Option.bind_some, if_neg Bool.false_ne_true,
        hwalk, run_bind, run_copyLive]
      rfl

/-- A new key is staged, after a rebuild if need be. -/
theorem run_stageNew (hflag : s.snapshot.amended = s.staging.table.isSome) (new : Handle V) :
    (stageNew s.snapshot key new).run order t s = some ((), s.inserted order key new) := by
  rw [stageNew, run_bind, run_openStaging order t hflag]
  rfl

/-- To clear the map drops everything, unless there is nothing. -/
theorem run_cleared (hfree : s.holder = none) :
    (clear : Program K V Unit).run order t s = some ((), s.cleared) := by
  rw [clear, run_readSnapshot, cleared]
  by_cases hfilled : 0 < s.snapshot.size ∨ s.snapshot.amended = true
  · have hdecide : (decide (0 < s.snapshot.size) || s.snapshot.amended) = true := by
      simpa using hfilled
    simp only [hdecide, hfilled, if_true]
    refine run_locked order t hfree hfree ?_
    rw [clearLocked, run_readSnapshot, snapshot_hold]
    simp only [hdecide, if_true]
    rfl
  · have hdecide : (decide (0 < s.snapshot.size) || s.snapshot.amended) = false := by
      simpa using hfilled
    simp only [hdecide, hfilled]
    rfl

/-- A traversal promotes what is staged, unless the snapshot is complete. -/
theorem run_complete (hfree : s.holder = none) :
    (complete : Program K V _).run order t s = some (s.completed.snapshot, s.completed) := by
  rw [complete, run_readSnapshot, completed]
  cases ham : s.snapshot.amended with
  | false => rfl
  | true =>
      refine run_locked order t hfree hfree ?_
      rw [completeLocked, run_readSnapshot, snapshot_hold]
      simp only [ham, if_true]
      rfl

end Map

end ConcurrentMap
