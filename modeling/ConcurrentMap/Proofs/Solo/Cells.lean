import ConcurrentMap.Proofs.Alone

/-!
# What cell operations do alone

Each operation on a cell is a loop that may have to try again because of other threads. Alone it is
a function of the slot it finds: `Shared.serve` lets a cell hold a value or none, and every
operation answers from what the cell held before and serves it with what it holds afterwards.
-/

namespace ConcurrentMap

variable {K V α : Type}

/-- What the cell holds is compared through its handle. -/
theorem Slot.holds_eq [BEq V] (x : Slot V) (old : V) :
    x.content.holds old = x.handle?.any (·.value == old) := by
  obtain ⟨stamp, content⟩ := x
  cases content <;> rfl

/-- There is a value exactly if there is a handle to it. -/
theorem Slot.isPresent_eq (x : Slot V) : x.content.isPresent = x.handle?.isSome := by
  obtain ⟨stamp, content⟩ := x
  cases content <;> rfl

namespace Shared

/-- A stamp is drawn. -/
def tick (s : Shared K V) : Shared K V := { s with clock := s.clock + 1 }

/-- The cell comes to hold `held`. A value that is given up leaves a new absent slot behind. -/
def serve (s : Shared K V) (c : CellId) : Option (Handle V) → Shared K V
  | some h => s.setSlot c h.slot
  | none => if (s.slot c).handle?.isSome then s.tick.setSlot c ⟨s.clock, .absent⟩ else s

/-- The tombstone of the cell is lifted. -/
def revived (s : Shared K V) (c : CellId) : Shared K V := s.tick.setSlot c ⟨s.clock, .absent⟩

/-- An absent cell gets a tombstone. -/
def buried (s : Shared K V) (c : CellId) : Shared K V :=
  if (s.slot c).content.isAbsent then s.tick.setSlot c ⟨s.clock, .tombstoned⟩ else s

/-- To draw a stamp makes no difference to cells. -/
@[simp] theorem slot_tick (s : Shared K V) (c : CellId) : s.tick.slot c = s.slot c := rfl

@[simp] theorem tombstoned_tick (s : Shared K V) (c : CellId) :
    s.tick.tombstoned c = s.tombstoned c := rfl

@[simp] theorem snapshot_tick (s : Shared K V) : s.tick.snapshot = s.snapshot := rfl

@[simp] theorem staging_tick (s : Shared K V) : s.tick.staging = s.staging := rfl

/-- To write back what a cell holds changes nothing. -/
@[simp] theorem setSlot_slot (s : Shared K V) (c : CellId) : s.setSlot c (s.slot c) = s := by
  have hcells : s.cells.setIfInBounds c (s.slot c) = s.cells := by
    refine Array.ext (Array.size_setIfInBounds ..) fun i hi _ => ?_
    rw [Array.getElem_setIfInBounds]
    split
    · next hci =>
      subst hci
      simp [slot, Array.getElem?_eq_getElem (by simpa using hi)]
    · rfl
  rw [setSlot, hcells]

/-- To serve a cell with what it holds changes nothing. -/
@[simp] theorem serve_self (s : Shared K V) (c : CellId) : s.serve c (s.slot c).handle? = s := by
  cases hc : (s.slot c).handle? with
  | none => simp [serve, hc]
  | some h => rw [serve, ← Slot.handle?_eq_some_iff.1 hc, setSlot_slot]

/-- To take the value away allocates an absent slot, unless there was none. -/
theorem serve_none (s : Shared K V) (c : CellId) : s.serve c none =
    if (s.slot c).handle?.isSome then s.tick.setSlot c ⟨s.clock, .absent⟩ else s := rfl

/-- To serve a cell concerns that cell and the clock. -/
theorem steady_serve (s : Shared K V) (c : CellId) (held : Option (Handle V)) :
    s.Steady (s.serve c held) := by
  cases held with
  | some h => exact ⟨rfl, rfl, rfl, rfl, rfl⟩
  | none =>
      rw [serve_none]
      split
      · exact ⟨rfl, rfl, rfl, rfl, rfl⟩
      · exact .refl s

/-- To serve a cell leaves all others alone. -/
theorem slot_serve_ne {s : Shared K V} {c d : CellId} (h : c ≠ d) (held : Option (Handle V)) :
    (s.serve c held).slot d = s.slot d := by
  cases held with
  | some h' => exact slot_setSlot_ne h _
  | none =>
      rw [serve_none]
      split
      · exact slot_setSlot_ne h _
      · rfl

/-- To serve a cell makes no new one. -/
theorem size_serve (s : Shared K V) (c : CellId) (held : Option (Handle V)) :
    (s.serve c held).cells.size = s.cells.size := by
  cases held with
  | some h => exact size_setSlot _ _ _
  | none =>
      rw [serve_none]
      split
      · exact size_setSlot _ _ _
      · rfl

/-- A cell holds what it was served with. -/
theorem handle?_serve {s : Shared K V} {c : CellId} (hlt : c < s.cells.size)
    (held : Option (Handle V)) : ((s.serve c held).slot c).handle? = held := by
  cases held with
  | some h => exact congrArg Slot.handle? (slot_setSlot_self hlt _)
  | none =>
      rw [serve_none]
      split
      · rw [slot_setSlot_self (s := s.tick) hlt]
        rfl
      · next hnone => simpa using hnone

/-- A stamp is drawn if a value is given up. -/
theorem clock_serve (s : Shared K V) (c : CellId) (held : Option (Handle V)) :
    (s.serve c held).clock =
      s.clock + if (s.slot c).handle?.isSome && held.isNone then 1 else 0 := by
  cases held with
  | some h => simp [serve, setSlot]
  | none =>
      rw [serve_none, Option.isNone_none, Bool.and_true]
      split <;> rfl

/-- A cell is served between values and absence. -/
theorem tombstoned_serve {s : Shared K V} {c : CellId} (hlive : s.tombstoned c = false)
    (held : Option (Handle V)) (d : CellId) :
    (s.serve c held).tombstoned d = s.tombstoned d := by
  cases held with
  | some h => exact tombstoned_setSlot (s := s) (by rw [hlive]; rfl) d
  | none =>
      rw [serve_none]
      split
      · exact tombstoned_setSlot (s := s.tick) (by rw [tombstoned_tick, hlive]; rfl) d
      · rfl

end Shared

namespace Cell

open Program Shared

variable [BEq K] (order : Enumeration K) (t : ThreadId) {s : Shared K V} {c : CellId}

/-- An update that starts from what the cell holds succeeds at once if that is acceptable. -/
theorem run_update (s : Shared K V) (c : CellId) (new : Slot V) (accepts : Content V → Bool) :
    (Update.program ⟨c, s.slot c, new, accepts⟩ : Program K V _).run order t s =
      some (if accepts (s.slot c).content then (.installed (s.slot c), s.setSlot c new)
        else (.refused (s.slot c), s)) := by
  rw [Update.run_program]
  simp [Update.settle]

/-- Alone, the cell is read as it is. -/
theorem run_readCell (f : Slot V → Program K V α) :
    ((Action.readCell c).program >>= f).run order t s = (f (s.slot c)).run order t s := rfl

/-- Alone, the next stamp is drawn. -/
theorem run_drawStamp (f : Stamp → Program K V α) :
    (Action.drawStamp.program >>= f).run order t s = (f s.clock).run order t s.tick := rfl

/-- A swap answers what the cell held, and serves it with the new value. -/
theorem run_trySwap (hlive : s.tombstoned c = false) (new : Handle V) :
    (trySwap c new : Program K V _).run order t s =
      some (some (s.slot c).handle?, s.serve c (some new)) := by
  rw [trySwap, run_readCell, run_bind, run_update]
  simp only [tombstoned] at hlive
  simp [hlive, serve]

/-- A swap that meets a tombstone changes nothing. -/
theorem run_trySwap_of_tombstoned (htomb : s.tombstoned c = true) (new : Handle V) :
    (trySwap c new : Program K V _).run order t s = some (none, s) := by
  rw [trySwap, run_readCell, run_bind, run_update]
  simp only [tombstoned] at htomb
  simp [htomb]

/-- The cell keeps a value that it has, and is served with the new one otherwise. -/
theorem run_tryLoadOrStore (hlive : s.tombstoned c = false) (new : Handle V) :
    (tryLoadOrStore c new : Program K V _).run order t s =
      some (some ((s.slot c).handle?.getD new, (s.slot c).handle?.isSome),
        s.serve c (some ((s.slot c).handle?.getD new))) := by
  rw [tryLoadOrStore, run_readCell, run_bind, run_update]
  unfold tombstoned at hlive
  cases hc : (s.slot c).content with
  | absent => simp [Content.isAbsent, Slot.handle?, hc, serve]
  | tombstoned => simp [hc, Content.isTombstoned] at hlive
  | present v =>
      have hheld : (s.slot c).handle? = some ⟨(s.slot c).stamp, v⟩ := by simp [Slot.handle?, hc]
      have hself := s.serve_self c
      rw [hheld] at hself
      simp [Content.isAbsent, hheld, hself]

/-- An attempt that meets a tombstone changes nothing. -/
theorem run_tryLoadOrStore_of_tombstoned (htomb : s.tombstoned c = true) (new : Handle V) :
    (tryLoadOrStore c new : Program K V _).run order t s = some (none, s) := by
  rw [tryLoadOrStore, run_readCell, run_bind, run_update]
  unfold tombstoned at htomb
  cases hc : (s.slot c).content with
  | absent => simp [hc, Content.isTombstoned] at htomb
  | tombstoned => simp [Content.isAbsent, Slot.handle?, hc]
  | present v => simp [hc, Content.isTombstoned] at htomb

/-- A cell that is vacated if `wanted` allows it. -/
theorem run_vacate (wanted : Content V → Bool)
    (hwanted : wanted (s.slot c).content = true → (s.slot c).handle?.isSome = true) :
    (vacate c wanted : Program K V _).run order t s =
      if wanted (s.slot c).content then some (some (s.slot c), s.serve c none)
      else some (none, s) := by
  rw [vacate, run_readCell]
  by_cases hw : wanted (s.slot c).content = true
  · have hupdate := run_update order t s.tick c ⟨s.clock, .absent⟩ wanted
    rw [slot_tick] at hupdate
    simp only [hw, if_true] at hupdate ⊢
    rw [run_drawStamp, run_bind, hupdate]
    simp [serve, hwanted hw]
  · simp only [hw]
    rfl

/-- A removal answers what the cell held, and leaves it without a value. -/
theorem run_remove :
    (remove c : Program K V _).run order t s = some ((s.slot c).handle?, s.serve c none) := by
  have hvacate := run_vacate order t (s := s) (c := c) Content.isPresent
    fun h => (Slot.isPresent_eq _).symm.trans h
  rw [remove, run_bind, hvacate, Slot.isPresent_eq]
  cases hc : (s.slot c).handle? with
  | some h => simp [hc]
  | none => simp [serve, hc]

variable [BEq V]

/-- A comparison looks at the value held, and serves the cell with the new one on a match. -/
theorem run_compareAndSwap (old : V) (new : Handle V) :
    (compareAndSwap c old new : Program K V _).run order t s =
      some ((s.slot c).handle?.any (·.value == old), s.serve c
        (if (s.slot c).handle?.any (·.value == old) then some new else (s.slot c).handle?)) := by
  rw [compareAndSwap, run_readCell, run_bind, run_update, Slot.holds_eq]
  by_cases hold : (s.slot c).handle?.any (·.value == old) = true
  · simp [hold, serve]
  · simp [hold]

/-- A comparison that deletes looks at the value held, and takes it away on a match. -/
theorem run_compareAndDelete (old : V) :
    (compareAndDelete c old : Program K V _).run order t s =
      some ((s.slot c).handle?.any (·.value == old), s.serve c
        (if (s.slot c).handle?.any (·.value == old) then none else (s.slot c).handle?)) := by
  have hvacate := run_vacate order t (s := s) (c := c) (Content.holds old) fun h => by
    rw [Slot.holds_eq] at h
    cases hc : (s.slot c).handle? with
    | some held => rfl
    | none => simp [hc] at h
  rw [compareAndDelete, run_bind, hvacate, Slot.holds_eq]
  by_cases hold : (s.slot c).handle?.any (·.value == old) = true
  · simp [hold]
  · simp [hold]

omit [BEq V]

/-! ## Under the mutex -/

/-- Under the mutex, a swap answers what the cell held. -/
theorem run_swap (new : Handle V) : (swap c new : Program K V _).run order t s =
    some ((s.slot c).handle?, s.serve c (some new)) := rfl

/-- Under the mutex, a store serves the cell at once. -/
theorem run_store (new : Handle V) : (store c new : Program K V _).run order t s =
    some ((), s.serve c (some new)) := rfl

/-- Without a tombstone in the cell, the first attempt answers. -/
theorem run_loadOrStore (hlive : s.tombstoned c = false) (new : Handle V) :
    (loadOrStore c new : Program K V _).run order t s =
      some (((s.slot c).handle?.getD new, (s.slot c).handle?.isSome),
        s.serve c (some ((s.slot c).handle?.getD new))) := by
  rw [loadOrStore, run_bind, run_tryLoadOrStore order t hlive]
  rfl

/-- A tombstone is lifted, and a cell without one is left alone. -/
theorem run_revive : (revive c : Program K V _).run order t s =
    some (s.tombstoned c, if s.tombstoned c then s.revived c else s) := by
  rw [revive, run_readCell, tombstoned]
  split
  · rw [run_drawStamp, Action.run_program]
    simp [Action.perform, compareExchange, revived, *]
  · simp [*]

/-- A cell without a value has a tombstone afterwards, and is counted. -/
theorem run_bury : (bury c : Program K V _).run order t s =
    some ((s.slot c).handle?.isNone, s.buried c) := by
  rw [bury, run_readCell, buried]
  cases hc : (s.slot c).content with
  | absent =>
      have hupdate := run_update order t s.tick c ⟨s.clock, .tombstoned⟩ Content.isAbsent
      rw [slot_tick] at hupdate
      simp only [hc, Content.isAbsent, if_true] at hupdate ⊢
      rw [run_drawStamp, run_bind, hupdate]
      simp [Slot.handle?, hc]
  | tombstoned => simp [Content.isAbsent, Content.isTombstoned, Slot.handle?, hc]
  | present v => simp [Content.isAbsent, Content.isTombstoned, Slot.handle?, hc]

end Cell

end ConcurrentMap
