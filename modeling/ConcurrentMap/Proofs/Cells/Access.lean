import ConcurrentMap.Proofs.Alone

/-!
# Operations on one cell, as data

`Cell.Access` names an operation on a cell together with its arguments, and `Access.effect` says
what it does to a machine of three states, which `Slot.state` reads off a slot: absent, tombstoned,
or present with the handle that is held. The effect is the whole specification: the answer, and the
state that is written, if one is.

The operations of `Access.Guarded` are for the holder of the mutex, and some of them are only for
cells that are not tombstoned (`Access.Admits`).
-/

namespace ConcurrentMap

variable {K V : Type}

/-- The state that a slot records, with the identity of the value. -/
def Slot.state (s : Slot V) : Content (Handle V) :=
  match s.content with
  | .absent => .absent
  | .tombstoned => .tombstoned
  | .present v => .present ⟨s.stamp, v⟩

namespace Slot

@[simp] theorem state_slot (h : Handle V) : h.slot.state = .present h := rfl

/-- The handle of a slot can be read off its state. -/
theorem handle?_eq_state (s : Slot V) : s.handle? = s.state.value? := by
  obtain ⟨stamp, content⟩ := s
  cases content <;> rfl

/-- Whether a slot is a tombstone can be read off its state. -/
theorem isTombstoned_state (s : Slot V) : s.state.isTombstoned = s.content.isTombstoned := by
  obtain ⟨stamp, content⟩ := s
  cases content <;> rfl

end Slot

namespace Cell

/-- An operation on a cell, with its arguments. -/
inductive Access (V : Type) where
  | load
  | tryStore (new : Handle V)
  | trySwap (new : Handle V)
  | tryLoadOrStore (candidate : Handle V)
  | remove
  | compareAndSwap (old : V) (new : Handle V)
  | compareAndDelete (old : V)
  | store (new : Handle V)
  | swap (new : Handle V)
  | loadOrStore (candidate : Handle V)
  | revive
  | bury

namespace Access

/-- What the operation answers. -/
@[reducible] def Result : Access V → Type
  | load => Option (Handle V)
  | tryStore _ => Bool
  | trySwap _ => Option (Option (Handle V))
  | tryLoadOrStore _ => Option (Handle V × Bool)
  | remove => Option (Handle V)
  | compareAndSwap _ _ => Bool
  | compareAndDelete _ => Bool
  | store _ => Unit
  | swap _ => Option (Handle V)
  | loadOrStore _ => Handle V × Bool
  | revive => Bool
  | bury => Bool

/-- Carry the operation out. -/
def program [BEq V] (c : CellId) : (x : Access V) → Program K V x.Result
  | load => Cell.load c
  | tryStore new => Cell.tryStore c new
  | trySwap new => Cell.trySwap c new
  | tryLoadOrStore candidate => Cell.tryLoadOrStore c candidate
  | remove => Cell.remove c
  | compareAndSwap old new => Cell.compareAndSwap c old new
  | compareAndDelete old => Cell.compareAndDelete c old
  | store new => Cell.store c new
  | swap new => Cell.swap c new
  | loadOrStore candidate => Cell.loadOrStore c candidate
  | revive => Cell.revive c
  | bury => Cell.bury c

/-- The handle that the operation may put into the cell. -/
def candidate? : Access V → Option (Handle V)
  | load => none
  | tryStore new => some new
  | trySwap new => some new
  | tryLoadOrStore candidate => some candidate
  | remove => none
  | compareAndSwap _ new => some new
  | compareAndDelete _ => none
  | store new => some new
  | swap new => some new
  | loadOrStore candidate => some candidate
  | revive => none
  | bury => none

/-- The operation is for the holder of the mutex. -/
def Guarded : Access V → Prop
  | store _ => True
  | swap _ => True
  | loadOrStore _ => True
  | revive => True
  | bury => True
  | _ => False

/-- The operation may be called in this state: what does not look for a tombstone must not meet
one. -/
def Admits (state : Content (Handle V)) : Access V → Prop
  | store _ => state.isTombstoned = false
  | swap _ => state.isTombstoned = false
  | loadOrStore _ => state.isTombstoned = false
  | _ => True

/-- The sequential machine: what the operation answers in a state, and the state that it writes. It
writes nothing where it refuses. -/
def effect [BEq V] (state : Content (Handle V)) :
    (x : Access V) → x.Result × Option (Content (Handle V))
  | load => (state.value?, none)
  | tryStore new =>
    if state.isTombstoned then (false, none) else (true, some (.present new))
  | trySwap new =>
    if state.isTombstoned then (none, none) else (some state.value?, some (.present new))
  | tryLoadOrStore candidate =>
    match state with
    | .tombstoned => (none, none)
    | .absent => (some (candidate, false), some (.present candidate))
    | .present held => (some (held, true), none)
  | remove =>
    match state with
    | .tombstoned => (none, none)
    | .absent => (none, none)
    | .present held => (some held, some .absent)
  | compareAndSwap old new =>
    if state.value?.any (·.value == old) then (true, some (.present new)) else (false, none)
  | compareAndDelete old =>
    if state.value?.any (·.value == old) then (true, some .absent) else (false, none)
  | store new => ((), some (.present new))
  | swap new => (state.value?, some (.present new))
  | loadOrStore candidate =>
    match state with
    | .tombstoned => ((candidate, false), some (.present candidate))
    | .absent => ((candidate, false), some (.present candidate))
    | .present held => ((held, true), none)
  | revive => if state.isTombstoned then (true, some .absent) else (false, none)
  | bury =>
    match state with
    | .tombstoned => (true, none)
    | .absent => (true, some .tombstoned)
    | .present _ => (false, none)

/-- The operation may answer this where the cell holds `before`, and leaves `after` there. What it
does not write is the same slot, not just one that records the same state. -/
def Fits [BEq V] (x : Access V) (answer : x.Result) (before after : Slot V) : Prop :=
  x.Admits before.state ∧ (x.effect before.state).1 = answer ∧
    match (x.effect before.state).2 with
    | none => after = before
    | some state => after.state = state

variable [BEq V]

/-- The operation writes something. -/
theorem Fits.wrote {x : Access V} {answer : x.Result} {before after : Slot V}
    {written : Content (Handle V)} (hadmits : x.Admits before.state)
    (heffect : x.effect before.state = (answer, some written)) (hafter : after.state = written) :
    x.Fits answer before after := by
  refine ⟨hadmits, ?_, ?_⟩
  · rw [heffect]
  · rw [heffect]
    exact hafter

/-- The operation only looks. -/
theorem Fits.looked {x : Access V} {answer : x.Result} {slot : Slot V}
    (hadmits : x.Admits slot.state) (heffect : x.effect slot.state = (answer, none)) :
    x.Fits answer slot slot := by
  refine ⟨hadmits, ?_, ?_⟩
  · rw [heffect]
  · rw [heffect]

/-- No other thread than the holder of the mutex makes tombstones, or takes them away. -/
theorem isTombstoned_of_effect {x : Access V} (hx : ¬x.Guarded) {state written : Content (Handle V)}
    (h : (x.effect state).2 = some written) :
    state.isTombstoned = false ∧ written.isTombstoned = false := by
  -- By cases on the operation, and for those that write, on the state that they meet.
  cases x with
  | store _ | swap _ | loadOrStore _ | revive | bury => exact absurd trivial hx
  | load => cases h
  | tryStore new | trySwap new =>
      cases state with
      | tombstoned => cases h
      | absent | present _ =>
          obtain rfl := Option.some.inj h
          exact ⟨rfl, rfl⟩
  | tryLoadOrStore candidate =>
      cases state with
      | tombstoned | present _ => cases h
      | absent =>
          obtain rfl := Option.some.inj h
          exact ⟨rfl, rfl⟩
  | remove =>
      cases state with
      | tombstoned | absent => cases h
      | present held =>
          obtain rfl := Option.some.inj h
          exact ⟨rfl, rfl⟩
  | compareAndSwap old new | compareAndDelete old =>
      simp only [effect] at h
      split at h
      · next hholds =>
        obtain rfl := Option.some.inj h
        cases state with
        | tombstoned | absent => cases hholds
        | present held => exact ⟨rfl, rfl⟩
      · cases h

/-- So a tombstone stays as it is, and no other slot becomes one. -/
theorem Fits.tombstoned {x : Access V} (hx : ¬x.Guarded) {answer : x.Result} {before after : Slot V}
    (h : x.Fits answer before after) :
    after.content.isTombstoned = before.content.isTombstoned ∧
      (before.content.isTombstoned = true → after = before) := by
  obtain ⟨-, -, hwritten⟩ := h
  split at hwritten
  · rw [hwritten]
    exact ⟨rfl, fun _ => rfl⟩
  · next state hstate =>
    obtain ⟨hbefore, hafter⟩ := isTombstoned_of_effect hx hstate
    rw [← hwritten] at hafter
    rw [Slot.isTombstoned_state] at hbefore hafter
    rw [hbefore, hafter]
    exact ⟨rfl, fun h => by cases h⟩

/-- An operation on a cell does nothing but work on cells. -/
theorem onCells (x : Access V) (c : CellId) : (x.program c : Program K V _).OnCells := by
  cases x with
  | load => exact onCells_load c
  | tryStore new => exact .bind (onCells_trySwap c new) fun _ => trivial
  | trySwap new => exact onCells_trySwap c new
  | tryLoadOrStore candidate => exact onCells_tryLoadOrStore c candidate
  | remove => exact onCells_remove c
  | compareAndSwap old new => exact onCells_compareAndSwap c old new
  | compareAndDelete old => exact onCells_compareAndDelete c old
  | store new => exact onCells_store c new
  | swap new => exact onCells_swap c new
  | loadOrStore candidate => exact onCells_loadOrStore c candidate
  | revive => exact onCells_revive c
  | bury => exact onCells_bury c

end Access

end Cell

end ConcurrentMap
