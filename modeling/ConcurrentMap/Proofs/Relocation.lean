import ConcurrentMap.Proofs.Client
import ConcurrentMap.Proofs.Representation

/-!
# A map above another one

Cells and stamps are numbered in the order in which they are made. A map that was used before
therefore does not number them as a new one does, but it may do the same otherwise: a `Relocation`
says what each cell and each stamp of the new map corresponds to.

`Shared.above` puts a state above another one, as if everything in it had come after the cells, the
stamps, the walks and the events of that one. A relocated action does there what the action does in
the state itself (`Action.perform_above`), if tables are walked in corresponding orders.
-/

namespace ConcurrentMap

/-- Where cells and stamps are found elsewhere. -/
structure Relocation where
  cell : CellId → CellId
  stamp : Stamp → Stamp

namespace Relocation

variable {K V : Type} (ρ : Relocation)

def slot (x : Slot V) : Slot V := ⟨ρ.stamp x.stamp, x.content⟩

def handle (held : Handle V) : Handle V := ⟨ρ.stamp held.stamp, held.value⟩

def entry (e : K × CellId) : K × CellId := (e.1, ρ.cell e.2)

def table (t : Table K) : Table K := ⟨t.entries.map ρ.entry⟩

def snapshot (s : Snapshot K) : Snapshot K := ⟨ρ.table s.table, s.amended⟩

def staging (g : Staging K) : Staging K := ⟨g.table.map ρ.table, g.misses⟩

def update (u : Update V) : Update V :=
  ⟨ρ.cell u.cell, ρ.slot u.seen, ρ.slot u.candidate, u.accepts⟩

def outcome : Outcome V → Outcome V
  | .installed previous => .installed (ρ.slot previous)
  | .refused found => .refused (ρ.slot found)

def answer : Answer V → Answer V
  | .finished => .finished
  | .found held => .found (held.map ρ.handle)
  | .settled held loaded => .settled (ρ.handle held) loaded
  | .decided changed => .decided changed

def trace (made : Trace K V) : Trace K V := made.map fun p => (p.1, ρ.answer p.2)

/-- The action on the relocated cells, with the relocated slots. -/
def action : Action K V → Action K V
  | .acquire => .acquire
  | .release => .release
  | .readSnapshot => .readSnapshot
  | .publish s => .publish (ρ.snapshot s)
  | .hasStaged => .hasStaged
  | .findStaged key => .findStaged key
  | .stage key c => .stage key (ρ.cell c)
  | .unstage key => .unstage key
  | .installStaged t => .installStaged (ρ.table t)
  | .readStaging => .readStaging
  | .dropStaging => .dropStaging
  | .countMiss => .countMiss
  | .walk t => .walk (ρ.table t)
  | .drawStamp => .drawStamp
  | .newCell x => .newCell (ρ.slot x)
  | .readCell c => .readCell (ρ.cell c)
  | .exchange c new => .exchange (ρ.cell c) (ρ.slot new)
  | .compareExchange c seen new => .compareExchange (ρ.cell c) (ρ.slot seen) (ρ.slot new)
  | .emit e => .emit e

/-- What is learned from the relocated action. -/
def response : (a : Action K V) → a.Response → (ρ.action a).Response
  | .acquire, x => x
  | .release, x => x
  | .readSnapshot, s => ρ.snapshot s
  | .publish _, x => x
  | .hasStaged, x => x
  | .findStaged _, found => found.map ρ.cell
  | .stage _ _, x => x
  | .unstage _, found => found.map ρ.cell
  | .installStaged _, x => x
  | .readStaging, g => ρ.staging g
  | .dropStaging, x => x
  | .countMiss, x => x
  | .walk _, entries => entries.map ρ.entry
  | .drawStamp, n => ρ.stamp n
  | .newCell _, c => ρ.cell c
  | .readCell _, x => ρ.slot x
  | .exchange _ _, x => ρ.slot x
  | .compareExchange _ _ _, x => x
  | .emit _, x => x

/-! ## Relocated tables and slots -/

@[simp] theorem handle?_slot (x : Slot V) : (ρ.slot x).handle? = x.handle?.map ρ.handle := by
  obtain ⟨n, content⟩ := x
  cases content <;> rfl

@[simp] theorem size_table (t : Table K) : (ρ.table t).size = t.size := List.length_map _

@[simp] theorem size_staging (g : Staging K) : (ρ.staging g).size = g.size := by
  obtain ⟨table, misses⟩ := g
  cases table <;> simp [staging, Staging.size]

@[simp] theorem getD_table (t : Option (Table K)) :
    (t.map ρ.table).getD .empty = ρ.table (t.getD .empty) := by
  cases t <;> rfl

variable [BEq K]

/-- A relocated table finds the same keys, at the relocated cells. -/
@[simp] theorem find?_table (t : Table K) (key : K) :
    (ρ.table t).find? key = (t.find? key).map ρ.cell := by
  simp [table, Table.find?, List.find?_map, entry, Function.comp_def]

@[simp] theorem find?_snapshot (s : Snapshot K) (key : K) :
    (ρ.snapshot s).find? key = (s.find? key).map ρ.cell :=
  ρ.find?_table s.table key

@[simp] theorem find?_staging (g : Staging K) (key : K) :
    (ρ.staging g).find? key = (g.find? key).map ρ.cell := by
  obtain ⟨table, misses⟩ := g
  cases table <;> simp [staging, Staging.find?]

/-- A relocated table has the same keys. -/
theorem contains_table (t : Table K) (key : K) : (ρ.table t).contains key = t.contains key := by
  simp [table, Table.contains, List.any_map, entry, Function.comp_def]

/-- Inserting and relocating may change places. -/
@[simp] theorem insert_table (t : Table K) (key : K) (c : CellId) :
    (ρ.table t).insert key (ρ.cell c) = ρ.table (t.insert key c) := by
  simp only [Table.insert, contains_table]
  split
  · simp only [table, List.map_map]
    refine congrArg Table.mk (List.map_congr_left fun e _ => ?_)
    cases hkey : e.1 == key <;> simp [entry, hkey]
  · simp [table, entry]

/-- Erasing and relocating may change places. -/
@[simp] theorem erase_table (t : Table K) (key : K) :
    (ρ.table t).erase key = ρ.table (t.erase key) := by
  simp [table, Table.erase, List.filter_map, entry, Function.comp_def]

end Relocation

variable {K V α β : Type}

/-! ## One state above another -/

namespace Shared

/-- Cells and stamps come after those of `base`. Stamp 0 belongs to no slot. -/
def relocation (base : Shared K V) : Relocation where
  cell c := base.cells.size + c
  stamp
    | 0 => 0
    | n + 1 => base.clock + n

/-- The state in which everything came after what was in `base`. -/
def above (s base : Shared K V) : Shared K V where
  snapshot := base.relocation.snapshot s.snapshot
  staging := base.relocation.staging s.staging
  holder := s.holder
  cells := base.cells ++ s.cells.map base.relocation.slot
  clock := base.relocation.stamp s.clock
  walks := base.walks + s.walks
  log := s.log ++ base.log

/-- A state without entries is as a new one above itself. -/
theorem initial_above {base : Shared K V} (hsnap : base.snapshot = .empty)
    (hstag : base.staging = .empty) (hfree : base.holder = none) :
    (initial : Shared K V).above base = base := by
  obtain ⟨snapshot, staging, holder, cells, clock, walks, log⟩ := base
  obtain rfl : snapshot = .empty := hsnap
  obtain rfl : staging = .empty := hstag
  obtain rfl : holder = none := hfree
  simp only [above, initial, Array.map_empty, Array.append_empty]
  rfl

/-- Above a state in which a stamp was drawn no two stamps become the same. -/
theorem stamp_injective {base : Shared K V} (hbase : 0 < base.clock) :
    Function.Injective base.relocation.stamp := by
  intro m n h
  match m, n with
  | 0, 0 => rfl
  | 0, n + 1 => exact absurd h (Nat.ne_of_lt (Nat.add_pos_left hbase n))
  | m + 1, 0 => exact absurd h (Nat.ne_of_gt (Nat.add_pos_left hbase m))
  | m + 1, n + 1 => exact congrArg (· + 1) (Nat.add_left_cancel h)

/-- So a relocated exchange sees a change exactly when there was one. -/
theorem stamp_eq_iff {base : Shared K V} (hbase : 0 < base.clock) {m n : Stamp} :
    base.relocation.stamp m = base.relocation.stamp n ↔ m = n := (stamp_injective hbase).eq_iff

variable (s base : Shared K V)

@[simp] theorem slot_above (c : CellId) :
    (s.above base).slot (base.relocation.cell c) = base.relocation.slot (s.slot c) := by
  simp only [slot, above, relocation]
  rw [Array.getElem?_append_right (Nat.le_add_right _ _), Nat.add_sub_cancel_left,
    Array.getElem?_map]
  cases s.cells[c]? <;> rfl

/-- A cell of the state above is exchanged as in the state itself. -/
theorem setSlot_above (c : CellId) (new : Slot V) :
    (s.above base).setSlot (base.relocation.cell c) (base.relocation.slot new) =
      (s.setSlot c new).above base := by
  simp only [setSlot, above, Array.map_setIfInBounds]
  congr 1
  show Array.setIfInBounds _ (base.cells.size + c) _ = _
  rw [Array.setIfInBounds_append_right (Nat.le_add_right _ _), Nat.add_sub_cancel_left]

/-- A cell added to the state above is the relocated new cell. -/
theorem addCell_above (new : Slot V) :
    (s.above base).addCell (base.relocation.slot new) =
      (base.relocation.cell (s.addCell new).1, (s.addCell new).2.above base) := by
  simp only [addCell, above, Array.map_push, Array.append_push, Array.size_append, Array.size_map]
  rfl

end Shared

/-- Tables are walked in the same order in a map of its own and above `base`. -/
def Enumeration.Follows (base : Shared K V) (order order' : Enumeration K) : Prop :=
  ∀ n entries, order.arrange (base.walks + n) (entries.map base.relocation.entry) =
    (order'.arrange n entries).map base.relocation.entry

variable [BEq K] {order order' : Enumeration K} {t : ThreadId}

/-- A relocated action does above `base` what the action does in the state itself. -/
theorem Action.perform_above {s base : Shared K V} (hs : 0 < s.clock) (hbase : 0 < base.clock)
    (horder : order.Follows base order') (a : Action K V) :
    (base.relocation.action a).perform order t (s.above base) =
      (a.perform order' t s).map fun r => (base.relocation.response a r.1, r.2.above base) := by
  cases a with
  | acquire =>
      obtain ⟨snapshot, staging, holder, cells, clock, walks, log⟩ := s
      cases holder <;> rfl
  | hasStaged =>
      refine congrArg some (Prod.ext ?_ rfl)
      exact Option.isSome_map
  | findStaged key => exact congrArg some (Prod.ext (Relocation.find?_staging _ _ _) rfl)
  | stage key c =>
      refine congrArg some (Prod.ext rfl ?_)
      show (s.above base).setStaged (some (((s.staging.table.map
        base.relocation.table).getD Table.empty).insert key _)) = _
      rw [Relocation.getD_table, Relocation.insert_table]
      rfl
  | unstage key =>
      refine congrArg some (Prod.ext (Relocation.find?_staging _ _ _) ?_)
      show (s.above base).setStaged ((s.staging.table.map _).map _) =
        (s.above base).setStaged ((s.staging.table.map _).map _)
      simp only [Option.map_map, Function.comp_def, Relocation.erase_table]
  | countMiss =>
      refine congrArg some (Prod.ext ?_ rfl)
      show decide ((base.relocation.staging s.staging).size ≤ _) = _
      rw [Relocation.size_staging]
      rfl
  | walk table =>
      exact congrArg some (Prod.ext (horder s.walks table.entries) rfl)
  -- Some stamp was drawn before, so the next one is relocated by the same distance.
  | drawStamp =>
      obtain ⟨clock, hclock⟩ := Nat.exists_eq_succ_of_ne_zero (Nat.ne_of_gt hs)
      refine congrArg some (Prod.ext rfl ?_)
      show { s.above base with clock := base.relocation.stamp s.clock + 1 } =
        ({ s with clock := s.clock + 1 } : Shared K V).above base
      rw [hclock]
      rfl
  | newCell slot => exact congrArg some (Shared.addCell_above s base slot)
  | readCell c => exact congrArg some (Prod.ext (Shared.slot_above s base c) rfl)
  | exchange c new =>
      exact congrArg some (Prod.ext (Shared.slot_above s base c) (Shared.setSlot_above s base c new))
  -- The relocated slots are told apart where the slots themselves are.
  | compareExchange c seen new =>
      refine congrArg some ?_
      show (s.above base).compareExchange (base.relocation.cell c) _ _ = _
      simp only [Shared.compareExchange, Shared.slot_above, Relocation.slot,
        Shared.stamp_eq_iff hbase]
      split
      · exact Prod.ext rfl (Shared.setSlot_above s base c new)
      · rfl
  | _ => rfl

omit [BEq K] in
/-- So does an attempt of a relocated update. -/
theorem Update.attempt_above {s base : Shared K V} (hbase : 0 < base.clock) (u : Update V) :
    (base.relocation.update u).attempt (s.above base) =
      match u.attempt s with
      | (.inl o, s') => (.inl (base.relocation.outcome o), s'.above base)
      | (.inr u', s') => (.inr (base.relocation.update u'), s'.above base) := by
  simp only [attempt, Relocation.update, Shared.slot_above, Relocation.slot,
    Shared.stamp_eq_iff hbase]
  by_cases hstamp : (s.slot u.cell).stamp = u.seen.stamp
  · simp only [hstamp, if_true]
    exact Prod.ext rfl (Shared.setSlot_above s base u.cell u.candidate)
  · simp only [hstamp, if_false]
    split <;> rfl

omit [BEq K] in
/-- A relocated exchange that is retried settles as the exchange itself does. -/
theorem Update.settle_above {s base : Shared K V} (hbase : 0 < base.clock) (u : Update V) :
    (base.relocation.update u).settle (s.above base) =
      (base.relocation.outcome (u.settle s).1, (u.settle s).2.above base) := by
  simp only [settle, Relocation.update, Shared.slot_above, Relocation.slot,
    Shared.stamp_eq_iff hbase]
  by_cases hstamp : (s.slot u.cell).stamp = u.seen.stamp
  · simp only [hstamp, if_true]
    exact Prod.ext rfl (Shared.setSlot_above s base u.cell u.candidate)
  · simp only [hstamp, if_false]
    split
    · exact Prod.ext rfl (Shared.setSlot_above s base u.cell u.candidate)
    · rfl

omit [BEq K] in
/-- Exchanges draw no stamps. -/
theorem Update.clock_attempt (u : Update V) (s : Shared K V) : (u.attempt s).2.clock = s.clock := by
  simp only [attempt]
  split
  · rfl
  · split <;> rfl

omit [BEq K] in
/-- However often an exchange is retried, it draws no stamp. -/
theorem Update.clock_settle (u : Update V) (s : Shared K V) : (u.settle s).2.clock = s.clock := by
  simp only [settle]
  split
  · rfl
  · split <;> rfl

/-- Stamps are not given back. -/
theorem Action.perform_clock {a : Action K V} {s : Shared K V} {r : a.Response × Shared K V}
    (h : a.perform order t s = some r) : s.clock ≤ r.2.clock := by
  cases a with
  | acquire =>
      obtain ⟨-, rfl⟩ := of_perform_acquire h
      exact Nat.le_refl _
  | compareExchange c seen new =>
      obtain rfl := Option.some.inj h
      simp only [Shared.compareExchange]
      split <;> exact Nat.le_refl _
  | drawStamp =>
      obtain rfl := Option.some.inj h
      exact Nat.le_succ _
  | _ =>
      obtain rfl := Option.some.inj h
      exact Nat.le_refl _

end ConcurrentMap
