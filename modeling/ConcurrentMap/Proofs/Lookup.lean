import ConcurrentMap.Proofs.Plain

/-!
# Which cell serves a key

A key is served by the cell that the snapshot leads to, or, if the snapshot lacks the key and is
amended, by the cell that the staged table leads to. `Shared.view` reads every key off its cell: it
is the plain map that the tables and cells represent, in the middle of an operation as well.
-/

namespace ConcurrentMap

variable {K V : Type}

/-! ## Entries and lookups -/

namespace Table

/-- A table without a key leads nowhere. -/
theorem eq_empty_of_size {t : Table K} (h : t.size = 0) : t = empty := by
  obtain ⟨es⟩ := t
  obtain rfl : es = [] := List.eq_nil_of_length_eq_zero h
  rfl

variable [BEq K]

/-- What a lookup finds stands in an entry of an equal key. -/
theorem exists_mem_of_find? {t : Table K} {key : K} {c : CellId} (h : t.find? key = some c) :
    ∃ e ∈ t.entries, e.2 = c ∧ (e.1 == key) = true := by
  simp only [find?, Option.map_eq_some_iff] at h
  obtain ⟨e, he, rfl⟩ := h
  have hkey := List.find?_some he
  exact ⟨e, List.mem_of_find?_eq_some he, rfl, hkey⟩

/-- A table without entries has distinct keys. -/
theorem keysDistinct_empty : (empty : Table K).KeysDistinct := List.Pairwise.nil

/-- The entries are new to the table when they are inserted one after the other: no two of them have
equal keys, and none has a key of the table. -/
structure Admits (t : Table K) (entries : List (K × CellId)) : Prop where
  distinct : entries.Pairwise fun a b => (a.1 == b.1) = false
  new : ∀ e ∈ entries, t.contains e.1 = false

namespace Admits

variable {t : Table K} {e : K × CellId} {entries : List (K × CellId)}

/-- What is new after another entry is new without it. -/
theorem tail (h : t.Admits (e :: entries)) : t.Admits entries :=
  ⟨(List.pairwise_cons.1 h.distinct).2, fun d hd => h.new d (List.mem_cons_of_mem e hd)⟩

/-- A new entry comes last. -/
theorem entries_insert (h : t.Admits (e :: entries)) :
    (t.insert e.1 e.2).entries = t.entries ++ [e] := by
  rw [Table.insert, h.new e List.mem_cons_self]
  rfl

/-- Each new entry adds one to the size. -/
theorem size_insert (h : t.Admits (e :: entries)) : (t.insert e.1 e.2).size = t.size + 1 := by
  rw [Table.size_insert, h.new e List.mem_cons_self]
  rfl

end Admits

variable [EquivBEq K]

/-- After an insertion the table has the new key, and the keys that it had. -/
theorem contains_insert (t : Table K) (key query : K) (c : CellId) :
    (t.insert key c).contains query = (key == query || t.contains query) := by
  rw [contains_eq_isSome_find?, contains_eq_isSome_find?, find?_insert]
  cases key == query <;> rfl

/-- An entry that was new does not stand in the way of those after it. -/
theorem Admits.insert {t : Table K} {e : K × CellId} {entries : List (K × CellId)}
    (h : t.Admits (e :: entries)) : (t.insert e.1 e.2).Admits entries where
  distinct := h.tail.distinct
  new d hd := by
    rw [contains_insert, (List.pairwise_cons.1 h.distinct).1 d hd]
    exact h.tail.new d hd

/-- Whether keys are distinct does not depend on the order of the entries. -/
theorem distinct_of_perm {entries entries' : List (K × CellId)} (hperm : entries.Perm entries')
    (h : entries'.Pairwise fun a b => (a.1 == b.1) = false) :
    entries.Pairwise fun a b => (a.1 == b.1) = false :=
  (hperm.pairwise_iff fun hab => by rw [BEq.comm, hab]).2 h

/-- The entries of a table are new to the empty one, in any order. -/
theorem KeysDistinct.admits {t : Table K} (h : t.KeysDistinct) {entries : List (K × CellId)}
    (hperm : entries.Perm t.entries) : (empty : Table K).Admits entries where
  distinct := distinct_of_perm hperm h
  new _ _ := contains_empty _

/-- If the keys are distinct, every entry is found under its key. -/
theorem KeysDistinct.entry_of_mem {t : Table K} (h : t.KeysDistinct) {e : K × CellId}
    (he : e ∈ t.entries) : t.entries.find? (·.1 == e.1) = some e := by
  obtain ⟨es⟩ := t
  induction es with
  | nil => exact absurd he List.not_mem_nil
  | cons d es ih =>
      obtain ⟨hd, hes⟩ := List.pairwise_cons.1 h
      rcases List.mem_cons.1 he with rfl | he
      · simp
      · rw [List.find?_cons, hd e he]
        exact ih hes he

/-- If the keys are distinct, every entry leads to its cell. -/
theorem KeysDistinct.find?_of_mem {t : Table K} (h : t.KeysDistinct) {e : K × CellId}
    (he : e ∈ t.entries) : t.find? e.1 = some e.2 := by
  rw [find?, h.entry_of_mem he]
  rfl

/-- The entries of a table, in any order, lead where the table does. -/
theorem KeysDistinct.find?_of_perm {t : Table K} (h : t.KeysDistinct)
    {entries : List (K × CellId)} (hperm : entries.Perm t.entries) {e : K × CellId}
    (he : e ∈ entries) {key : K} (hkey : (e.1 == key) = true) : t.find? key = some e.2 :=
  (t.find?_congr hkey).symm.trans (h.find?_of_mem (hperm.mem_iff.1 he))

end Table

/-- A snapshot that neither has entries nor is amended is the first one. -/
theorem Snapshot.eq_empty {s : Snapshot K} (h : ¬(0 < s.size ∨ s.amended = true)) : s = empty := by
  obtain ⟨table, amended⟩ := s
  simp only [not_or, Nat.not_lt, Nat.le_zero, Bool.not_eq_true] at h
  obtain ⟨hsize, rfl⟩ := h
  obtain rfl := Table.eq_empty_of_size hsize
  rfl

/-! ## Cells and keys -/

namespace Shared

/-- The cell is tombstoned. -/
def tombstoned (s : Shared K V) (c : CellId) : Bool := (s.slot c).content.isTombstoned

/-- A name that no cell has is not tombstoned. -/
theorem lt_of_tombstoned {s : Shared K V} {c : CellId} (h : s.tombstoned c = true) :
    c < s.cells.size := by
  refine Nat.lt_of_not_le fun hle => ?_
  rw [tombstoned, slot, Array.getElem?_eq_none hle] at h
  simp [Content.isTombstoned] at h

/-- A tombstone hands out no handle. -/
theorem handle?_of_tombstoned {s : Shared K V} {c : CellId} (h : s.tombstoned c = true) :
    (s.slot c).handle? = none := by
  unfold tombstoned at h
  cases hc : (s.slot c).content with
  | absent => simp [Slot.handle?, hc]
  | tombstoned => simp [Slot.handle?, hc]
  | present v => simp [hc, Content.isTombstoned] at h

/-- A write leaves all other cells alone. -/
theorem slot_setSlot_ne {s : Shared K V} {c d : CellId} (h : c ≠ d) (new : Slot V) :
    (s.setSlot c new).slot d = s.slot d := by
  simp [slot_setSlot, h]

/-- A cell holds what was written to it. -/
theorem slot_setSlot_self {s : Shared K V} {c : CellId} (h : c < s.cells.size) (new : Slot V) :
    (s.setSlot c new).slot c = new := by
  simp [slot_setSlot, h]

/-- A new cell makes no difference to those that were there. -/
theorem slot_addCell_of_lt {s : Shared K V} {c : CellId} (h : c < s.cells.size) (new : Slot V) :
    (s.addCell new).2.slot c = s.slot c := by
  rw [slot_addCell, if_neg (Nat.ne_of_lt h)]

/-- A write neither makes nor lifts a tombstone elsewhere. -/
theorem tombstoned_setSlot_ne {s : Shared K V} {c d : CellId} (h : c ≠ d) (new : Slot V) :
    (s.setSlot c new).tombstoned d = s.tombstoned d :=
  congrArg (·.content.isTombstoned) (slot_setSlot_ne h new)

/-- A cell is tombstoned after a write exactly if a tombstone was written. -/
theorem tombstoned_setSlot_self {s : Shared K V} {c : CellId} (h : c < s.cells.size)
    (new : Slot V) : (s.setSlot c new).tombstoned c = new.content.isTombstoned :=
  congrArg (·.content.isTombstoned) (slot_setSlot_self h new)

@[simp] theorem snapshot_setSlot (s : Shared K V) (c : CellId) (new : Slot V) :
    (s.setSlot c new).snapshot = s.snapshot := rfl

@[simp] theorem staging_setSlot (s : Shared K V) (c : CellId) (new : Slot V) :
    (s.setSlot c new).staging = s.staging := rfl

@[simp] theorem size_setSlot (s : Shared K V) (c : CellId) (new : Slot V) :
    (s.setSlot c new).cells.size = s.cells.size := by
  simp [setSlot]

/-- A write that keeps a tombstone, or keeps a cell without one, makes no difference to
tombstones. -/
theorem tombstoned_setSlot {s : Shared K V} {c : CellId} {new : Slot V}
    (h : new.content.isTombstoned = s.tombstoned c) (d : CellId) :
    (s.setSlot c new).tombstoned d = s.tombstoned d := by
  simp only [tombstoned, slot_setSlot]
  split
  · next hd => rw [h, ← hd.1]; rfl
  · rfl

variable [BEq K]

/-- The cell that serves `key`, if there is one. -/
def find? (s : Shared K V) (key : K) : Option CellId :=
  match s.snapshot.find? key with
  | some c => some c
  | none => if s.snapshot.amended then s.staging.find? key else none

/-- The handle that each key has: what a load would find at this very moment. -/
def view (s : Shared K V) : Plain K V := fun key => (s.find? key).bind fun c => (s.slot c).handle?

/-- What the snapshot has comes first. -/
theorem find?_of_snapshot {s : Shared K V} {key : K} {c : CellId}
    (h : s.snapshot.find? key = some c) : s.find? key = some c := by
  simp [find?, h]

/-- What an amended snapshot lacks is looked up in the staged table. -/
theorem find?_of_staging {s : Shared K V} {key : K} (h : s.snapshot.find? key = none)
    (ha : s.snapshot.amended = true) : s.find? key = s.staging.find? key := by
  simp [find?, h, ha]

/-- What a complete snapshot lacks is nowhere. -/
theorem find?_of_complete {s : Shared K V} {key : K} (h : s.snapshot.find? key = none)
    (ha : s.snapshot.amended = false) : s.find? key = none := by
  simp [find?, h, ha]

/-- A key that is served holds what its cell holds. -/
theorem view_of_find? {s : Shared K V} {key : K} {c : CellId} (h : s.find? key = some c) :
    s.view key = (s.slot c).handle? := by
  simp [view, h]

/-- A key that no cell serves holds nothing. -/
theorem view_of_missing {s : Shared K V} {key : K} (h : s.find? key = none) :
    s.view key = none := by
  simp [view, h]

/-- A write to a cell makes no difference to which cell serves a key. -/
@[simp] theorem find?_setSlot (s : Shared K V) (c : CellId) (new : Slot V) (key : K) :
    (s.setSlot c new).find? key = s.find? key := rfl

/-- At first no key is served. -/
theorem find?_initial (key : K) : (initial : Shared K V).find? key = none := rfl

variable [EquivBEq K]

/-- Equal keys are served by the same cell. -/
theorem find?_congr (s : Shared K V) {a b : K} (h : (a == b) = true) : s.find? a = s.find? b := by
  simp only [find?, Snapshot.find?, Staging.find?, Table.find?_congr _ h]

end Shared

/-- A snapshot does not tell the spellings of one key apart. -/
theorem Snapshot.find?_congr [BEq K] [EquivBEq K] (s : Snapshot K) {a b : K}
    (h : (a == b) = true) : s.find? a = s.find? b :=
  Table.find?_congr _ h

namespace Staging

variable [BEq K] [EquivBEq K]

/-- A staged table does not tell the spellings of one key apart. -/
theorem find?_congr (g : Staging K) {a b : K} (h : (a == b) = true) : g.find? a = g.find? b := by
  simp only [find?, Table.find?_congr _ h]

/-- A staged key leads to its new cell, and all others lead where they did. -/
theorem find?_insert (g : Staging K) (key query : K) (c : CellId) (n : Nat) :
    (⟨some ((g.table.getD .empty).insert key c), n⟩ : Staging K).find? query =
      if key == query then some c else g.find? query := by
  simp only [find?, Option.bind_some, Table.find?_insert]
  cases g.table <;> rfl

omit [EquivBEq K] in
/-- Where a key is staged, there is a table. -/
theorem isSome_of_find? {g : Staging K} {key : K} {c : CellId} (h : g.find? key = some c) :
    g.table.isSome = true := by
  cases hg : g.table with
  | none => simp [find?, hg] at h
  | some t => rfl

/-- An erased key is staged no more, and all others lead where they did. -/
theorem find?_erase (g : Staging K) (key query : K) (n : Nat) :
    (⟨g.table.map (·.erase key), n⟩ : Staging K).find? query =
      if key == query then none else g.find? query := by
  cases hg : g.table with
  | none => simp [find?, hg]
  | some t => simp [find?, hg, Table.find?_erase]

end Staging

end ConcurrentMap
