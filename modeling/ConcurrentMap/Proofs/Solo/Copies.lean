import ConcurrentMap.Proofs.Solo.Structure

/-!
# What a copy of the snapshot comes to

A copy has the entries that hold a value, in the order of the walk, and the others are buried
(`Shared.copied_entries`, `Shared.tombstoned_copied`). Nothing else changes: no cell gains or loses
a value, and cells that the copied entries do not lead to stay as they are.
-/

namespace ConcurrentMap

variable {K V : Type}

namespace Shared

variable {s : Shared K V} {c d : CellId}

/-- A slot without a value is absent or tombstoned. -/
theorem isAbsent_eq (s : Shared K V) (c : CellId) :
    (s.slot c).content.isAbsent = ((s.slot c).handle?.isNone && !s.tombstoned c) := by
  unfold tombstoned Slot.handle?
  cases (s.slot c).content <;> rfl

/-- A burial makes no new cell. -/
theorem size_buried (s : Shared K V) (c : CellId) : (s.buried c).cells.size = s.cells.size := by
  unfold buried
  split
  · exact size_setSlot _ _ _
  · rfl

/-- A burial leaves all other cells alone. -/
theorem slot_buried_ne (h : c ≠ d) : (s.buried c).slot d = s.slot d := by
  unfold buried
  split
  · exact slot_setSlot_ne h _
  · rfl

/-- A burial takes no value away: a cell that holds one is not buried. -/
theorem handle?_buried (s : Shared K V) (c d : CellId) :
    ((s.buried c).slot d).handle? = (s.slot d).handle? := by
  by_cases hcd : c = d
  · subst hcd
    unfold buried
    split
    · next habsent =>
      have hnone : (s.slot c).handle? = none := by
        rw [isAbsent_eq, Bool.and_eq_true, Option.isNone_iff_eq_none] at habsent
        exact habsent.1
      rw [slot_setSlot, hnone]
      split
      · rfl
      · exact hnone
    · rfl
  · rw [slot_buried_ne hcd]

/-- A cell is tombstoned after a burial if it was before, or if it is the one that was buried and
held nothing. -/
theorem tombstoned_buried (hlt : c < s.cells.size) (d : CellId) :
    (s.buried c).tombstoned d =
      (s.tombstoned d || (decide (c = d) && (s.slot d).handle?.isNone)) := by
  by_cases hcd : c = d
  · subst hcd
    unfold buried
    rw [isAbsent_eq]
    cases hheld : (s.slot c).handle?.isNone with
    | false => simp
    | true =>
        cases htomb : s.tombstoned c with
        | false => simp [tombstoned, slot_setSlot_self (s := s.tick) hlt, Content.isTombstoned]
        | true => simp [htomb]
  · rw [tombstoned, slot_buried_ne hcd]
    simp [hcd, tombstoned]

/-! ## All entries -/

variable [BEq K] (entries : List (K × CellId)) (copies : Table K) (n : Nat)

/-- Copying makes no new cell. -/
theorem size_copied (s : Shared K V) :
    (copied entries copies n s).2.cells.size = s.cells.size := by
  induction entries generalizing copies n s with
  | nil => rfl
  | cons e entries ih =>
      simp only [copied]
      split <;> rw [ih, size_buried]

/-- Copying leaves all cells alone that the entries do not lead to. -/
theorem slot_copied_of_not_mem (hc : ∀ e ∈ entries, e.2 ≠ c) (s : Shared K V) :
    (copied entries copies n s).2.slot c = s.slot c := by
  induction entries generalizing copies n s with
  | nil => rfl
  | cons e entries ih =>
      have hrest := fun copies n s => ih copies n
        (fun e' he' => hc e' (List.mem_cons_of_mem e he')) s
      simp only [copied]
      split <;> rw [hrest, slot_buried_ne (hc e List.mem_cons_self)]

/-- Copying takes no value away. -/
theorem handle?_copied (s : Shared K V) (c : CellId) :
    ((copied entries copies n s).2.slot c).handle? = (s.slot c).handle? := by
  induction entries generalizing copies n s with
  | nil => rfl
  | cons e entries ih =>
      simp only [copied]
      split <;> rw [ih, handle?_buried]

/-- After copying, a cell is tombstoned if it was before, or if an entry leads to it and it holds
nothing. -/
theorem tombstoned_copied (hlt : ∀ e ∈ entries, e.2 < s.cells.size) (c : CellId) :
    (copied entries copies n s).2.tombstoned c =
      (s.tombstoned c || (entries.any (·.2 == c) && (s.slot c).handle?.isNone)) := by
  induction entries generalizing copies n s with
  | nil => simp [copied]
  | cons e entries ih =>
      have hrest := fun copies n => ih copies n (s := s.buried e.2) fun e' he' => by
        rw [size_buried]
        exact hlt e' (List.mem_cons_of_mem e he')
      simp only [copied]
      split <;>
        rw [hrest, tombstoned_buried (hlt e List.mem_cons_self), handle?_buried, List.any_cons,
          Bool.or_assoc, ← Bool.and_or_distrib_right] <;> rfl

omit [BEq K] in
/-- A burial draws a stamp for an absent cell, and none for others. -/
theorem clock_buried (s : Shared K V) (c : CellId) :
    (s.buried c).clock = s.clock + if (s.slot c).content.isAbsent then 1 else 0 := by
  unfold buried
  split <;> rfl

/-- A stamp is drawn for each absent cell. -/
theorem clock_copied (hcells : entries.Pairwise fun a b => a.2 ≠ b.2) (s : Shared K V) :
    (copied entries copies n s).2.clock =
      s.clock + entries.countP fun e => (s.slot e.2).content.isAbsent := by
  induction entries generalizing copies n s with
  | nil => rfl
  | cons e entries ih =>
      obtain ⟨hhead, htail⟩ := List.pairwise_cons.1 hcells
      have hrest : (entries.countP fun d => ((s.buried e.2).slot d.2).content.isAbsent) =
          entries.countP fun d => (s.slot d.2).content.isAbsent :=
        List.countP_congr fun d hd => by rw [slot_buried_ne (hhead d hd)]
      simp only [copied]
      split <;>
        rw [ih _ _ htail, hrest, clock_buried, List.countP_cons, Nat.add_assoc,
          Nat.add_comm (List.countP _ entries)]

/-- The entries that hold a value are copied and the others are counted. -/
theorem copied_entries [EquivBEq K] (hnew : copies.Admits entries) (s : Shared K V) :
    (copied entries copies n s).1 =
      (⟨copies.entries ++ entries.filter fun e => (s.slot e.2).handle?.isSome⟩,
        n + entries.countP fun e => (s.slot e.2).handle?.isNone) := by
  -- the induction is on the entries: each is buried and counted, or copied to the end of the table
  induction entries generalizing copies n s with
  | nil => simp [copied]
  | cons e entries ih =>
      simp only [copied]
      cases hheld : (s.slot e.2).handle? with
      | none =>
          rw [Option.isNone_none, if_pos rfl, ih _ _ hnew.tail]
          simp only [handle?_buried, List.filter_cons, hheld, List.countP_cons, Option.isSome_none,
            Option.isNone_none, if_true, Bool.false_eq_true, if_false]
          rw [Nat.add_right_comm, Nat.add_assoc]
      | some held =>
          rw [Option.isNone_some, if_neg Bool.false_ne_true, ih _ _ hnew.insert,
            hnew.entries_insert]
          simp only [handle?_buried, List.filter_cons, hheld, List.countP_cons, Option.isSome_some,
            Option.isNone_some, if_true, Bool.false_eq_true, if_false, List.append_assoc,
            List.singleton_append, Nat.add_zero]

/-! ## The snapshot -/

variable (s) (order : Enumeration K)

/-- A copy of the snapshot has the entries that hold a value, in the order of its walk. -/
theorem copying_eq [EquivBEq K] (hkeys : s.snapshot.table.KeysDistinct) :
    (s.copying order).1 =
      (⟨(order.arrange s.walks s.snapshot.table.entries).filter
          fun e => (s.slot e.2).handle?.isSome⟩,
        (order.arrange s.walks s.snapshot.table.entries).countP
          fun e => (s.slot e.2).handle?.isNone) := by
  rw [copying, copied_entries _ _ _ (hkeys.admits (order.perm _ _))]
  exact congrArg _ (Nat.zero_add _)

/-- What a rebuild stages, the snapshot leads to. -/
theorem find?_copying [EquivBEq K] (hkeys : s.snapshot.table.KeysDistinct) {key : K} {c : CellId}
    (hc : (s.copying order).1.1.find? key = some c) : s.snapshot.find? key = some c := by
  rw [copying_eq s order hkeys] at hc
  obtain ⟨e, he, rfl, hkey⟩ := Table.exists_mem_of_find? hc
  have hmem := (order.perm _ _).mem_iff.1 (List.mem_filter.1 he).1
  rw [← s.snapshot.find?_congr hkey]
  exact hkeys.find?_of_mem hmem

/-- A copy of the snapshot makes no new cell. -/
theorem size_copying : (s.copying order).2.cells.size = s.cells.size :=
  size_copied _ _ _ s.walked

/-- A rebuild draws a stamp for each absent cell. -/
theorem clock_copying (hcells : s.snapshot.table.entries.Pairwise fun a b => a.2 ≠ b.2) :
    (s.copying order).2.clock =
      s.clock + s.snapshot.table.entries.countP fun e => (s.slot e.2).content.isAbsent := by
  have hperm := order.perm s.walks s.snapshot.table.entries
  rw [copying, clock_copied _ _ _ ((hperm.pairwise_iff Ne.symm).2 hcells), hperm.countP_eq]
  rfl

/-- A copy of the snapshot takes no value away. -/
theorem handle?_copying (c : CellId) :
    ((s.copying order).2.slot c).handle? = (s.slot c).handle? :=
  handle?_copied _ _ _ s.walked c

/-- A rebuild leaves tombstones in the cells of the snapshot that hold nothing. -/
theorem tombstoned_copying (hbound : ∀ e ∈ s.snapshot.table.entries, e.2 < s.cells.size)
    (c : CellId) : (s.copying order).2.tombstoned c =
      (s.tombstoned c ||
        (s.snapshot.table.entries.any (·.2 == c) && (s.slot c).handle?.isNone)) := by
  have hperm := order.perm s.walks s.snapshot.table.entries
  rw [copying, tombstoned_copied (s := s.walked) _ _ _ fun e he => hbound e (hperm.mem_iff.1 he),
    hperm.any_eq]
  rfl

/-- A rebuild makes no new cell. -/
theorem size_opened : (s.opened order).cells.size = s.cells.size := by
  unfold opened
  split
  · rfl
  · exact size_copying s order

/-- Only cells of the snapshot are buried. -/
theorem slot_opened [EquivBEq K] (hkeys : s.snapshot.table.KeysDistinct) {c : CellId}
    (hc : ∀ key, s.snapshot.find? key ≠ some c) : (s.opened order).slot c = s.slot c := by
  unfold opened
  split
  · rfl
  · refine slot_copied_of_not_mem _ _ _ (fun e he hec => ?_) s.walked
    exact hc e.1 (hec ▸ hkeys.find?_of_mem ((order.perm _ _).mem_iff.1 he))

end Shared

end ConcurrentMap
