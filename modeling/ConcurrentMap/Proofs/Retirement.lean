import ConcurrentMap.Proofs.Misses
import ConcurrentMap.Proofs.Solo.Copies

/-!
# Cells that no table leads to any more

A cell is retired when neither table leads to it. Whoever still knows it, such as a traversal that
has fixed what it visits, finds in it for ever what it held then (`Shared.Retires.retired`).

There are two ways for the cell of a snapshot's key to get there. A promotion retires the tombstoned
cells, which hold nothing (`Operation.retires`). Clearing the map retires all cells with what they
hold (`Operation.retires_clear`), and so it is the only operation by which a cell loses its key
while it holds a value.
-/

namespace ConcurrentMap

variable {K V : Type} [BEq K]

namespace Shared

/-- No table leads to the cell. -/
structure Retired (s : Shared K V) (c : CellId) : Prop where
  made : c < s.cells.size
  snapshot : ∀ key, s.snapshot.find? key ≠ some c
  staging : ∀ key, s.staging.find? key ≠ some c

/-- What an operation that does not clear the map does to the cells of the snapshot and to those
that no table leads to. -/
structure Retires (s s' : Shared K V) : Prop where
  /-- Retired cells stay as they are. -/
  retired : ∀ c, s.Retired c → s'.Retired c ∧ s'.slot c = s.slot c
  /-- The snapshot still leads to its cells, apart from tombstoned ones. -/
  served : ∀ key c, s.snapshot.find? key = some c → s'.snapshot.find? key = some c ∨
    s'.Retired c ∧ s'.slot c = s.slot c ∧ s.tombstoned c = true

variable {s s' : Shared K V} {key : K} {c d : CellId}

/-- The snapshot stays, and what is staged was known before or is new. -/
theorem Retires.of_snapshot (hsize : s.cells.size ≤ s'.cells.size)
    (hsnap : ∀ key, s'.snapshot.find? key = s.snapshot.find? key)
    (hstaging : ∀ key c, s'.staging.find? key = some c →
      s.staging.find? key = some c ∨ s.snapshot.find? key = some c ∨ s.cells.size ≤ c)
    (hslot : ∀ c, s.Retired c → s'.slot c = s.slot c) : s.Retires s' where
  retired c hc := by
    refine ⟨⟨Nat.lt_of_lt_of_le hc.made hsize, fun key => hsnap key ▸ hc.snapshot key,
      fun key hkey => ?_⟩, hslot c hc⟩
    rcases hstaging key c hkey with h | h | h
    · exact hc.staging key h
    · exact hc.snapshot key h
    · exact absurd hc.made (Nat.not_lt.2 h)
  served key c hc := .inl ((hsnap key).trans hc)

/-- Nothing happens to the cells of a state that stays as it is. -/
theorem Retires.refl (s : Shared K V) : s.Retires s :=
  ⟨fun _ hc => ⟨hc, rfl⟩, fun _ _ hc => .inl hc⟩

/-- A change of the cells that tables lead to, and then a change of the structure. -/
theorem Retires.after {s₁ : Shared K V} (h₁ : s.Retires s₁) (hsnap : s₁.snapshot = s.snapshot)
    (htomb : ∀ c, s₁.tombstoned c = s.tombstoned c)
    (hslot : ∀ c, s.tombstoned c = true → s₁.slot c = s.slot c) (h₂ : s₁.Retires s') :
    s.Retires s' where
  retired c hc := by
    obtain ⟨hc₁, hslot₁⟩ := h₁.retired c hc
    obtain ⟨hc', hslot'⟩ := h₂.retired c hc₁
    exact ⟨hc', hslot'.trans hslot₁⟩
  served key c hc := by
    refine (h₂.served key c (hsnap ▸ hc)).imp id fun ⟨hc', hslot', htomb'⟩ => ?_
    rw [htomb] at htomb'
    exact ⟨hc', hslot'.trans (hslot c htomb'), htomb'⟩

/-- A promotion retires the tombstoned cells and no others. -/
theorem retires_promoted [EquivBEq K] (h : Tidy .rest s) (ham : s.snapshot.amended = true)
    (hcells : s'.cells = s.cells) (hsnap : s'.snapshot = .ofTable (s.staging.table.getD .empty))
    (hstaging : s'.staging = .empty) : s.Retires s' := by
  have hst := h.phase.1.symm.trans ham
  have hfind : ∀ key, s'.snapshot.find? key = s.staging.find? key := fun key => by
    rw [hsnap]
    cases htable : s.staging.table with
    | none => simp [htable] at hst
    | some table => simp [Staging.find?, htable]
  have hnone : ∀ key c, s'.staging.find? key ≠ some c := fun key c => by
    simp [hstaging, Staging.empty, Staging.find?]
  have hslot : ∀ c, s'.slot c = s.slot c := fun c => by rw [slot, slot, hcells]
  have hsize : s'.cells.size = s.cells.size := by rw [hcells]
  refine ⟨fun c hc => ⟨⟨hsize ▸ hc.made, fun key => hfind key ▸ hc.staging key,
    fun key => hnone key c⟩, hslot c⟩, fun key c hc => ?_⟩
  have hcover := h.phase.2.2 hst key c hc
  cases htomb : s.tombstoned c with
  | false =>
      rw [htomb, if_neg Bool.false_ne_true] at hcover
      exact .inl ((hfind key).trans hcover)
  | true =>
      rw [htomb, if_pos rfl] at hcover
      refine .inr ⟨⟨hsize ▸ h.bounded key c hc, fun other hother => ?_, fun key => hnone key c⟩,
        hslot c, rfl⟩
      -- a staged key that leads to the cell would be this one
      rw [hfind] at hother
      have hsame := h.oneKey other key c (.inr hother) (.inl hc)
      rw [s.staging.find?_congr hsame, hcover] at hother
      simp at hother

/-- Counting a miss retires the tombstoned cells at most. -/
theorem retires_missed [EquivBEq K] (h : Tidy .rest s) (ham : s.snapshot.amended = true) :
    s.Retires s.missed := by
  unfold missed
  dsimp only
  split
  · exact retires_promoted h ham rfl rfl rfl
  · exact .of_snapshot (Nat.le_refl _) (fun _ => rfl) (fun _ _ hc => .inl hc) fun _ _ => rfl

/-- Completing the snapshot retires the tombstoned cells at most. -/
theorem retires_completed [EquivBEq K] (h : Tidy .rest s) : s.Retires s.completed.walked := by
  unfold completed
  split
  · next ham => exact retires_promoted h ham rfl rfl rfl
  · exact .of_snapshot (Nat.le_refl _) (fun _ => rfl) (fun _ _ hc => .inl hc) fun _ _ => rfl

/-- The cell of a snapshot's key is written, and staged again if it was tombstoned. -/
theorem retires_rewritten [EquivBEq K] (hd : s.snapshot.find? key = some d)
    (held : Option (Handle V)) : s.Retires (s.rewritten key d held) := by
  -- A retired cell is not the one that is written.
  have hne : ∀ c, s.Retired c → d ≠ c := fun c hc hdc => hc.snapshot key (hdc ▸ hd)
  have hserve : s.Retires (s.serve d held) :=
    .of_snapshot (Nat.le_of_eq (size_serve _ _ _).symm)
      (fun _ => by rw [(steady_serve s d held).snapshot])
      (fun _ _ hc => .inl (by rwa [(steady_serve s d held).staging] at hc))
      fun c hc => slot_serve_ne (hne c hc) held
  cases held with
  | none => exact hserve
  | some new =>
      cases htomb : s.tombstoned d with
      | false => rwa [rewritten_of_live htomb]
      | true =>
          rw [rewritten, readmitted, if_pos htomb]
          refine .of_snapshot ?_ (fun _ => rfl) (fun other c hc => ?_) fun c hc => ?_
          · exact Nat.le_of_eq ((size_setSlot _ _ _).trans (size_setSlot _ _ _)).symm
          -- The key is staged with the cell that the snapshot has for it.
          · have hstaged : (if key == other then some d else s.staging.find? other) = some c := by
              rw [← hc]
              exact (Staging.find?_insert s.staging key other d s.staging.misses).symm
            split at hstaged
            · next hkey => exact .inr (.inl ((s.snapshot.find?_congr hkey).symm.trans
                (hd.trans hstaged)))
            · exact .inl hstaged
          · exact (slot_setSlot_ne (hne c hc) _).trans (slot_setSlot_ne (hne c hc) _)

/-- A new key is staged with a new cell, in a table that may have to be built. -/
theorem retires_inserted [EquivBEq K] (h : Tidy .rest s) (order : Enumeration K) (key : K)
    (new : Handle V) : s.Retires (s.inserted order key new) := by
  have hsnap : ∀ other, (s.opened order).snapshot.find? other = s.snapshot.find? other := by
    unfold opened
    split <;> exact fun _ => rfl
  have hopened : ∀ other c, (s.opened order).staging.find? other = some c →
      s.staging.find? other = some c ∨ s.snapshot.find? other = some c := fun other c hc => by
    unfold opened at hc
    split at hc
    · exact .inl hc
    · rw [staging_rebuilt] at hc
      exact .inr (find?_copying s order h.keys hc)
  refine .of_snapshot ?_ hsnap (fun other c hc => ?_) fun c hc => ?_
  · show s.cells.size ≤ ((s.opened order).cells.push new.slot).size
    rw [Array.size_push, size_opened]
    exact Nat.le_succ _
  -- The new key is staged with the new cell, and the others with what was staged or copied.
  · rw [staging_inserted, Staging.find?_insert] at hc
    split at hc
    · exact .inr (.inr (Nat.le_of_eq ((size_opened s order).symm.trans (Option.some.inj hc))))
    · exact (hopened other c hc).imp id .inl
  · have hlt : c < (s.opened order).cells.size := by
      rw [size_opened]
      exact hc.made
    exact (slot_addCell_of_lt hlt _).trans (slot_opened s order h.keys hc.snapshot)

end Shared

/-! ## Operations -/

open Shared

variable {order : Enumeration K} {s : Shared K V}

namespace Request

variable {r : Request K V} {key : K}

/-- Drawing a stamp changes no cell. -/
theorem retires_drawn {s' : Shared K V} (h : (s.drawn r).Retires s') : s.Retires s' := by
  have hdrawn := steady_drawn s r
  have hretires : s.Retires (s.drawn r) := by
    refine .of_snapshot ?_ (fun _ => by rw [hdrawn.snapshot])
      (fun _ _ hc => .inl (hdrawn.staging ▸ hc)) fun c _ => slot_drawn s r c
    unfold drawn
    split <;> exact Nat.le_refl _
  exact hretires.after hdrawn.snapshot (tombstoned_drawn s r) (fun c _ => slot_drawn s r c) h

/-- The cell of a staged key is written. -/
theorem retires_serve (key : K) {d : CellId} (hd : s.staging.find? key = some d)
    (held : Option (Handle V)) : s.Retires (s.serve d held) := by
  have hserved := steady_serve s d held
  refine .of_snapshot (Nat.le_of_eq (size_serve _ _ _).symm) (fun _ => by rw [hserved.snapshot])
    (fun _ _ hc => .inl (hserved.staging ▸ hc)) fun c hc => ?_
  exact slot_serve_ne (fun hdc : d = c => hc.staging key (hdc ▸ hd)) held

/-- Charging a miss retires the tombstoned cells at most. -/
theorem retires_charged [EquivBEq K] (h : Tidy .rest s) (r : Request K V) (staged : Bool) :
    s.Retires (s.charged r staged) := by
  unfold charged
  split
  · next ham => exact retires_missed h (Bool.and_eq_true_iff.1 ham).1
  · exact .refl s

/-- The staged table keeps the cells of the other keys. -/
theorem find?_of_erased [EquivBEq K] {other : K} {c : CellId}
    (hc : (s.erased key).staging.find? other = some c) : s.staging.find? other = some c := by
  rw [erased, setStaged, Staging.find?_erase] at hc
  split at hc
  · simp at hc
  · exact hc

/-- A deleted key leaves the staged table. -/
theorem retires_erased [EquivBEq K] (s : Shared K V) (key : K) : s.Retires (s.erased key) :=
  .of_snapshot (Nat.le_refl _) (fun _ => rfl) (fun _ _ hc => .inl (find?_of_erased hc))
    fun _ _ => rfl

/-- It leaves the staged table, and its cell is written. -/
theorem retires_erased_serve [EquivBEq K] {d : CellId} (hstaged : s.staging.find? key = some d)
    (held : Option (Handle V)) : s.Retires ((s.erased key).serve d held) := by
  have hserved := steady_serve (s.erased key) d held
  refine .of_snapshot (Nat.le_of_eq (size_serve (s.erased key) _ _).symm)
    (fun _ => by rw [hserved.snapshot]; rfl) (fun other c hc => .inl ?_) fun c hc => ?_
  · rw [hserved.staging] at hc
    exact find?_of_erased hc
  · exact slot_serve_ne (s := s.erased key) (fun hdc : d = c => hc.staging key (hdc ▸ hstaged)) held

/-- The cell of a staged key is written, and the miss is counted. -/
theorem retires_serve_charged [EquivBEq K] (h : Tidy .rest s) {d : CellId}
    (hstaged : s.staging.find? key = some d) (held : Option (Handle V)) :
    s.Retires (((s.drawn r).serve d held).charged r true) := by
  have hdrawn := steady_drawn s r
  have hserved := hdrawn.trans (steady_serve (s.drawn r) d held)
  have hlive := h.stagedLive key d hstaged
  have htomb : ∀ c, ((s.drawn r).serve d held).tombstoned c = s.tombstoned c := fun c => by
    rw [tombstoned_serve (by rw [tombstoned_drawn, hlive]), tombstoned_drawn]
  have htidy : Tidy .rest ((s.drawn r).serve d held) := by
    refine (h.drawn r).congr (hserved.snapshot.trans hdrawn.snapshot.symm)
      (hserved.staging.trans hdrawn.staging.symm)
      (Nat.le_of_eq (size_serve _ _ _).symm) fun c _ => ?_
    rw [htomb, tombstoned_drawn]
  refine Retires.after (retires_drawn (r := r) (retires_serve key ?_ held))
    hserved.snapshot htomb (fun c hc => ?_) (retires_charged htidy r true)
  · rw [hdrawn.staging, hstaged]
  · -- a tombstoned cell is not staged
    have hne : d ≠ c := fun hdc => by simp [hdc ▸ hlive] at hc
    rw [slot_serve_ne hne, slot_drawn]

/-- Whatever a request settles on one key, it retires the tombstoned cells at most. -/
theorem retires_settle [EquivBEq K] (h : Tidy .rest s) (r : Request K V) (key : K)
    (held : Option (Handle V)) : s.Retires (r.settle order s key held) := by
  -- A request that deletes charges no miss.
  have hremoved : ∀ {s' : Shared K V} {staged : Bool}, r.removes?.isSome = true →
      s'.charged r staged = s' := fun hremoves => by
    simp [charged, misses_of_removes? hremoves]
  cases hsnap : s.snapshot.find? key with
  | some c =>
      rw [settle_of_snapshot hsnap]
      refine retires_drawn (r := r) (retires_rewritten ?_ held)
      rw [(steady_drawn s r).snapshot, hsnap]
  | none =>
      cases hstaged : s.staging.find? key with
      | some d =>
          rw [settle_of_staged hsnap hstaged]
          by_cases hremoves : r.removes?.isSome = true
          · rw [if_pos hremoves, hremoved hremoves]
            exact retires_erased_serve hstaged held
          · rw [if_neg hremoves]
            exact retires_serve_charged h hstaged held
      | none =>
          cases held with
          | some new =>
              rw [settle_of_new hsnap hstaged]
              exact retires_drawn (r := r) (retires_inserted (h.drawn r) order key new)
          | none =>
              rw [settle_of_missing hsnap hstaged]
              by_cases hremoves : r.removes?.isSome = true
              · rw [if_pos hremoves, hremoved hremoves]
                exact retires_erased s key
              · rw [if_neg hremoves]
                exact retires_drawn (r := r) (retires_charged (h.drawn r) r false)

end Request

/-- An operation that does not clear the map retires tombstoned cells only. -/
theorem Operation.retires [EquivBEq K] [BEq V] (order : Enumeration K) (h : Tidy .rest s)
    (o : Operation K V) (hclear : ∀ s', Passage.clears ⟨o, s, s'⟩ = false) :
    s.Retires (o.solo order s).2 := by
  cases o with
  | request r =>
      cases hkey : r.key? with
      | none =>
          obtain rfl := Request.eq_clear_of_key? hkey
          exact absurd (hclear s) (by simp [Passage.clears])
      | some key =>
          rw [solo, Request.solo_of_key hkey]
          exact Request.retires_settle h r key _
  | depart => exact retires_completed h
  | reach c => exact .refl s

/-- Clearing the map retires all cells with what they hold. -/
theorem Operation.retires_clear [BEq V] (order : Enumeration K) (h : Tidy .rest s) {c : CellId}
    (hc : s.Retired c ∨ ∃ key, s.snapshot.find? key = some c) :
    ((Operation.request .clear : Operation K V).solo order s).2.Retired c ∧
      ((Operation.request .clear : Operation K V).solo order s).2.slot c = s.slot c := by
  have hsolo : ((Operation.request (.clear : Request K V)).solo order s).2 = s.cleared := rfl
  rw [hsolo, cleared]
  have hmade : c < s.cells.size := by
    rcases hc with hc | ⟨key, hkey⟩
    · exact hc.made
    · exact h.bounded key c hkey
  split
  · exact ⟨⟨hmade, fun key => by simp, fun key => by simp [Staging.empty, Staging.find?]⟩, rfl⟩
  · next hblank =>
    rcases hc with hc | ⟨key, hkey⟩
    · exact ⟨hc, rfl⟩
    · rw [Snapshot.eq_empty hblank] at hkey
      simp at hkey

end ConcurrentMap
