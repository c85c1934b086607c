import ConcurrentMap.Proofs.Lookup

/-!
# How the two tables fit together

`Tidy` is the representation invariant. It holds after every single action, so it has to say what
the holder of the mutex is in the middle of: a `Phase` names the change of structure that is under
way, `Phase.Holds` what is true meanwhile, and `Phase.rest` is the phase in which the mutex may be
free.

There is one lemma for each action that changes the structure, which leads from a phase to the next
one, and beside it one that says which cell serves a key afterwards. `Tidy.congr` covers all actions
that change neither the tables nor which cells are tombstoned.
-/

namespace ConcurrentMap

variable {K V : Type}

/-- The change of structure that the holder of the mutex is in the middle of. -/
inductive Phase (K : Type) where
  /-- None. -/
  | rest
  /-- The tombstone of `cell`, which serves `key`, was lifted, and the cell is not staged yet. -/
  | reviving (key : K) (cell : CellId)
  /-- The entries of the snapshot are copied into `copies`; those in `left` are still to come. -/
  | copying (copies : Table K) (left : List (K × CellId))
  /-- The copies are staged, but the snapshot does not announce them yet. -/
  | copied
  /-- The staged table has become the snapshot, and is not dropped yet. -/
  | promoted
  /-- The snapshot was emptied, and the staged table is not dropped yet. -/
  | cleared

variable [BEq K]

/-- What is true while the entries of the snapshot are copied. -/
structure Copying (copies : Table K) (left : List (K × CellId)) (s : Shared K V) : Prop where
  complete : s.snapshot.amended = false
  unstaged : s.staging = .empty
  keys : copies.KeysDistinct
  leftKeys : left.Pairwise fun a b => (a.1 == b.1) = false
  leftLive : ∀ e ∈ left, s.snapshot.find? e.1 = some e.2 ∧ s.tombstoned e.2 = false
  source : ∀ key c, copies.find? key = some c → s.snapshot.find? key = some c ∧
    s.tombstoned c = false ∧ ∀ e ∈ left, (e.1 == key) = false
  done : ∀ key c, s.snapshot.find? key = some c → (∃ e ∈ left, (e.1 == key) = true) ∨
    copies.find? key = if s.tombstoned c then none else some c

/-- The staged table has the entries of the snapshot, less those whose cell is tombstoned. -/
def Shared.Covered (s : Shared K V) : Prop :=
  ∀ key c, s.snapshot.find? key = some c →
    s.staging.find? key = if s.tombstoned c then none else some c

/-- What is true in the middle of a change. -/
def Phase.Holds (s : Shared K V) : Phase K → Prop
  | rest => s.snapshot.amended = s.staging.table.isSome ∧
      (s.staging.table = none →
        s.staging.misses = 0 ∧ ∀ key c, s.snapshot.find? key = some c → s.tombstoned c = false) ∧
      (s.staging.table.isSome → s.Covered)
  | reviving key cell => s.snapshot.amended = true ∧ s.staging.table.isSome ∧
      s.snapshot.find? key = some cell ∧ s.tombstoned cell = false ∧
      s.staging.find? key = none ∧
      ∀ other c, s.snapshot.find? other = some c → c ≠ cell →
        s.staging.find? other = if s.tombstoned c then none else some c
  | copying copies left => Copying copies left s
  | copied => s.snapshot.amended = false ∧ s.staging.table.isSome ∧ s.Covered ∧
      ∀ key, s.snapshot.find? key = none → s.staging.find? key = none
  | promoted => s.snapshot.amended = false ∧
      s.staging.table = some s.snapshot.table
  | cleared => s.snapshot = .empty

/-- The representation invariant, in the middle of any change. -/
structure Tidy (phase : Phase K) (s : Shared K V) : Prop where
  keys : s.snapshot.table.KeysDistinct
  stagedKeys : ∀ t, s.staging.table = some t → t.KeysDistinct
  bounded : ∀ key c, s.snapshot.find? key = some c → c < s.cells.size
  stagedBounded : ∀ key c, s.staging.find? key = some c → c < s.cells.size
  stagedLive : ∀ key c, s.staging.find? key = some c → s.tombstoned c = false
  oneKey : ∀ a b c, s.snapshot.find? a = some c ∨ s.staging.find? a = some c →
    s.snapshot.find? b = some c ∨ s.staging.find? b = some c → (a == b) = true
  phase : phase.Holds s

namespace Tidy

variable {phase : Phase K} {s s' : Shared K V} {key : K} {c : CellId}

/-- A map that was never written is tidy. -/
theorem initial : Tidy .rest (Shared.initial : Shared K V) where
  keys := Table.keysDistinct_empty
  stagedKeys t h := by simp [Shared.initial, Staging.empty] at h
  bounded key c h := by simp [Shared.initial] at h
  stagedBounded key c h := by simp [Shared.initial, Staging.empty, Staging.find?] at h
  stagedLive key c h := by simp [Shared.initial, Staging.empty, Staging.find?] at h
  oneKey a b c h _ := by simp [Shared.initial, Staging.empty, Staging.find?] at h
  phase := ⟨rfl, fun _ => ⟨rfl, fun key c h => by simp [Shared.initial] at h⟩,
    fun h => by simp [Shared.initial, Staging.empty] at h⟩

/-- Only an amended snapshot leads to tombstones. -/
theorem amended_of_tombstoned (h : Tidy .rest s) {key : K} {c : CellId}
    (hc : s.snapshot.find? key = some c) (htomb : s.tombstoned c = true) :
    s.snapshot.amended = true ∧ s.staging.table.isSome = true := by
  obtain ⟨hflag, hnone, -⟩ := h.phase
  have hst : s.staging.table.isSome = true := by
    cases hg : s.staging.table with
    | none => simp [(hnone hg).2 key c hc] at htomb
    | some t => rfl
  exact ⟨hflag.trans hst, hst⟩

/-- Beside a snapshot that nothing amends, the staging area is empty already. -/
theorem staging_eq_empty (h : Tidy .rest s) (ham : s.snapshot.amended = false) :
    s.staging = .empty := by
  obtain ⟨hflag, hnone, -⟩ := h.phase
  have hst : s.staging.table = none := by
    cases hg : s.staging.table with
    | none => rfl
    | some t => simp [ham, hg] at hflag
  obtain ⟨hmisses, -⟩ := hnone hst
  obtain ⟨snapshot, ⟨table, misses⟩⟩ := s
  simp only at hst hmisses
  simp [hst, hmisses, Staging.empty]

/-- At rest a staged key is served by the cell that it is staged with. -/
theorem find?_of_staged (h : Tidy .rest s) {key : K} {c : CellId}
    (hc : s.staging.find? key = some c) : s.find? key = some c := by
  obtain ⟨hflag, -, hsome⟩ := h.phase
  have hst := Staging.isSome_of_find? hc
  cases hs : s.snapshot.find? key with
  | none => rw [Shared.find?_of_staging hs (hflag.trans hst), hc]
  | some d =>
      have hcov := hsome hst key d hs
      rw [hc] at hcov
      split at hcov
      · simp at hcov
      · rw [Shared.find?_of_snapshot hs, hcov]

/-! ## Actions that leave the structure alone -/

/-- What is true in the middle of a change depends on the tables, the misses and the tombstones
alone. -/
theorem holds_congr (h : Tidy phase s) (hsnap : s'.snapshot = s.snapshot)
    (hstag : s'.staging = s.staging)
    (htomb : ∀ key c, s.snapshot.find? key = some c → s'.tombstoned c = s.tombstoned c) :
    phase.Holds s' := by
  have hp := h.phase
  cases phase with
  | rest =>
      obtain ⟨ham, hnone, hsome⟩ := hp
      simp only [Phase.Holds, Shared.Covered, hsnap, hstag] at *
      refine ⟨ham, fun hn => ⟨(hnone hn).1, fun key c hc => ?_⟩, fun hs key c hc => ?_⟩
      · rw [htomb key c hc, (hnone hn).2 key c hc]
      · rw [htomb key c hc, hsome hs key c hc]
  | reviving key cell =>
      obtain ⟨ham, hst, hfind, hlive, hmiss, hrest⟩ := hp
      simp only [Phase.Holds, hsnap, hstag] at *
      refine ⟨ham, hst, hfind, (htomb key cell hfind).trans hlive, hmiss, fun other c hc hne => ?_⟩
      rw [htomb other c hc, hrest other c hc hne]
  | copying copies left =>
      have hp : Copying copies left s := hp
      refine (⟨hsnap ▸ hp.complete, hstag ▸ hp.unstaged, hp.keys, hp.leftKeys, ?_, ?_, ?_⟩ :
        Copying copies left s')
      · intro e he
        obtain ⟨hfind, hlive⟩ := hp.leftLive e he
        exact ⟨hsnap ▸ hfind, (htomb _ _ hfind).trans hlive⟩
      · intro key c hc
        obtain ⟨hfind, hlive, hout⟩ := hp.source key c hc
        exact ⟨hsnap ▸ hfind, (htomb _ _ hfind).trans hlive, hout⟩
      · intro key c hc
        rw [hsnap] at hc
        rw [htomb key c hc]
        exact hp.done key c hc
  | copied =>
      obtain ⟨ham, hst, hcopy, hmiss⟩ := hp
      simp only [Phase.Holds, Shared.Covered, hsnap, hstag] at *
      refine ⟨ham, hst, fun key c hc => ?_, hmiss⟩
      rw [htomb key c hc, hcopy key c hc]
  | promoted =>
      simp only [Phase.Holds, hsnap, hstag] at *
      exact hp
  | cleared => exact hsnap.trans hp

/-- The invariant depends on the tables, the misses and the tombstones alone. -/
theorem congr (h : Tidy phase s) (hsnap : s'.snapshot = s.snapshot)
    (hstag : s'.staging = s.staging) (hsize : s.cells.size ≤ s'.cells.size)
    (htomb : ∀ c < s.cells.size, s'.tombstoned c = s.tombstoned c) : Tidy phase s' where
  keys := hsnap ▸ h.keys
  stagedKeys := hstag ▸ h.stagedKeys
  bounded key c hc := by
    rw [hsnap] at hc
    exact Nat.lt_of_lt_of_le (h.bounded key c hc) hsize
  stagedBounded key c hc := by
    rw [hstag] at hc
    exact Nat.lt_of_lt_of_le (h.stagedBounded key c hc) hsize
  stagedLive key c hc := by
    rw [hstag] at hc
    rw [htomb c (h.stagedBounded key c hc), h.stagedLive key c hc]
  oneKey := by
    rw [hsnap, hstag]
    exact h.oneKey
  -- the phases mention tombstones only of cells that the snapshot leads to
  phase := h.holds_congr hsnap hstag fun key c hc => htomb c (h.bounded key c hc)

/-- A new cell, to which nothing leads, makes no difference. -/
theorem addCell (h : Tidy phase s) (new : Slot V) : Tidy phase (s.addCell new).2 := by
  refine h.congr rfl rfl (by simp [Shared.addCell]) fun c hc => ?_
  rw [Shared.tombstoned, Shared.slot_addCell_of_lt hc]
  rfl

/-! ## Promotion and reset -/

/-- Misses are counted while a table is staged. -/
theorem setMisses (h : Tidy .rest s) (hst : s.staging.table.isSome = true) (n : Nat) :
    Tidy .rest (s.setMisses n) := by
  obtain ⟨ham, -, hsome⟩ := h.phase
  refine { h with phase := ⟨ham, fun hn => ?_, hsome⟩ }
  change s.staging.table = none at hn
  simp [hn] at hst

/-- The staged table becomes the snapshot. -/
theorem promote (h : Tidy .rest s) {t : Table K} (ht : s.staging.table = some t) :
    Tidy .promoted (s.publish (.ofTable t)) := by
  have hfind : ∀ key, s.staging.find? key = t.find? key := fun key => by simp [Staging.find?, ht]
  -- what the new snapshot leads to, the staged table led to before
  have hsource : ∀ key c, t.find? key = some c ∨ s.staging.find? key = some c →
      s.staging.find? key = some c := fun key c hc => hc.elim (fun hc => (hfind key).trans hc) id
  refine
    { keys := h.stagedKeys t ht, stagedKeys := h.stagedKeys, bounded := ?_
      stagedBounded := h.stagedBounded, stagedLive := h.stagedLive, oneKey := ?_
      phase := ⟨rfl, ht⟩ }
  · exact fun key c hc => h.stagedBounded key c ((hfind key).trans hc)
  · exact fun a b c ha hb =>
      h.oneKey a b c (.inr (hsource a c ha)) (.inr (hsource b c hb))

/-- A promotion drops the keys whose cell is tombstoned, and no others. -/
theorem find?_promote (h : Tidy .rest s) {t : Table K} (ht : s.staging.table = some t) (query : K) :
    (s.publish (.ofTable t)).find? query =
      (s.find? query).bind fun c => if s.tombstoned c then none else some c := by
  obtain ⟨hflag, -, hsome⟩ := h.phase
  have hst : s.staging.table.isSome = true := by rw [ht]; rfl
  have hfind : t.find? query = s.staging.find? query := by simp [Staging.find?, ht]
  -- the staged table leads where it led, now as the snapshot
  have hnew : (s.publish (.ofTable t)).find? query = t.find? query := by
    simp only [Shared.find?, Shared.publish, Snapshot.find?_ofTable, Snapshot.amended_ofTable]
    split
    · next c hc => exact hc.symm
    · next hc => simp [hc]
  rw [hnew, hfind]
  cases hs : s.snapshot.find? query with
  | some c =>
      -- a key of the old snapshot is staged unless its cell is tombstoned
      rw [Shared.find?_of_snapshot hs, hsome hst query c hs]
      rfl
  | none =>
      -- a key that only the staged table has is never tombstoned
      rw [Shared.find?_of_staging hs (hflag.trans hst)]
      cases hc : s.staging.find? query with
      | none => rfl
      | some c => simp [h.stagedLive query c hc]

/-- To clear the map, the empty snapshot is published first. -/
theorem reset (h : Tidy .rest s) : Tidy .cleared (s.publish .empty) :=
  ⟨Table.keysDistinct_empty, h.stagedKeys, fun key c hc => by simp [Shared.publish] at hc,
    h.stagedBounded, h.stagedLive, fun a b c ha hb => by
      simp only [Shared.publish, Snapshot.find?_empty, reduceCtorEq, false_or] at ha hb
      exact h.oneKey a b c (.inr ha) (.inr hb), rfl⟩

/-- A complete snapshot without tombstones needs no staged table. -/
private theorem drop (h : Tidy phase s) (ham : s.snapshot.amended = false)
    (hlive : ∀ key c, s.snapshot.find? key = some c → s.tombstoned c = false) :
    Tidy .rest { s with staging := .empty } :=
  ⟨h.keys, fun t ht => by simp [Staging.empty] at ht, h.bounded,
    fun key c hc => by simp [Staging.empty, Staging.find?] at hc,
    fun key c hc => by simp [Staging.empty, Staging.find?] at hc,
    fun a b c ha hb => by
      simp only [Staging.empty, Staging.find?, Option.bind_none, reduceCtorEq, or_false] at ha hb
      exact h.oneKey a b c (.inl ha) (.inl hb),
    ham, fun _ => ⟨rfl, hlive⟩, fun hs => by simp [Staging.empty] at hs⟩

/-- After a promotion, what was staged is dropped. -/
theorem dropPromoted (h : Tidy .promoted s) : Tidy .rest { s with staging := .empty } := by
  obtain ⟨ham, ht⟩ := h.phase
  exact h.drop ham fun key c hc => h.stagedLive key c (by rw [Staging.find?, ht]; exact hc)

/-- After the snapshot was emptied, what was staged is dropped. -/
theorem dropCleared (h : Tidy .cleared s) : Tidy .rest { s with staging := .empty } := by
  have hs : s.snapshot = .empty := h.phase
  exact h.drop (by rw [hs]; rfl) fun key c hc => by simp [hs] at hc

/-- Beside a complete snapshot, what is staged serves no key. -/
theorem find?_drop (ham : s.snapshot.amended = false) (query : K) :
    ({ s with staging := .empty } : Shared K V).find? query = s.find? query := by
  simp [Shared.find?, ham]

/-! ## Deleting a key that only the staged table has -/

variable [EquivBEq K]

/-- Nothing is in the way of erasing a staged key that the snapshot lacks. -/
theorem unstage (h : Tidy .rest s) {key : K} (hk : s.snapshot.find? key = none) :
    Tidy .rest (s.setStaged (s.staging.table.map (·.erase key))) := by
  -- what is left after the erasure was staged before
  have hfind : ∀ query c, (if key == query then none else s.staging.find? query) = some c →
      s.staging.find? query = some c := by
    intro query c hc
    split at hc
    · simp at hc
    · exact hc
  obtain ⟨ham, hnone, hsome⟩ := h.phase
  refine
    { keys := h.keys, stagedKeys := ?_, bounded := h.bounded, stagedBounded := ?_
      stagedLive := ?_, oneKey := ?_, phase := ⟨?_, ?_, ?_⟩ }
  · intro t ht
    obtain ⟨u, hu, rfl⟩ := Option.map_eq_some_iff.1 ht
    exact (h.stagedKeys u hu).erase key
  · intro query c hc
    rw [Shared.setStaged, Staging.find?_erase] at hc
    exact h.stagedBounded query c (hfind query c hc)
  · intro query c hc
    rw [Shared.setStaged, Staging.find?_erase] at hc
    exact h.stagedLive query c (hfind query c hc)
  · intro a b c ha hb
    simp only [Shared.setStaged, Staging.find?_erase] at ha hb
    exact h.oneKey a b c (ha.imp_right (hfind a c)) (hb.imp_right (hfind b c))
  · simpa [Shared.setStaged] using ham
  · intro hn
    exact hnone (by simpa [Shared.setStaged] using hn)
  · intro hs query c hc
    have hstaged := hsome (by simpa [Shared.setStaged] using hs) query c hc
    rw [Shared.setStaged, Staging.find?_erase, if_neg]
    · exact hstaged
    -- the erased key is none of the snapshot, so the entries of that are staged as before
    · intro hq
      rw [s.snapshot.find?_congr hq] at hk
      simp [Shared.setStaged, hk] at hc

/-- The erased key is served no more, and all others are served as before. -/
theorem find?_unstage {key : K} (hk : s.snapshot.find? key = none) (query : K) :
    (s.setStaged (s.staging.table.map (·.erase key))).find? query =
      if key == query then none else s.find? query := by
  simp only [Shared.find?, Shared.setStaged, Staging.find?_erase]
  split
  · next hs =>
    split
    · next hq =>
      rw [s.snapshot.find?_congr hq] at hk
      simp [hk] at hs
    · rfl
  · split <;> split <;> rfl

/-! ## Staging a new key -/

omit [EquivBEq K] in
/-- Staging a key makes no second entry of it. -/
theorem stagedKeys_insert (h : Tidy phase s) (key : K) (c : CellId) (t : Table K)
    (ht : some ((s.staging.table.getD .empty).insert key c) = some t) : t.KeysDistinct := by
  obtain rfl := Option.some.inj ht
  cases hu : s.staging.table with
  | none => exact Table.keysDistinct_empty.insert key c
  | some u => exact (h.stagedKeys u hu).insert key c

/-- Once the snapshot is amended, a new cell may be staged for a key that neither table has. -/
theorem stageNew (h : Tidy .rest s) (ham : s.snapshot.amended = true) {key : K} {c : CellId}
    (hsnap : s.snapshot.find? key = none) (hlt : c < s.cells.size)
    (hnew : ∀ query, s.snapshot.find? query ≠ some c ∧ s.staging.find? query ≠ some c)
    (hlive : s.tombstoned c = false) :
    Tidy .rest (s.setStaged (some ((s.staging.table.getD .empty).insert key c))) := by
  obtain ⟨hflag, hnone, hsome⟩ := h.phase
  have hst : s.staging.table.isSome = true := hflag ▸ ham
  refine
    { keys := h.keys, stagedKeys := h.stagedKeys_insert key c, bounded := h.bounded
      stagedBounded := ?_, stagedLive := ?_, oneKey := ?_, phase := ⟨?_, ?_, ?_⟩ }
  · intro query d hd
    rw [Shared.setStaged, Staging.find?_insert] at hd
    split at hd
    · exact Option.some.inj hd ▸ hlt
    · exact h.stagedBounded query d hd
  · intro query d hd
    rw [Shared.setStaged, Staging.find?_insert] at hd
    split at hd
    · exact Option.some.inj hd ▸ hlive
    · exact h.stagedLive query d hd
  · -- the new cell has no other key, and the other cells have theirs as before
    have hkey : ∀ query d, (s.snapshot.find? query = some d ∨
        (if key == query then some c else s.staging.find? query) = some d) →
        (d = c ∧ (key == query) = true) ∨
          (d ≠ c ∧ (s.snapshot.find? query = some d ∨ s.staging.find? query = some d)) := by
      intro query d hd
      rcases hd with hd | hd
      · exact .inr ⟨fun heq => (hnew query).1 (heq ▸ hd), .inl hd⟩
      · split at hd
        · next hq => exact .inl ⟨(Option.some.inj hd).symm, hq⟩
        · exact .inr ⟨fun heq => (hnew query).2 (heq ▸ hd), .inr hd⟩
    intro a b d ha hb
    simp only [Shared.setStaged, Staging.find?_insert] at ha hb
    rcases hkey a d ha with ⟨heq, hka⟩ | ⟨hne, hka⟩
    · rcases hkey b d hb with ⟨-, hkb⟩ | ⟨hne, -⟩
      · exact PartialEquivBEq.trans (BEq.symm hka) hkb
      · exact absurd heq hne
    · rcases hkey b d hb with ⟨heq, -⟩ | ⟨-, hkb⟩
      · exact absurd heq hne
      · exact h.oneKey a b d hka hkb
  · simpa [Shared.setStaged] using ham
  · simp [Shared.setStaged]
  · intro _ query d hd
    rw [Shared.setStaged, Staging.find?_insert, if_neg]
    · exact hsome hst query d hd
    · intro hq
      rw [s.snapshot.find?_congr hq] at hsnap
      simp [Shared.setStaged, hsnap] at hd

/-- The new cell serves the key, and all other keys are served as before. -/
theorem find?_stageNew (ham : s.snapshot.amended = true) {key : K}
    (hsnap : s.snapshot.find? key = none) (c : CellId) (query : K) :
    (s.setStaged (some ((s.staging.table.getD .empty).insert key c))).find? query =
      if key == query then some c else s.find? query := by
  simp only [Shared.find?, Shared.setStaged, Staging.find?_insert, ham, if_true]
  split
  · next hs =>
    split
    · next hq =>
      rw [s.snapshot.find?_congr hq] at hsnap
      simp [hsnap] at hs
    · rfl
  · rfl

/-! ## Lifting a tombstone -/

omit [EquivBEq K] in
/-- A tombstone is lifted, and the cell has to be staged next. -/
theorem revive (h : Tidy .rest s) {key : K} {c : CellId} (hc : s.snapshot.find? key = some c)
    (htomb : s.tombstoned c = true) {new : Slot V} (hnew : new.content.isTombstoned = false) :
    Tidy (.reviving key c) (s.setSlot c new) := by
  obtain ⟨ham, hst⟩ := h.amended_of_tombstoned hc htomb
  have hcov := h.phase.2.2 hst
  have hlt := h.bounded key c hc
  have hkeep : ∀ d, d ≠ c → (s.setSlot c new).tombstoned d = s.tombstoned d :=
    fun d hd => Shared.tombstoned_setSlot_ne hd.symm new
  have hlive : (s.setSlot c new).tombstoned c = false :=
    (Shared.tombstoned_setSlot_self hlt new).trans hnew
  refine
    { keys := h.keys, stagedKeys := h.stagedKeys, bounded := ?_, stagedBounded := ?_
      stagedLive := ?_, oneKey := h.oneKey, phase := ⟨ham, hst, hc, hlive, ?_, ?_⟩ }
  · simpa using h.bounded
  · simpa using h.stagedBounded
  · intro query d hd
    by_cases hdc : d = c
    · exact hdc ▸ hlive
    · exact (hkeep d hdc).trans (h.stagedLive query d hd)
  -- the key is not staged yet, for its cell was tombstoned
  · have hstaged := hcov key c hc
    rwa [htomb] at hstaged
  -- all other cells are as they were, and so are their entries
  · intro other d hd hne
    rw [hkeep d hne]
    exact hcov other d hd

/-- A cell that was brought back is staged under the key object that the writer gave. -/
theorem readmit (h : Tidy (.reviving key c) s) {given : K} (hg : (given == key) = true) :
    Tidy .rest (s.setStaged (some ((s.staging.table.getD .empty).insert given c))) := by
  obtain ⟨ham, hst, hc, hlive, hmiss, hcov⟩ := h.phase
  -- the snapshot leads to the cell under the same key, so the staged table tells nothing new
  have hfind : ∀ query d, (if given == query then some c else s.staging.find? query) = some d →
      s.snapshot.find? query = some d ∨ s.staging.find? query = some d := by
    intro query d hd
    split at hd
    · next hq =>
      obtain rfl := Option.some.inj hd
      exact .inl ((s.snapshot.find?_congr (BEq.trans (BEq.symm hq) hg)).trans hc)
    · exact .inr hd
  refine
    { keys := h.keys, stagedKeys := h.stagedKeys_insert given c, bounded := h.bounded
      stagedBounded := ?_, stagedLive := ?_, oneKey := ?_, phase := ⟨?_, ?_, ?_⟩ }
  · intro query d hd
    rw [Shared.setStaged, Staging.find?_insert] at hd
    exact (hfind query d hd).elim (h.bounded query d) (h.stagedBounded query d)
  · intro query d hd
    rw [Shared.setStaged, Staging.find?_insert] at hd
    split at hd
    · exact Option.some.inj hd ▸ hlive
    · exact h.stagedLive query d hd
  · intro a b d ha hb
    simp only [Shared.setStaged, Staging.find?_insert] at ha hb
    exact h.oneKey a b d (ha.elim .inl (hfind a d)) (hb.elim .inl (hfind b d))
  · simpa [Shared.setStaged] using ham
  · simp [Shared.setStaged]
  · intro _ query d hd
    rw [Shared.setStaged, Staging.find?_insert]
    split
    · next hq =>
      have hdc : some d = some c := by
        rw [← hc, ← s.snapshot.find?_congr (BEq.trans (BEq.symm hq) hg)]
        exact hd.symm
      obtain rfl := Option.some.inj hdc
      show some d = if s.tombstoned d then none else some d
      rw [hlive]
      rfl
    · next hq =>
      refine hcov query d hd fun hdc => hq ?_
      exact BEq.trans hg (h.oneKey key query c (.inl hc) (.inl (hdc ▸ hd)))

/-- To stage the cell again makes no difference to which cell serves a key. -/
theorem find?_readmit (h : Tidy (.reviving key c) s) {given : K} (hg : (given == key) = true)
    (query : K) :
    (s.setStaged (some ((s.staging.table.getD .empty).insert given c))).find? query =
      s.find? query := by
  obtain ⟨ham, -, hc, -⟩ := h.phase
  simp only [Shared.find?, Shared.setStaged, Staging.find?_insert, ham, if_true]
  split
  · rfl
  · next hs =>
    split
    · next hq =>
      rw [← s.snapshot.find?_congr (BEq.trans (BEq.symm hq) hg)] at hc
      simp [hc] at hs
    · rfl

/-! ## Copying the snapshot -/

/-- Before the first entry is looked at, everything is still to come. -/
theorem startCopying (h : Tidy .rest s) (ham : s.snapshot.amended = false)
    {entries : List (K × CellId)} (hperm : entries.Perm s.snapshot.table.entries) :
    Tidy (.copying .empty entries) s := by
  have hst := h.staging_eq_empty ham
  have hlive := (h.phase.2.1 (by rw [hst]; rfl)).2
  have hentry : ∀ e ∈ entries, s.snapshot.find? e.1 = some e.2 :=
    fun e he => h.keys.find?_of_mem (hperm.mem_iff.1 he)
  have hcopying : Copying .empty entries s :=
    { complete := ham, unstaged := hst, keys := Table.keysDistinct_empty, leftKeys := ?_
      leftLive := ?_, source := ?_, done := ?_ }
  · exact { h with phase := hcopying }
  · exact hperm.symm.pairwise h.keys fun {a b} hab => by rwa [BEq.comm]
  · exact fun e he => ⟨hentry e he, hlive _ _ (hentry e he)⟩
  · intro key c hc
    simp at hc
  · intro key c hc
    obtain ⟨e, he, -, hkey⟩ := Table.exists_mem_of_find? hc
    exact .inl ⟨e, hperm.mem_iff.2 he, hkey⟩

variable {copies : Table K} {e : K × CellId} {left : List (K × CellId)}

/-- An entry whose cell is tombstoned in time is left out. -/
theorem bury (h : Tidy (.copying copies (e :: left)) s) {new : Slot V}
    (hnew : new.content.isTombstoned = true) :
    Tidy (.copying copies left) (s.setSlot e.2 new) := by
  have hp : Copying copies (e :: left) s := h.phase
  obtain ⟨hhead, hleft⟩ := List.pairwise_cons.1 hp.leftKeys
  obtain ⟨hfind, hlive⟩ := hp.leftLive e (List.mem_cons_self)
  have hlt := h.bounded _ _ hfind
  have hself : (s.setSlot e.2 new).tombstoned e.2 = true :=
    (Shared.tombstoned_setSlot_self hlt new).trans hnew
  have hkeep : ∀ d, d ≠ e.2 → (s.setSlot e.2 new).tombstoned d = s.tombstoned d :=
    fun d hd => Shared.tombstoned_setSlot_ne hd.symm new
  -- the cell belongs to the key of this entry alone
  have hown : ∀ key d, s.snapshot.find? key = some d → (e.1 == key) = false → d ≠ e.2 := by
    intro key d hd hne hdc
    have heq := h.oneKey e.1 key e.2 (.inl hfind) (.inl (hdc ▸ hd))
    rw [hne] at heq
    exact Bool.false_ne_true heq
  have hcopying : Copying copies left (s.setSlot e.2 new) :=
    { complete := hp.complete, unstaged := hp.unstaged, keys := hp.keys, leftKeys := hleft
      leftLive := ?_, source := ?_, done := ?_ }
  · refine
      { keys := h.keys, stagedKeys := h.stagedKeys, bounded := by simpa using h.bounded
        stagedBounded := by simpa using h.stagedBounded, stagedLive := fun key d hd => ?_
        oneKey := h.oneKey, phase := hcopying }
    simp [hp.unstaged, Staging.empty, Staging.find?] at hd
  · intro d hd
    obtain ⟨hdfind, hdlive⟩ := hp.leftLive d (List.mem_cons_of_mem e hd)
    exact ⟨hdfind, (hkeep _ (hown d.1 d.2 hdfind (hhead d hd))).trans hdlive⟩
  · intro key d hd
    obtain ⟨hdfind, hdlive, hout⟩ := hp.source key d hd
    have hne := hout e (List.mem_cons_self)
    exact ⟨hdfind, (hkeep _ (hown key d hdfind hne)).trans hdlive,
      fun x hx => hout x (List.mem_cons_of_mem e hx)⟩
  · intro key d hd
    by_cases hdc : d = e.2
    · -- the buried cell: its key was not copied before
      subst hdc
      have hkey := h.oneKey e.1 key e.2 (.inl hfind) (.inl hd)
      refine .inr ?_
      rw [hself, if_pos rfl, ← Option.not_isSome_iff_eq_none, Option.isSome_iff_exists]
      rintro ⟨x, hx⟩
      rw [(hp.source key x hx).2.2 e (List.mem_cons_self)] at hkey
      exact Bool.false_ne_true hkey
    · rw [hkeep d hdc]
      rcases hp.done key d hd with ⟨x, hx, hkey⟩ | hcopied
      · rcases List.mem_cons.1 hx with rfl | hx
        · rw [s.snapshot.find?_congr hkey] at hfind
          exact absurd (Option.some.inj (hd.symm.trans hfind)) hdc
        · exact .inl ⟨x, hx, hkey⟩
      · exact .inr hcopied

/-- An entry whose cell is not tombstoned is copied. -/
theorem keep (h : Tidy (.copying copies (e :: left)) s) :
    Tidy (.copying (copies.insert e.1 e.2) left) s := by
  have hp : Copying copies (e :: left) s := h.phase
  obtain ⟨hhead, hleft⟩ := List.pairwise_cons.1 hp.leftKeys
  obtain ⟨hfind, hlive⟩ := hp.leftLive e (List.mem_cons_self)
  have hcopying : Copying (copies.insert e.1 e.2) left s :=
    { complete := hp.complete, unstaged := hp.unstaged, keys := hp.keys.insert _ _
      leftKeys := hleft, leftLive := ?_, source := ?_, done := ?_ }
  · exact { h with phase := hcopying }
  · exact fun d hd => hp.leftLive d (List.mem_cons_of_mem e hd)
  · intro key d hd
    rw [Table.find?_insert] at hd
    -- the entry that is copied now has a key of its own: none that is still to come equals it
    split at hd
    · next hkey =>
      obtain rfl := Option.some.inj hd
      refine ⟨(s.snapshot.find?_congr hkey).symm.trans hfind, hlive, fun x hx => ?_⟩
      have hne := hhead x hx
      rwa [BEq.congr_left hkey, BEq.comm] at hne
    · obtain ⟨hdfind, hdlive, hout⟩ := hp.source key d hd
      exact ⟨hdfind, hdlive, fun x hx => hout x (List.mem_cons_of_mem e hx)⟩
  · intro key d hd
    -- a key that was done is copied as before, and the head of the list is done now
    rw [Table.find?_insert]
    split
    · next hkey =>
      rw [s.snapshot.find?_congr hkey] at hfind
      obtain rfl := Option.some.inj (hd.symm.trans hfind)
      exact .inr (by rw [hlive]; rfl)
    · next hkey =>
      rcases hp.done key d hd with ⟨x, hx, hx'⟩ | hcopied
      · rcases List.mem_cons.1 hx with rfl | hx
        · exact absurd hx' hkey
        · exact .inl ⟨x, hx, hx'⟩
      · exact .inr hcopied

omit [EquivBEq K] in
/-- When no entry is left, the copies are staged. -/
theorem install (h : Tidy (.copying copies []) s) :
    Tidy .copied (s.setStaged (some copies)) := by
  have hp : Copying copies [] s := h.phase
  have hfind : ∀ key, (s.setStaged (some copies)).staging.find? key = copies.find? key :=
    fun key => rfl
  refine
    { keys := h.keys, stagedKeys := ?_, bounded := h.bounded, stagedBounded := ?_
      stagedLive := ?_, oneKey := ?_, phase := ⟨hp.complete, rfl, ?_, ?_⟩ }
  · intro t ht
    exact Option.some.inj ht ▸ hp.keys
  · intro key c hc
    exact h.bounded key c (hp.source key c hc).1
  · intro key c hc
    exact (hp.source key c hc).2.1
  · intro a b c ha hb
    have hsource : ∀ key, s.snapshot.find? key = some c ∨ copies.find? key = some c →
        s.snapshot.find? key = some c := fun key hc => hc.elim id fun hc => (hp.source key c hc).1
    exact h.oneKey a b c (.inl (hsource a ha)) (.inl (hsource b hb))
  -- nothing is still to come, so every entry of the snapshot was copied or left out
  · intro key c hc
    rcases hp.done key c hc with ⟨e, he, -⟩ | hcopied
    · exact absurd he List.not_mem_nil
    · exact hcopied
  -- a key that the snapshot lacks was never copied
  · intro key hk
    rw [hfind, ← Option.not_isSome_iff_eq_none, Option.isSome_iff_exists]
    rintro ⟨c, hc⟩
    have hc' := (hp.source key c hc).1
    change s.snapshot.find? key = none at hk
    simp [hk] at hc'

omit [EquivBEq K] in
/-- Once the snapshot announces the copies, the rebuild is over. -/
theorem announce (h : Tidy .copied s) : Tidy .rest (s.publish s.snapshot.markAmended) := by
  obtain ⟨-, hst, hcov, -⟩ := h.phase
  refine { h with phase := ⟨?_, ?_, ?_⟩ }
  · exact hst.symm
  · intro hn
    change s.staging.table = none at hn
    simp [hn] at hst
  · exact fun _ => hcov

omit [EquivBEq K] in
/-- The announcement makes no difference to which cell serves a key. -/
theorem find?_announce (h : Tidy .copied s) (query : K) :
    (s.publish s.snapshot.markAmended).find? query = s.find? query := by
  obtain ⟨ham, -, -, hmiss⟩ := h.phase
  simp only [Shared.find?, Shared.publish, Snapshot.find?_markAmended,
    Snapshot.amended_markAmended, if_true, ham]
  split
  · rfl
  · next hs => exact hmiss query hs

end Tidy

end ConcurrentMap
