import ConcurrentMap.Proofs.Interference.Closings

/-!
# Steps that no key notices

Most steps leave every key with the cell and the handle that it has. `World.Kept` is what they have
in common. `World.Quiet` are those among them that do not even touch the tables or the cells, so
they may be taken with the mutex or without it; the others are for the holder of the mutex and lead
from one phase to the next.
-/

namespace ConcurrentMap

variable {K V : Type} [BEq K] [BEq V]

namespace World

variable {w w' : World K V} {t : ThreadId}

/-- Every key keeps its cell and its handle, and the calls are where they were. -/
structure Kept (w w' : World K V) : Prop where
  standing : w'.standing = w.standing
  chronicle : w'.chronicle = w.chronicle
  tickets : w'.tickets = w.tickets
  rules : w'.rules = w.rules
  clock : w.shared.clock ≤ w'.shared.clock
  minted : ∀ x < w.shared.clock, w'.mint x = w.mint x
  find? : ∀ key, w'.shared.find? key = w.shared.find? key
  snapshot : ∀ key, w'.shared.snapshot.find? key = w.shared.snapshot.find? key
  size : w.shared.cells.size ≤ w'.shared.cells.size
  handle : ∀ c < w.shared.cells.size,
    (w'.shared.slot c).handle? = (w.shared.slot c).handle?
  genuine : ∀ c, w'.Genuine (w'.shared.slot c)
  dropped : ∀ c own j, w.standing c = .retired own j .dropped → w'.shared.tombstoned c = true

namespace Kept

omit [BEq V] in
theorem era (h : w.Kept w') : w'.era = w.era := by rw [World.era, World.era, h.chronicle]

/-- Such a step loses nothing of what lasts. -/
theorem grows (h : w.Kept w') : w.Grows w' where
  clock := h.clock
  minted := h.minted
  chronicle := by rw [h.chronicle]; exact .refl _
  standing c := by rw [h.standing]; exact .refl _ _
  limits c _ := Nat.le_of_eq (by
    rw [World.site, World.site, World.era, World.era, h.standing, h.chronicle])
  issued := Nat.le_of_eq (by rw [h.chronicle])
  asked _ _ := by rw [h.chronicle]
  recorded _ _ _ hrec := by rw [h.chronicle]; exact hrec
  rules := h.rules

omit [BEq V] in
/-- The two tables still lead to the cells that serve the keys. -/
theorem roster (h : w.Kept w') (hw : w.Roster) : w'.Roster where
  serves key c := by
    rw [h.find?, h.standing]
    exact hw.serves key c
  published key c := by
    rw [h.snapshot, h.standing]
    exact hw.published key c
  used c hc := by
    rw [h.standing] at hc
    exact Nat.lt_of_lt_of_le (hw.used c hc) h.size
  dropped c own j hc := by
    rw [h.standing] at hc
    exact h.dropped c own j hc

/-- The cells still hold what the chronicle says. -/
theorem ledger (h : w.Kept w') (hw : w.Sound) : w'.Ledger where
  explained := by
    rw [h.era, h.chronicle]
    exact hw.ledger.explained
  current := by
    rw [h.era, h.chronicle]
    exact hw.ledger.current
  held c own hc := by
    rw [h.standing] at hc
    have hlt := hw.roster.used c fun hu => by simp [hu, Standing.key?] at hc
    -- The cell has a key, so it is in use and keeps its handle.
    rw [World.site, h.standing, h.era, h.chronicle, h.handle c hlt]
    exact hw.ledger.held c own hc
  missing key hk := by
    rw [h.era, h.chronicle]
    exact hw.ledger.missing key (h.find? key ▸ hk)
  fates := by
    rw [h.era, h.standing, h.chronicle]
    exact hw.ledger.fates
  alone := by
    rw [h.standing]
    exact hw.ledger.alone
  endings := by
    rw [h.chronicle]
    exact hw.ledger.endings

/-- The names of the calls and the stamps are in order as before. -/
theorem docket (h : w.Kept w') (hw : w.Docket) : w'.Docket where
  limits := by
    rw [h.era, h.chronicle]
    exact hw.limits
  deeds := by
    rw [h.chronicle]
    exact hw.deeds
  distinct := by
    rw [h.chronicle]
    exact hw.distinct
  stamps d hmem v hv := by
    rw [h.chronicle] at hmem
    -- A stamp that was drawn before still stands for what it stood for.
    obtain ⟨hs, ho⟩ := hw.stamps d hmem v hv
    exact ⟨Nat.lt_of_lt_of_le hs h.clock, by rw [h.minted _ hs, ho]⟩
  ended := by
    rw [h.chronicle]
    exact hw.ended
  once := by
    rw [h.chronicle]
    exact hw.once
  unentered := by
    rw [h.chronicle]
    exact hw.unentered
  tickets := by
    rw [h.chronicle, h.tickets]
    exact hw.tickets
  owners := by
    rw [h.tickets]
    exact hw.owners
  callers := by
    rw [h.chronicle, h.tickets]
    exact hw.callers
  allowed := by
    rw [h.chronicle, h.rules]
    exact hw.allowed

/-- The invariant survives, if the tables are tidy in the phase that the holder is in now. -/
theorem sound (h : w.Kept w') (hw : w.Sound) (htidy : Tidy w'.phase w'.shared)
    (hfree : w'.shared.holder = none → w'.phase = .rest) : w'.Sound :=
  ⟨htidy, hfree, h.genuine, h.roster hw.roster, h.ledger hw, h.docket hw.docket⟩

/-- A step of the holder of the mutex. -/
theorem guarantee (h : w.Kept w') (ht : w.shared.holder = some t)
    (hholder : w'.shared.holder = w.shared.holder) (hprot : w.Protocol t w') :
    w.Guarantee t w' where
  grows := h.grows
  others _ _ := by rw [h.tickets]
  holder := .inl hholder
  calls _ := by rw [h.chronicle]
  frame hne := absurd ht hne
  protocol := hprot

end Kept

/-- Neither the tables nor the cells change. -/
structure Quiet (t : ThreadId) (w w' : World K V) : Prop where
  standing : w'.standing = w.standing
  chronicle : w'.chronicle = w.chronicle
  tickets : w'.tickets = w.tickets
  rules : w'.rules = w.rules
  phase : w'.phase = w.phase
  snapshot : w'.shared.snapshot = w.shared.snapshot
  staging : w'.shared.staging = w.shared.staging
  cells : w'.shared.cells = w.shared.cells
  clock : w.shared.clock ≤ w'.shared.clock
  minted : ∀ x < w.shared.clock, w'.mint x = w.mint x
  holder : w'.shared.holder = w.shared.holder ∨
    (w.shared.holder = none ∧ w'.shared.holder = some t) ∨
    (w.shared.holder = some t ∧ w'.shared.holder = none ∧ w.phase = .rest)

namespace Quiet

omit [BEq K] [BEq V] in
theorem slot (h : w.Quiet t w') (c : CellId) : w'.shared.slot c = w.shared.slot c := by
  simp only [Shared.slot, h.cells]

omit [BEq K] [BEq V] in
theorem tombstoned (h : w.Quiet t w') (c : CellId) :
    w'.shared.tombstoned c = w.shared.tombstoned c := by
  simp only [Shared.tombstoned, h.slot]

/-- A quiet step keeps every key's cell and handle. -/
theorem kept (h : w.Quiet t w') (hw : w.Sound) : w.Kept w' where
  standing := h.standing
  chronicle := h.chronicle
  tickets := h.tickets
  rules := h.rules
  clock := h.clock
  minted := h.minted
  find? key := by simp only [Shared.find?, h.snapshot, h.staging]
  snapshot key := by rw [h.snapshot]
  size := Nat.le_of_eq (by rw [h.cells])
  handle c _ := by rw [h.slot]
  genuine c := by
    obtain ⟨hlt, hmint⟩ := hw.minted c
    rw [h.slot]
    exact ⟨Nat.lt_of_lt_of_le hlt h.clock, by rw [h.minted _ hlt, hmint]⟩
  dropped c own j hc := (h.tombstoned c).trans (hw.roster.dropped c own j hc)

omit [BEq K] [BEq V] in
/-- A quiet step leaves the structure alone. -/
theorem frame (h : w.Quiet t w') : w.Frame w' where
  snapshot := h.snapshot
  staging := h.staging
  size := by rw [h.cells]
  tombstoned := h.tombstoned
  phase := h.phase
  standing := h.standing
  era := by rw [World.era, World.era, h.chronicle]
  unused c _ := h.slot c
  buried c _ := h.slot c

/-- A quiet step keeps the invariant. -/
theorem sound (h : w.Quiet t w') (hw : w.Sound) : w'.Sound := by
  refine (h.kept hw).sound hw ?_ fun hfree => ?_
  · rw [h.phase]
    exact hw.tidy.congr h.snapshot h.staging (Nat.le_of_eq (by rw [h.cells])) fun c _ =>
      h.tombstoned c
  · rw [h.phase]
    rcases h.holder with heq | ⟨-, hsome⟩ | ⟨-, -, hrest⟩
    · exact hw.free (heq ▸ hfree)
    · simp [hsome] at hfree
    · exact hrest

/-- A quiet step is one that its thread may take, whether it holds the mutex or not. -/
theorem guarantee (h : w.Quiet t w') (hw : w.Sound) : w.Guarantee t w' where
  grows := (h.kept hw).grows
  others _ _ := by rw [h.tickets]
  holder := h.holder.imp id (Or.imp id fun hrel => ⟨hrel.1, hrel.2.1⟩)
  calls _ := by rw [h.chronicle]
  frame _ := h.frame
  protocol := by
    refine h.frame.protocol (fun key c hp => ?_) fun c _ hne => absurd (h.slot c) hne
    rcases h.holder with heq | ⟨hnone, -⟩ | ⟨-, -, hrest⟩
    · exact heq
    · simp [hw.free hnone] at hp
    · simp [hrest] at hp

end Quiet

end World

end ConcurrentMap
