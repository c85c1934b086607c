import ConcurrentMap.Proofs.Interference.World

/-!
# What a step may do

`World.Guarantee t` says what one step of thread `t` may do, `World.Rely t` what thread `t` may
count on while the others take any number of steps. `World.Guarantee.rely` ties the two: the steps
of one thread are what another one counts on.

Outside the mutex a step leaves the structure alone, which is `World.Frame`: the tables, the phase,
the standing of the cells and the tombstones. So the holder of the mutex has all these to itself.
Nobody has the slots of the serving cells to itself, and of the rest `World.Grows` says what lasts.

`World.Protocol` collects what the handling of tombstones asks of every step.
-/

namespace ConcurrentMap

variable {K V : Type}

namespace World

/-- A stamp tells slots apart. -/
theorem Genuine.eq_of_stamp {w : World K V} {x y : Slot V} (hx : w.Genuine x) (hy : w.Genuine y)
    (h : x.stamp = y.stamp) : x = y := by
  have hcontent : x.content = y.content := by rw [← hx.2, ← hy.2, h]
  cases x
  cases y
  simp_all

/-! ## What lasts -/

/-- What every step keeps, by whomever. -/
structure Grows [BEq K] [BEq V] (w w' : World K V) : Prop where
  clock : w.shared.clock ≤ w'.shared.clock
  minted : ∀ x < w.shared.clock, w'.mint x = w.mint x
  chronicle : w.chronicle.Extends w'.chronicle
  standing : ∀ c, (w.standing c).Leads w.era (w'.standing c)
  limits : ∀ c, w.standing c ≠ .unused →
    w.chronicle.limit (w.site c) ≤ w'.chronicle.limit (w'.site c)
  issued : w.chronicle.issued ≤ w'.chronicle.issued
  asked : ∀ id < w.chronicle.issued, w'.chronicle.asked id = w.chronicle.asked id
  recorded : ∀ id answer horizon, w.chronicle.Recorded id answer horizon →
    w'.chronicle.Recorded id answer horizon
  rules : w'.rules = w.rules

namespace Grows

variable [BEq K] [BEq V] {w w' w'' : World K V}

theorem era (h : w.Grows w') : w.era ≤ w'.era := h.chronicle.era

theorem refl (w : World K V) : w.Grows w :=
  ⟨Nat.le_refl _, fun _ _ => rfl, .refl _, fun _ => .refl _ _, fun _ _ => Nat.le_refl _,
    Nat.le_refl _, fun _ _ => rfl, fun _ _ _ h => h, rfl⟩

/-- What every step keeps, any number of steps keep. -/
theorem trans (h : w.Grows w') (h' : w'.Grows w'') : w.Grows w'' where
  clock := Nat.le_trans h.clock h'.clock
  minted x hx := (h'.minted x (Nat.lt_of_lt_of_le hx h.clock)).trans (h.minted x hx)
  chronicle := h.chronicle.trans h'.chronicle
  standing c := (h.standing c).trans h.era (h'.standing c)
  limits c hc := by
    -- A cell that was in use still is, so the second step's limit applies to it.
    refine Nat.le_trans (h.limits c hc) (h'.limits c fun hu => ?_)
    have hlead := h.standing c
    rw [hu] at hlead
    cases hs : w.standing c with
    | unused => exact hc hs
    | serving key p => simp [hs, Standing.Leads] at hlead
    | retired key j fate => simp [hs, Standing.Leads] at hlead
  issued := Nat.le_trans h.issued h'.issued
  asked id hid := (h'.asked id (Nat.lt_of_lt_of_le hid h.issued)).trans (h.asked id hid)
  recorded id answer horizon hr := h'.recorded id answer horizon (h.recorded id answer horizon hr)
  rules := h'.rules.trans h.rules

/-- A slot made by the call that drew its stamp stays one. -/
theorem genuine (h : w.Grows w') {x : Slot V} (hx : w.Genuine x) : w'.Genuine x :=
  ⟨Nat.lt_of_lt_of_le hx.1 h.clock, by rw [h.minted x.stamp hx.1, hx.2]⟩

/-- A call that was made in time for a cell stays so, wherever the cell is retired to. -/
theorem knows (h : w.Grows w') {id : CallId} {key : K} {c : CellId}
    (hk : w.Knows id key c) : w'.Knows id key c := by
  obtain ⟨own, hown, heq, hid⟩ := hk
  refine ⟨own, (h.standing c).key? hown, heq, Nat.lt_of_lt_of_le hid (h.limits c fun hu => ?_)⟩
  simp [hu, Standing.key?] at hown

end Grows

/-! ## The structure -/

/-- The structure is the same: only slots of cells that serve or served a key have changed, and no
tombstone has come or gone. -/
structure Frame (w w' : World K V) : Prop where
  snapshot : w'.shared.snapshot = w.shared.snapshot
  staging : w'.shared.staging = w.shared.staging
  size : w'.shared.cells.size = w.shared.cells.size
  tombstoned : ∀ c, w'.shared.tombstoned c = w.shared.tombstoned c
  phase : w'.phase = w.phase
  standing : w'.standing = w.standing
  era : w'.era = w.era
  unused : ∀ c, w.standing c = .unused → w'.shared.slot c = w.shared.slot c
  buried : ∀ c, w.shared.tombstoned c = true → w'.shared.slot c = w.shared.slot c

namespace Frame

variable {w w' w'' : World K V}

theorem refl (w : World K V) : w.Frame w :=
  ⟨rfl, rfl, rfl, fun _ => rfl, rfl, rfl, rfl, fun _ _ => rfl, fun _ _ => rfl⟩

theorem trans (h : w.Frame w') (h' : w'.Frame w'') : w.Frame w'' where
  snapshot := h'.snapshot.trans h.snapshot
  staging := h'.staging.trans h.staging
  size := h'.size.trans h.size
  tombstoned c := (h'.tombstoned c).trans (h.tombstoned c)
  phase := h'.phase.trans h.phase
  standing := h'.standing.trans h.standing
  era := h'.era.trans h.era
  unused c hc := (h'.unused c (by rw [h.standing, hc])).trans (h.unused c hc)
  buried c hc := (h'.buried c ((h.tombstoned c).trans hc)).trans (h.buried c hc)

/-- Every key has the cell that it had. -/
theorem find? [BEq K] (h : w.Frame w') (key : K) : w'.shared.find? key = w.shared.find? key := by
  simp only [Shared.find?, h.snapshot, h.staging]

end Frame

/-! ## One thread and the others -/

/-- The thread has not used the mutex: if it held the mutex, it still does and the structure is the
same. -/
structure Along [BEq K] [BEq V] (t : ThreadId) (w w' : World K V) : Prop where
  grows : w.Grows w'
  holder : w'.shared.holder = some t ↔ w.shared.holder = some t
  frame : w.shared.holder = some t → w.Frame w'

namespace Along

variable [BEq K] [BEq V] {t : ThreadId} {w w' w'' : World K V}

theorem refl (t : ThreadId) (w : World K V) : w.Along t w := ⟨.refl w, Iff.rfl, fun _ => .refl w⟩

theorem trans (h : w.Along t w') (h' : w'.Along t w'') : w.Along t w'' where
  grows := h.grows.trans h'.grows
  holder := h'.holder.trans h.holder
  frame ht := (h.frame ht).trans (h'.frame (h.holder.2 ht))

/-- What a thread may put a value into it may go on doing so, as long as it does not use the mutex
itself. -/
theorem mayInstall (h : w.Along t w') {c : CellId} (hc : w.MayInstall t c) :
    w'.MayInstall t c := by
  have hlead := h.grows.standing c
  unfold MayInstall at hc
  cases hs : w.standing c with
  | unused => simp [hs] at hc
  | retired key j fate =>
      have hs' : w'.standing c = .retired key j fate := by rw [hs] at hlead; exact hlead
      simpa [MayInstall, hs, hs'] using hc
  | serving key p =>
      simp only [hs] at hc
      -- Inside the mutex the cell still serves the key.
      by_cases ht : w.shared.holder = some t
      · have hs' : w'.standing c = .serving key p := by rw [(h.frame ht).standing, hs]
        simp [MayInstall, hs', h.holder.2 ht]
      -- Outside, a snapshot led to the cell, and such a cell is never withdrawn.
      · have hp : p = true := hc.resolve_right ht
        rw [hs] at hlead
        cases hs' : w'.standing c with
        | unused => simp [hs', Standing.Leads] at hlead
        | serving key' p' =>
            simp only [hs', Standing.Leads] at hlead
            simp [MayInstall, hs', hlead.2 hp]
        | retired key' j fate =>
            simp only [hs', Standing.Leads] at hlead
            simpa [MayInstall, hs'] using hlead.2.2 hp

end Along

/-- What thread `t` may count on while others take steps. -/
structure Rely [BEq K] [BEq V] (t : ThreadId) (w w' : World K V) : Prop where
  along : w.Along t w'
  ticket : w'.tickets t = w.tickets t

namespace Rely

variable [BEq K] [BEq V] {t : ThreadId} {w w' w'' : World K V}

theorem refl (t : ThreadId) (w : World K V) : w.Rely t w := ⟨.refl t w, rfl⟩

theorem trans (h : w.Rely t w') (h' : w'.Rely t w'') : w.Rely t w'' :=
  ⟨h.along.trans h'.along, h'.ticket.trans h.ticket⟩

/-- What every step keeps, the steps of the others keep. -/
theorem grows (h : w.Rely t w') : w.Grows w' := h.along.grows

end Rely

/-- What the handling of tombstones asks of a step of thread `t`. -/
structure Protocol [BEq K] (t : ThreadId) (w w' : World K V) : Prop where
  installs : ∀ c < w.shared.cells.size, w'.shared.slot c ≠ w.shared.slot c →
    (w'.shared.slot c).content.isPresent = true → w.MayInstall t c
  tombstones : ∀ c < w.shared.cells.size, w'.shared.tombstoned c ≠ w.shared.tombstoned c →
    w.shared.holder = some t ∧ (w.shared.slot c).content.isPresent = false ∧
      (w'.shared.slot c).content.isPresent = false
  lifts : ∀ c, w.shared.tombstoned c = true → w'.shared.tombstoned c = false →
    ∃ key, w'.phase = .reviving key c
  readmits : ∀ key c, w.phase = .reviving key c → w'.shared.holder = w.shared.holder ∧
    (w'.phase = .reviving key c ∨ ∃ given, w'.shared.staging.find? given = some c)

/-- What a step of thread `t` may do. -/
structure Guarantee [BEq K] [BEq V] (t : ThreadId) (w w' : World K V) : Prop where
  grows : w.Grows w'
  others : ∀ u, u ≠ t → w'.tickets u = w.tickets u
  holder : w'.shared.holder = w.shared.holder ∨
    (w.shared.holder = none ∧ w'.shared.holder = some t) ∨
    (w.shared.holder = some t ∧ w'.shared.holder = none)
  calls : w.rules.driven → w'.chronicle.issued = w.chronicle.issued
  frame : w.shared.holder ≠ some t → w.Frame w'
  protocol : w.Protocol t w'

/-- The steps of one thread are what another one counts on. -/
theorem Guarantee.rely [BEq K] [BEq V] {t u : ThreadId} {w w' : World K V} (h : w.Guarantee t w')
    (hne : u ≠ t) : w.Rely u w' := by
  have hholder : w'.shared.holder = some u ↔ w.shared.holder = some u := by
    rcases h.holder with heq | ⟨hw, hw'⟩ | ⟨hw, hw'⟩
    · rw [heq]
    · simp [hw, hw', Ne.symm hne]
    · simp [hw, hw', Ne.symm hne]
  refine ⟨⟨h.grows, hholder, fun hu => h.frame ?_⟩, h.others u hne⟩
  rw [hu]
  simpa using hne

/-- After a step of a thread that found the mutex free or its own, it is free or its own again. -/
theorem Guarantee.free_or_own [BEq K] [BEq V] {t : ThreadId} {w w' : World K V} (h : w.Guarantee t w')
    (hw : w.shared.holder = none ∨ w.shared.holder = some t) :
    w'.shared.holder = none ∨ w'.shared.holder = some t := by
  rcases h.holder with heq | ⟨-, heq⟩ | ⟨-, heq⟩
  · rwa [heq]
  · exact .inr heq
  · exact .inl heq

/-- A step that makes no change counts as a step. -/
theorem Guarantee.refl [BEq K] [BEq V] (t : ThreadId) (w : World K V) : w.Guarantee t w where
  grows := .refl w
  others _ _ := rfl
  holder := .inl rfl
  calls _ := rfl
  frame _ := .refl w
  protocol :=
    { installs := fun _ _ h => absurd rfl h
      tombstones := fun _ _ h => absurd rfl h
      lifts := fun c h h' => by simp [h] at h'
      readmits := fun _ _ h => ⟨rfl, .inl h⟩ }

/-- Outside the mutex, or if it leaves the structure alone, a step makes none of the changes that
the protocol restricts but the installation of values. -/
theorem Frame.protocol [BEq K] {t : ThreadId} {w w' : World K V} (h : w.Frame w')
    (hholder : ∀ key c, w.phase = .reviving key c → w'.shared.holder = w.shared.holder)
    (hinst : ∀ c < w.shared.cells.size, w'.shared.slot c ≠ w.shared.slot c →
      (w'.shared.slot c).content.isPresent = true → w.MayInstall t c) : w.Protocol t w' where
  installs := hinst
  tombstones c _ hc := absurd (h.tombstoned c) hc
  lifts c hc hc' := by simp [h.tombstoned c, hc] at hc'
  readmits key c hp := ⟨hholder key c hp, .inl (h.phase.trans hp)⟩

end World

end ConcurrentMap
