import ConcurrentMap.Proofs.Interference.CellRules

/-!
# Changes of the structure among others

The programs that run under the mutex lead from one phase to the next. Each has a rule that says in
which phase the thread is before it and after it, and what it still knows of the tables:
`World.Likewise` if every key is served as before.
-/

namespace ConcurrentMap

variable {K V : Type} [BEq K] [BEq V]

namespace World

variable {w w' w'' : World K V} {t : ThreadId}

/-- Every key is served by the same cell, and the snapshot leads to the same cells. -/
structure Likewise (w w' : World K V) : Prop where
  grows : w.Grows w'
  standing : w'.standing = w.standing
  snapshot : ∀ key, w'.shared.snapshot.find? key = w.shared.snapshot.find? key
  find? : ∀ key, w'.shared.find? key = w.shared.find? key

namespace Likewise

/-- What two changes in a row leave as it is for every key, they leave so together. -/
theorem trans (h : w.Likewise w') (h' : w'.Likewise w'') : w.Likewise w'' where
  grows := h.grows.trans h'.grows
  standing := h'.standing.trans h.standing
  snapshot key := (h'.snapshot key).trans (h.snapshot key)
  find? key := (h'.find? key).trans (h.find? key)

end Likewise

/-- Between the two worlds the snapshot was this one, and nothing amended it. -/
def Charts (w w' : World K V) (snapshot : Snapshot K) : Prop :=
  ∃ w₁, w.Grows w₁ ∧ w₁.Sound ∧ w₁.shared.snapshot = snapshot ∧ snapshot.amended = false ∧
    w₁.Grows w'

namespace Charts

variable {snapshot : Snapshot K}

/-- Nothing that lasts is lost between the two worlds. -/
theorem grows (h : w.Charts w' snapshot) : w.Grows w' := by
  obtain ⟨w₁, hg, -, -, -, hg'⟩ := h
  exact hg.trans hg'

/-- The first world may be any earlier one. -/
theorem before (h : w'.Charts w'' snapshot) (hg : w.Grows w') : w.Charts w'' snapshot := by
  obtain ⟨w₁, hg₁, h₁⟩ := h
  exact ⟨w₁, hg.trans hg₁, h₁⟩

/-- The second world may be any later one. -/
theorem after (h : w.Charts w' snapshot) (hg : w'.Grows w'') : w.Charts w'' snapshot := by
  obtain ⟨w₁, hg₁, hw₁, hsnap, ham, hg₁'⟩ := h
  exact ⟨w₁, hg₁, hw₁, hsnap, ham, hg₁'.trans hg⟩

end Charts

/-- The snapshot of now. -/
theorem Sound.charts (hw : w.Sound) (ham : w.shared.snapshot.amended = false) :
    w.Charts w w.shared.snapshot :=
  ⟨w, .refl w, hw, rfl, ham, .refl w⟩

/-- A step that keeps every key's cell serves every key as before. -/
theorem Kept.likewise (h : w.Kept w') : w.Likewise w' := ⟨h.grows, h.standing, h.snapshot, h.find?⟩

/-- While a thread is inside, the others serve every key as before. -/
theorem Inside.likewise {k : Option (Ticket K V)} {phase : Phase K} (h : w.Inside t k phase)
    (hr : w.Rely t w') : w.Likewise w' :=
  ⟨hr.grows, (h.frame hr).standing, fun key => by rw [(h.frame hr).snapshot], (h.frame hr).find?⟩

/-- The world with another shared state, in another phase. -/
def reshaped (w : World K V) (s : Shared K V) (phase : Phase K) : World K V :=
  { w with shared := s, phase := phase }

omit [BEq K] [BEq V] in
/-- A step that takes or leaves the mutex at most is quiet. -/
theorem quiet_reshaped {s : Shared K V} (hsnap : s.snapshot = w.shared.snapshot)
    (hstag : s.staging = w.shared.staging) (hcells : s.cells = w.shared.cells)
    (hclock : s.clock = w.shared.clock)
    (hholder : s.holder = w.shared.holder ∨ (w.shared.holder = none ∧ s.holder = some t) ∨
      (w.shared.holder = some t ∧ s.holder = none ∧ w.phase = .rest)) :
    w.Quiet t (w.reshaped s w.phase) where
  standing := rfl
  chronicle := rfl
  tickets := rfl
  rules := rfl
  phase := rfl
  snapshot := hsnap
  staging := hstag
  cells := hcells
  clock := Nat.le_of_eq hclock.symm
  minted _ _ := rfl
  holder := hholder

variable {k : Option (Ticket K V)} {phase phase' : Phase K} {s : Shared K V}
  {P : World K V → Prop}

/-- A step of the holder of the mutex that leaves every key with its cell and its handle. -/
theorem Inside.reaches_kept (hin : w.Inside t k phase) (hw : w.Sound)
    (hkept : w.Kept (w.reshaped s phase')) (htidy : Tidy phase' s) (hholder : s.holder = some t)
    (hprot : w.Protocol t (w.reshaped s phase'))
    (hP : ∀ w', w'.shared = s → w'.Sound → w'.Inside t k phase' → w.Likewise w' → P w') :
    w.Reaches t s P := by
  have hsound := hkept.sound hw htidy fun hfree => by simp [reshaped, hholder] at hfree
  exact ⟨w.reshaped s phase', rfl, hsound,
    hkept.guarantee hin.holder (hholder.trans hin.holder.symm) hprot,
    hP _ rfl hsound ⟨hin.ticket, hholder, rfl⟩ hkept.likewise⟩

/-- The same, if no cell changes. -/
theorem Inside.reaches_tables (hin : w.Inside t k phase) (hw : w.Sound)
    (hphase : ∀ key c, phase = .reviving key c → ∃ given, s.staging.find? given = some c)
    (htidy : Tidy phase' s)
    (hholder : s.holder = w.shared.holder) (hclock : s.clock = w.shared.clock)
    (hcells : s.cells = w.shared.cells)
    (hsnap : ∀ key, s.snapshot.find? key = w.shared.snapshot.find? key)
    (hfind : ∀ key, s.find? key = w.shared.find? key)
    (hP : ∀ w', w'.shared = s → w'.Sound → w'.Inside t k phase' → w.Likewise w' → P w') :
    w.Reaches t s P := by
  -- No slot changes, so nothing is installed and no tombstone comes or goes.
  have hslot : ∀ c, s.slot c = w.shared.slot c := fun c => by simp only [Shared.slot, hcells]
  have htomb : ∀ c, s.tombstoned c = w.shared.tombstoned c := fun c => by
    simp only [Shared.tombstoned, hslot]
  have hkept : w.Kept (w.reshaped s phase') :=
    { standing := rfl, chronicle := rfl, tickets := rfl, rules := rfl
      clock := Nat.le_of_eq hclock.symm
      minted := fun _ _ => rfl
      find? := hfind
      snapshot := hsnap
      size := Nat.le_of_eq (congrArg Array.size hcells.symm)
      handle := fun c _ => congrArg Slot.handle? (hslot c)
      genuine := fun c => by
        obtain ⟨hlt, hmint⟩ := hw.minted c
        show (w.reshaped s phase').Genuine (s.slot c)
        rw [hslot]
        exact ⟨Nat.lt_of_lt_of_eq hlt hclock.symm, hmint⟩
      dropped := fun c own j hc => (htomb c).trans (hw.roster.dropped c own j hc) }
  refine hin.reaches_kept hw hkept htidy (hholder.trans hin.holder)
    { installs := fun c _ hne => absurd (hslot c) hne
      tombstones := fun c _ hne => absurd (htomb c) hne
      lifts := fun c hc hc' => by
        change s.tombstoned c = false at hc'
        simp [htomb, hc] at hc'
      readmits := fun key c hp => ⟨hholder, .inr (hphase key c (hin.phase.symm.trans hp))⟩ } hP

/-- A slot without a value may be exchanged for another one, unless its cell was left out. -/
theorem Sound.kept_setSlot (hw : w.Sound) {c : CellId} {new : Slot V}
    (hlt : c < w.shared.cells.size) (hgen : w.Genuine new)
    (hold : (w.shared.slot c).content.isPresent = false) (hnew : new.content.isPresent = false)
    (hserves : ∀ own j, w.standing c ≠ .retired own j .dropped) :
    w.Kept (w.reshaped (w.shared.setSlot c new) phase') := by
  have hself : (w.shared.setSlot c new).slot c = new := Shared.slot_setSlot_self hlt new
  have hother : ∀ d, d ≠ c → (w.shared.setSlot c new).slot d = w.shared.slot d :=
    fun d hd => Shared.slot_setSlot_ne hd.symm new
  have hnone : ∀ x : Slot V, x.content.isPresent = false → x.handle? = none := fun x hx => by
    simpa [Slot.handle?, Content.isPresent_eq_isSome] using hx
  refine
    { standing := rfl, chronicle := rfl, tickets := rfl, rules := rfl
      clock := Nat.le_refl _, minted := fun _ _ => rfl, find? := fun _ => rfl
      snapshot := fun _ => rfl, size := Nat.le_of_eq (Shared.size_setSlot _ _ _).symm
      handle := fun d _ => ?_, genuine := fun d => ?_, dropped := fun d own j hd => ?_ }
  · show ((w.shared.setSlot c new).slot d).handle? = _
    -- The exchanged slot held nothing before, and it holds nothing now.
    by_cases hd : d = c
    · subst hd
      rw [hself, hnone _ hnew, hnone _ hold]
    · rw [hother d hd]
  · show w.Genuine ((w.shared.setSlot c new).slot d)
    by_cases hd : d = c
    · subst hd
      rw [hself]
      exact hgen
    · rw [hother d hd]
      exact hw.minted d
  · show (w.shared.setSlot c new).tombstoned d = true
    -- The cell is none that a promotion left out, and those keep their tombstones.
    have hdc : d ≠ c := fun hdc => hserves own j (hdc ▸ hd)
    rw [Shared.tombstoned_setSlot_ne hdc.symm]
    exact hw.roster.dropped d own j hd

omit [BEq V] in
/-- In such an exchange the holder of the mutex may make or lift a tombstone. -/
theorem Inside.protocol_setSlot (hin : w.Inside t k phase)
    (hphase : ∀ key c, phase ≠ .reviving key c) {c : CellId} {new : Slot V}
    (hlt : c < w.shared.cells.size) (hold : (w.shared.slot c).content.isPresent = false)
    (hnew : new.content.isPresent = false)
    (hlifts : new.content.isTombstoned = false → ∃ key, phase' = .reviving key c) :
    w.Protocol t (w.reshaped (w.shared.setSlot c new) phase') := by
  have hself : (w.shared.setSlot c new).slot c = new := Shared.slot_setSlot_self hlt new
  have hother : ∀ d, d ≠ c → (w.shared.setSlot c new).slot d = w.shared.slot d :=
    fun d hd => Shared.slot_setSlot_ne hd.symm new
  refine
    { installs := fun d _ hne hpres => ?_, tombstones := fun d _ hne => ?_
      lifts := fun d hd hd' => ?_
      readmits := fun key d hp => absurd (hin.phase.symm.trans hp) (hphase key d) }
  · change ((w.shared.setSlot c new).slot d).content.isPresent = true at hpres
    -- What is exchanged is no value.
    by_cases hd : d = c
    · subst hd
      simp [hself, hnew] at hpres
    · exact absurd (hother d hd) hne
  · change (w.shared.setSlot c new).tombstoned d ≠ _ at hne
    -- A tombstone may come or go where the slot is exchanged, and nowhere else.
    by_cases hd : d = c
    · subst hd
      show w.shared.holder = some t ∧ _ ∧ ((w.shared.setSlot d new).slot d).content.isPresent = _
      rw [hself]
      exact ⟨hin.holder, hold, hnew⟩
    · exact absurd (Shared.tombstoned_setSlot_ne (Ne.symm hd) new) hne
  · change (w.shared.setSlot c new).tombstoned d = false at hd'
    by_cases hdc : d = c
    · subst hdc
      rw [Shared.tombstoned_setSlot_self hlt] at hd'
      exact hlifts hd'
    -- Another cell keeps its tombstone.
    · rw [Shared.tombstoned_setSlot_ne (Ne.symm hdc), hd] at hd'
      simp at hd'

/-- The same, if the slot of one cell is exchanged, which holds no value before or after. -/
theorem Inside.reaches_slot (hin : w.Inside t k phase) (hw : w.Sound)
    (hphase : ∀ key c, phase ≠ .reviving key c) {c : CellId} {new : Slot V}
    (htidy : Tidy phase' (w.shared.setSlot c new)) (hlt : c < w.shared.cells.size)
    (hgen : w.Genuine new) (hold : (w.shared.slot c).content.isPresent = false)
    (hnew : new.content.isPresent = false)
    (hserves : ∀ own j, w.standing c ≠ .retired own j .dropped)
    (hlifts : new.content.isTombstoned = false → ∃ key, phase' = .reviving key c)
    (hP : ∀ w', w'.shared = w.shared.setSlot c new → w'.Sound → w'.Inside t k phase' →
      w.Likewise w' → P w') :
    w.Reaches t (w.shared.setSlot c new) P :=
  hin.reaches_kept hw (hw.kept_setSlot hlt hgen hold hnew hserves) htidy hin.holder
    (hin.protocol_setSlot hphase hlt hold hnew hlifts) hP

/-- A cell that no key leads to may be added. -/
theorem Sound.kept_addCell (hw : w.Sound) {new : Slot V} (hgen : w.Genuine new) :
    w.Kept (w.reshaped (w.shared.addCell new).2 phase') where
  standing := rfl
  chronicle := rfl
  tickets := rfl
  rules := rfl
  clock := Nat.le_refl _
  minted _ _ := rfl
  find? _ := rfl
  snapshot _ := rfl
  size := by simp [reshaped, Shared.addCell]
  handle c hc := congrArg Slot.handle? (Shared.slot_addCell_of_lt hc new)
  -- The new slot is genuine by assumption, the others were so before.
  genuine c := by
    show w.Genuine ((w.shared.addCell new).2.slot c)
    rw [Shared.slot_addCell]
    split
    · exact hgen
    · exact hw.minted c
  dropped c own j hc := by
    show (w.shared.addCell new).2.tombstoned c = true
    -- A cell that was left out is not the new one.
    have hlt := hw.roster.used c (by simp [hc])
    rw [Shared.tombstoned, Shared.slot_addCell_of_lt hlt]
    exact hw.roster.dropped c own j hc

/-- The same, if a cell is added. -/
theorem Inside.reaches_cell (hin : w.Inside t k .rest) (hw : w.Sound) {new : Slot V}
    (hgen : w.Genuine new)
    (hP : ∀ w', w'.shared = (w.shared.addCell new).2 → w'.Sound → w'.Inside t k .rest →
      w.Likewise w' → P w') :
    w.Reaches t (w.shared.addCell new).2 P := by
  refine hin.reaches_kept hw (hw.kept_addCell hgen) ((hin.tidy hw).addCell new) hin.holder
    { installs := fun c hc hne => absurd (Shared.slot_addCell_of_lt hc new) hne
      tombstones := fun c hc hne =>
        absurd (congrArg (·.content.isTombstoned) (Shared.slot_addCell_of_lt hc new)) hne
      lifts := fun c hc hc' => ?_
      readmits := fun _ c hp => by simp [hin.phase] at hp } hP
  -- a name that no cell has reads as an absent slot, so the new cell lifts no tombstone
  have hlt := Shared.lt_of_tombstoned hc
  change (w.shared.addCell new).2.tombstoned c = false at hc'
  rw [Shared.tombstoned, Shared.slot_addCell_of_lt hlt] at hc'
  simp only [Shared.tombstoned] at hc
  simp [hc] at hc'

end World

open World

namespace Program

variable {α β : Type} {order : Enumeration K} {t : ThreadId} {w : World K V}
  {R : β → World K V → Prop} {k : Option (Ticket K V)}

/-! ## The mutex and the log -/

/-- Writing to the log changes nothing else. -/
theorem wp_emit {event : Event} {next : Unit → Program K V β}
    (h : ∀ w₁, w.Rely t w₁ → (next ()).wp order t R w₁) :
    ((Action.emit event).program >>= next).wp order t R w := by
  refine wp_effect (fun _ => rfl) fun w₁ hr hs => ?_
  have hquiet : w₁.Quiet t (w₁.reshaped (w₁.shared.record event) w₁.phase) :=
    quiet_reshaped rfl rfl rfl rfl (.inl rfl)
  exact hquiet.reaches hs (h _ (hr.trans (hquiet.rely hs rfl)))

/-- A walk visits the entries in some order. -/
theorem wp_walk {table : Table K} {next : List (K × CellId) → Program K V β}
    (h : ∀ w₁ entries, w.Rely t w₁ → entries.Perm table.entries →
      (next entries).wp order t R w₁) :
    ((Action.walk table).program >>= next).wp order t R w := by
  refine wp_effect (fun _ => rfl) fun w₁ hr hs => ?_
  have hquiet : w₁.Quiet t
      (w₁.reshaped { w₁.shared with walks := w₁.shared.walks + 1 } w₁.phase) :=
    quiet_reshaped rfl rfl rfl rfl (.inl rfl)
  exact hquiet.reaches hs (h _ _ (hr.trans (hquiet.rely hs rfl)) (order.perm _ _))

/-- What is done under the mutex starts at rest and has to come to rest. -/
theorem wp_locked {body : Program K V α} {Q : α → World K V → Prop} (hout : w.Outside t k)
    (h : ∀ w₁, w.Grows w₁ → w₁.Sound → w₁.Inside t k .rest →
      body.wp order t (fun x w₂ => ∃ k', w₂.Inside t k' .rest ∧
        ∀ w₃, w₂.Grows w₃ → w₃.Outside t k' → Q x w₃) w₁) :
    (Map.locked body).wp order t Q w := by
  intro w₁ hr hs
  have hout₁ := hout.rely hr
  refine ⟨fun _ => hout₁.holder, fun r hperf => ?_⟩
  obtain ⟨hfree, rfl⟩ := Action.of_perform_acquire hperf
  have hquiet : w₁.Quiet t (w₁.reshaped { w₁.shared with holder := some t } w₁.phase) :=
    quiet_reshaped rfl rfl rfl rfl (.inr (.inl ⟨hfree, rfl⟩))
  refine hquiet.reaches hs ?_
  show (body >>= fun x => Action.release.program >>= fun _ => done x).wp order t Q _
  refine wp_bind (wp_mono (h _ ?_ (hquiet.sound hs) ⟨?_, rfl, ?_⟩) ?_)
  · exact hr.grows.trans (hquiet.kept hs).grows
  · exact hout₁.ticket
  · exact hs.free hfree
  · -- the release
    rintro x w₂ ⟨k', hin, hQ⟩
    refine wp_effect (fun _ => rfl) fun w₃ hr₃ hs₃ => ?_
    have hin₃ := hin.rely hr₃
    have hrel : w₃.Quiet t (w₃.reshaped w₃.shared.release w₃.phase) :=
      quiet_reshaped rfl rfl rfl rfl (.inr (.inr ⟨hin₃.holder, rfl, hin₃.phase⟩))
    exact hrel.reaches hs₃ (hQ _ (hr₃.grows.trans (hrel.kept hs₃).grows)
      ⟨hin₃.ticket, by simp [reshaped, Shared.release]⟩)

/-! ## Promotion -/

variable [EquivBEq K]

/-- The snapshot that is answered is the one that was published. -/
theorem wp_promote {reason : PromotionReason} {Q : Snapshot K → World K V → Prop}
    (hin : w.Inside t k .rest) (hst : w.shared.staging.table.isSome = true)
    (hQ : ∀ x w', w'.Inside t k .rest → w.Charts w' x → Q x w') :
    (Map.promote reason).wp order t Q w := by
  refine wp_read (fun s => s.staging) (fun _ => rfl) fun w₁ hr hs => .here hs ?_
  refine wp_emit fun w₂ hr₂ => ?_
  have hr₂ := hr.trans hr₂
  obtain ⟨table, htable⟩ := Option.isSome_iff_exists.1 hst
  rw [(hin.frame hr).staging, htable]
  -- The table is published: an era ends, and the tombstoned cells cease to serve.
  refine wp_effect (fun _ => rfl) fun w₃ hr₃ hs₃ => ?_
  have hr₃ := hr₂.trans hr₃
  have hin₃ := hin.rely hr₃
  have hclosing := hs₃.closing_promoted hin₃.holder hin₃.phase
    ((congrArg Staging.table (hin.frame hr₃).staging).trans htable)
  have hin₄ : (w₃.promoted table).Inside t k .promoted := ⟨hin₃.ticket, hin₃.holder, rfl⟩
  have hcharts := (hclosing.sound hs₃).charts (rfl : (Snapshot.ofTable table).amended = false)
  refine ⟨_, rfl, hclosing.sound hs₃, hclosing.guarantee hs₃, ?_⟩
  -- What was staged is dropped; the snapshot serves every key as it stands.
  refine wp_effect (fun _ => rfl) fun w₅ hr₅ hs₅ => ?_
  have hin₅ := hin₄.rely hr₅
  have htidy := hin₅.tidy hs₅
  refine hin₅.reaches_tables hs₅ (by simp) htidy.dropPromoted rfl rfl rfl (fun _ => rfl)
    (Tidy.find?_drop htidy.phase.1) fun w' _ _ hin' hlike => hQ _ w' hin' ?_
  exact (hcharts.before (hr₃.grows.trans (hclosing.grows hs₃))).after
    (hr₅.grows.trans hlike.grows)

/-- Counting a miss may promote the staged table. -/
theorem wp_recordMiss {Q : Unit → World K V → Prop} (hin : w.Inside t k .rest)
    (hst : w.shared.staging.table.isSome = true)
    (hQ : ∀ w', w'.Inside t k .rest → w.Grows w' → Q () w') :
    Map.recordMiss.wp order t Q w := by
  refine wp_effect (fun _ => rfl) fun w₁ hr hs => ?_
  have hin₁ := hin.rely hr
  have hst₁ : w₁.shared.staging.table.isSome = true := by rw [(hin.frame hr).staging, hst]
  refine hin₁.reaches_tables hs (by simp) ((hin₁.tidy hs).setMisses hst₁ _) rfl rfl rfl
    (fun _ => rfl) (fun _ => rfl) fun w₂ hw₂ _ hin₂ hlike => ?_
  have hg := hr.grows.trans hlike.grows
  split
  · refine wp_bind (wp_promote hin₂ (by rw [hw₂]; exact hst₁) fun x w' hin' hcharts => ?_)
    exact hQ w' hin' (hg.trans hcharts.grows)
  · exact hQ w₂ hin₂ hg

/-! ## Copying the snapshot -/

/-- The cell of the next entry is tombstoned, or the entry is copied. -/
theorem wp_bury {Q : Bool → World K V → Prop} {copies : Table K} {e : K × CellId}
    {left : List (K × CellId)} (hin : w.Inside t k (.copying copies (e :: left)))
    (hburied : ∀ w', w'.Inside t k (.copying copies left) → w.Likewise w' →
      w'.shared.snapshot = w.shared.snapshot → Q true w')
    (hkept : ∀ w', w'.Inside t k (.copying (copies.insert e.1 e.2) left) → w.Likewise w' →
      w'.shared.snapshot = w.shared.snapshot → Q false w') :
    (Cell.bury e.2).wp order t Q w := by
  -- nobody else tombstones the cell, so a slot that is not absent holds a value
  have hlive : ∀ w₁, w.Rely t w₁ → w₁.Sound →
      w₁.shared.snapshot.find? e.1 = some e.2 ∧ w₁.shared.tombstoned e.2 = false := fun w₁ hr hs =>
    (((hin.rely hr).tidy hs).phase : Copying copies (e :: left) w₁.shared).leftLive e
      List.mem_cons_self
  have hcopy : ∀ w₁, w.Rely t w₁ → w₁.Sound → w₁.Reaches t w₁.shared fun w₂ =>
      (done (w₁.shared.slot e.2).content.isTombstoned).wp order t Q w₂ := by
    intro w₁ hr hs
    have hin₁ := hin.rely hr
    refine hin₁.reaches_tables hs (by simp) (hin₁.tidy hs).keep rfl rfl rfl (fun _ => rfl)
      (fun _ => rfl) fun w₂ hw₂ _ hin₂ hlike => ?_
    have hdone := hkept w₂ hin₂ ((hin.likewise hr).trans hlike)
      (by rw [hw₂, (hin.frame hr).snapshot])
    have hfalse : (w₁.shared.slot e.2).content.isTombstoned = false := (hlive w₁ hr hs).2
    rw [hfalse]
    exact hdone
  refine wp_readCell fun w₁ hr hs => ?_
  split
  · next hsight =>
    refine .here hs (wp_drawStamp .tombstoned 0 fun w₂ stamp hr₂ hmint => ?_)
    refine wp_update (hr₂.grows.genuine (hs.minted e.2)) (fun hnot => ?_) fun w₃ hr₃ hs₃ =>
      ⟨fun habsent => ?_, fun _ => hcopy w₃ ((hr.trans hr₂).trans hr₃) hs₃⟩
    · simp [hsight] at hnot
    · have hr₃' := (hr.trans hr₂).trans hr₃
      have hin₃ := hin.rely hr₃'
      obtain ⟨hfind, -⟩ := hlive w₃ hr₃' hs₃
      have hold : (w₃.shared.slot e.2).content.isPresent = false := by
        cases hcontent : (w₃.shared.slot e.2).content <;>
          simp_all [Content.isAbsent, Content.isPresent]
      refine hin₃.reaches_slot hs₃ (by simp) ((hin₃.tidy hs₃).bury rfl)
        ((hin₃.tidy hs₃).bounded _ _ hfind) (hr₃.grows.minted_of hmint).genuine hold rfl
        (fun own j hret => ?_) (fun hnot => by simp [Content.isTombstoned] at hnot)
        fun w₄ hw₄ _ hin₄ hlike => ?_
      · obtain ⟨own', hserves, -⟩ := (hs₃.roster.published _ _).1 hfind
        simp [hserves] at hret
      · refine hburied w₄ hin₄ ((hin.likewise hr₃').trans hlike) ?_
        rw [hw₄, Shared.snapshot_setSlot, (hin.frame hr₃').snapshot]
  · exact hcopy w₁ hr hs

/-- All entries are tombstoned or copied, one after the other. -/
theorem wp_copyLive {Q : Table K × Nat → World K V → Prop} {entries : List (K × CellId)}
    {copies : Table K} {buried : Nat} (hin : w.Inside t k (.copying copies entries))
    (hQ : ∀ x w', w'.Inside t k (.copying x.1 []) → w.Likewise w' →
      w'.shared.snapshot = w.shared.snapshot → Q x w') :
    (Map.copyLive entries copies buried).wp order t Q w := by
  induction entries generalizing w copies buried with
  | nil =>
      exact hQ (copies, buried) w hin ⟨.refl w, rfl, fun _ => rfl, fun _ => rfl⟩ rfl
  | cons e left ih =>
      refine wp_bind (wp_bury hin (fun w₁ hin₁ hlike hsnap => ?_) fun w₁ hin₁ hlike hsnap => ?_)
      · exact ih hin₁ fun x w' hin' hlike' hsnap' =>
          hQ x w' hin' (hlike.trans hlike') (hsnap'.trans hsnap)
      · exact ih hin₁ fun x w' hin' hlike' hsnap' =>
          hQ x w' hin' (hlike.trans hlike') (hsnap'.trans hsnap)

/-- Rebuilding leaves a staged copy behind, and every key is served as before. -/
theorem wp_rebuild {Q : Unit → World K V → Prop} {snapshot : Snapshot K}
    (hin : w.Inside t k .rest) (hsnap : w.shared.snapshot = snapshot)
    (ham : snapshot.amended = false)
    (hQ : ∀ w', w'.Inside t k .copied → w.Likewise w' → w'.shared.snapshot = snapshot →
      Q () w') : (Map.rebuild snapshot).wp order t Q w := by
  have ham₁ : ∀ w₁, w.Rely t w₁ → w₁.shared.snapshot.amended = false := fun w₁ hr => by
    rw [(hin.frame hr).snapshot, hsnap, ham]
  -- A complete snapshot means that nothing is staged, so there is something to rebuild.
  refine wp_read (fun s => s.staging.table.isSome) (fun _ => rfl) fun w₁ hr hs => .here hs ?_
  have hin₁ := hin.rely hr
  have hnone : w₁.shared.staging.table.isSome = false := by
    rw [(hin₁.tidy hs).staging_eq_empty (ham₁ w₁ hr)]
    rfl
  rw [if_neg (by simp [hnone])]
  -- The copying starts with the entries of the snapshot, in the order of the walk.
  refine wp_effect (fun _ => rfl) fun w₂ hr₂ hs₂ => ?_
  have hr₂ := hr.trans hr₂
  have hin₂ := hin.rely hr₂
  have hperm : (order.arrange w₂.shared.walks snapshot.table.entries).Perm
      w₂.shared.snapshot.table.entries := by
    rw [(hin.frame hr₂).snapshot, hsnap]
    exact order.perm _ _
  refine hin₂.reaches_tables hs₂ (by simp)
    (((hin₂.tidy hs₂).startCopying (ham₁ w₂ hr₂) hperm).congr rfl rfl (Nat.le_refl _)
      fun _ _ => rfl) rfl rfl rfl (fun _ => rfl) (fun _ => rfl) fun w₃ hw₃ _ hin₃ hlike₃ => ?_
  have hlike₃ := (hin.likewise hr₂).trans hlike₃
  have hsnap₃ : w₃.shared.snapshot = snapshot := by
    rw [hw₃, ← hsnap, ← (hin.frame hr₂).snapshot]
    rfl
  -- Every entry is tombstoned or copied, and then the copies are installed.
  refine wp_bind (wp_copyLive hin₃ fun x w₄ hin₄ hlike₄ hsnap₄ => ?_)
  refine wp_emit fun w₅ hr₅ => ?_
  refine wp_effect (fun _ => rfl) fun w₆ hr₆ hs₆ => ?_
  have hr₆ := hr₅.trans hr₆
  have hin₆ := hin₄.rely hr₆
  have htidy := hin₆.tidy hs₆
  have ham₆ : w₆.shared.snapshot.amended = false :=
    (htidy.phase : Copying x.1 [] w₆.shared).complete
  refine hin₆.reaches_tables hs₆ (by simp) htidy.install rfl rfl rfl (fun _ => rfl)
    (fun key => by simp [Shared.find?, Shared.setStaged, ham₆]) fun w' hw' _ hin' hlike' => ?_
  refine hQ w' hin' ((hlike₃.trans hlike₄).trans ((hin₄.likewise hr₆).trans hlike')) ?_
  rw [hw']
  exact ((hin₄.frame hr₆).snapshot.trans hsnap₄).trans hsnap₃

/-- Afterwards the snapshot is amended, and every key is served as before. -/
theorem wp_openStaging {Q : Unit → World K V → Prop} {snapshot : Snapshot K}
    (hin : w.Inside t k .rest) (hsnap : w.shared.snapshot = snapshot)
    (hQ : ∀ w', w'.Inside t k .rest → w.Likewise w' → w'.shared.snapshot.amended = true →
      Q () w') : (Map.openStaging snapshot).wp order t Q w := by
  unfold Map.openStaging
  split
  · next ham =>
    exact hQ w hin ⟨.refl w, rfl, fun _ => rfl, fun _ => rfl⟩ (by rw [hsnap, ham])
  · next ham =>
    refine wp_bind (wp_rebuild hin hsnap (by simpa using ham) fun w₁ hin₁ hlike hsnap₁ => ?_)
    refine wp_effect (fun _ => rfl) fun w₂ hr₂ hs₂ => ?_
    have hin₂ := hin₁.rely hr₂
    have hsnap₂ : snapshot = w₂.shared.snapshot := by
      rw [(hin₁.frame hr₂).snapshot, hsnap₁]
    subst hsnap₂
    refine hin₂.reaches_tables hs₂ (by simp) (hin₂.tidy hs₂).announce rfl rfl rfl
      (fun _ => rfl) ((hin₂.tidy hs₂).find?_announce) fun w' hw' _ hin' hlike' => ?_
    exact hQ w' hin' (hlike.trans ((hin₁.likewise hr₂).trans hlike')) (by rw [hw']; rfl)

/-! ## Staging -/

omit [EquivBEq K] in
/-- A cell is made that serves no key so far. -/
theorem wp_newCell {new : Slot V} {next : CellId → Program K V β} (hin : w.Inside t k .rest)
    (hgen : w.Genuine new)
    (h : ∀ c w', w'.Sound → w'.Inside t k .rest → w.Likewise w' →
      w'.shared.snapshot = w.shared.snapshot → w'.standing c = .unused →
      c < w'.shared.cells.size → w'.shared.slot c = new → (next c).wp order t R w') :
    ((Action.newCell new).program >>= next).wp order t R w := by
  refine wp_effect (fun _ => rfl) fun w₁ hr hs => ?_
  refine (hin.rely hr).reaches_cell hs (hr.grows.genuine hgen) fun w₂ hw₂ hs₂ hin₂ hlike => ?_
  refine h w₁.shared.cells.size w₂ hs₂ hin₂ ((hin.likewise hr).trans hlike) ?_ ?_ ?_ ?_
  · rw [hw₂]
    exact (hin.frame hr).snapshot
  · rw [hlike.standing]
    by_contra hne
    exact absurd (hs.roster.used _ hne) (Nat.lt_irrefl _)
  · rw [hw₂]
    simp [Shared.addCell]
  · rw [hw₂, Shared.slot_addCell, if_pos rfl]

/-- A call takes effect by staging its key, which neither table has, with a new cell. -/
theorem wp_stageNew {Q : Unit → World K V → Prop} {k : Ticket K V} {key : K} {new : Handle V}
    {answer : Answer V} {snapshot : Snapshot K} (hin : w.Inside t (some k) .rest)
    (hsnap : w.shared.snapshot = snapshot) (hpend : k.progress = .pending)
    (hkey : k.request.key? = some key) (hunlisted : w.shared.snapshot.find? key = none)
    (hunstaged : w.shared.staging.find? key = none)
    (hmint : w.Minted new.stamp (.present new.value) k.id)
    (heff : k.request.effect new.stamp none = (answer, some new))
    (hQ : ∀ w', w'.Inside t (some (k.closed answer)) .rest → w.Grows w' → Q () w') :
    (Map.stageNew snapshot key new).wp order t Q w := by
  have hmiss : w.shared.find? key = none := by simp [Shared.find?, hunlisted, hunstaged]
  refine wp_bind (wp_openStaging hin hsnap fun w₁ hin₁ hlike₁ ham₁ => ?_)
  refine wp_newCell hin₁ (hlike₁.grows.minted_of hmint).genuine
    fun c w₂ hs₂ hin₂ hlike₂ hsnap₂ hunused hlt hslot => ?_
  refine wp_effect (fun _ => rfl) fun w₃ hr₃ hs₃ => ?_
  have hin₃ := hin₂.rely hr₃
  have hframe := hin₂.frame hr₃
  have hlike₃ := (hlike₁.trans hlike₂).trans (hin₂.likewise hr₃)
  have ham : w₃.shared.snapshot.amended = true := by rw [hframe.snapshot, hsnap₂, ham₁]
  have hlist : w₃.shared.snapshot.find? key = none := (hlike₃.snapshot key).trans hunlisted
  -- the others leave a cell alone that serves no key
  have hslot₃ : w₃.shared.slot c = new.slot := (hframe.unused c hunused).trans hslot
  have hinsert : w₃.Inserting t k key c new.stamp :=
    { ticket := hin₃.ticket
      pending := hpend
      about := hkey
      holder := hin₃.holder
      rest := hin₃.phase
      amended := ham
      unlisted := hlist
      unstaged := by
        rw [← Shared.find?_of_staging hlist ham, hlike₃.find?, hmiss]
      unused := by rw [hframe.standing, hunused]
      lt := by rwa [hframe.size]
      live := by simp [Shared.tombstoned, hslot₃, Content.isTombstoned]
      stamped := fun v _ => (hlike₃.grows.minted_of hmint).stamped
      slot := by rw [hslot₃, heff, Slot.handle?_slot] }
  refine ⟨_, rfl, hinsert.sound hs₃, hinsert.guarantee, hQ _ ⟨?_, hin₃.holder, hin₃.phase⟩
    (hlike₃.grows.trans hinsert.grows)⟩
  have hanswer : answer = (k.request.effect new.stamp none).1 := by rw [heff]
  rw [hanswer]
  exact Function.update_self _ _ _

omit [EquivBEq K] in
/-- A tombstoned cell of the snapshot is lifted. -/
theorem wp_revive {Q : Bool → World K V → Prop} {key : K} {c : CellId}
    (hin : w.Inside t k .rest) (hc : w.shared.snapshot.find? key = some c)
    (hlive : ∀ w', w.Rely t w' → w'.shared.tombstoned c = false → Q false w')
    (hlifted : ∀ w', w'.Inside t k (.reviving key c) → w.Likewise w' → Q true w') :
    (Cell.revive c).wp order t Q w := by
  refine wp_readCell fun w₁ hr hs => .here hs ?_
  split
  · next htomb =>
    refine wp_drawStamp .absent 0 fun w₂ stamp hr₂ hmint => ?_
    refine wp_effect (fun _ => rfl) fun w₃ hr₃ hs₃ => ?_
    have hr₁₃ := hr₂.trans hr₃
    have hr₃' := hr.trans hr₁₃
    have hin₃ := hin.rely hr₃'
    -- nobody else touches a tombstone, so the exchange succeeds
    have hsame : w₃.shared.slot c = w₁.shared.slot c :=
      ((hin.rely hr).frame hr₁₃).buried c htomb
    rw [Shared.compareExchange, if_pos (congrArg Slot.stamp hsame)]
    have hfind : w₃.shared.snapshot.find? key = some c := by
      rw [(hin.frame hr₃').snapshot, hc]
    have htomb₃ : w₃.shared.tombstoned c = true := by rw [Shared.tombstoned, hsame, htomb]
    refine hin₃.reaches_slot hs₃ (by simp) ((hin₃.tidy hs₃).revive hfind htomb₃ rfl)
      ((hin₃.tidy hs₃).bounded _ _ hfind) (hr₃.grows.minted_of hmint).genuine ?_ rfl
      (fun own j hret => ?_) (fun _ => ⟨key, rfl⟩)
      fun w₄ _ _ hin₄ hlike => hlifted w₄ hin₄ ((hin.likewise hr₃').trans hlike)
    · cases hcontent : (w₃.shared.slot c).content <;>
        simp_all [Content.isTombstoned, Content.isPresent, Shared.tombstoned]
    · obtain ⟨own', hserves, -⟩ := (hs₃.roster.published _ _).1 hfind
      simp [hserves] at hret
  · next htomb => exact hlive w₁ hr (by simpa [Shared.tombstoned] using htomb)

/-- Afterwards the cell of the snapshot is not tombstoned, and staged unless nothing is. -/
theorem wp_readmitted {Q : Unit → World K V → Prop} {key : K} {c : CellId}
    (hin : w.Inside t k .rest) (hc : w.shared.snapshot.find? key = some c)
    (hQ : ∀ w', w'.Inside t k .rest → w.Likewise w' → w'.shared.tombstoned c = false →
      Q () w') : (Map.readmit key c).wp order t Q w := by
  refine wp_bind (wp_revive hin hc (fun w₁ hr hlive => ?_) fun w₁ hin₁ hlike => ?_)
  · exact hQ w₁ (hin.rely hr) (hin.likewise hr) hlive
  · refine wp_effect (fun _ => rfl) fun w₂ hr₂ hs₂ => ?_
    have hin₂ := hin₁.rely hr₂
    have htidy := hin₂.tidy hs₂
    refine hin₂.reaches_tables hs₂ (fun key' c' hp => ⟨key, ?_⟩) (htidy.readmit BEq.rfl) rfl rfl rfl
      (fun _ => rfl) (htidy.find?_readmit BEq.rfl) fun w' hw' hs' hin' hlike' => ?_
    · obtain ⟨rfl, rfl⟩ := Phase.reviving.inj hp
      rw [Shared.setStaged, Staging.find?_insert, if_pos BEq.rfl]
    · refine hQ w' hin' (hlike.trans ((hin₁.likewise hr₂).trans hlike')) ?_
      refine (hin'.tidy hs').stagedLive key c ?_
      rw [hw', Shared.setStaged, Staging.find?_insert, if_pos BEq.rfl]

end Program

end ConcurrentMap
