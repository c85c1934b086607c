import ConcurrentMap.Proofs.Interference.Logic

/-!
# Operations on a cell among others

The call of a thread takes effect in the one step at which an operation on the cell of its key is
decided: where the slot is exchanged, or where a slot is read that stops the operation. So each
operation of `Cell` has one rule, which says what the call has answered when the operation is done.
The rules do not ask whether the cell still serves the key.
-/

namespace ConcurrentMap

variable {K V : Type}

/-- The request always writes `v`, and answers in a way that depends on what it replaces. -/
def Request.Overwrites [BEq V] (r : Request K V) (v : V) (answer : Option (Handle V) → Answer V) :
    Prop :=
  ∀ stamp held, r.effect stamp held = (answer held, some (⟨stamp, v⟩ : Handle V))

/-- The request empties its key as long as the content is `wanted`, and answers in a way that
depends on the slot it emptied. -/
structure Request.Vacates [BEq V] (r : Request K V) (wanted : Content V → Bool)
    (answer : Option (Slot V) → Answer V) : Prop where
  value? : r.value? = none
  live : ∀ content, wanted content = true → content.isTombstoned = false
  vacated : ∀ x : Slot V, wanted x.content = true → ∀ stamp,
    r.effect stamp x.handle? = (answer (some x), none)
  refused : ∀ x : Slot V, wanted x.content = false → ∀ stamp,
    r.effect stamp x.handle? = (answer none, x.handle?)

namespace World

/-- The stamp was drawn by the call `id` for a slot with this content. -/
def Minted (w : World K V) (stamp : Stamp) (content : Content V) (id : CallId) : Prop :=
  stamp < w.shared.clock ∧ w.mint stamp = (content, id)

variable {w w' : World K V} {t : ThreadId}

/-- A stamp that a call drew stays that call's, with its content. -/
theorem Grows.minted_of [BEq K] [BEq V] {stamp : Stamp} {content : Content V} {id : CallId}
    (h : w.Grows w') (hm : w.Minted stamp content id) : w'.Minted stamp content id :=
  ⟨Nat.lt_of_lt_of_le hm.1 h.clock, by rw [h.minted _ hm.1, hm.2]⟩

/-- A slot made of a stamp and the content it was drawn for is genuine. -/
theorem Minted.genuine {stamp : Stamp} {content : Content V} {id : CallId}
    (h : w.Minted stamp content id) : w.Genuine ⟨stamp, content⟩ :=
  ⟨h.1, by rw [h.2]⟩

/-- A stamp drawn for a value is in use, and it is its call's. -/
theorem Minted.stamped {stamp : Stamp} {v : V} {id : CallId}
    (h : w.Minted stamp (.present v) id) : stamp < w.shared.clock ∧ (w.mint stamp).2 = id :=
  ⟨h.1, by rw [h.2]⟩

/-- The world after a stamp was drawn by the call `id` for this content. -/
def drawn (w : World K V) (content : Content V) (id : CallId) : World K V :=
  { w with
    shared := { w.shared with clock := w.shared.clock + 1 }
    mint := Function.update w.mint w.shared.clock (content, id) }

/-- Drawing a stamp touches neither the tables nor the cells. -/
theorem quiet_drawn (w : World K V) (t : ThreadId) (content : Content V) (id : CallId) :
    w.Quiet t (w.drawn content id) where
  standing := rfl
  chronicle := rfl
  tickets := rfl
  rules := rfl
  phase := rfl
  snapshot := rfl
  staging := rfl
  cells := rfl
  clock := Nat.le_succ _
  minted _ hx := Function.update_of_ne (Nat.ne_of_lt hx) _ _
  holder := .inl rfl

/-- The stamp drawn is the one that the clock shows. -/
theorem minted_drawn (w : World K V) (content : Content V) (id : CallId) :
    (w.drawn content id).Minted w.shared.clock content id :=
  ⟨Nat.lt_succ_self _, Function.update_self _ _ _⟩

variable [BEq K] [BEq V]

/-- A quiet step that leaves the mutex alone changes nothing for the thread itself. -/
theorem Quiet.rely (h : w.Quiet t w') (hw : w.Sound)
    (hholder : w'.shared.holder = w.shared.holder) : w.Rely t w' :=
  ⟨⟨(h.kept hw).grows, by rw [hholder], fun _ => h.frame⟩, by rw [h.tickets]⟩

/-- A call that has not taken effect still counts at its cell later on. -/
theorem Engaged.grows {k : Ticket K V} {key : K} {c : CellId} (h : w.Engaged t k key c)
    (hg : w.Grows w') (hk : w'.tickets t = some k) : w'.Engaged t k key c where
  ticket := hk
  progress := h.progress.imp id fun ⟨j, own, hp, hs⟩ => by
    have hlead := hg.standing c
    rw [hs] at hlead
    exact ⟨j, own, hp, hlead⟩
  about := h.about
  knows := hg.knows h.knows

/-- A call still counts at its cell after the steps of the others. -/
theorem Engaged.rely {k : Ticket K V} {key : K} {c : CellId} (h : w.Engaged t k key c)
    (hr : w.Rely t w') : w'.Engaged t k key c :=
  h.grows hr.grows (hr.ticket.trans h.ticket)

/-! ## Where a call on a cell is decided -/

variable [EquivBEq K] {k : Ticket K V} {key : K} {c : CellId} {P : World K V → Prop}
  {answer : Answer V}

/-- Where the slot is read or exchanged, the call is answered and the thread goes on with that. -/
theorem Settling.reaches {stamp : Stamp} {s' : Shared K V} (h : w.Settling t k key c stamp s')
    (hw : w.Sound) (hanswer : (k.request.effect stamp (w.shared.slot c).handle?).1 = answer)
    (hP : ∀ w', w.Along t w' → w'.tickets t = some (k.closed answer) → P w') :
    w.Reaches t s' P := by
  refine ⟨_, rfl, h.sound hw, h.guarantee hw, hP _ (h.along hw) ?_⟩
  rw [← hanswer]
  exact Function.update_self _ _ _

/-- The slot that is read settles the call. -/
theorem Engaged.reaches_read (h : w.Engaged t k key c) (hw : w.Sound) (stamp : Stamp)
    (hstamp : ∀ v, k.request.value? = some v →
      stamp < w.shared.clock ∧ (w.mint stamp).2 = k.id)
    (heff : k.request.effect stamp (w.shared.slot c).handle? =
      (answer, (w.shared.slot c).handle?))
    (hP : ∀ w', w.Along t w' → w'.tickets t = some (k.closed answer) → P w') :
    w.Reaches t w.shared P := by
  have hset : w.Settling t k key c stamp w.shared :=
    { h with
      touches := .refl c _
      genuine := hw.minted c
      stamped := hstamp
      slot := by rw [heff]
      installs := fun hne => absurd rfl hne }
  exact hset.reaches hw (by rw [heff]) hP

/-- The slot is exchanged for another one that is no tombstone either. -/
theorem Engaged.reaches_exchange (h : w.Engaged t k key c) (hw : w.Sound) {new : Slot V}
    (stamp : Stamp)
    (hstamp : ∀ v, k.request.value? = some v →
      stamp < w.shared.clock ∧ (w.mint stamp).2 = k.id)
    (hgen : w.Genuine new) (hnew : new.content.isTombstoned = false)
    (hlive : w.shared.tombstoned c = false)
    (hmay : new.content.isPresent = true → w.MayInstall t c)
    (heff : k.request.effect stamp (w.shared.slot c).handle? = (answer, new.handle?))
    (hP : ∀ w', w.Along t w' → w'.tickets t = some (k.closed answer) → P w') :
    w.Reaches t (w.shared.setSlot c new) P := by
  have hlt : c < w.shared.cells.size := by
    obtain ⟨own, hown, -⟩ := h.knows
    exact hw.roster.used c fun hu => by simp [hu, Standing.key?] at hown
  have hslot : (w.shared.setSlot c new).slot c = new := Shared.slot_setSlot_self hlt new
  have hset : w.Settling t k key c stamp (w.shared.setSlot c new) :=
    { h with
      touches := .setSlot hnew hlive
      genuine := by rw [hslot]; exact hgen
      stamped := hstamp
      slot := by rw [hslot, heff]
      installs := by rw [hslot]; exact fun _ => hmay }
  exact hset.reaches hw (by rw [heff]) hP

end World

open World

namespace Program

variable [BEq K] [BEq V] {β : Type} {order : Enumeration K} {t : ThreadId} {w : World K V}
  {R : β → World K V → Prop}

/-- Reading a cell. -/
theorem wp_readCell {c : CellId} {next : Slot V → Program K V β}
    (h : ∀ w₁, w.Rely t w₁ → w₁.Sound →
      w₁.Reaches t w₁.shared fun w₂ => (next (w₁.shared.slot c)).wp order t R w₂) :
    ((Action.readCell c).program >>= next).wp order t R w :=
  wp_read (fun s => s.slot c) (fun _ => rfl) h

/-- Drawing a stamp, for a slot whose content is known beforehand. -/
theorem wp_drawStamp {next : Stamp → Program K V β} (content : Content V) (id : CallId)
    (h : ∀ w₁ stamp, w.Rely t w₁ → w₁.Minted stamp content id →
      (next stamp).wp order t R w₁) :
    (Action.drawStamp.program >>= next).wp order t R w := by
  refine wp_effect (fun _ => rfl) fun w₁ hr hs => ?_
  have hquiet := w₁.quiet_drawn t content id
  exact hquiet.reaches hs (h _ _ (hr.trans (hquiet.rely hs rfl)) (w₁.minted_drawn content id))

/-! ## The operations -/

variable [EquivBEq K] {k : Ticket K V} {key : K} {c : CellId}

/-- A load is answered with what its cell holds. -/
theorem wp_cellLoad {Q : Option (Handle V) → World K V → Prop} (he : w.Engaged t k key c)
    (hreq : k.request = .load key)
    (hQ : ∀ held w', w.Along t w' → w'.tickets t = some (k.closed (.found held)) → Q held w') :
    (Cell.load c).wp order t Q w := by
  refine wp_readCell fun w₁ hr hs => ?_
  refine (he.rely hr).reaches_read hs 0 ?_ ?_ fun w' ha ht =>
    hQ _ w' (hr.along.trans ha) ht
  · simp [hreq, Request.value?]
  · rw [hreq]
    rfl

omit [EquivBEq K] in
/-- A load that is no call answers what the cell holds. -/
theorem wp_sight {Q : Option (Handle V) → World K V → Prop}
    (hQ : ∀ w', w.Rely t w' → w'.Sound → Q (w'.shared.slot c).handle? w') :
    (Cell.load c).wp order t Q w :=
  wp_readCell fun w₁ hr hs => .here hs (hQ w₁ hr hs)

omit [EquivBEq K] in
/-- A load that nobody asked for answers nothing that has to be accounted for. -/
theorem wp_peek {Q : Option (Handle V) → World K V → Prop}
    (hQ : ∀ held w', w.Rely t w' → Q held w') : (Cell.load c).wp order t Q w :=
  wp_sight fun w₁ hr _ => hQ _ w₁ hr

/-- An operation that empties its cell is answered with the slot that it removed, if any. -/
theorem wp_vacate {Q : Option (Slot V) → World K V → Prop} {wanted : Content V → Bool}
    {answer : Option (Slot V) → Answer V} (he : w.Engaged t k key c)
    (hreq : k.request.Vacates wanted answer)
    (hQ : ∀ previous w', w.Along t w' → w'.tickets t = some (k.closed (answer previous)) →
      Q previous w') : (Cell.vacate c wanted).wp order t Q w := by
  have hstamp : ∀ {w' : World K V} v, k.request.value? = some v →
      0 < w'.shared.clock ∧ (w'.mint 0).2 = k.id := fun v hv => by simp [hreq.value?] at hv
  refine wp_readCell fun w₁ hr hs => ?_
  split
  -- The slot is wanted at the first sight: every attempt decides on the slot that it meets.
  · next hsight =>
    refine .here hs (wp_drawStamp .absent k.id fun w₂ stamp hr₂ hmint => ?_)
    have hgen := hr₂.grows.genuine (hs.minted c)
    have hr₂ := hr.trans hr₂
    refine wp_update hgen (fun hunwanted => ?_) fun w₃ hr₃ hs₃ =>
      ⟨fun hwanted => ?_, fun hnot => ?_⟩
    · simp [hsight] at hunwanted
    -- The exchange succeeds, and the call takes effect with it.
    · have hr₁₃ := hr₂.trans hr₃
      refine (he.rely hr₁₃).reaches_exchange hs₃ 0 hstamp
        (hr₃.grows.minted_of hmint).genuine rfl (hreq.live _ hwanted)
        (fun h => by simp [Content.isPresent] at h) ?_
        fun w' ha ht => hQ _ w' (hr₁₃.along.trans ha) ht
      exact hreq.vacated _ hwanted 0
    -- The slot that the exchange met is not wanted, which settles the call.
    · have hr₁₃ := hr₂.trans hr₃
      exact (he.rely hr₁₃).reaches_read hs₃ 0 hstamp (hreq.refused _ hnot 0)
        fun w' ha ht => hQ _ w' (hr₁₃.along.trans ha) ht
  -- Nothing to remove at the first sight.
  · next hsight =>
    exact (he.rely hr).reaches_read hs 0 hstamp
      (hreq.refused _ (by simpa using hsight) 0) fun w' ha ht => hQ _ w' (hr.along.trans ha) ht

omit [BEq K] [EquivBEq K] in
private theorem effect_compareAndSwap {old : V} {new : Handle V} (x : Slot V) :
    (Request.compareAndSwap key old new.value).effect new.stamp x.handle? =
      if Content.holds old x.content then (.decided true, some new)
      else (.decided false, x.handle?) := by
  obtain ⟨stamp, content⟩ := x
  cases content <;> rfl

/-- A comparison on a cell is answered with whether the value was exchanged. -/
theorem wp_compareAndSwap {Q : Bool → World K V → Prop} {old : V} {new : Handle V}
    (he : w.Engaged t k key c) (hreq : k.request = .compareAndSwap key old new.value)
    (hmint : w.Minted new.stamp (.present new.value) k.id) (hmay : w.MayInstall t c)
    (hQ : ∀ swapped w', w.Along t w' → w'.tickets t = some (k.closed (.decided swapped)) →
      Q swapped w') : (Cell.compareAndSwap c old new).wp order t Q w := by
  -- if the slot stops the exchange, the answer is that nothing was swapped
  have hrefuse : ∀ w₁, w.Rely t w₁ → w₁.Sound →
      Content.holds old (w₁.shared.slot c).content = false →
        w₁.Reaches t w₁.shared fun w₂ => (done false).wp order t Q w₂ := by
    intro w₁ hr hs hnot
    refine (he.rely hr).reaches_read hs new.stamp (fun v _ => (hr.grows.minted_of hmint).stamped) ?_
      fun w' ha ht => hQ false w' (hr.along.trans ha) ht
    rw [hreq, effect_compareAndSwap, hnot]
    rfl
  refine wp_readCell fun w₁ hr hs => ?_
  cases hsight : Content.holds old (w₁.shared.slot c).content
  · refine (hrefuse w₁ hr hs hsight).mono fun w₂ hdone => ?_
    simp only [Update.program, hsight, Bool.false_eq_true, if_false]
    exact hdone
  · refine .here hs (wp_update (hs.minted c) (fun hnot => ?_) fun w₂ hr₂ hs₂ =>
      ⟨fun hholds => ?_, fun hnot => hrefuse w₂ (hr.trans hr₂) hs₂ hnot⟩)
    · simp [hsight] at hnot
    · have hr₂ := hr.trans hr₂
      have hmint₂ := hr₂.grows.minted_of hmint
      refine (he.rely hr₂).reaches_exchange hs₂ new.stamp (fun v _ => hmint₂.stamped)
        hmint₂.genuine rfl ?_ (fun _ => hr₂.along.mayInstall hmay) ?_
        fun w' ha ht => hQ true w' (hr₂.along.trans ha) ht
      · cases hcontent : (w₂.shared.slot c).content <;>
          simp_all [Shared.tombstoned, Content.holds, Content.isTombstoned]
      · rw [hreq, effect_compareAndSwap, if_pos hholds]
        rfl

/-- Without an answer the cell was tombstoned, and the call has not taken effect. -/
theorem wp_trySwap {Q : Option (Option (Handle V)) → World K V → Prop} {new : Handle V}
    {answer : Option (Handle V) → Answer V} (he : w.Engaged t k key c)
    (hreq : k.request.Overwrites new.value answer)
    (hmint : w.Minted new.stamp (.present new.value) k.id) (hmay : w.MayInstall t c)
    (hQ : ∀ previous w', w.Along t w' → w'.tickets t = some (k.closed (answer previous)) →
      Q (some previous) w')
    (hnone : ∀ w', w.Rely t w' → Q none w') : (Cell.trySwap c new).wp order t Q w := by
  refine wp_readCell fun w₁ hr hs => .here hs (wp_update (hs.minted c) (fun _ => hnone w₁ hr)
    fun w₂ hr₂ hs₂ => ⟨fun hlive => ?_, fun _ => .here hs₂ (hnone w₂ (hr.trans hr₂))⟩)
  have hr₂ := hr.trans hr₂
  have hmint₂ := hr₂.grows.minted_of hmint
  refine (he.rely hr₂).reaches_exchange hs₂ new.stamp (fun v _ => hmint₂.stamped) hmint₂.genuine rfl
    (by simpa [Shared.tombstoned] using hlive) (fun _ => hr₂.along.mayInstall hmay) (hreq _ _)
    fun w' ha ht => hQ _ w' (hr₂.along.trans ha) ht

/-- Without an answer the cell was tombstoned, and the call has not taken effect. -/
theorem wp_tryLoadOrStore {Q : Option (Handle V × Bool) → World K V → Prop} {new : Handle V}
    (he : w.Engaged t k key c) (hreq : k.request = .loadOrStore key new.value)
    (hmint : w.Minted new.stamp (.present new.value) k.id) (hmay : w.MayInstall t c)
    (hQ : ∀ x w', w.Along t w' → w'.tickets t = some (k.closed (.settled x.1 x.2)) →
      Q (some x) w')
    (hnone : ∀ w', w.Rely t w' → w'.shared.tombstoned c = true → Q none w') :
    (Cell.tryLoadOrStore c new).wp order t Q w := by
  -- a slot that is not absent holds the value that is answered, or a tombstone
  have hrefuse : ∀ w₁, w.Rely t w₁ → w₁.Sound → (w₁.shared.slot c).content.isAbsent = false →
      w₁.Reaches t w₁.shared fun w₂ =>
        (done ((w₁.shared.slot c).handle?.map fun h => (h, true))).wp order t Q w₂ := by
    intro w₁ hr hs hnot
    cases hcontent : (w₁.shared.slot c).content with
    | absent => simp [hcontent, Content.isAbsent] at hnot
    | tombstoned =>
        refine .here hs ?_
        have htomb : w₁.shared.tombstoned c = true := by
          simp [Shared.tombstoned, hcontent, Content.isTombstoned]
        rw [Shared.handle?_of_tombstoned htomb]
        exact hnone w₁ hr htomb
    | present v =>
        have hheld : (w₁.shared.slot c).handle? = some ⟨(w₁.shared.slot c).stamp, v⟩ := by
          simp [Slot.handle?, hcontent]
        have heff : k.request.effect new.stamp (w₁.shared.slot c).handle? =
            (.settled ⟨(w₁.shared.slot c).stamp, v⟩ true, (w₁.shared.slot c).handle?) := by
          rw [hreq, hheld]
          rfl
        rw [hheld]
        exact (he.rely hr).reaches_read hs new.stamp
          (fun v _ => (hr.grows.minted_of hmint).stamped) heff
          fun w' ha ht => hQ (_, true) w' (hr.along.trans ha) ht
  refine wp_readCell fun w₁ hr hs => ?_
  cases hsight : (w₁.shared.slot c).content.isAbsent
  · refine (hrefuse w₁ hr hs hsight).mono fun w₂ hdone => ?_
    simp only [Update.program, hsight, Bool.false_eq_true, if_false]
    exact hdone
  · refine .here hs (wp_update (hs.minted c) (fun hnot => ?_) fun w₂ hr₂ hs₂ =>
      ⟨fun habsent => ?_, fun hnot => hrefuse w₂ (hr.trans hr₂) hs₂ hnot⟩)
    · simp [hsight] at hnot
    · have hr₂ := hr.trans hr₂
      have hmint₂ := hr₂.grows.minted_of hmint
      have hcontent : (w₂.shared.slot c).content = .absent := by
        cases hcontent : (w₂.shared.slot c).content <;> simp_all [Content.isAbsent]
      refine (he.rely hr₂).reaches_exchange hs₂ new.stamp (fun v _ => hmint₂.stamped)
        hmint₂.genuine rfl ?_ (fun _ => hr₂.along.mayInstall hmay) ?_
        fun w' ha ht => hQ (new, false) w' (hr₂.along.trans ha) ht
      · simp [Shared.tombstoned, hcontent, Content.isTombstoned]
      · rw [hreq]
        simp [Slot.handle?, hcontent, Request.effect]

/-- The holder of the mutex knows that a live cell stays so until the exchange. -/
theorem wp_cellSwap {Q : Option (Handle V) → World K V → Prop} {new : Handle V}
    {answer : Option (Handle V) → Answer V} (he : w.Engaged t k key c)
    (hholder : w.shared.holder = some t) (hlive : w.shared.tombstoned c = false)
    (hreq : k.request.Overwrites new.value answer)
    (hmint : w.Minted new.stamp (.present new.value) k.id) (hmay : w.MayInstall t c)
    (hQ : ∀ previous w', w.Along t w' → w'.tickets t = some (k.closed (answer previous)) →
      Q previous w') : (Cell.swap c new).wp order t Q w := by
  refine wp_effect (fun _ => rfl) fun w₁ hr hs => ?_
  have hmint₁ := hr.grows.minted_of hmint
  refine (he.rely hr).reaches_exchange hs new.stamp (fun v _ => hmint₁.stamped) hmint₁.genuine
    rfl ?_ (fun _ => hr.along.mayInstall hmay) (hreq _ _) fun w' ha ht => hQ _ w' (hr.along.trans ha) ht
  rw [(hr.along.frame hholder).tombstoned, hlive]

end Program

end ConcurrentMap
