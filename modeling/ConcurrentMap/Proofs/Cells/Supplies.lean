import ConcurrentMap.Proofs.Cells.Access

/-!
# Which slots an operation may put into a cell

`Program.Supplied` says that a program puts slots into cells that are known, or that it allocates
itself: for every stamp that it draws there is one content for which it does so. An operation that
is called with known slots is supplied (`Cell.Access.supplied`).
-/

namespace ConcurrentMap

variable {K V α β : Type}

/-- The slot that the action may put into a cell. -/
def Action.slot? : Action K V → Option (Slot V)
  | .newCell x => some x
  | .exchange _ x => some x
  | .compareExchange _ _ x => some x
  | _ => none

/-- What is known after the action: if it draws a stamp, that is for a slot with this content. -/
def Action.supplies (content : Content V) (known : Slot V → Prop) :
    (a : Action K V) → a.Response → Slot V → Prop
  | .drawStamp, stamp => fun x => known x ∨ x = ⟨stamp, content⟩
  | _, _ => known

/-- The program puts slots into cells that are known, or that it allocates itself. -/
def Program.Supplied : Program K V α → (Slot V → Prop) → Prop
  | .done _, _ => True
  | .act a next, known => (∀ x, a.slot? = some x → known x) ∧
      ∃ content, ∀ r, (next r).Supplied (a.supplies content known r)
  | .retry u next, known => known u.candidate ∧ ∀ o, (next o).Supplied known

namespace Program

variable {p : Program K V α} {known known' : Slot V → Prop}

/-- A program that does with some slots does with more of them. -/
theorem Supplied.mono (h : p.Supplied known) (himp : ∀ x, known x → known' x) :
    p.Supplied known' := by
  induction p generalizing known known' with
  | done x => trivial
  | act a next ih =>
      obtain ⟨hslot, content, hnext⟩ := h
      refine ⟨fun x hx => himp x (hslot x hx), content, fun r => ih r (hnext r) ?_⟩
      cases a with
      | drawStamp => exact fun x hx => hx.imp_left (himp x)
      | _ => exact himp
  | retry u next ih => exact ⟨himp _ h.1, fun o => ih o (h.2 o) himp⟩

/-- A sequence is supplied if the second part is with all that is known by then. -/
theorem Supplied.bind {f : α → Program K V β} (h : p.Supplied known)
    (hf : ∀ x known', (∀ y, known y → known' y) → (f x).Supplied known') :
    (p >>= f).Supplied known := by
  induction p generalizing known with
  | done x => exact hf x known fun _ hy => hy
  | act a next ih =>
      obtain ⟨hslot, content, hnext⟩ := h
      refine ⟨hslot, content, fun r => ih r (hnext r) fun x known' hknown' => ?_⟩
      refine hf x known' fun y hy => hknown' y ?_
      cases a with
      | drawStamp => exact .inl hy
      | _ => exact hy
  | retry u next ih => exact ⟨h.1, fun o => ih o (h.2 o) hf⟩

/-- Reading puts no slot into a cell. -/
theorem supplied_readCell (c : CellId) :
    ((Action.readCell c).program : Program K V _).Supplied known :=
  ⟨fun x hx => (by cases hx), .absent, fun _ => trivial⟩

/-- A retried exchange puts in its candidate, which is known. -/
theorem supplied_update {u : Update V} (h : known u.candidate) :
    (u.program : Program K V _).Supplied known := by
  unfold Update.program
  split
  · exact ⟨h, fun _ => trivial⟩
  · trivial

/-- A cell is read, and its slot is exchanged for a known one. -/
theorem supplied_renew {c : CellId} {candidate : Slot V} {accepts : Content V → Bool}
    {next : Outcome V → Program K V β} (h : known candidate)
    (hnext : ∀ o known', (∀ y, known y → known' y) → (next o).Supplied known') :
    ((Action.readCell c).program >>= fun seen =>
      Update.program ⟨c, seen, candidate, accepts⟩ >>= next).Supplied known :=
  (supplied_readCell c).bind fun _ _ hknown' =>
    (supplied_update (hknown' _ h)).bind fun o known'' hknown'' =>
      hnext o known'' fun _ hy => hknown'' _ (hknown' _ hy)

/-- A stamp is drawn for a slot with this content. -/
theorem supplied_drawStamp (content : Content V) {next : Stamp → Program K V β}
    (h : ∀ stamp, (next stamp).Supplied fun x => known x ∨ x = ⟨stamp, content⟩) :
    ((Action.drawStamp : Action K V).program >>= next).Supplied known :=
  ⟨fun x hx => (by cases hx), content, h⟩

/-- Vacating puts in a slot that it has allocated itself. -/
theorem supplied_vacate (c : CellId) (wanted : Content V → Bool) :
    (Cell.vacate c wanted : Program K V _).Supplied known := by
  refine (supplied_readCell c).bind fun _ _ _ => ?_
  split
  · refine supplied_drawStamp .absent fun stamp => ?_
    exact (supplied_update (.inr rfl)).bind fun o _ _ => by cases o <;> trivial
  · trivial

/-- An exchange puts in a known slot. -/
theorem supplied_exchange {c : CellId} {x : Slot V} {next : Slot V → Program K V β} (h : known x)
    (hnext : ∀ y, (next y).Supplied known) :
    ((Action.exchange c x).program >>= next).Supplied known :=
  ⟨fun _ hy => Option.some.inj hy ▸ h, .absent, hnext⟩

end Program

namespace Cell

open Program

variable [BEq V]

/-- An operation that is called with known slots goes on with them, and with what it allocates. -/
theorem Access.supplied (x : Access V) (c : CellId) {known : Slot V → Prop}
    (h : ∀ new, x.candidate? = some new → known new.slot) :
    (x.program c : Program K V _).Supplied known := by
  cases x with
  | load => exact (supplied_readCell c).bind fun _ _ _ => trivial
  | tryStore new =>
      refine Supplied.bind ?_ fun _ _ _ => trivial
      exact supplied_renew (h new rfl) fun o _ _ => by cases o <;> trivial
  | trySwap new => exact supplied_renew (h new rfl) fun o _ _ => by cases o <;> trivial
  | tryLoadOrStore candidate =>
      exact supplied_renew (h candidate rfl) fun o _ _ => by cases o <;> trivial
  | remove => exact (supplied_vacate c _).bind fun _ _ _ => trivial
  | compareAndSwap old new => exact supplied_renew (h new rfl) fun o _ _ => by cases o <;> trivial
  | compareAndDelete old => exact (supplied_vacate c _).bind fun _ _ _ => trivial
  | store new => exact supplied_exchange (h new rfl) fun _ => trivial
  | swap new => exact supplied_exchange (h new rfl) fun _ => trivial
  | loadOrStore candidate =>
      have hcandidate := h candidate rfl
      -- What was not filled at the first attempt is overwritten with the same slot.
      refine Supplied.bind (supplied_renew hcandidate fun o _ _ => by cases o <;> trivial) ?_
      intro answer known' hknown'
      cases answer with
      | some answer => trivial
      | none =>
          refine Supplied.bind ?_ fun _ _ _ => trivial
          exact supplied_exchange (hknown' _ hcandidate) fun _ => trivial
  | revive =>
      refine (supplied_readCell c).bind fun _ _ _ => ?_
      -- A tombstone is exchanged for an absent slot, which is allocated first.
      split
      · refine supplied_drawStamp .absent fun stamp => ?_
        exact ⟨fun y hy => .inr (Option.some.inj hy).symm, .absent, fun _ => trivial⟩
      · trivial
  | bury =>
      refine (supplied_readCell c).bind fun _ _ _ => ?_
      -- An absent slot is exchanged for a tombstone, which is allocated first.
      split
      · refine supplied_drawStamp .tombstoned fun stamp => ?_
        exact (supplied_update (.inr rfl)).bind fun o _ _ => by cases o <;> trivial
      · trivial

end Cell

/-! ## One step -/

/-- Stamps tell the slots apart, and are not those that are still to be drawn. -/
structure Minted (clock : Stamp) (known : Slot V → Prop) : Prop where
  drawn : ∀ x, known x → x.stamp < clock
  coherent : ∀ x y, known x → known y → x.stamp = y.stamp → x = y

namespace Minted

variable {clock : Stamp} {known : Slot V → Prop}

/-- One more slot is allocated. -/
theorem draw (h : Minted clock known) (content : Content V) :
    Minted (clock + 1) fun x => known x ∨ x = ⟨clock, content⟩ where
  drawn x hx := by
    rcases hx with hx | rfl
    · exact Nat.lt_succ_of_lt (h.drawn x hx)
    · exact Nat.lt_succ_self clock
  coherent x y hx hy hstamp := by
    rcases hx with hx | rfl <;> rcases hy with hy | rfl
    · exact h.coherent x y hx hy hstamp
    · exact absurd hstamp (Nat.ne_of_lt (h.drawn x hx))
    · exact absurd hstamp.symm (Nat.ne_of_lt (h.drawn y hy))
    · rfl

end Minted

/-- What a step of a thread that is supplied makes of the known slots and of the cells. -/
structure Shared.Furnished (s : Shared K V) (known : Slot V → Prop) (s' : Shared K V)
    (known' : Slot V → Prop) : Prop where
  minted : Minted s'.clock known'
  known : ∀ x, known x → known' x
  slots : ∀ c < s.cells.size, s'.slot c = s.slot c ∨ known' (s'.slot c)

namespace Shared

variable {s s' : Shared K V} {known : Slot V → Prop} {x : Slot V}

/-- Putting a known slot into one cell keeps all slots known. -/
theorem Furnished.of_setSlot (h : Minted s.clock known) (hx : known x) (c : CellId) :
    s.Furnished known (s.setSlot c x) known where
  minted := h
  known _ hy := hy
  slots d _ := by
    rw [slot_setSlot]
    split
    · exact .inr hx
    · exact .inl rfl

/-- A step that changes no slot keeps all slots known. -/
theorem Furnished.of_slots (h : Minted s'.clock known)
    (hslots : ∀ c < s.cells.size, s'.slot c = s.slot c) : s.Furnished known s' known :=
  ⟨h, fun _ hy => hy, fun c hc => .inl (hslots c hc)⟩

end Shared

open Shared

variable [BEq K] {order : Enumeration K} {t : ThreadId} {s s' : Shared K V}
  {known : Slot V → Prop} {p p' : Program K V α}

/-- An action puts a known slot into a cell, or allocates one, or does neither. -/
theorem Action.furnished {a : Action K V} {r : a.Response × Shared K V} (h : Minted s.clock known)
    (ha : ∀ x, a.slot? = some x → known x) (content : Content V)
    (hr : a.perform order t s = some r) :
    s.Furnished known r.2 (a.supplies content known r.1) := by
  cases a with
  -- The stamp that is drawn is no known slot's, so the new slot may be added to the known ones.
  | drawStamp =>
      obtain rfl := Option.some.inj hr
      exact ⟨h.draw content, fun _ hy => .inl hy, fun _ _ => .inl rfl⟩
  | acquire =>
      obtain ⟨-, rfl⟩ := of_perform_acquire hr
      exact .of_slots h fun _ _ => rfl
  | newCell x =>
      obtain rfl := Option.some.inj hr
      exact .of_slots h fun c hc => slot_addCell_of_lt hc x
  | exchange c x =>
      obtain rfl := Option.some.inj hr
      exact .of_setSlot h (ha x rfl) c
  | compareExchange c seen x =>
      obtain rfl := Option.some.inj hr
      show s.Furnished known (s.compareExchange c seen x).2 known
      -- The exchange puts in the slot, or fails and changes nothing.
      unfold Shared.compareExchange
      split
      · exact .of_setSlot h (ha x rfl) c
      · exact .of_slots h fun _ _ => rfl
  | _ =>
      obtain rfl := Option.some.inj hr
      exact .of_slots h fun _ _ => rfl

/-- A step puts a known slot into a cell, or allocates one, or does neither. -/
theorem Program.Supplied.step (h : p.Supplied known) (hknown : Minted s.clock known)
    (hstep : p.step order t s = some (p', s')) :
    ∃ known', p'.Supplied known' ∧ s.Furnished known s' known' := by
  cases p with
  | done x => simp [Program.step] at hstep
  | act a next =>
      obtain ⟨r, hperf, rfl, rfl⟩ := of_step_act hstep
      obtain ⟨hslot, content, hnext⟩ := h
      exact ⟨_, hnext r.1, Action.furnished hknown hslot content hperf⟩
  | retry u next =>
      refine ⟨known, ?_⟩
      rcases step_retry_cases hstep with ⟨-, rfl, rfl⟩ | ⟨-, rfl, ⟨-, rfl⟩ | ⟨-, rfl⟩⟩
      · exact ⟨h.2 _, .of_setSlot hknown h.1 u.cell⟩
      · exact ⟨h, .of_slots hknown fun _ _ => rfl⟩
      · exact ⟨h.2 _, .of_slots hknown fun _ _ => rfl⟩

end ConcurrentMap
