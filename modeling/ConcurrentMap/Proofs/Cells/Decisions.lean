import ConcurrentMap.Proofs.Cells.Access

/-!
# Where an operation on a cell is decided

An operation that is carried out among others is decided in its last step: that step acts on the
slot that the cell holds by then, and the answer is that of the sequential machine in the state of
that slot. All earlier steps leave the cell alone. `Program.Decides` says so of a program, whatever
the others do in between that `Setting.Spares` allows, and `Cell.Access.decides` is the list of the
operations.

A retried exchange works from a slot that may not be in the cell any more. That it is decided on the
slot that is there when it succeeds rests on stamps telling slots apart (`Setting.Sound`).
-/

namespace ConcurrentMap

variable {K V α : Type}

/-- The shared state, and the slots that may turn up. -/
structure Setting (K V : Type) where
  shared : Shared K V
  known : Slot V → Prop

namespace Setting

/-- The cell is there, and holds one of the known slots, which stamps tell apart. -/
structure Sound (c : CellId) (σ : Setting K V) : Prop where
  bounded : c < σ.shared.cells.size
  current : σ.known (σ.shared.slot c)
  coherent : ∀ x y, σ.known x → σ.known y → x.stamp = y.stamp → x = y

/-- What a thread may count on while others take steps. In a guarded operation it holds the mutex,
and nobody else makes tombstones or takes them away. -/
structure Spares (c : CellId) (guarded : Prop) (σ σ' : Setting K V) : Prop where
  sound : σ'.Sound c
  known : ∀ x, σ.known x → σ'.known x
  tombstoned : guarded → σ'.shared.tombstoned c = σ.shared.tombstoned c
  buried : guarded → σ.shared.tombstoned c = true → σ'.shared.slot c = σ.shared.slot c

variable {c : CellId} {guarded : Prop} {σ σ' σ'' : Setting K V}

theorem Spares.refl (h : σ.Sound c) : σ.Spares c guarded σ :=
  ⟨h, fun _ hx => hx, fun _ => rfl, fun _ _ => rfl⟩

/-- What others do in two spells is what they do in one. -/
theorem Spares.trans (h : σ.Spares c guarded σ') (h' : σ'.Spares c guarded σ'') :
    σ.Spares c guarded σ'' where
  sound := h'.sound
  known x hx := h'.known x (h.known x hx)
  tombstoned hg := (h'.tombstoned hg).trans (h.tombstoned hg)
  buried hg hc := (h'.buried hg ((h.tombstoned hg).trans hc)).trans (h.buried hg hc)

/-- The thread's own steps that leave the cell alone make no difference. -/
theorem Spares.of_slot_eq {s : Shared K V} (h : σ.Sound c) (hs : s.slot c = σ.shared.slot c)
    (hsize : s.cells.size = σ.shared.cells.size) : σ.Spares c guarded ⟨s, σ.known⟩ where
  sound := ⟨hsize ▸ h.bounded, show σ.known (s.slot c) from hs ▸ h.current, h.coherent⟩
  known _ hx := hx
  tombstoned _ := congrArg (·.content.isTombstoned) hs
  buried _ _ := hs

end Setting

open Setting

variable [BEq K] [BEq V]

/-- The thread carries out the operation, and the last step decides it. -/
def Program.Decides (order : Enumeration K) (t : ThreadId) (c : CellId) (x : Cell.Access V) :
    Program K V x.Result → Setting K V → Prop
  | .done _, _ => False
  | .act a next, σ => ∀ σ₁, σ.Spares c x.Guarded σ₁ →
      ∀ r, a.perform order t σ₁.shared = some r → r.2.cells.size = σ₁.shared.cells.size ∧
        ((∃ answer, next r.1 = .done answer ∧
            x.Fits answer (σ₁.shared.slot c) (r.2.slot c)) ∨
          r.2.slot c = σ₁.shared.slot c ∧ (next r.1).Decides order t c x ⟨r.2, σ₁.known⟩)
  | .retry u next, σ => u.cell = c ∧ σ.known u.seen ∧ u.accepts u.seen.content = true ∧
      ∀ σ₁, σ.Spares c x.Guarded σ₁ →
        (u.accepts (σ₁.shared.slot c).content = true →
          ∃ answer, next (.installed (σ₁.shared.slot c)) = .done answer ∧
            x.Fits answer (σ₁.shared.slot c) u.candidate) ∧
        (u.accepts (σ₁.shared.slot c).content = false →
          ∃ answer, next (.refused (σ₁.shared.slot c)) = .done answer ∧
            x.Fits answer (σ₁.shared.slot c) (σ₁.shared.slot c))

namespace Program

variable {order : Enumeration K} {t : ThreadId} {c : CellId} {x : Cell.Access V}
  {p p' : Program K V x.Result} {σ σ' : Setting K V} {s' : Shared K V}

/-- What the others do in the meantime is accounted for. -/
theorem Decides.spares (h : p.Decides order t c x σ) (hs : σ.Spares c x.Guarded σ') :
    p.Decides order t c x σ' := by
  cases p with
  | done answer => exact h
  | act a next => exact fun σ₁ hs₁ => h σ₁ (hs.trans hs₁)
  | retry u next =>
      obtain ⟨hcell, hseen, hacc, h⟩ := h
      exact ⟨hcell, hs.known _ hseen, hacc, fun σ₁ hs₁ => h σ₁ (hs.trans hs₁)⟩

/-- A step decides the operation, or leaves the cell alone. -/
theorem Decides.step (h : p.Decides order t c x σ) (hσ : σ.Sound c)
    (hstep : p.step order t σ.shared = some (p', s')) : s'.cells.size = σ.shared.cells.size ∧
      ((∃ answer, p' = .done answer ∧ x.Fits answer (σ.shared.slot c) (s'.slot c)) ∨
        s'.slot c = σ.shared.slot c ∧ p'.Decides order t c x ⟨s', σ.known⟩) := by
  cases p with
  | done answer => exact h.elim
  | act a next =>
      obtain ⟨r, hperf, rfl, rfl⟩ := of_step_act hstep
      exact h σ (.refl hσ) r hperf
  | retry u next =>
      obtain ⟨rfl, hseen, hacc, h⟩ := h
      obtain ⟨hin, hout⟩ := h σ (.refl hσ)
      rcases step_retry_cases hstep with
        ⟨hstamp, rfl, rfl⟩ | ⟨-, rfl, ⟨hfound, rfl⟩ | ⟨hfound, rfl⟩⟩
      · -- the stamp tells that the cell holds the slot that was seen
        have hsame := hσ.coherent _ _ hσ.current hseen hstamp
        rw [hsame] at hin ⊢
        obtain ⟨answer, hanswer, hfits⟩ := hin hacc
        refine ⟨by simp [Shared.setSlot], .inl ⟨answer, hanswer, ?_⟩⟩
        rwa [Shared.slot_setSlot_self hσ.bounded]
      · exact ⟨rfl, .inr ⟨rfl, rfl, hσ.current, hfound, h⟩⟩
      · obtain ⟨answer, hanswer, hfits⟩ := hout hfound
        exact ⟨rfl, .inl ⟨answer, hanswer, hfits⟩⟩

/-! ## Rules -/

/-- Reading a cell decides the operation, or is what it goes on from. -/
theorem decides_readCell {next : Slot V → Program K V x.Result}
    (h : ∀ σ₁, σ.Spares c x.Guarded σ₁ →
      (∃ answer, next (σ₁.shared.slot c) = .done answer ∧
        x.Fits answer (σ₁.shared.slot c) (σ₁.shared.slot c)) ∨
      (next (σ₁.shared.slot c)).Decides order t c x σ₁) :
    ((Action.readCell c).program >>= next).Decides order t c x σ := by
  intro σ₁ hs r hr
  obtain rfl := Option.some.inj hr
  exact ⟨rfl, (h σ₁ hs).imp_right fun hnext => ⟨rfl, hnext⟩⟩

/-- Drawing a stamp leaves the cell alone. -/
theorem decides_drawStamp {next : Stamp → Program K V x.Result}
    (h : ∀ σ₁ stamp, σ.Spares c x.Guarded σ₁ → (next stamp).Decides order t c x σ₁) :
    ((Action.drawStamp : Action K V).program >>= next).Decides order t c x σ := by
  intro σ₁ hs r hr
  obtain rfl := Option.some.inj hr
  exact ⟨rfl, .inr ⟨rfl, h _ _ (hs.trans (.of_slot_eq hs.sound rfl rfl))⟩⟩

/-- A write that does not look first. -/
theorem decides_exchange {new : Slot V} {next : Slot V → Program K V x.Result}
    (h : ∀ σ₁, σ.Spares c x.Guarded σ₁ → ∃ answer, next (σ₁.shared.slot c) = .done answer ∧
      x.Fits answer (σ₁.shared.slot c) new) :
    ((Action.exchange c new).program >>= next).Decides order t c x σ := by
  intro σ₁ hs r hr
  obtain rfl := Option.some.inj hr
  obtain ⟨answer, hanswer, hfits⟩ := h σ₁ hs
  refine ⟨by simp [Shared.setSlot], .inl ⟨answer, hanswer, ?_⟩⟩
  rwa [Shared.slot_setSlot_self hs.sound.bounded]

/-- The slot that a retried exchange starts from decides the operation, or is exchanged for as long
as it is acceptable. -/
theorem decides_update {seen candidate : Slot V} {accepts : Content V → Bool}
    {next : Outcome V → Program K V x.Result} (hseen : σ.known seen)
    (hacc : accepts seen.content = true)
    (hin : ∀ σ₁, σ.Spares c x.Guarded σ₁ → accepts (σ₁.shared.slot c).content = true →
      ∃ answer, next (.installed (σ₁.shared.slot c)) = .done answer ∧
        x.Fits answer (σ₁.shared.slot c) candidate)
    (hout : ∀ σ₁, σ.Spares c x.Guarded σ₁ → accepts (σ₁.shared.slot c).content = false →
      ∃ answer, next (.refused (σ₁.shared.slot c)) = .done answer ∧
        x.Fits answer (σ₁.shared.slot c) (σ₁.shared.slot c)) :
    (Update.program ⟨c, seen, candidate, accepts⟩ >>= next).Decides order t c x σ := by
  rw [Update.program, if_pos hacc]
  exact ⟨rfl, hseen, hacc, fun σ₁ hs => ⟨hin σ₁ hs, hout σ₁ hs⟩⟩

/-- A cell is read, and its slot is exchanged for as long as it is acceptable. -/
theorem decides_renew {candidate : Slot V} {accepts : Content V → Bool}
    {next : Outcome V → Program K V x.Result}
    (hin : ∀ σ₁, σ.Spares c x.Guarded σ₁ → accepts (σ₁.shared.slot c).content = true →
      ∃ answer, next (.installed (σ₁.shared.slot c)) = .done answer ∧
        x.Fits answer (σ₁.shared.slot c) candidate)
    (hout : ∀ σ₁, σ.Spares c x.Guarded σ₁ → accepts (σ₁.shared.slot c).content = false →
      ∃ answer, next (.refused (σ₁.shared.slot c)) = .done answer ∧
        x.Fits answer (σ₁.shared.slot c) (σ₁.shared.slot c)) :
    ((Action.readCell c).program >>= fun seen =>
      Update.program ⟨c, seen, candidate, accepts⟩ >>= next).Decides order t c x σ := by
  apply decides_readCell
  intro σ₁ hs
  by_cases hacc : accepts (σ₁.shared.slot c).content = true
  · exact .inr (decides_update hs.sound.current hacc (fun σ₂ hs₂ => hin σ₂ (hs.trans hs₂))
      fun σ₂ hs₂ => hout σ₂ (hs.trans hs₂))
  · left
    rw [Update.program, if_neg hacc]
    exact hout σ₁ hs (by simpa using hacc)

/-- The slot that is vacated, if any, decides the operation. -/
theorem decides_vacate {wanted : Content V → Bool} {finish : Option (Slot V) → x.Result}
    (hin : ∀ before after : Slot V, wanted before.content = true → after.state = .absent →
      x.Fits (finish (some before)) before after)
    (hout : ∀ before : Slot V, wanted before.content = false →
      x.Fits (finish none) before before) :
    (Cell.vacate c wanted >>= fun previous => .done (finish previous)).Decides order t c x σ := by
  rw [Cell.vacate, bind_assoc]
  apply decides_readCell
  intro σ₁ hs
  by_cases hwanted : wanted (σ₁.shared.slot c).content = true
  · right
    rw [if_pos hwanted, bind_assoc]
    apply decides_drawStamp
    intro σ₂ stamp hs₂
    rw [bind_assoc]
    apply decides_update (hs₂.known _ hs.sound.current) hwanted
    · exact fun σ₃ _ hwanted => ⟨_, rfl, hin _ _ hwanted rfl⟩
    · exact fun σ₃ _ hunwanted => ⟨_, rfl, hout _ hunwanted⟩
  · left
    rw [if_neg hwanted]
    exact ⟨_, rfl, hout _ (by simpa using hwanted)⟩

end Program

open Program

namespace Cell.Access

variable {order : Enumeration K} {t : ThreadId} {c : CellId} {σ σ' : Setting K V}

/-! ## The operations -/

omit [BEq K] [BEq V] in
/-- What may be called may still be called when others have taken steps. -/
theorem Admits.spares {x : Access V} (h : x.Admits (σ.shared.slot c).state)
    (hs : σ.Spares c x.Guarded σ') : x.Admits (σ'.shared.slot c).state := by
  have hlive : x.Guarded → (σ.shared.slot c).state.isTombstoned = false →
      (σ'.shared.slot c).state.isTombstoned = false := by
    intro hx hlive
    rw [Slot.isTombstoned_state] at hlive ⊢
    exact (hs.tombstoned hx).trans hlive
  cases x with
  | store _ | swap _ | loadOrStore _ => exact hlive trivial h
  | _ => trivial

omit [BEq K] in
/-- Whether a slot holds a value can be read off its state. -/
private theorem holds_eq (old : V) (before : Slot V) :
    before.content.holds old = before.state.value?.any (·.value == old) := by
  obtain ⟨stamp, content⟩ := before
  cases content <;> rfl

omit [BEq K] in
/-- An overwrite answers what it replaces, wherever there is no tombstone. -/
private theorem effect_trySwap (new : Handle V) (before : Slot V) :
    (trySwap new).effect before.state = if before.content.isTombstoned then (none, none)
      else (some before.handle?, some (.present new)) := by
  rw [effect, Slot.isTombstoned_state, Slot.handle?_eq_state]

omit [BEq K] in
/-- Storing succeeds wherever there is no tombstone. -/
private theorem effect_tryStore (new : Handle V) (before : Slot V) :
    (tryStore new).effect before.state = if before.content.isTombstoned then (false, none)
      else (true, some (.present new)) := by
  rw [effect, Slot.isTombstoned_state]

omit [BEq K] in
/-- An absent slot is filled, and any other one answers what it holds, if that is a value. -/
private theorem effect_tryLoadOrStore (candidate : Handle V) (before : Slot V) :
    (tryLoadOrStore candidate).effect before.state = if before.content.isAbsent then
        (some (candidate, false), some (.present candidate))
      else (before.handle?.map fun held => (held, true), none) := by
  obtain ⟨stamp, content⟩ := before
  cases content <;> rfl

omit [BEq K] in
/-- Where there is no tombstone, filling under the mutex is no different. -/
private theorem effect_loadOrStore (candidate : Handle V) {before : Slot V}
    (hlive : before.state.isTombstoned = false) :
    (loadOrStore candidate).effect before.state = if before.content.isAbsent then
        ((candidate, false), some (.present candidate))
      else ((before.handle?.getD candidate, true), none) := by
  obtain ⟨stamp, content⟩ := before
  cases content with
  | tombstoned => cases hlive
  | absent | present _ => rfl

omit [BEq K] [BEq V] in
/-- What is neither absent nor tombstoned holds a value. -/
private theorem exists_handle {slot : Slot V} (hnot : slot.content.isAbsent = false)
    (hlive : slot.state.isTombstoned = false) : ∃ held, slot.handle? = some held := by
  obtain ⟨stamp, content⟩ := slot
  cases content with
  | absent => cases hnot
  | tombstoned => cases hlive
  | present v => exact ⟨_, rfl⟩

omit [BEq K] in
/-- Removing empties a slot with a value and leaves any other one alone. -/
private theorem effect_remove (before : Slot V) :
    (remove : Access V).effect before.state = if before.content.isPresent then
        (before.handle?, some .absent)
      else (none, none) := by
  obtain ⟨stamp, content⟩ := before
  cases content <;> rfl

omit [BEq K] in
/-- Burying makes a tombstone of an absent slot; on any other one it answers whether it is one
already. -/
private theorem effect_bury (before : Slot V) :
    (bury : Access V).effect before.state = if before.content.isAbsent then
        (true, some .tombstoned)
      else (before.content.isTombstoned, none) := by
  obtain ⟨stamp, content⟩ := before
  cases content <;> rfl

/-- Lifting a tombstone is decided by the slot that it finds. -/
private theorem decides_revive : ((revive : Access V).program c).Decides order t c revive σ := by
  apply decides_readCell
  intro σ₁ hs₁
  by_cases hdead : (σ₁.shared.slot c).content.isTombstoned = true
  · right
    rw [if_pos hdead]
    apply decides_drawStamp
    intro σ₂ stamp hs₂ σ₃ hs₃ r hr
    obtain rfl := Option.some.inj hr
    -- the tombstone that was seen is still there
    have hsame : σ₃.shared.slot c = σ₁.shared.slot c := (hs₂.trans hs₃).buried trivial hdead
    simp only [Shared.compareExchange, hsame, if_true]
    refine ⟨by simp [Shared.setSlot], .inl ⟨true, rfl, ?_⟩⟩
    rw [Shared.slot_setSlot_self hs₃.sound.bounded]
    refine .wrote trivial ?_ (rfl : (⟨stamp, .absent⟩ : Slot V).state = .absent)
    rw [effect, Slot.isTombstoned_state, if_pos hdead]
    rfl
  · left
    rw [if_neg hdead]
    refine ⟨false, rfl, .looked trivial ?_⟩
    rw [effect, Slot.isTombstoned_state, if_neg hdead]

/-- Burying is decided by the slot that it meets, at the first sight or at an attempt. -/
private theorem decides_bury : ((bury : Access V).program c).Decides order t c bury σ := by
  apply decides_readCell
  intro σ₁ hs₁
  -- The slot is absent at the first sight, so every attempt decides on what it meets.
  by_cases habsent : (σ₁.shared.slot c).content.isAbsent = true
  · right
    rw [if_pos habsent]
    apply decides_drawStamp
    intro σ₂ stamp hs₂
    apply decides_update (hs₂.known _ hs₁.sound.current) habsent
    · intro σ₃ _ habsent
      refine ⟨true, rfl, .wrote trivial ?_ (rfl : (⟨stamp, .tombstoned⟩ : Slot V).state = _)⟩
      rw [effect_bury, if_pos habsent]
      rfl
    · intro σ₃ _ hnot
      refine ⟨_, rfl, .looked trivial ?_⟩
      rw [effect_bury, hnot]
      rfl
  -- The slot holds a value or is buried already, and that decides the operation.
  · left
    rw [if_neg habsent]
    refine ⟨_, rfl, .looked trivial ?_⟩
    rw [effect_bury, if_neg habsent]

/-- Filling under the mutex does not meet a tombstone, so the first attempt answers. -/
private theorem decides_loadOrStore {candidate : Handle V}
    (hadmits : (loadOrStore candidate).Admits (σ.shared.slot c).state) :
    ((loadOrStore candidate).program c).Decides order t c (loadOrStore candidate) σ := by
  rw [program, Cell.loadOrStore, Cell.tryLoadOrStore, LawfulMonad.bind_assoc]
  simp only [LawfulMonad.bind_assoc]
  apply decides_renew
  -- An absent slot is filled.
  · intro σ₁ hs habsent
    have hlive := hadmits.spares hs
    refine ⟨(candidate, false), rfl, .wrote hlive ?_ (Slot.state_slot candidate)⟩
    rw [effect_loadOrStore candidate hlive, if_pos habsent]
  -- Anything else is a value, since there is no tombstone under the mutex.
  · intro σ₁ hs hnot
    have hlive := hadmits.spares hs
    have heffect := effect_loadOrStore candidate hlive
    rw [hnot] at heffect
    obtain ⟨held, hheld⟩ := exists_handle hnot hlive
    rw [hheld] at heffect
    refine ⟨(held, true), ?_, .looked hlive heffect⟩
    simp only [hheld]
    rfl

/-- Whatever others do with the cell, the operation is decided in its last step. -/
theorem decides (x : Access V) (hadmits : x.Admits (σ.shared.slot c).state) :
    (x.program c).Decides order t c x σ := by
  -- Reading or a plain exchange decides in one step, a retried exchange where it is accepted or
  -- refused.
  cases x with
  | load =>
      apply decides_readCell
      intro σ₁ hs
      exact .inl ⟨_, rfl, trivial, (Slot.handle?_eq_state _).symm, rfl⟩
  | trySwap new =>
      apply decides_renew
      · intro σ₁ _ hlive
        refine ⟨_, rfl, .wrote trivial ?_ (Slot.state_slot new)⟩
        rw [effect_trySwap, if_neg (by simpa using hlive)]
      · intro σ₁ _ hdead
        refine ⟨_, rfl, .looked trivial ?_⟩
        rw [effect_trySwap, if_pos (by simpa using hdead)]
  | tryStore new =>
      rw [program, Cell.tryStore, Cell.trySwap, LawfulMonad.bind_assoc]
      simp only [LawfulMonad.bind_assoc]
      apply decides_renew
      · intro σ₁ _ hlive
        refine ⟨true, rfl, .wrote trivial ?_ (Slot.state_slot new)⟩
        rw [effect_tryStore, if_neg (by simpa using hlive)]
      · intro σ₁ _ hdead
        refine ⟨false, rfl, .looked trivial ?_⟩
        rw [effect_tryStore, if_pos (by simpa using hdead)]
  | tryLoadOrStore candidate =>
      apply decides_renew
      · intro σ₁ _ habsent
        refine ⟨_, rfl, .wrote trivial ?_ (Slot.state_slot candidate)⟩
        rw [effect_tryLoadOrStore, if_pos habsent]
      · intro σ₁ _ hnot
        refine ⟨_, rfl, .looked trivial ?_⟩
        rw [effect_tryLoadOrStore, hnot]
        rfl
  | remove =>
      apply decides_vacate
      · intro before after hpresent hafter
        refine .wrote trivial ?_ hafter
        rw [effect_remove, if_pos hpresent]
        rfl
      · intro before hnot
        refine .looked trivial ?_
        rw [effect_remove, hnot]
        rfl
  | compareAndSwap old new =>
      apply decides_renew
      · intro σ₁ _ hholds
        refine ⟨true, rfl, .wrote trivial ?_ (Slot.state_slot new)⟩
        rw [effect, ← holds_eq, if_pos hholds]
      · intro σ₁ _ hnot
        refine ⟨false, rfl, .looked trivial ?_⟩
        rw [effect, ← holds_eq, if_neg (by simpa using hnot)]
  | compareAndDelete old =>
      apply decides_vacate
      · intro before after hholds hafter
        refine .wrote trivial ?_ hafter
        rw [effect, ← holds_eq, if_pos hholds]
        rfl
      · intro before hnot
        refine .looked trivial ?_
        rw [effect, ← holds_eq, if_neg (by simpa using hnot)]
        rfl
  | store new =>
      apply decides_exchange
      intro σ₁ hs
      exact ⟨(), rfl, .wrote (hadmits.spares hs) rfl (Slot.state_slot new)⟩
  | swap new =>
      apply decides_exchange
      intro σ₁ hs
      refine ⟨_, rfl, .wrote (hadmits.spares hs) ?_ (Slot.state_slot new)⟩
      rw [Slot.handle?_eq_state]
      rfl
  | loadOrStore candidate => exact decides_loadOrStore hadmits
  | revive => exact decides_revive
  | bury => exact decides_bury

end Cell.Access

end ConcurrentMap
