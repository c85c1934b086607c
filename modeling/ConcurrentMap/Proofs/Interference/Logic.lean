import ConcurrentMap.Proofs.Interference.Changes

/-!
# Programs among others

`Program.wp` says of a program what has to hold now for every one of its steps to be one that its
thread may take, and for `Q` to hold when it is done, whatever the others do in between. It is
defined along the program, so a rule for each action and `Program.wp_bind` are all that is needed to
go through a program; `Program.wp_step` gives back the steps.

A thread is `Outside` or `Inside` the mutex. These and `World.Knows`, `World.Genuine` and
`World.MayInstall` are the facts that a thread carries from one of its steps to the next.
-/

namespace ConcurrentMap

variable {K V α β : Type} [BEq K] [BEq V]

namespace World

/-- By a step that thread `t` may take, the shared state becomes `s` and `P` holds. -/
def Reaches (t : ThreadId) (w : World K V) (s : Shared K V) (P : World K V → Prop) : Prop :=
  ∃ w', w'.shared = s ∧ w'.Sound ∧ w.Guarantee t w' ∧ P w'

variable {w w' : World K V} {t : ThreadId} {s : Shared K V} {P P' : World K V → Prop}

/-- What holds after the step may be weakened. -/
theorem Reaches.mono (h : w.Reaches t s P) (himp : ∀ w', P w' → P' w') : w.Reaches t s P' := by
  obtain ⟨w', hs, hsound, hg, hP⟩ := h
  exact ⟨w', hs, hsound, hg, himp w' hP⟩

/-- A step may leave everything as it is. -/
theorem Reaches.here (hw : w.Sound) (hP : P w) : w.Reaches t w.shared P :=
  ⟨w, rfl, hw, .refl t w, hP⟩

/-- A quiet step reaches whatever holds after it. -/
theorem Quiet.reaches (h : w.Quiet t w') (hw : w.Sound) (hP : P w') :
    w.Reaches t w'.shared P :=
  ⟨w', rfl, h.sound hw, h.guarantee hw, hP⟩

/-- Only what the proofs know changes. -/
structure Ghost (t : ThreadId) (w w' : World K V) : Prop where
  guarantee : w.Guarantee t w'
  shared : w'.shared = w.shared
  phase : w'.phase = w.phase
  standing : w'.standing = w.standing

/-- What the proofs know may change together with the shared state. -/
theorem Reaches.after (hg : w.Ghost t w') (h : w'.Reaches t s P) : w.Reaches t s P := by
  obtain ⟨w'', hs, hsound, hg', hP⟩ := h
  have hprot := hg'.protocol
  refine ⟨w'', hs, hsound, ⟨hg.guarantee.grows.trans hg'.grows, fun u hu => ?_, ?_,
    fun hd => ?_, fun hne => ?_, ?_⟩, hP⟩
  · rw [hg'.others u hu, hg.guarantee.others u hu]
  · have hholder := hg'.holder
    rwa [hg.shared] at hholder
  · rw [hg'.calls (by rwa [hg.guarantee.grows.rules]), hg.guarantee.calls hd]
  · exact (hg.guarantee.frame hne).trans (hg'.frame (by rwa [hg.shared]))
  · have hinst := hprot.installs
    have htomb := hprot.tombstones
    have hlifts := hprot.lifts
    have hreadmits := hprot.readmits
    simp only [MayInstall, hg.shared, hg.standing, hg.phase] at hinst htomb hlifts hreadmits
    exact ⟨hinst, htomb, hlifts, hreadmits⟩

/-! ## Inside the mutex and outside -/

/-- The thread does not hold the mutex, and `k` is its call. -/
structure Outside (t : ThreadId) (k : Option (Ticket K V)) (w : World K V) : Prop where
  ticket : w.tickets t = k
  holder : w.shared.holder ≠ some t

/-- The thread holds the mutex and is in the given phase, and `k` is its call. -/
structure Inside (t : ThreadId) (k : Option (Ticket K V)) (phase : Phase K) (w : World K V) :
    Prop where
  ticket : w.tickets t = k
  holder : w.shared.holder = some t
  phase : w.phase = phase

variable {k k' : Option (Ticket K V)} {phase : Phase K}

/-- A thread that does not use the mutex stays outside, and its call may come further meanwhile. -/
theorem Outside.along (h : w.Outside t k) (ha : w.Along t w') (hk : w'.tickets t = k') :
    w'.Outside t k' :=
  ⟨hk, fun hh => h.holder (ha.holder.1 hh)⟩

/-- A thread that is outside stays there while the others take steps. -/
theorem Outside.rely (h : w.Outside t k) (hr : w.Rely t w') : w'.Outside t k :=
  h.along hr.along (hr.ticket.trans h.ticket)

/-- A thread that is inside stays there, in its phase, as long as it does not use the mutex. -/
theorem Inside.along (h : w.Inside t k phase) (ha : w.Along t w') (hk : w'.tickets t = k') :
    w'.Inside t k' phase :=
  ⟨hk, ha.holder.2 h.holder, (ha.frame h.holder).phase.trans h.phase⟩

/-- A thread that is inside stays there while the others take steps. -/
theorem Inside.rely (h : w.Inside t k phase) (hr : w.Rely t w') : w'.Inside t k phase :=
  h.along hr.along (hr.ticket.trans h.ticket)

/-- While a thread is inside, the others leave the structure to it. -/
theorem Inside.frame (h : w.Inside t k phase) (hr : w.Rely t w') : w.Frame w' :=
  hr.along.frame h.holder

/-- The tables are tidy in the phase of the thread that is inside. -/
theorem Inside.tidy (h : w.Inside t k phase) (hw : w.Sound) : Tidy phase w.shared :=
  h.phase ▸ hw.tidy

end World

open World

namespace Program

/-- What has to hold now for thread `t` to run the program among others and to end in `Q`. -/
def wp (order : Enumeration K) (t : ThreadId) :
    Program K V α → (α → World K V → Prop) → World K V → Prop
  | done x, Q, w => Q x w
  | act a next, Q, w => ∀ w₁, w.Rely t w₁ → w₁.Sound →
      (a = .acquire → w₁.shared.holder ≠ some t) ∧
      ∀ r, a.perform order t w₁.shared = some r →
        w₁.Reaches t r.2 fun w₂ => (next r.1).wp order t Q w₂
  | retry u next, Q, w => w.Genuine u.seen ∧ u.accepts u.seen.content = true ∧
      ∀ w₁, w.Rely t w₁ → w₁.Sound →
        (u.accepts (w₁.shared.slot u.cell).content = true →
          w₁.Reaches t (w₁.shared.setSlot u.cell u.candidate) fun w₂ =>
            (next (.installed (w₁.shared.slot u.cell))).wp order t Q w₂) ∧
        (u.accepts (w₁.shared.slot u.cell).content = false →
          w₁.Reaches t w₁.shared fun w₂ =>
            (next (.refused (w₁.shared.slot u.cell))).wp order t Q w₂)

variable {order : Enumeration K} {t : ThreadId} {w w' : World K V} {p : Program K V α}
  {Q Q' : α → World K V → Prop}

/-- The outcome may be weakened. -/
theorem wp_mono (h : p.wp order t Q w) (himp : ∀ x w, Q x w → Q' x w) : p.wp order t Q' w := by
  induction p generalizing w with
  | done x => exact himp x w h
  | act a next ih =>
      intro w₁ hr hs
      obtain ⟨hacq, hact⟩ := h w₁ hr hs
      exact ⟨hacq, fun r hperf => (hact r hperf).mono fun w₂ h₂ => ih r.1 h₂⟩
  | retry u next ih =>
      obtain ⟨hgen, hacc, h⟩ := h
      refine ⟨hgen, hacc, fun w₁ hr hs => ?_⟩
      obtain ⟨hin, hout⟩ := h w₁ hr hs
      exact ⟨fun ha => (hin ha).mono fun w₂ h₂ => ih _ h₂,
        fun ha => (hout ha).mono fun w₂ h₂ => ih _ h₂⟩

/-- A sequence of programs, one after the other. -/
theorem wp_bind_eq (p : Program K V α) (f : α → Program K V β) (Q : β → World K V → Prop) :
    (p >>= f).wp order t Q = p.wp order t fun x => (f x).wp order t Q := by
  induction p with
  | done x => rfl
  | act a next ih =>
      funext w
      simp only [act_bind, wp, ih]
  | retry u next ih =>
      funext w
      simp only [retry_bind, wp, ih]

theorem wp_bind {f : α → Program K V β} {Q : β → World K V → Prop}
    (h : p.wp order t (fun x w => (f x).wp order t Q w) w) : (p >>= f).wp order t Q w := by
  rwa [wp_bind_eq]

theorem wp_of_bind {f : α → Program K V β} {Q : β → World K V → Prop}
    (h : (p >>= f).wp order t Q w) : p.wp order t (fun x w => (f x).wp order t Q w) w := by
  rwa [wp_bind_eq] at h

/-- What the others do in the meantime is accounted for. -/
theorem wp_rely (h : p.wp order t Q w) (hr : w.Rely t w')
    (hQ : ∀ x w w', Q x w → w.Rely t w' → Q x w') : p.wp order t Q w' := by
  cases p with
  | done x => exact hQ x w w' h hr
  | act a next => exact fun w₁ hr₁ hs => h w₁ (hr.trans hr₁) hs
  | retry u next =>
      obtain ⟨hgen, hacc, h⟩ := h
      exact ⟨hr.grows.genuine hgen, hacc, fun w₁ hr₁ hs => h w₁ (hr.trans hr₁) hs⟩

/-- Every step is one that the thread may take. -/
theorem wp_step (h : p.wp order t Q w) (hw : w.Sound) {p' : Program K V α} {s' : Shared K V}
    (hstep : p.step order t w.shared = some (p', s')) :
    w.Reaches t s' fun w' => p'.wp order t Q w' := by
  cases p with
  | done x => simp [step] at hstep
  | act a next =>
      obtain ⟨r, hperf, rfl, rfl⟩ := of_step_act hstep
      exact (h w (.refl t w) hw).2 r hperf
  | retry u next =>
      obtain ⟨hgen, hacc, h⟩ := h
      obtain ⟨hin, hout⟩ := h w (.refl t w) hw
      have hfound := hw.minted u.cell
      rcases step_retry_cases hstep with ⟨hstamp, rfl, rfl⟩ | ⟨-, rfl, ⟨hacc', rfl⟩ | ⟨hrej, rfl⟩⟩
      · -- the stamp tells that the cell still holds the slot that was seen
        rw [hfound.eq_of_stamp hgen hstamp] at hin
        exact hin hacc
      · exact .here hw ⟨hfound, hacc', h⟩
      · exact hout hrej

/-! ## Rules for single actions -/

variable {f : α → Program K V β} {R : β → World K V → Prop}

/-- An action that is never refused. -/
theorem wp_effect {a : Action K V} {next : a.Response → Program K V β}
    {eff : Shared K V → a.Response × Shared K V} (hperf : ∀ s, a.perform order t s = some (eff s))
    (h : ∀ w₁, w.Rely t w₁ → w₁.Sound → w₁.Reaches t (eff w₁.shared).2 fun w₂ =>
      (next (eff w₁.shared).1).wp order t R w₂) :
    (a.program >>= next).wp order t R w := by
  refine fun w₁ hr hs => ⟨fun ha => ?_, fun r hr' => ?_⟩
  · subst ha
    have hnone : Action.perform order t { (default : Shared K V) with holder := some t } .acquire =
        none := rfl
    simp [hperf] at hnone
  · rw [hperf, Option.some.injEq] at hr'
    subst hr'
    exact h w₁ hr hs

/-- An action that only reads. -/
theorem wp_read {a : Action K V} {next : a.Response → Program K V β}
    (val : Shared K V → a.Response) (hperf : ∀ s, a.perform order t s = some (val s, s))
    (h : ∀ w₁, w.Rely t w₁ → w₁.Sound →
      w₁.Reaches t w₁.shared fun w₂ => (next (val w₁.shared)).wp order t R w₂) :
    (a.program >>= next).wp order t R w :=
  wp_effect hperf h

/-- A retried exchange. -/
theorem wp_update {u : Update V} {next : Outcome V → Program K V β} (hgen : w.Genuine u.seen)
    (hsight : u.accepts u.seen.content = false → (next (.refused u.seen)).wp order t R w)
    (h : ∀ w₁, w.Rely t w₁ → w₁.Sound →
        (u.accepts (w₁.shared.slot u.cell).content = true →
          w₁.Reaches t (w₁.shared.setSlot u.cell u.candidate) fun w₂ =>
            (next (.installed (w₁.shared.slot u.cell))).wp order t R w₂) ∧
        (u.accepts (w₁.shared.slot u.cell).content = false →
          w₁.Reaches t w₁.shared fun w₂ =>
            (next (.refused (w₁.shared.slot u.cell))).wp order t R w₂)) :
    (u.program >>= next).wp order t R w := by
  unfold Update.program
  split
  · next hacc => exact ⟨hgen, hacc, h⟩
  · next hacc => exact hsight (by simpa using hacc)

end Program

end ConcurrentMap
