import ConcurrentMap.Proofs.Interference.MapRules

/-!
# Making calls

A map begins as `World.start`, and `World.issue` gives a thread its next call. Only what the proofs
know changes when a call is made, so a thread may make it together with its next step: that is
`Program.wp_issue`. `Program.wp_call` is the rule for a call as a whole, from the moment it is made
to its answer.
-/

namespace ConcurrentMap

variable {K V : Type}

namespace Chronicle

/-- A call that was recorded keeps its record. -/
theorem Recorded.issue {C : Chronicle K V} {r : Request K V} (hcur : C.ended C.era = none)
    {id : CallId} {answer : Answer V} {horizon : CallId} (h : C.Recorded id answer horizon) :
    (C.issue r).Recorded id answer horizon := by
  rcases h with hdeed | ⟨j, hj, hans, hhor⟩
  · exact .inl hdeed
  · refine .inr ⟨j, hj, hans, hhor.trans (C.limit_issue_of_ne ?_ r).symm⟩
    rintro rfl
    simp [hcur] at hj

end Chronicle

namespace World

/-- A map that was never written. -/
def start (rules : Rules K V) : World K V where
  shared := .initial
  phase := .rest
  standing _ := .unused
  mint _ := (.absent, 0)
  chronicle := .start
  tickets _ := none
  rules := rules

/-- All calls that the thread made. -/
def callsOf (w : World K V) (t : ThreadId) : List CallId := (w.tickets t).elim [] Ticket.calls

/-- The calls of a thread are its current one and those that it made before. -/
theorem mem_callsOf {w : World K V} {t : ThreadId} {id : CallId} :
    id ∈ w.callsOf t ↔ ∃ k, w.tickets t = some k ∧ id ∈ k.calls := by
  cases h : w.tickets t <;> simp [callsOf, h]

/-- Thread `t` makes a call. -/
def issue (w : World K V) (t : ThreadId) (r : Request K V) : World K V :=
  { w with
    chronicle := w.chronicle.issue r
    tickets := Function.update w.tickets t
      (some ⟨w.chronicle.issued, r, .pending, w.callsOf t⟩) }

@[simp] theorem issue_shared (w : World K V) (t : ThreadId) (r : Request K V) :
    (w.issue t r).shared = w.shared := rfl

/-- The call that a thread makes is its current one, with a new name. -/
theorem issue_tickets_self (w : World K V) (t : ThreadId) (r : Request K V) :
    (w.issue t r).tickets t = some ⟨w.chronicle.issued, r, .pending, w.callsOf t⟩ :=
  Function.update_self _ _ _

theorem issue_tickets_of_ne (w : World K V) {t u : ThreadId} (h : u ≠ t) (r : Request K V) :
    (w.issue t r).tickets u = w.tickets u := Function.update_of_ne h _ _

/-- The thread that makes a call has it from then on, and the others have the calls they had. -/
theorem mem_callsOf_issue {w : World K V} {t u : ThreadId} {r : Request K V} {id : CallId} :
    id ∈ (w.issue t r).callsOf u ↔ id ∈ w.callsOf u ∨ u = t ∧ id = w.chronicle.issued := by
  by_cases hu : u = t
  · subst hu
    rw [callsOf, issue_tickets_self]
    simp [Ticket.calls]
  · rw [callsOf, issue_tickets_of_ne w hu]
    simp [callsOf, hu]

variable [BEq K] [BEq V]

/-- The invariant holds of a map that was never written. -/
theorem sound_start (rules : Rules K V) : (start rules).Sound where
  tidy := .initial
  free _ := rfl
  minted c := by simp [Genuine, start, Shared.initial, Shared.slot]
  roster :=
    { serves := fun key c => by simp [start, Shared.find?_initial]
      published := fun key c => by simp [start, Shared.initial]
      used := fun c hc => absurd rfl hc
      dropped := fun c own j h => by simp [start] at h }
  ledger :=
    { explained := fun j hj => by
        obtain rfl : j = 0 := Nat.le_zero.1 hj
        trivial
      current := fun _ _ => rfl
      held := fun c own h => by simp [start, Standing.key?] at h
      missing := fun _ _ => rfl
      fates := fun c own j fate h => by simp [start] at h
      alone := fun c d own own' j fate fate' h => by simp [start] at h
      endings := fun j id r h => by simp [start, Chronicle.start] at h }
  docket :=
    { limits := fun _ _ _ _ => Nat.le_refl _
      deeds := fun d hd => absurd hd List.not_mem_nil
      distinct := List.Pairwise.nil
      stamps := fun d hd => absurd hd List.not_mem_nil
      ended := fun j id r h => by simp [start, Chronicle.start] at h
      once := fun i j id r r' h => by simp [start, Chronicle.start] at h
      unentered := fun j id r h => by simp [start, Chronicle.start] at h
      tickets := fun t k h => by simp [start] at h
      owners := fun t u k k' h => by simp [start] at h
      callers := fun id => ⟨fun hid => absurd hid (Nat.not_lt_zero _), fun ⟨t, k, h, _⟩ => by
        simp [start] at h⟩
      allowed := fun id hid => absurd hid (Nat.not_lt_zero _) }

variable {w w' : World K V} {t : ThreadId} {r : Request K V}

/-! ## The next call of a thread -/

/-- A name below the limit of an era is in use. -/
theorem Docket.lt_issued (hw : w.Docket) {j : Nat} (hj : j ≤ w.era) {id : CallId}
    (hid : id < w.chronicle.limit j) : id < w.chronicle.issued :=
  Nat.lt_of_lt_of_le hid (hw.limits j w.era hj (Nat.le_refl _))

/-- The names in use are those of the calls that the threads made. -/
theorem Docket.lt_issued_iff (hw : w.Docket) {id : CallId} :
    id < w.chronicle.issued ↔ ∃ t, id ∈ w.callsOf t :=
  (hw.callers id).trans (exists_congr fun _ => mem_callsOf.symm)

/-- A call that a thread made has a name in use. -/
theorem Docket.lt_of_mem_callsOf (hw : w.Docket) {id : CallId} (h : id ∈ w.callsOf t) :
    id < w.chronicle.issued := hw.lt_issued_iff.2 ⟨t, h⟩

/-- No call was made by two threads. -/
theorem Docket.thread_eq (hw : w.Docket) {id : CallId} {u : ThreadId} (ht : id ∈ w.callsOf t)
    (hu : id ∈ w.callsOf u) : t = u := by
  obtain ⟨k, hk, hid⟩ := mem_callsOf.1 ht
  obtain ⟨k', hk', hid'⟩ := mem_callsOf.1 hu
  exact hw.owners t u k k' hk hk' id hid hid'

/-- What the chronicle says of a call does not change when another one is made. -/
theorem Sound.holds_issue (hw : w.Sound) {k : Ticket K V} (h : k.Holds w.chronicle) :
    k.Holds (w.chronicle.issue r) := by
  unfold Ticket.Holds at h ⊢
  split at h
  · exact h
  · exact h
  · obtain ⟨horizon, hle, hrec⟩ := h
    refine ⟨horizon, ?_, .issue (hw.ledger.current _ (Nat.le_refl _)) hrec⟩
    rw [w.chronicle.issued_issue]
    exact Nat.le_succ_of_le hle

/-- The new call has not taken effect. -/
theorem Sound.holds_new (hw : w.Sound) (past : List CallId) :
    (⟨w.chronicle.issued, r, .pending, past⟩ : Ticket K V).Holds (w.chronicle.issue r) := by
  refine ⟨fun d hd heq => ?_, fun j r' hend => ?_⟩
  · have hlisted := hw.docket.deeds d hd
    have hlt := hw.docket.lt_issued hlisted.era hlisted.id
    exact Nat.lt_irrefl _ (heq ▸ hlt)
  · have hlt := hw.docket.lt_issued (Nat.le_of_lt (hw.ledger.lt_era_of_ended hend))
      (hw.docket.ended j _ _ hend).1
    exact Nat.lt_irrefl _ hlt

/-- The limits are in order after a call was named. -/
theorem Sound.limits_issue (hw : w.Sound) (i j : Nat) (hij : i ≤ j) (hj : j ≤ w.era) :
    (w.chronicle.issue r).limit i ≤ (w.chronicle.issue r).limit j := by
  by_cases hi : i = w.era
  · obtain rfl : j = i := by omega
    exact Nat.le_refl _
  · rw [w.chronicle.limit_issue_of_ne hi]
    exact Nat.le_trans (hw.docket.limits i j hij hj) (w.chronicle.limit_le_issue j r)

/-- The deeds are still on the list after a call was named. -/
theorem Sound.deed_issue (hw : w.Sound) {d : Deed K V} (hd : d ∈ w.chronicle.deeds) :
    d.Listed (w.chronicle.issue r) := by
  have hlisted := hw.docket.deeds d hd
  refine ⟨hlisted.era, Nat.lt_of_lt_of_le hlisted.id (w.chronicle.limit_le_issue _ r), ?_, ?_,
    fun i hi => ?_⟩
  · rw [w.chronicle.asked_issue_of_lt (hw.docket.lt_issued hlisted.era hlisted.id)]
    exact hlisted.asked
  · rw [w.chronicle.issued_issue]
    exact Nat.le_succ_of_le hlisted.horizon
  · have hle := hlisted.era
    rw [w.chronicle.limit_issue_of_ne (show i ≠ w.chronicle.era by omega)]
    exact hlisted.late i hi

/-- The names of the calls are in order after one more was made. -/
theorem Sound.docket_issue (hw : w.Sound) (hr : w.rules.allowed r) : (w.issue t r).Docket where
  limits := hw.limits_issue
  deeds d hd := hw.deed_issue hd
  distinct := hw.docket.distinct
  stamps := hw.docket.stamps
  ended j id r' hend := by
    obtain ⟨hid, hask⟩ := hw.docket.ended j id r' hend
    have hj := Nat.le_of_lt (hw.ledger.lt_era_of_ended hend)
    refine ⟨Nat.lt_of_lt_of_le hid (w.chronicle.limit_le_issue j r), ?_⟩
    exact (w.chronicle.asked_issue_of_lt (hw.docket.lt_issued hj hid) r).trans hask
  once := hw.docket.once
  unentered j id r' hend hsome := by
    refine hw.docket.unentered j id r' hend fun key hkey => ?_
    have h := hsome key hkey
    rwa [World.issue, w.chronicle.state_issue] at h
  tickets u k hk := by
    by_cases hu : u = t
    · subst hu
      obtain rfl := Option.some.inj ((issue_tickets_self w u r).symm.trans hk)
      refine ⟨?_, w.chronicle.asked_issue_self r, hw.holds_new _⟩
      exact Nat.lt_of_lt_of_eq (Nat.lt_succ_self _) (w.chronicle.issued_issue r).symm
    · rw [issue_tickets_of_ne w hu] at hk
      obtain ⟨hid, hask, hholds⟩ := hw.docket.tickets u k hk
      refine ⟨?_, (w.chronicle.asked_issue_of_lt hid r).trans hask, hw.holds_issue hholds⟩
      exact Nat.lt_of_lt_of_eq (Nat.lt_succ_of_lt hid) (w.chronicle.issued_issue r).symm
  owners u v k k' hk hk' id hid hid' := by
    -- the name of the new call is not in use
    have hlt : ∀ {x}, id ∈ w.callsOf x → id ≠ w.chronicle.issued := fun h =>
      Nat.ne_of_lt (hw.docket.lt_of_mem_callsOf h)
    rcases mem_callsOf_issue.1 (mem_callsOf.2 ⟨k, hk, hid⟩) with hu | ⟨hu, heq⟩ <;>
      rcases mem_callsOf_issue.1 (mem_callsOf.2 ⟨k', hk', hid'⟩) with hv | ⟨hv, heq'⟩
    · exact hw.docket.thread_eq hu hv
    · exact absurd heq' (hlt hu)
    · exact absurd heq (hlt hv)
    · exact hu.trans hv.symm
  callers id := by
    have hissued : (w.issue t r).chronicle.issued = w.chronicle.issued + 1 :=
      w.chronicle.issued_issue r
    simp only [hissued, Nat.lt_succ_iff_lt_or_eq, hw.docket.lt_issued_iff, ← mem_callsOf,
      mem_callsOf_issue, exists_or, exists_eq_left]
  allowed id hid := by
    have hid' : id < w.chronicle.issued + 1 := Nat.lt_of_lt_of_eq hid (w.chronicle.issued_issue r)
    rcases Nat.lt_succ_iff_lt_or_eq.1 hid' with hlt | rfl
    · exact (congrArg w.rules.allowed (w.chronicle.asked_issue_of_lt hlt r)).mpr
        (hw.docket.allowed id hlt)
    · exact (congrArg w.rules.allowed (w.chronicle.asked_issue_self r)).mpr hr

/-- Making a call that is allowed keeps the invariant. -/
theorem Sound.issue (hw : w.Sound) (t : ThreadId) (hr : w.rules.allowed r) :
    (w.issue t r).Sound where
  tidy := hw.tidy
  free := hw.free
  minted := hw.minted
  roster := ⟨hw.roster.serves, hw.roster.published, hw.roster.used, hw.roster.dropped⟩
  ledger :=
    -- The chronicle's maps do not depend on the calls that were merely named.
    { explained := fun j hj => by
        show ((w.chronicle.issue r).opening j).Explains _
        rw [w.chronicle.opening_issue]
        exact hw.ledger.explained j hj
      current := hw.ledger.current
      held := fun c own hown => by
        show (w.chronicle.issue r).state _ own = _
        rw [w.chronicle.state_issue]
        exact hw.ledger.held c own hown
      missing := fun key hkey => by
        show (w.chronicle.issue r).state _ key = none
        rw [w.chronicle.state_issue]
        exact hw.ledger.missing key hkey
      fates := hw.ledger.fates
      alone := hw.ledger.alone
      endings := hw.ledger.endings }
  docket := hw.docket_issue hr

/-- Making a call loses nothing of what lasts. -/
theorem Sound.grows_issue (hw : w.Sound) (t : ThreadId) (r : Request K V) :
    w.Grows (w.issue t r) where
  clock := Nat.le_refl _
  minted _ _ := rfl
  chronicle := w.chronicle.extends_issue r
  standing _ := .refl _ _
  limits _ _ := w.chronicle.limit_le_issue _ r
  issued := Nat.le_trans (Nat.le_succ _) (Nat.le_of_eq (w.chronicle.issued_issue r).symm)
  asked _ hid := w.chronicle.asked_issue_of_lt hid r
  recorded _ _ _ hrec := .issue (hw.ledger.current _ (Nat.le_refl _)) hrec
  rules := rfl

/-- The other threads may count on what they counted on. -/
theorem Sound.rely_issue (hw : w.Sound) {u : ThreadId} (hu : u ≠ t) (r : Request K V) :
    w.Rely u (w.issue t r) :=
  ⟨⟨hw.grows_issue t r, Iff.rfl, fun _ => { Frame.refl w with }⟩, issue_tickets_of_ne w hu r⟩

/-- Making a call changes only what the proofs know. -/
theorem Sound.ghost_issue (hw : w.Sound) (hfree : ¬w.rules.driven) (t : ThreadId)
    (r : Request K V) : w.Ghost t (w.issue t r) := by
  have hframe : w.Frame (w.issue t r) := { Frame.refl w with }
  refine ⟨⟨hw.grows_issue t r, fun u hu => issue_tickets_of_ne w hu r, .inl rfl,
    fun hd => absurd hd hfree, fun _ => hframe, ?_⟩, rfl, rfl, rfl⟩
  exact hframe.protocol (fun _ _ _ => rfl) fun _ _ hne => absurd rfl hne

end World

open World

namespace Program

variable [BEq K] [BEq V] {α β : Type} {order : Enumeration K} {t : ThreadId} {w : World K V}

/-- A program may count on what its thread knew before, and on the invariant. -/
theorem wp_upshot {p : Program K V α} {Q : α → World K V → Prop} (h : p.wp order t Q w)
    (hw : w.Sound) : p.wp order t (fun x w' => w'.Sound ∧ w.Grows w' ∧ Q x w') w := by
  induction p generalizing w with
  | done x => exact ⟨hw, .refl w, h⟩
  -- After the first step the invariant holds again, and what lasts is carried along.
  | act a next ih =>
      intro w₁ hr hs
      obtain ⟨hacq, hact⟩ := h w₁ hr hs
      refine ⟨hacq, fun r hperf => ?_⟩
      obtain ⟨w₂, hs₂, hsound, hg, h₂⟩ := hact r hperf
      refine ⟨w₂, hs₂, hsound, hg, wp_mono (ih r.1 h₂ hsound) fun x w' ⟨hw', hg', hQ⟩ => ?_⟩
      exact ⟨hw', (hr.grows.trans hg.grows).trans hg', hQ⟩
  -- A retried exchange goes on in the same way, whether it succeeded or gave up.
  | retry u next ih =>
      obtain ⟨hgen, hacc, h⟩ := h
      have hnext : ∀ {w₁ : World K V} {s : Shared K V} {o : Outcome V}, w.Rely t w₁ →
          (w₁.Reaches t s fun w₂ => (next o).wp order t Q w₂) →
            w₁.Reaches t s fun w₂ => (next o).wp order t
              (fun x w' => w'.Sound ∧ w.Grows w' ∧ Q x w') w₂ := by
        rintro w₁ s o hr ⟨w₂, hs₂, hsound, hg, h₂⟩
        refine ⟨w₂, hs₂, hsound, hg, wp_mono (ih o h₂ hsound) fun x w' ⟨hw', hg', hQ⟩ => ?_⟩
        exact ⟨hw', (hr.grows.trans hg.grows).trans hg', hQ⟩
      refine ⟨hgen, hacc, fun w₁ hr hs => ?_⟩
      obtain ⟨hin, hout⟩ := h w₁ hr hs
      exact ⟨fun ha => hnext hr (hin ha), fun ha => hnext hr (hout ha)⟩

/-- Every operation begins with an action. -/
theorem eq_act_of_program {r : Request K V} {p : Program K V α} {answer : α → Answer V}
    (hp : r.program = p >>= fun x => done (answer x)) :
    ∃ (a : Action K V) (next : a.Response → Program K V α), p = .act a next := by
  cases p with
  | done x => cases r <;> cases hp
  | act a next => exact ⟨a, next, rfl⟩
  | retry u next => cases r <;> cases hp

/-- A thread makes a call together with the first step of the operation. -/
theorem wp_issue {r : Request K V} {p : Program K V α} {answer : α → Answer V}
    {R : α → World K V → Prop} (hp : r.program = p >>= fun x => done (answer x))
    (hr : w.rules.allowed r) (hfree : ¬w.rules.driven)
    (h : ∀ w₁, w.Rely t w₁ → w₁.Sound → (w₁.issue t r).Sound → p.wp order t R (w₁.issue t r)) :
    p.wp order t R w := by
  obtain ⟨a, next, rfl⟩ := eq_act_of_program hp
  intro w₁ hrely hs
  have hs' : (w₁.issue t r).Sound := hs.issue t (by rwa [hrely.grows.rules])
  obtain ⟨hacq, hact⟩ := h w₁ hrely hs hs' _ (.refl t _) hs'
  have hfree₁ : ¬w₁.rules.driven := by rwa [hrely.grows.rules]
  exact ⟨hacq, fun x hperf => .after (hs.ghost_issue hfree₁ t r) (hact x hperf)⟩

variable [EquivBEq K]

/-- A call from the moment it is made to its answer. -/
theorem wp_call {k : Option (Ticket K V)} {r : Request K V} {p : Program K V α}
    {answer : α → Answer V} {Q : α → World K V → Prop}
    (hp : r.program = p >>= fun x => done (answer x)) (hout : w.Outside t k)
    (hr : w.rules.allowed r) (hfree : ¬w.rules.driven)
    (hQ : ∀ x w₁ w', w.Rely t w₁ → w₁.Sound → (w₁.issue t r).Grows w' → w'.Sound →
      w'.Outside t (some ⟨w₁.chronicle.issued, r, .answered (answer x), w₁.callsOf t⟩) → Q x w') :
    p.wp order t Q w := by
  refine wp_issue hp hr hfree fun w₁ hrely hs hs' => ?_
  have hout₁ : (w₁.issue t r).Outside t (some ⟨w₁.chronicle.issued, r, .pending, w₁.callsOf t⟩) :=
    ⟨issue_tickets_self w₁ t r, (hout.rely hrely).holder⟩
  have hreq : r.program.wp order t (fun answer w' => w'.Outside t
      (some ⟨w₁.chronicle.issued, r, .answered answer, w₁.callsOf t⟩)) (w₁.issue t r) :=
    wp_request hout₁ rfl fun answer w' hout' => hout'
  rw [hp] at hreq
  exact wp_mono (wp_upshot (wp_of_bind hreq) hs') fun x w' ⟨hsound, hg, hout'⟩ =>
    hQ x w₁ w' hrely hs hg hsound hout'

end Program

end ConcurrentMap
