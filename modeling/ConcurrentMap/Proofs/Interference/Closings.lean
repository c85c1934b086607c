import ConcurrentMap.Proofs.Interference.Entries

/-!
# Steps at which cells cease to serve

A promotion drops the tombstoned cells, a deletion withdraws a cell from the staged table, and a
clearing discards all cells. Each of these ends an era. `World.Closing` is what the three have in
common, and `World.Closing.sound` is the one proof that the invariant survives them.
-/

namespace ConcurrentMap

variable {K V : Type}

namespace Chronicle

variable {C : Chronicle K V} {ending : Option (CallId × Request K V)}

/-- What ended an era did so before, or ends the current one. -/
theorem ended_close (hcur : ∀ j, C.era ≤ j → C.ended j = none) {j : Nat}
    {x : CallId × Request K V} (h : (C.close ending).ended j = some x) :
    (j < C.era ∧ C.ended j = some x) ∨ (j = C.era ∧ ending = some x) := by
  by_cases hj : j = C.era
  · subst hj
    rw [C.ended_close_self] at h
    exact .inr ⟨rfl, h⟩
  · rw [C.ended_close_of_ne hj] at h
    exact .inl ⟨lt_era_of_ended hcur h, h⟩

/-- The limits stay in order when an era ends. -/
theorem limits_close (h : ∀ i j, i ≤ j → j ≤ C.era → C.limit i ≤ C.limit j) (i j : Nat)
    (hij : i ≤ j) (hj : j ≤ C.era + 1) : (C.close ending).limit i ≤ (C.close ending).limit j := by
  -- the new era begins with the limit of the old one
  have hnew : (C.close ending).limit (C.era + 1) = C.limit C.era := C.issued_close ending
  rcases Nat.lt_or_ge C.era j with hlt | hle
  · obtain rfl : j = C.era + 1 := by omega
    rcases Nat.lt_or_ge C.era i with hlt' | hle'
    · obtain rfl : i = C.era + 1 := by omega
      exact Nat.le_refl _
    · rw [hnew, C.limit_close_of_le hle']
      exact h i C.era hle' (Nat.le_refl _)
  · rw [C.limit_close_of_le hle, C.limit_close_of_le (Nat.le_trans hij hle)]
    exact h i j hij hle

/-- No call ends two eras, if the one that ends the current era ended none before. -/
theorem once_close (hcur : ∀ j, C.era ≤ j → C.ended j = none)
    (honce : ∀ i j id r r', C.ended i = some (id, r) → C.ended j = some (id, r') → i = j)
    (hfresh : ∀ id r, ending = some (id, r) → ∀ j r', C.ended j ≠ some (id, r')) (i j : Nat)
    (id : CallId) (r r' : Request K V) (hi : (C.close ending).ended i = some (id, r))
    (hj : (C.close ending).ended j = some (id, r')) : i = j := by
  rcases ended_close hcur hi with ⟨-, hold⟩ | ⟨rfl, hnew⟩
  · rcases ended_close hcur hj with ⟨-, hold'⟩ | ⟨-, hnew⟩
    · exact honce i j id r r' hold hold'
    · exact absurd hold (hfresh id r' hnew i r)
  · rcases ended_close hcur hj with ⟨-, hold'⟩ | ⟨rfl, -⟩
    · exact absurd hold' (hfresh id r hnew j r')
    · rfl

/-- What is recorded of a call stays recorded when an era ends. -/
theorem Recorded.close {id : CallId} {answer : Answer V} {horizon : CallId}
    (h : C.Recorded id answer horizon) (hcur : ∀ j, C.era ≤ j → C.ended j = none)
    (ending : Option (CallId × Request K V)) : (C.close ending).Recorded id answer horizon := by
  rcases h with hdeed | ⟨j, hj, ha, hh⟩
  · exact .inl hdeed
  · have hlt := lt_era_of_ended hcur hj
    refine .inr ⟨j, ?_, ha, ?_⟩
    · rw [C.ended_close_of_ne (Nat.ne_of_lt hlt), hj]
    · rw [C.limit_close_of_le (Nat.le_of_lt hlt), hh]

end Chronicle

/-- A deed on the list stays there when an era ends. -/
theorem Deed.Listed.close {C : Chronicle K V} {d : Deed K V} (h : d.Listed C)
    (ending : Option (CallId × Request K V)) : d.Listed (C.close ending) where
  era := Nat.le_succ_of_le h.era
  id := by
    rw [C.limit_close_of_le h.era]
    exact h.id
  asked := h.asked
  horizon := by
    rw [C.issued_close]
    exact h.horizon
  late i hi := by
    rw [C.limit_close_of_le (Nat.le_trans (Nat.le_of_lt hi) h.era)]
    exact h.late i hi

/-- It makes no difference to a call when another one ends an era. -/
theorem Ticket.Holds.close {C : Chronicle K V} {k : Ticket K V} (h : k.Holds C)
    (hcur : ∀ j, C.era ≤ j → C.ended j = none) {ending : Option (CallId × Request K V)}
    (hne : ∀ r, ending ≠ some (k.id, r)) : k.Holds (C.close ending) := by
  unfold Ticket.Holds at h ⊢
  cases hp : k.progress with
  | pending =>
      rw [hp] at h
      refine ⟨h.1, fun j r hj => ?_⟩
      rcases Chronicle.ended_close hcur hj with ⟨-, hold⟩ | ⟨-, hnew⟩
      · exact h.2 j r hold
      · exact hne r hnew
  | withdrawing era =>
      rw [hp] at h
      refine ⟨h.1, ?_⟩
      rw [C.ended_close_of_ne (Nat.ne_of_lt (Chronicle.lt_era_of_ended hcur h.2))]
      exact h.2
  | answered answer =>
      rw [hp] at h
      obtain ⟨horizon, hle, hrec⟩ := h
      exact ⟨horizon, by rwa [C.issued_close], hrec.close hcur ending⟩

variable [BEq K] [BEq V]

namespace World

variable {w w' : World K V} {t : ThreadId}

/-- The call that ends an era has not taken effect so far, and it ended no era before. -/
theorem Docket.unentered_ending (hw : w.Docket) {k : Ticket K V} (hk : w.tickets t = some k)
    (hpend : k.progress = .pending) : w.chronicle.Unentered k.id ∧
      ∀ j r, w.chronicle.ended j ≠ some (k.id, r) := by
  have hholds := (hw.tickets t k hk).2.2
  rwa [Ticket.Holds, hpend] at hholds

/-- The end of an era is no concern of the calls that do not end it. -/
theorem Docket.ticket_close (hw : w.Docket) (hcur : ∀ j, w.era ≤ j → w.chronicle.ended j = none)
    {ending : Option (CallId × Request K V)} {k : Ticket K V} (hk : w.tickets t = some k)
    (hne : ∀ r, ending ≠ some (k.id, r)) : k.id < (w.chronicle.close ending).issued ∧
      (w.chronicle.close ending).asked k.id = k.request ∧ k.Holds (w.chronicle.close ending) := by
  obtain ⟨hlt, hask, hholds⟩ := hw.tickets t k hk
  rw [w.chronicle.issued_close]
  exact ⟨hlt, hask, hholds.close hcur hne⟩

/-- What ending an era keeps of the docket. The ending is nobody's, or the thread's current call. -/
theorem Docket.close (hw : w.Docket) (hcur : ∀ j, w.era ≤ j → w.chronicle.ended j = none)
    {ending : Option (CallId × Request K V)}
    (hclock : w'.shared.clock = w.shared.clock) (hmint : w'.mint = w.mint)
    (hchron : w'.chronicle = w.chronicle.close ending) (hrules : w'.rules = w.rules)
    (htick : (ending = none ∧ w'.tickets = w.tickets) ∨
      ∃ k progress, w.tickets t = some k ∧ k.progress = .pending ∧
        ending = some (k.id, k.request) ∧
        Ticket.Holds (w.chronicle.close ending) (k.become progress) ∧
        w'.tickets = Function.update w.tickets t (some (k.become progress))) :
    w'.Docket := by
  have hera' : w'.era = w.era + 1 := by rw [World.era, hchron]; rfl
  have hissued : w'.chronicle.issued = w.chronicle.issued := by rw [hchron, Chronicle.issued_close]
  have hcall : ∀ id r, ending = some (id, r) →
      ∃ k, w.tickets t = some k ∧ k.progress = .pending ∧ k.id = id ∧ k.request = r := by
    rintro id r hend
    rcases htick with ⟨hnone, -⟩ | ⟨k, progress, hk, hpend, hend', -⟩
    · simp [hnone] at hend
    · have hsame := Option.some.inj (hend'.symm.trans hend)
      simp only [Prod.mk.injEq] at hsame
      exact ⟨k, hk, hpend, hsame⟩
  refine
    { limits := fun i j hij hj => ?_, deeds := fun d hd => ?_, distinct := ?_
      stamps := fun d hd v hv => ?_, ended := fun j id r hj => ?_, once := ?_
      unentered := fun j id r hj heff => ?_
      tickets := fun u k hu => ?_, owners := ?_, callers := ?_, allowed := ?_ }
  · rw [hchron]
    exact Chronicle.limits_close hw.limits i j hij (hera' ▸ hj)
  · rw [hchron] at hd ⊢
    exact (hw.deeds d hd).close ending
  · rw [hchron]
    exact hw.distinct
  · rw [hchron] at hd
    rw [hclock, hmint]
    exact hw.stamps d hd v hv
  · rw [hchron] at hj ⊢
    rcases Chronicle.ended_close hcur hj with ⟨hlt, hold⟩ | ⟨rfl, hnew⟩
    · rw [w.chronicle.limit_close_of_le (Nat.le_of_lt hlt)]
      exact hw.ended j id r hold
    · obtain ⟨k, hk, -, rfl, rfl⟩ := hcall id r hnew
      rw [w.chronicle.limit_close_of_le (Nat.le_refl _)]
      obtain ⟨hlt, hask, -⟩ := hw.tickets t k hk
      exact ⟨hlt, hask⟩
  · rw [hchron]
    refine Chronicle.once_close hcur hw.once fun id r hnew => ?_
    obtain ⟨k, hk, hpend, rfl, -⟩ := hcall id r hnew
    exact (hw.unentered_ending hk hpend).2
  · rw [hchron] at hj heff ⊢
    rcases Chronicle.ended_close hcur hj with ⟨hlt, hold⟩ | ⟨rfl, hnew⟩
    · rw [w.chronicle.state_close_of_le ending (Nat.le_of_lt hlt)] at heff
      exact hw.unentered j id r hold heff
    · obtain ⟨k, hk, hpend, rfl, -⟩ := hcall id r hnew
      exact (hw.unentered_ending hk hpend).1
  · rw [hchron]
    rcases htick with ⟨rfl, hsame⟩ | ⟨k', progress, hk', -, rfl, hholds, hupd⟩
    · rw [hsame] at hu
      exact hw.ticket_close hcur hu fun r h => by simp at h
    · rw [hupd] at hu
      by_cases hut : u = t
      · subst hut
        obtain rfl : k'.become progress = k := by simpa using hu
        obtain ⟨hlt, hask, -⟩ := hw.tickets u k' hk'
        exact ⟨Nat.lt_of_lt_of_eq hlt (w.chronicle.issued_close _).symm, hask, hholds⟩
      · -- calls of other threads have other names
        rw [Function.update_of_ne hut] at hu
        refine hw.ticket_close hcur hu fun r hend => hut ?_
        have hid : k'.id = k.id := congrArg Prod.fst (Option.some.inj hend)
        exact hw.owners u t k k' hu hk' k.id k.id_mem_calls (hid ▸ k'.id_mem_calls)
  · rcases htick with ⟨-, hsame⟩ | ⟨k', progress, hk', -, -, -, hupd⟩
    · rw [hsame]
      exact hw.owners
    · rw [hupd]
      exact hw.owners_update hk' rfl
  · rw [hissued]
    rcases htick with ⟨-, hsame⟩ | ⟨k', progress, hk', -, -, -, hupd⟩
    · rw [hsame]
      exact hw.callers
    · rw [hupd]
      exact hw.callers_update hk' rfl
  · rw [hissued, hchron, hrules]
    exact hw.allowed

/-! ## The end of an era -/

/-- The standing of a cell after an era: the cells that serve their keys are retired if they are
`gone`, and published if the others are. -/
def afterEra (w : World K V) (gone : CellId → Bool) (fate : Fate) (publishes : Bool) (c : CellId) :
    Standing K :=
  match w.standing c with
  | .unused => .unused
  | .serving own p => if gone c then .retired own w.era fate else .serving own (p || publishes)
  | .retired own j f => .retired own j f

/-- The holder `t` of the mutex lets the cells that are `gone` cease to serve their keys. -/
structure Closing (w : World K V) (t : ThreadId) (gone : CellId → Bool) (fate : Fate)
    (publishes : Bool) (ending : Option (CallId × Request K V)) (w' : World K V) : Prop where
  holder : w.shared.holder = some t
  rest : w.phase = .rest
  holder' : w'.shared.holder = some t
  clock : w'.shared.clock = w.shared.clock
  cells : w'.shared.cells = w.shared.cells
  tidy : Tidy w'.phase w'.shared
  find? : ∀ key, w'.shared.find? key =
    (w.shared.find? key).bind fun c => if gone c then none else some c
  published : ∀ key c, w'.shared.snapshot.find? key = some c ↔ w'.shared.find? key = some c ∧
    (publishes = true ∨ w.shared.snapshot.find? key = some c)
  standing : w'.standing = w.afterEra gone fate publishes
  mint : w'.mint = w.mint
  chronicle : w'.chronicle = w.chronicle.close ending
  rules : w'.rules = w.rules
  tickets : (ending = none ∧ w'.tickets = w.tickets) ∨
    ∃ k progress, w.tickets t = some k ∧ k.progress = .pending ∧ ending = some (k.id, k.request) ∧
      Ticket.Holds (w.chronicle.close ending) (k.become progress) ∧
      w'.tickets = Function.update w.tickets t (some (k.become progress))
  fits : ∀ c own p, w.standing c = .serving own p → gone c = true → fate.Fits own ending ∧
    (p = true → fate ≠ .withdrawn) ∧ (fate = .dropped → w.shared.tombstoned c = true)
  endings : ∀ id r, ending = some (id, r) → r = .clear ∨ ∃ key, r.removes? = some key
  kept : ∀ c own p, w.standing c = .serving own p → gone c = false →
    (w.chronicle.state w.era).closed ending own = w.chronicle.state w.era own
  lost : ∀ key, w'.shared.find? key = none →
    (w.chronicle.state w.era).closed ending key = none

omit [BEq K] [BEq V] in
/-- The cells that serve after an era are those that served before and are not gone. -/
theorem afterEra_serving {gone : CellId → Bool} {fate : Fate} {publishes : Bool} {c : CellId}
    {own : K} {q : Bool} : w.afterEra gone fate publishes c = .serving own q ↔
      ∃ p, w.standing c = .serving own p ∧ gone c = false ∧ q = (p || publishes) := by
  unfold afterEra
  cases hs : w.standing c with
  | unused => simp
  | retired a j f => simp
  | serving a p =>
      cases hg : gone c
      · simp only [Bool.false_eq_true, if_false, Standing.serving.injEq]
        constructor
        · rintro ⟨rfl, rfl⟩
          exact ⟨p, ⟨rfl, rfl⟩, trivial, rfl⟩
        · rintro ⟨p', ⟨rfl, rfl⟩, -, rfl⟩
          exact ⟨rfl, rfl⟩
      · simp

omit [BEq K] [BEq V] in
/-- The cells that are retired after an era were so before, or they have just gone. -/
theorem afterEra_retired {gone : CellId → Bool} {fate : Fate} {publishes : Bool} {c : CellId}
    {own : K} {j : Nat} {f : Fate} (h : w.afterEra gone fate publishes c = .retired own j f) :
    w.standing c = .retired own j f ∨
      (j = w.era ∧ f = fate ∧ gone c = true ∧ ∃ p, w.standing c = .serving own p) := by
  unfold afterEra at h
  cases hs : w.standing c with
  | unused => simp [hs] at h
  | retired a i f' => exact .inl (by simpa [hs] using h)
  | serving a p =>
      cases hg : gone c
      · simp [hs, hg] at h
      · simp only [hs, hg, if_true, Standing.retired.injEq] at h
        obtain ⟨rfl, rfl, rfl⟩ := h
        exact .inr ⟨rfl, rfl, rfl, p, rfl⟩

namespace Closing

variable {gone : CellId → Bool} {fate : Fate} {publishes : Bool}
  {ending : Option (CallId × Request K V)}

/-- No slot changes at the end of an era. -/
theorem slot (h : w.Closing t gone fate publishes ending w') (c : CellId) :
    w'.shared.slot c = w.shared.slot c := by
  simp only [Shared.slot, h.cells]

/-- No tombstone comes or goes at the end of an era. -/
theorem tombstoned (h : w.Closing t gone fate publishes ending w') (c : CellId) :
    w'.shared.tombstoned c = w.shared.tombstoned c := by
  simp only [Shared.tombstoned, h.slot]

/-- The next era is the current one. -/
theorem era (h : w.Closing t gone fate publishes ending w') : w'.era = w.era + 1 := by
  rw [World.era, h.chronicle]
  rfl

/-- The map of the era that ends and those of the earlier eras stay as they are. -/
theorem state_of_le (h : w.Closing t gone fate publishes ending w') {j : Nat} (hj : j ≤ w.era) :
    w'.chronicle.state j = w.chronicle.state j := by
  rw [h.chronicle, w.chronicle.state_close_of_le ending hj]

/-- The new era begins with the map that the ending leaves. -/
theorem state_era (h : w.Closing t gone fate publishes ending w') (hw : w.Sound) :
    w'.chronicle.state (w.era + 1) = (w.chronicle.state w.era).closed ending := by
  rw [h.chronicle]
  exact w.chronicle.state_close_era ending fun d hd => (hw.docket.deeds d hd).era

/-- The end of an era loses nothing of what lasts. -/
theorem grows (h : w.Closing t gone fate publishes ending w') (hw : w.Sound) : w.Grows w' where
  clock := Nat.le_of_eq h.clock.symm
  minted _ _ := by rw [h.mint]
  chronicle := by rw [h.chronicle]; exact w.chronicle.extends_close ending
  standing c := by
    rw [h.standing, afterEra]
    cases hs : w.standing c with
    | unused => trivial
    | retired own j f => rfl
    -- A cell in service stays in service or retires now, and keeps its key.
    | serving own p =>
        cases hg : gone c
        · exact ⟨rfl, fun hp => by simp [hp]⟩
        · exact ⟨rfl, Nat.le_refl _, (h.fits c own p hs hg).2.1⟩
  limits c hc := by
    have hold : ∀ j ≤ w.era, w.chronicle.limit j ≤ (w.chronicle.close ending).limit j :=
      fun j hj => Nat.le_of_eq (w.chronicle.limit_close_of_le hj ending).symm
    rw [World.site, World.site, h.standing, afterEra, h.era, h.chronicle]
    cases hs : w.standing c with
    | unused => exact absurd hs hc
    | retired own j f => exact hold j (Nat.le_of_lt (hw.ledger.fates c own j f hs).1)
    | serving own p =>
        -- What still serves counts in the new era, what retires counts in the old one.
        cases hg : gone c
        · simp [Standing.site, Chronicle.close, World.era]
        · exact hold w.era (Nat.le_refl _)
  issued := by rw [h.chronicle]; exact Nat.le_of_eq (w.chronicle.issued_close ending).symm
  asked _ _ := by rw [h.chronicle]; rfl
  recorded _ _ _ hrec := by rw [h.chronicle]; exact hrec.close hw.ledger.current ending
  rules := h.rules

/-- The holder of the mutex may end an era. -/
theorem guarantee (h : w.Closing t gone fate publishes ending w') (hw : w.Sound) :
    w.Guarantee t w' where
  grows := h.grows hw
  others u hu := by
    rcases h.tickets with ⟨-, hsame⟩ | ⟨k, progress, -, -, -, -, hupd⟩
    · rw [hsame]
    · rw [hupd, Function.update_of_ne hu]
  holder := .inl (h.holder'.trans h.holder.symm)
  calls _ := by rw [h.chronicle, w.chronicle.issued_close]
  frame hne := absurd h.holder hne
  protocol :=
    { installs := fun c _ hne => absurd (h.slot c) hne
      tombstones := fun c _ hne => absurd (h.tombstoned c) hne
      lifts := fun c hc hc' => by simp [h.tombstoned c, hc] at hc'
      readmits := fun key c hp => by simp [h.rest] at hp }

/-- After an era the tables lead to the cells that still serve. -/
theorem roster (h : w.Closing t gone fate publishes ending w') (hw : w.Sound) : w'.Roster := by
  have hserves : ∀ key c, w'.shared.find? key = some c ↔
      ∃ own p, w'.standing c = .serving own p ∧ (own == key) = true := by
    intro key c
    rw [h.find?, h.standing]
    constructor
    · intro hc
      obtain ⟨d, hd, hgone⟩ := Option.bind_eq_some_iff.1 hc
      split at hgone
      · simp at hgone
      · next hg =>
        obtain rfl := Option.some.inj hgone
        obtain ⟨own, p, hs, heq⟩ := (hw.roster.serves key d).1 hd
        exact ⟨own, _, afterEra_serving.2 ⟨p, hs, by simpa using hg, rfl⟩, heq⟩
    -- A cell that still serves was led to before, and it is none of those that are gone.
    · rintro ⟨own, q, hs, heq⟩
      obtain ⟨p, hs, hg, -⟩ := afterEra_serving.1 hs
      rw [(hw.roster.serves key c).2 ⟨own, p, hs, heq⟩]
      simp [hg]
  refine
    { serves := hserves, published := fun key c => ?_, used := fun c hc => ?_
      dropped := fun c own j hc => ?_ }
  · rw [h.published, hserves]
    constructor
    · rintro ⟨⟨own, q, hs, heq⟩, hpub⟩
      refine ⟨own, ?_, heq⟩
      rw [h.standing] at hs ⊢
      obtain ⟨p, hold, hg, rfl⟩ := afterEra_serving.1 hs
      refine afterEra_serving.2 ⟨p, hold, hg, ?_⟩
      -- It is published now, or it was in the snapshot before.
      rcases hpub with hpub | hpub
      · simp [hpub]
      · obtain ⟨own', hold', -⟩ := (hw.roster.published key c).1 hpub
        obtain ⟨-, rfl⟩ := Standing.serving.inj (hold.symm.trans hold')
        rfl
    · rintro ⟨own, hs, heq⟩
      refine ⟨⟨own, true, hs, heq⟩, ?_⟩
      rw [h.standing] at hs
      obtain ⟨p, hs, hg, hq⟩ := afterEra_serving.1 hs
      rcases Bool.or_eq_true_iff.1 hq.symm with hp | hp
      · exact .inr ((hw.roster.published key c).2 ⟨own, by rw [hs, hp], heq⟩)
      · exact .inl hp
  · rw [h.cells]
    refine hw.roster.used c fun hu => hc ?_
    rw [h.standing, afterEra, hu]
  · rw [h.standing] at hc
    rw [h.tombstoned]
    -- It was left out by an earlier promotion, or by this one because of its tombstone.
    rcases afterEra_retired hc with hold | ⟨-, hf, hg, p, hs⟩
    · exact hw.roster.dropped c own j hold
    · exact (h.fits c own p hs hg).2.2 hf.symm

/-- What a cell holds is what it held, so the key of a cell that still serves must not be affected
by the ending, and the other cells count where they counted before. -/
theorem held (h : w.Closing t gone fate publishes ending w') (hw : w.Sound) (c : CellId) (own : K)
    (hc : (w'.standing c).key? = some own) :
    w'.chronicle.state (w'.site c) own = (w'.shared.slot c).handle? := by
  rw [h.slot, World.site]
  rw [h.standing, afterEra] at hc ⊢
  cases hs : w.standing c with
  | unused => simp [hs, Standing.key?] at hc
  -- A retired cell counts in an era that was over before.
  | retired a j f =>
      have hheld := hw.ledger.held c own (by simpa [hs, Standing.key?] using hc)
      rw [World.site, hs] at hheld
      simp only [Standing.site] at hheld ⊢
      rwa [h.state_of_le (Nat.le_of_lt (hw.ledger.fates c a j f hs).1)]
  | serving a p =>
      have hheld := hw.ledger.held c a (by simp [hs, Standing.key?])
      rw [World.site, hs] at hheld
      simp only [hs] at hc
      cases hg : gone c
      -- The cell goes on serving: its key has in the new era what it had in the old one.
      · obtain rfl : a = own := by simpa [hg, Standing.key?] using hc
        simp only [Bool.false_eq_true, if_false, Standing.site, h.era]
        rw [h.state_era hw, h.kept c a p hs hg]
        exact hheld
      -- The cell retires: it counts in the era that ends.
      · obtain rfl : a = own := by simpa [hg, Standing.key?] using hc
        simp only [if_true, Standing.site]
        rw [h.state_of_le (Nat.le_refl _)]
        exact hheld

variable [EquivBEq K]

/-- Of the cells that cease to serve in one era, each served another key. -/
theorem alone (h : w.Closing t gone fate publishes ending w') (hw : w.Sound) {c d : CellId}
    {own own' : K} {j : Nat} {f f' : Fate} (hc : w'.standing c = .retired own j f)
    (hd : w'.standing d = .retired own' j f') (heq : (own == own') = true) : c = d := by
  rw [h.standing] at hc hd
  rcases afterEra_retired hc with hold | ⟨hj, -, -, p, hs⟩
  · rcases afterEra_retired hd with hold' | ⟨hj, -⟩
    · exact hw.ledger.alone c d own own' j f f' hold hold' heq
    · have hlt := (hw.ledger.fates c own j f hold).1
      omega
  · rcases afterEra_retired hd with hold | ⟨-, -, -, q, hs'⟩
    · have hlt := (hw.ledger.fates d own' j f' hold).1
      omega
    · have hfind := (hw.roster.serves own' c).2 ⟨own, p, hs, heq⟩
      have hfind' := (hw.roster.serves own' d).2 ⟨own', q, hs', BEq.rfl⟩
      exact Option.some.inj (hfind.symm.trans hfind')

/-- After an era the cells still hold what the chronicle says. -/
theorem ledger (h : w.Closing t gone fate publishes ending w') (hw : w.Sound) : w'.Ledger := by
  have hera := h.era
  refine
    { explained := fun j hj => ?_, current := fun j hj => ?_, held := h.held hw
      missing := fun key hk => ?_, fates := fun c own j f hc => ?_
      alone := fun c d own own' j f f' hc hd heq => h.alone hw hc hd heq
      endings := fun j id r hj => ?_ }
  · rw [h.chronicle]
    rcases Nat.lt_or_ge w.era j with hlt | hle
    · -- nothing was entered in the new era yet
      have hnil : (w.chronicle.close ending).calls j = [] := by
        refine Chronicle.calls_eq_nil fun d hd hj => ?_
        have hle : d.era ≤ w.era := (hw.docket.deeds d hd).era
        omega
      rw [hnil]
      trivial
    · rw [w.chronicle.opening_close_of_le ending hle]
      exact hw.ledger.explained j hle
  · rw [h.chronicle]
    have hne : j ≠ w.chronicle.era := by
      have hera' : w.chronicle.era = w.era := rfl
      omega
    rw [w.chronicle.ended_close_of_ne hne]
    exact hw.ledger.current j (by omega)
  · rw [hera, h.state_era hw]
    exact h.lost key hk
  · rw [h.standing] at hc
    rw [hera, h.chronicle]
    rcases afterEra_retired hc with hold | ⟨rfl, rfl, hg, p, hs⟩
    · obtain ⟨hlt, hfits⟩ := hw.ledger.fates c own j f hold
      refine ⟨Nat.lt_succ_of_lt hlt, ?_⟩
      rwa [w.chronicle.ended_close_of_ne (Nat.ne_of_lt hlt)]
    · refine ⟨Nat.lt_succ_self _, ?_⟩
      rw [World.era, w.chronicle.ended_close_self]
      exact (h.fits c own p hs hg).1
  · rw [h.chronicle] at hj
    rcases Chronicle.ended_close hw.ledger.current hj with ⟨-, hold⟩ | ⟨-, hnew⟩
    · exact hw.ledger.endings j id r hold
    · exact h.endings id r hnew

/-- The invariant survives the end of an era. -/
theorem sound (h : w.Closing t gone fate publishes ending w') (hw : w.Sound) : w'.Sound where
  tidy := h.tidy
  free hfree := by simp [h.holder'] at hfree
  minted c := by
    rw [h.slot]
    exact (h.grows hw).genuine (hw.minted c)
  roster := h.roster hw
  ledger := h.ledger hw
  docket := hw.docket.close hw.ledger.current h.clock h.mint h.chronicle h.rules h.tickets

end Closing

/-! ## The three ways in which an era ends -/

/-- The world after the staged table `table` was published as the snapshot. -/
def promoted (w : World K V) (table : Table K) : World K V :=
  { w with
    shared := w.shared.publish (.ofTable table)
    phase := .promoted
    standing := w.afterEra w.shared.tombstoned .dropped true
    chronicle := w.chronicle.close none }

/-- The world after the call `k` of thread `t` withdrew `key`, which the staged table alone had,
with cell `c`. -/
def withdrawn (w : World K V) (t : ThreadId) (k : Ticket K V) (key : K) (c : CellId) : World K V :=
  { w with
    shared := w.shared.setStaged (w.shared.staging.table.map (·.erase key))
    standing := w.afterEra (· == c) .withdrawn false
    chronicle := w.chronicle.close (some (k.id, k.request))
    tickets := Function.update w.tickets t (some (k.become (.withdrawing w.era))) }

/-- The world after the call `k` of thread `t` discarded all cells. -/
def discarded (w : World K V) (t : ThreadId) (k : Ticket K V) : World K V :=
  { w with
    shared := w.shared.publish .empty
    phase := .cleared
    standing := w.afterEra (fun _ => true) .discarded false
    chronicle := w.chronicle.close (some (k.id, k.request))
    tickets := Function.update w.tickets t (some (k.closed .finished)) }

variable [EquivBEq K] {k : Ticket K V}

/-- A promotion ends an era: the tombstoned cells go, and the others are published. -/
theorem Sound.closing_promoted (hw : w.Sound) (hholder : w.shared.holder = some t)
    (hrest : w.phase = .rest) {table : Table K} (htable : w.shared.staging.table = some table) :
    w.Closing t w.shared.tombstoned .dropped true none (w.promoted table) := by
  have htidy : Tidy .rest w.shared := hrest ▸ hw.tidy
  have hfind := htidy.find?_promote htable
  refine
    { holder := hholder, rest := hrest, holder' := hholder, clock := rfl, cells := rfl
      tidy := htidy.promote htable, find? := hfind, published := fun key c => ?_, standing := rfl
      mint := rfl, chronicle := rfl, rules := rfl, tickets := .inl ⟨rfl, rfl⟩
      fits := fun c own p _ hgone => ⟨rfl, fun _ => by simp, fun _ => hgone⟩
      endings := fun id r h => by simp at h, kept := fun _ _ _ _ _ => rfl
      lost := fun key hk => ?_ }
  · simp only [true_or, and_true]
    show Snapshot.find? (.ofTable table) key = some c ↔
      (w.shared.publish (.ofTable table)).find? key = some c
    simp only [Shared.find?, Shared.publish, Snapshot.amended_ofTable, Bool.false_eq_true, if_false]
    cases Snapshot.find? (.ofTable table) key <;> simp
  · rw [Plain.closed_none]
    change (w.shared.publish (.ofTable table)).find? key = none at hk
    rw [hfind] at hk
    cases hc : w.shared.find? key with
    | none => exact hw.ledger.missing key hc
    | some c =>
        -- the key was served by a tombstoned cell
        obtain ⟨own, p, hs, heq⟩ := (hw.roster.serves key c).1 hc
        have hheld := hw.ledger.held c own (by simp [hs, Standing.key?])
        have htomb : w.shared.tombstoned c = true := by simpa [hc] using hk
        rw [Shared.handle?_of_tombstoned htomb, World.site, hs] at hheld
        rw [← w.chronicle.respects_state w.era heq]
        exact hheld

/-- After a key is withdrawn that the staged table alone had, its cell serves no key, for it served
that key alone. -/
theorem Sound.find?_withdrawn (hw : w.Sound) {key : K} {c : CellId}
    (hsnap : w.shared.snapshot.find? key = none) (hc : w.shared.find? key = some c) (query : K) :
    (w.withdrawn t k key c).shared.find? query =
      (w.shared.find? query).bind fun d => if d == c then none else some d := by
  refine (Tidy.find?_unstage hsnap query).trans ?_
  split
  · next hq =>
    rw [← w.shared.find?_congr hq, hc]
    simp
  · next hq =>
    cases hd : w.shared.find? query with
    | none => rfl
    | some d =>
        have hne : d ≠ c := by
          rintro rfl
          obtain ⟨own, p, hs, heq⟩ := (hw.roster.serves key d).1 hc
          exact hq (PartialEquivBEq.trans (BEq.symm heq) (hw.roster.own_beq hs hd))
        simp [hne]

/-- A deletion that takes its key from the staged table ends an era: the cell of the key goes. -/
theorem Sound.closing_withdrawn (hw : w.Sound) (hholder : w.shared.holder = some t)
    (hrest : w.phase = .rest) (hk : w.tickets t = some k) (hpend : k.progress = .pending)
    {key : K} (hrem : k.request.removes? = some key) {c : CellId}
    (hsnap : w.shared.snapshot.find? key = none) (hstag : w.shared.staging.find? key = some c) :
    w.Closing t (· == c) .withdrawn false (some (k.id, k.request)) (w.withdrawn t k key c) := by
  have htidy : Tidy .rest w.shared := hrest ▸ hw.tidy
  have hkc : w.shared.find? key = some c := htidy.find?_of_staged hstag
  have hfind := Tidy.find?_unstage hsnap
  have hclosed : ∀ query, (w.chronicle.state w.era).closed (some (k.id, k.request)) query =
      if key == query then none else w.chronicle.state w.era query := by
    intro query
    rw [Plain.closed_some, Plain.apply_of_key (k.request.key?_of_removes? hrem),
      Request.effect_of_removes? hrem]
    rfl
  refine
    { holder := hholder, rest := hrest, holder' := hholder, clock := rfl, cells := rfl
      tidy := ?_, find? := hw.find?_withdrawn hsnap hkc, published := fun query d => ?_
      standing := rfl, mint := rfl, chronicle := rfl, rules := rfl, tickets := ?_
      fits := fun d own p hs hgone => ?_
      endings := fun id r h => ?_, kept := fun d own p hs hgone => ?_
      lost := fun query hq => ?_ }
  · show Tidy w.phase (w.shared.setStaged _)
    rw [hrest]
    exact htidy.unstage hsnap
  · simp only [Bool.false_eq_true, false_or]
    show w.shared.snapshot.find? query = some d ↔
      (w.shared.setStaged _).find? query = some d ∧ w.shared.snapshot.find? query = some d
    rw [hfind]
    -- No snapshot has the key, so what the snapshot leads to is another key's.
    refine ⟨fun hd => ⟨?_, hd⟩, fun hd => hd.2⟩
    rw [if_neg, Shared.find?_of_snapshot hd]
    intro hq
    rw [w.shared.snapshot.find?_congr hq, hd] at hsnap
    simp at hsnap
  · exact .inr ⟨k, .withdrawing w.era, hk, hpend, rfl,
      ⟨(hw.docket.unentered_ending hk hpend).1, w.chronicle.ended_close_self _⟩, rfl⟩
  -- The only cell that goes is that of the key, which was not published.
  · obtain rfl : d = c := by simpa using hgone
    have hdk : (own == key) = true := hw.roster.own_beq hs hkc
    refine ⟨⟨_, _, key, rfl, hrem, hdk⟩, fun hp => ?_, fun h => by simp at h⟩
    have hpub := (hw.roster.published key d).2 ⟨own, by rw [hs, hp], hdk⟩
    simp [hsnap] at hpub
  · simp only [Option.some.injEq, Prod.mk.injEq] at h
    exact .inr ⟨key, h.2 ▸ hrem⟩
  -- The deletion leaves the keys of the other cells as they are.
  · rw [hclosed, if_neg]
    intro hq
    have hfind := (hw.roster.serves key d).2 ⟨own, p, hs, BEq.symm hq⟩
    obtain rfl := Option.some.inj (hfind.symm.trans hkc)
    simp at hgone
  · rw [hclosed]
    change (w.shared.setStaged _).find? query = none at hq
    rw [hfind] at hq
    -- A key without a cell is the one withdrawn, or had none before.
    split at hq
    · next hkq => rw [if_pos hkq]
    · next hkq =>
      rw [if_neg hkq]
      exact hw.ledger.missing query hq

omit [EquivBEq K] in
/-- A clearing ends an era: all cells go. -/
theorem Sound.closing_discarded (hw : w.Sound) (hholder : w.shared.holder = some t)
    (hrest : w.phase = .rest) (hk : w.tickets t = some k) (hpend : k.progress = .pending)
    (hreq : k.request = .clear) :
    w.Closing t (fun _ => true) .discarded false (some (k.id, k.request)) (w.discarded t k) := by
  have htidy : Tidy .rest w.shared := hrest ▸ hw.tidy
  refine
    { holder := hholder, rest := hrest, holder' := hholder, clock := rfl, cells := rfl
      tidy := htidy.reset, find? := fun query => ?_, published := fun query d => ?_, standing := rfl
      mint := rfl, chronicle := rfl, rules := rfl, tickets := ?_
      fits := fun d own p hs _ => ⟨⟨k.id, by rw [hreq]⟩, fun _ => by simp, fun h => by simp at h⟩
      endings := fun id r h => ?_, kept := fun d own p hs hgone => by simp at hgone
      lost := fun query _ => ?_ }
  · show none = _
    cases w.shared.find? query <;> rfl
  · show Snapshot.find? .empty query = some d ↔ (none : Option CellId) = some d ∧ _
    simp
  -- The call that clears takes effect as the era ends, which is where it is recorded.
  · refine .inr ⟨k, .answered .finished, hk, hpend, rfl,
      ⟨w.chronicle.issued, ?_, .inr ⟨w.era, ?_, rfl, ?_⟩⟩, rfl⟩
    · exact Nat.le_of_eq (w.chronicle.issued_close _).symm
    · rw [World.era, w.chronicle.ended_close_self, hreq]
      rfl
    · rw [World.era, w.chronicle.limit_close_of_le (Nat.le_refl _)]
      rfl
  · simp only [Option.some.injEq, Prod.mk.injEq] at h
    exact .inl (h.2.symm.trans hreq)
  · rw [hreq, Plain.closed_some, Plain.apply_clear]
    rfl

end World

end ConcurrentMap
