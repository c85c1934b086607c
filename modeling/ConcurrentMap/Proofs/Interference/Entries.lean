import ConcurrentMap.Proofs.Interference.Conduct

/-!
# Steps at which a call takes effect

A call on the cell of its key is entered where the cell's slot is read or exchanged
(`World.Settling`), whether the cell serves the key or was retired long ago. A call that finds no
cell is entered in the current era (`World.Sound.idle`), and so is one that stages its key with a
new cell (`World.Inserting`).
-/

namespace ConcurrentMap

variable {K V : Type}

namespace Shared

/-- The states differ in the slot of one cell at most, and not by a tombstone. -/
structure Touches (c : CellId) (s s' : Shared K V) : Prop where
  snapshot : s'.snapshot = s.snapshot
  staging : s'.staging = s.staging
  holder : s'.holder = s.holder
  clock : s'.clock = s.clock
  size : s'.cells.size = s.cells.size
  others : ∀ d, d ≠ c → s'.slot d = s.slot d
  tombstoned : s'.tombstoned c = s.tombstoned c
  buried : s.tombstoned c = true → s'.slot c = s.slot c

theorem Touches.refl (c : CellId) (s : Shared K V) : s.Touches c s :=
  ⟨rfl, rfl, rfl, rfl, rfl, fun _ _ => rfl, rfl, fun _ => rfl⟩

theorem Touches.setSlot {s : Shared K V} {c : CellId} {new : Slot V}
    (hnew : new.content.isTombstoned = false) (hlive : s.tombstoned c = false) :
    s.Touches c (s.setSlot c new) :=
  ⟨rfl, rfl, rfl, rfl, by simp, fun _ hd => slot_setSlot_ne hd.symm new,
    tombstoned_setSlot (hnew.trans hlive.symm) c, fun htomb => by simp [hlive] at htomb⟩

theorem Touches.tombstoned_eq {c : CellId} {s s' : Shared K V} (h : s.Touches c s') (d : CellId) :
    s'.tombstoned d = s.tombstoned d := by
  by_cases hd : d = c
  · subst hd
    exact h.tombstoned
  · simp only [Shared.tombstoned, h.others d hd]

/-- Every key has the cell that it had. -/
theorem Touches.find? [BEq K] {c : CellId} {s s' : Shared K V} (h : s.Touches c s') (key : K) :
    s'.find? key = s.find? key := by
  simp only [Shared.find?, h.snapshot, h.staging]

end Shared

namespace Chronicle

/-- What is recorded of a call stays recorded. -/
theorem Recorded.enter {C : Chronicle K V} {id : CallId} {answer : Answer V} {horizon : CallId}
    (h : C.Recorded id answer horizon) (d : Deed K V) :
    (C.enter d).Recorded id answer horizon := by
  rcases h with ⟨e, he, hd⟩ | hclear
  · exact .inl ⟨e, List.mem_append_left _ he, hd⟩
  · exact .inr hclear

/-- A call that is entered is recorded with its answer and its horizon. -/
theorem recorded_enter (C : Chronicle K V) (d : Deed K V) :
    (C.enter d).Recorded d.id d.answer d.horizon :=
  .inl ⟨d, List.mem_append_right _ (List.mem_singleton_self d), rfl, rfl, rfl⟩

/-- Only eras that are over were ended. -/
theorem lt_era_of_ended {C : Chronicle K V} (hcur : ∀ j, C.era ≤ j → C.ended j = none) {j : Nat}
    {x : CallId × Request K V} (h : C.ended j = some x) : j < C.era := by
  rw [← Nat.not_le]
  intro hle
  simp [hcur j hle] at h

theorem Unentered.enter {C : Chronicle K V} {id : CallId} (h : C.Unentered id) {d : Deed K V}
    (hne : d.id ≠ id) : (C.enter d).Unentered id := by
  intro e he
  rcases List.mem_append.1 he with he | he
  · exact h e he
  · obtain rfl := List.mem_singleton.1 he
    exact hne

end Chronicle

theorem Deed.Listed.enter {C : Chronicle K V} {d : Deed K V} (h : d.Listed C) (e : Deed K V) :
    d.Listed (C.enter e) :=
  ⟨h.era, h.id, h.asked, h.horizon, h.late⟩

namespace Ticket

variable {C : Chronicle K V} {k : Ticket K V}

/-- A call that has not taken effect is not in the chronicle. -/
theorem Holds.unentered (h : k.Holds C) (hopen : ∀ answer, k.progress ≠ .answered answer) :
    C.Unentered k.id := by
  unfold Ticket.Holds at h
  cases hp : k.progress with
  | pending => rw [hp] at h; exact h.1
  | withdrawing era => rw [hp] at h; exact h.1
  | answered answer => exact absurd hp (hopen answer)

/-- It makes no difference to a call when another one is entered. -/
theorem Holds.enter (h : k.Holds C) {d : Deed K V} (hne : d.id ≠ k.id) : k.Holds (C.enter d) := by
  unfold Ticket.Holds at h ⊢
  cases hp : k.progress with
  | pending => rw [hp] at h; exact ⟨h.1.enter hne, h.2⟩
  | withdrawing era => rw [hp] at h; exact ⟨h.1.enter hne, h.2⟩
  | answered answer =>
      rw [hp] at h
      obtain ⟨horizon, hle, hrec⟩ := h
      exact ⟨horizon, hle, hrec.enter d⟩

end Ticket

namespace World

variable [BEq K] [BEq V] {w w' : World K V} {t : ThreadId} {k : Ticket K V}

/-! ## The docket -/

/-- Threads have calls of their own, whatever becomes of a call. -/
theorem Docket.owners_update (hw : w.Docket) (hk : w.tickets t = some k) {k' : Ticket K V}
    (hcalls : k'.calls = k.calls) (u u' : ThreadId) (k₁ k₂ : Ticket K V)
    (hu : Function.update w.tickets t (some k') u = some k₁)
    (hu' : Function.update w.tickets t (some k') u' = some k₂) (id : CallId) (hid : id ∈ k₁.calls)
    (hid' : id ∈ k₂.calls) : u = u' := by
  have hold : ∀ v k₀, Function.update w.tickets t (some k') v = some k₀ →
      ∃ k₁, w.tickets v = some k₁ ∧ k₁.calls = k₀.calls := by
    intro v k₀ hv
    by_cases hvt : v = t
    · subst hvt
      obtain rfl : k' = k₀ := by simpa using hv
      exact ⟨k, hk, hcalls.symm⟩
    · rw [Function.update_of_ne hvt] at hv
      exact ⟨k₀, hv, rfl⟩
  obtain ⟨k₃, h₃, hcalls₃⟩ := hold u k₁ hu
  obtain ⟨k₄, h₄, hcalls₄⟩ := hold u' k₂ hu'
  exact hw.owners u u' k₃ k₄ h₃ h₄ id (hcalls₃ ▸ hid) (hcalls₄ ▸ hid')

/-- No call of a thread is forgotten, whatever becomes of it. -/
theorem Docket.callers_update (hw : w.Docket) (hk : w.tickets t = some k) {k' : Ticket K V}
    (hcalls : k'.calls = k.calls) (id : CallId) : id < w.chronicle.issued ↔
      ∃ u k₀, Function.update w.tickets t (some k') u = some k₀ ∧ id ∈ k₀.calls := by
  rw [hw.callers]
  constructor
  · rintro ⟨u, k₀, hu, hmem⟩
    by_cases hut : u = t
    · subst hut
      obtain rfl := Option.some.inj (hu.symm.trans hk)
      exact ⟨u, k', Function.update_self _ _ _, hcalls ▸ hmem⟩
    · exact ⟨u, k₀, (Function.update_of_ne hut _ _).trans hu, hmem⟩
  · rintro ⟨u, k₀, hu, hmem⟩
    by_cases hut : u = t
    · subst hut
      obtain rfl : k' = k₀ := by simpa using hu
      exact ⟨u, k, hk, hcalls ▸ hmem⟩
    · rw [Function.update_of_ne hut] at hu
      exact ⟨u, k₀, hu, hmem⟩

/-- A call that is entered now is on the list, if it was called before its era ended. -/
theorem Docket.listed_enter (hw : w.Docket) {d : Deed K V} (hera : d.era ≤ w.era)
    (hlimit : d.id < w.chronicle.limit d.era) (hask : w.chronicle.asked d.id = d.request)
    (hhor : d.horizon = w.chronicle.issued) : d.Listed (w.chronicle.enter d) where
  era := hera
  id := hlimit
  asked := hask
  horizon := Nat.le_of_eq hhor
  late i hi := by
    rw [hhor]
    exact hw.limits i w.era (Nat.le_of_lt (Nat.lt_of_lt_of_le hi hera)) (Nat.le_refl _)

/-- Whatever was entered before was called before this moment. -/
theorem Docket.distinct_enter (hw : w.Docket) {d : Deed K V}
    (hfresh : w.chronicle.Unentered d.id) (hhor : d.horizon = w.chronicle.issued) :
    (w.chronicle.enter d).deeds.Pairwise fun x y => x.id ≠ y.id ∧ x.id < y.horizon := by
  refine List.pairwise_append.2 ⟨hw.distinct, List.pairwise_singleton _ _, fun e he f hf => ?_⟩
  obtain rfl := List.mem_singleton.1 hf
  refine ⟨hfresh e he, ?_⟩
  rw [hhor]
  have hlisted := hw.deeds e he
  exact Nat.lt_of_lt_of_le hlisted.id (hw.limits e.era w.era hlisted.era (Nat.le_refl _))

/-- What entering the current call of a thread keeps of the docket. -/
theorem Docket.enter (hw : w.Docket) {d : Deed K V} (hk : w.tickets t = some k)
    (hopen : ∀ answer, k.progress ≠ .answered answer)
    (hid : d.id = k.id) (hreq : d.request = k.request) (hera : d.era ≤ w.era)
    (hlimit : d.id < w.chronicle.limit d.era) (hhor : d.horizon = w.chronicle.issued)
    (hstamp : ∀ v, d.request.value? = some v →
      d.stamp < w.shared.clock ∧ (w.mint d.stamp).2 = d.id)
    (hend : ∀ j id r, w.chronicle.ended j = some (id, r) →
      (∀ key, r.key? = some key → ((w.chronicle.enter d).state j key).isSome = true) →
        (∀ key, r.key? = some key → (w.chronicle.state j key).isSome = true) ∧ id ≠ d.id)
    (hclock : w.shared.clock ≤ w'.shared.clock) (hmint : w'.mint = w.mint)
    (hchron : w'.chronicle = w.chronicle.enter d) (hrules : w'.rules = w.rules)
    (htick : w'.tickets = Function.update w.tickets t (some (k.closed d.answer))) :
    w'.Docket := by
  obtain ⟨hlt, hask, hholds⟩ := hw.tickets t k hk
  have hfresh := hholds.unentered hopen
  have hera' : w'.era = w.era := by rw [World.era, hchron]; rfl
  have hissued : w'.chronicle.issued = w.chronicle.issued := by rw [hchron]; rfl
  have hmem : ∀ e ∈ (w.chronicle.enter d).deeds, e ∈ w.chronicle.deeds ∨ e = d := fun e he =>
    (List.mem_append.1 he).imp id List.mem_singleton.1
  -- Only the new deed and the closed ticket differ: the clauses about neither of them carry over,
  -- and the others ask about the deeds and the tickets case by case.
  refine
    { limits := ?_, deeds := fun e he => ?_, distinct := ?_, stamps := fun e he v hv => ?_
      ended := ?_, once := ?_, unentered := fun j id r hj heff => ?_, tickets := fun u k' hu => ?_
      owners := ?_, callers := ?_, allowed := ?_ }
  · rw [hera', hchron]
    exact hw.limits
  · rw [hchron] at he ⊢
    rcases hmem e he with he | rfl
    · exact (hw.deeds e he).enter d
    · exact hw.listed_enter hera hlimit (by rw [hid, hreq, hask]) hhor
  · rw [hchron]
    exact hw.distinct_enter (hid ▸ hfresh) hhor
  · rw [hchron] at he
    rw [hmint]
    -- An earlier deed, or the new one.
    rcases hmem e he with he | rfl
    · obtain ⟨hs, ho⟩ := hw.stamps e he v hv
      exact ⟨Nat.lt_of_lt_of_le hs hclock, ho⟩
    · obtain ⟨hs, ho⟩ := hstamp v hv
      exact ⟨Nat.lt_of_lt_of_le hs hclock, ho⟩
  · rw [hchron]
    exact hw.ended
  · rw [hchron]
    exact hw.once
  · rw [hchron] at hj heff ⊢
    obtain ⟨hold, hne⟩ := hend j id r hj heff
    exact (hw.unentered j id r hj hold).enter (Ne.symm hne)
  · rw [htick] at hu
    rw [hissued, hchron]
    -- The thread that makes the call, and the others, whose calls have other names.
    by_cases hut : u = t
    · subst hut
      obtain rfl : k.closed d.answer = k' := by simpa using hu
      refine ⟨hlt, hask, d.horizon, Nat.le_of_eq hhor, ?_⟩
      have hrec := w.chronicle.recorded_enter d
      rwa [hid] at hrec
    · rw [Function.update_of_ne hut] at hu
      obtain ⟨hlt', hask', hholds'⟩ := hw.tickets u k' hu
      have hne : d.id ≠ k'.id := fun heq => hut <|
        hw.owners u t k' k hu hk k'.id k'.id_mem_calls (by rw [← heq, hid]; exact k.id_mem_calls)
      exact ⟨hlt', hask', hholds'.enter hne⟩
  · rw [htick]
    exact hw.owners_update hk rfl
  · rw [hissued, htick]
    exact hw.callers_update hk rfl
  · rw [hissued, hchron, hrules]
    exact hw.allowed

/-! ## Where a call counts -/

omit [BEq K] [BEq V] in
/-- A cell that counts in an earlier era is retired, and in that era. -/
theorem retired_of_site_lt {c : CellId} (h : w.site c < w.era) :
    ∃ own j fate, w.standing c = .retired own j fate ∧ w.site c = j := by
  unfold World.site at h ⊢
  cases hs : w.standing c with
  | unused => simp [hs, Standing.site] at h
  | serving own p => simp [hs, Standing.site] at h
  | retired own j fate => exact ⟨own, j, fate, rfl, rfl⟩

/-- No cell counts in an era that is still to come. -/
theorem Ledger.site_le (hw : w.Ledger) (c : CellId) : w.site c ≤ w.era := by
  unfold World.site
  cases hs : w.standing c with
  | unused => exact Nat.le_refl _
  | serving own p => exact Nat.le_refl _
  | retired own j fate => exact Nat.le_of_lt (hw.fates c own j fate hs).1

/-- A cell with a key that counts in the current era is in service. -/
theorem Ledger.serving_of_site_eq (hw : w.Ledger) {c : CellId} {own : K}
    (hown : (w.standing c).key? = some own) (hsite : w.site c = w.era) :
    ∃ p, w.standing c = .serving own p := by
  unfold World.site at hsite
  cases hs : w.standing c with
  | unused => simp [hs, Standing.key?] at hown
  | serving own' p =>
      obtain rfl : own' = own := by simpa [hs, Standing.key?] using hown
      exact ⟨p, rfl⟩
  | retired own' j fate =>
      have hlt := (hw.fates c own' j fate hs).1
      simp only [hs, Standing.site] at hsite
      omega

/-- An era that a call ended is over. -/
theorem Ledger.lt_era_of_ended (hw : w.Ledger) {j : Nat} {id : CallId} {r : Request K V}
    (h : w.chronicle.ended j = some (id, r)) : j < w.era :=
  Chronicle.lt_era_of_ended hw.current h

omit [BEq V] in
/-- A cell serves no other key than its own. -/
theorem Roster.own_beq (hw : w.Roster) {c : CellId} {own key : K} {p : Bool}
    (hs : w.standing c = .serving own p) (hc : w.shared.find? key = some c) :
    (own == key) = true := by
  obtain ⟨own', p', hs', heq⟩ := (hw.serves key c).1 hc
  rw [hs] at hs'
  obtain ⟨rfl, rfl⟩ := Standing.serving.inj hs'
  exact heq

/-- Two cells of equal keys do not count in the same era. -/
theorem Sound.cell_unique [EquivBEq K] (hw : w.Sound) {c d : CellId} {own own' : K}
    (hc : (w.standing c).key? = some own) (hd : (w.standing d).key? = some own')
    (hsite : w.site c = w.site d) (heq : (own == own') = true) : c = d := by
  rcases Nat.lt_or_ge (w.site c) w.era with hlt | hge
  · obtain ⟨a, i, fate, hret, hi⟩ := retired_of_site_lt hlt
    obtain ⟨b, j, fate', hret', hj⟩ := retired_of_site_lt (hsite ▸ hlt)
    obtain rfl : a = own := by simpa [hret, Standing.key?] using hc
    obtain rfl : b = own' := by simpa [hret', Standing.key?] using hd
    obtain rfl : i = j := by rw [← hi, ← hj, hsite]
    exact hw.ledger.alone c d a b i fate fate' hret hret' heq
  · have hnow : w.site c = w.era := Nat.le_antisymm (hw.ledger.site_le c) hge
    obtain ⟨p, hserves⟩ := hw.ledger.serving_of_site_eq hc hnow
    obtain ⟨q, hserves'⟩ := hw.ledger.serving_of_site_eq hd (hsite ▸ hnow)
    have hfind := (hw.roster.serves own c).2 ⟨own, p, hserves, BEq.rfl⟩
    have hfind' := (hw.roster.serves own d).2 ⟨own', q, hserves', BEq.symm heq⟩
    exact Option.some.inj (hfind.symm.trans hfind')

/-- The world after a call was entered, in which the shared state is `s`. -/
def entered (w : World K V) (t : ThreadId) (k : Ticket K V) (s : Shared K V) (d : Deed K V) :
    World K V :=
  { w with
    shared := s
    chronicle := w.chronicle.enter d
    tickets := Function.update w.tickets t (some (k.closed d.answer)) }

/-- The deed of a call that counts in era `j`, where its key has the handle `held`. -/
def deed (w : World K V) (k : Ticket K V) (j : Nat) (stamp : Stamp) (held : Option (Handle V)) :
    Deed K V :=
  { request := k.request
    stamp := stamp
    answer := (k.request.effect stamp held).1
    id := k.id
    era := j
    horizon := w.chronicle.issued }

/-- Every era stays explained if the call gets the answer that the map of its era gives. -/
theorem Sound.explained_enter (hw : w.Sound) {j : Nat} {stamp : Stamp} {held : Option (Handle V)}
    (hanswer : (k.request.effect stamp held).1 =
      ((w.chronicle.state j).apply stamp k.request).1)
    (hharm : j < w.era → w.chronicle.Harmless (w.deed k j stamp held)) :
    ∀ i ≤ w.era, ((w.chronicle.enter (w.deed k j stamp held)).opening i).Explains
      ((w.chronicle.enter (w.deed k j stamp held)).calls i) := by
  intro i hi
  rw [w.chronicle.opening_enter fun hlt => hharm (Nat.lt_of_lt_of_le hlt hi)]
  by_cases hji : j = i
  · subst hji
    have hcalls := w.chronicle.calls_enter_self (w.deed k j stamp held)
    simp only [deed] at hcalls ⊢
    rw [hcalls, Plain.explains_concat]
    exact ⟨hw.ledger.explained j hi, hanswer⟩
  · rw [w.chronicle.calls_enter_of_ne hji]
    exact hw.ledger.explained i hi

/-! ## A call on a cell -/

/-- The call `k` of thread `t` has not taken effect, and it counts where the cell `c` serves or
served its key. -/
structure Engaged (w : World K V) (t : ThreadId) (k : Ticket K V) (key : K) (c : CellId) :
    Prop where
  ticket : w.tickets t = some k
  progress : k.progress = .pending ∨
    ∃ j own, k.progress = .withdrawing j ∧ w.standing c = .retired own j .withdrawn
  about : k.request.key? = some key
  knows : w.Knows k.id key c

/-- Thread `t` reads or exchanges the slot of the cell, which leaves the shared state `s'`. -/
structure Settling (w : World K V) (t : ThreadId) (k : Ticket K V) (key : K) (c : CellId)
    (stamp : Stamp) (s' : Shared K V) : Prop extends w.Engaged t k key c where
  touches : w.shared.Touches c s'
  genuine : w.Genuine (s'.slot c)
  stamped : ∀ v, k.request.value? = some v → stamp < w.shared.clock ∧ (w.mint stamp).2 = k.id
  slot : (s'.slot c).handle? = (k.request.effect stamp (w.shared.slot c).handle?).2
  installs : s'.slot c ≠ w.shared.slot c → (s'.slot c).content.isPresent = true →
    w.MayInstall t c

/-- The world after a call on a cell took effect. -/
def settled (w : World K V) (t : ThreadId) (k : Ticket K V) (c : CellId) (stamp : Stamp)
    (s' : Shared K V) : World K V :=
  w.entered t k s' (w.deed k (w.site c) stamp (w.shared.slot c).handle?)

namespace Settling

variable {key : K} {c : CellId} {stamp : Stamp} {s' : Shared K V}

omit [BEq K] [BEq V] in
private theorem isPresent_of_handle? {x : Slot V} (h : x.handle?.isSome = true) :
    x.content.isPresent = true := by
  simpa [Slot.handle?, Content.isPresent_eq_isSome] using h

/-- The slot of one cell changes, and the structure does not. -/
theorem frame (h : w.Settling t k key c stamp s') : w.Frame (w.settled t k c stamp s') where
  snapshot := h.touches.snapshot
  staging := h.touches.staging
  size := h.touches.size
  tombstoned := h.touches.tombstoned_eq
  phase := rfl
  standing := rfl
  era := rfl
  unused d hd := by
    -- The cell of the call has a key, so it is none of the unused ones.
    refine h.touches.others d fun hdc => ?_
    obtain ⟨own, hown, -⟩ := h.knows
    rw [← hdc, hd] at hown
    simp [Standing.key?] at hown
  buried d hd := by
    by_cases hdc : d = c
    · subst hdc
      exact h.touches.buried hd
    · exact h.touches.others d hdc

variable [EquivBEq K]

/-- The chronicle knows what the cell holds. -/
theorem held (h : w.Settling t k key c stamp s') (hw : w.Sound) :
    w.chronicle.state (w.site c) key = (w.shared.slot c).handle? := by
  obtain ⟨own, hown, heq, -⟩ := h.knows
  rw [← w.chronicle.respects_state (w.site c) heq]
  exact hw.ledger.held c own hown

/-- Whatever a late call does to the cell, the call that ended the era leaves the same map. -/
theorem harmless (h : w.Settling t k key c stamp s') (hw : w.Sound) (hlate : w.site c < w.era) :
    w.chronicle.Harmless (w.deed k (w.site c) stamp (w.shared.slot c).handle?) := by
  have hheld := h.held hw
  obtain ⟨own, hown, heq, -⟩ := h.knows
  obtain ⟨own', j, fate, hret, hsite⟩ := retired_of_site_lt hlate
  obtain rfl : own' = own := by simpa [hret, Standing.key?] using hown
  have hresp := w.chronicle.respects_state (w.site c)
  obtain ⟨-, hfits⟩ := hw.ledger.fates c own' j fate hret
  show ((w.chronicle.state (w.site c)).apply stamp k.request).2.closed
    (w.chronicle.ended (w.site c)) =
      (w.chronicle.state (w.site c)).closed (w.chronicle.ended (w.site c))
  rw [Plain.apply_of_key h.about, hheld, ← h.slot]
  rw [hsite] at hheld hresp ⊢
  cases fate with
  | dropped =>
      -- the cell is tombstoned, so the call has found and left no value
      have hdead := hw.roster.dropped c own' j hret
      have hend : w.chronicle.ended j = none := hfits
      rw [hend, Plain.closed_none, Plain.closed_none]
      refine hresp.set_eq_self ?_
      rw [hheld, Shared.handle?_of_tombstoned hdead,
        Shared.handle?_of_tombstoned (h.touches.tombstoned.trans hdead)]
  | withdrawn =>
      -- the deletion takes away what the call may have written
      obtain ⟨id, r, key', hend, hrem, hkk⟩ := hfits
      rw [hend, Plain.closed_some, Plain.closed_some, Plain.apply_of_key (r.key?_of_removes? hrem),
        Plain.apply_of_key (r.key?_of_removes? hrem), Request.effect_of_removes? hrem,
        Request.effect_of_removes? hrem]
      exact Plain.set_set _ (PartialEquivBEq.trans (BEq.symm heq) hkk) _ _
  | discarded =>
      obtain ⟨id, hend⟩ := hfits
      rw [hend, Plain.closed_some, Plain.closed_some, Plain.apply_clear, Plain.apply_clear]

/-- Such a step loses nothing of what lasts. -/
theorem grows (h : w.Settling t k key c stamp s') (hw : w.Sound) :
    w.Grows (w.settled t k c stamp s') :=
  { Grows.refl w with
    clock := Nat.le_of_eq h.touches.clock.symm
    chronicle := w.chronicle.extends_enter (h.harmless hw)
    recorded := fun _ _ _ hrec => hrec.enter _ }

/-- Such a step is one that its thread may take, with the mutex or without it. -/
theorem guarantee (h : w.Settling t k key c stamp s') (hw : w.Sound) :
    w.Guarantee t (w.settled t k c stamp s') where
  grows := h.grows hw
  others u hu := Function.update_of_ne hu _ _
  holder := .inl h.touches.holder
  calls _ := rfl
  frame _ := h.frame
  protocol := by
    refine h.frame.protocol (fun _ _ _ => h.touches.holder) fun d _ hne hpres => ?_
    by_cases hdc : d = c
    · subst hdc
      exact h.installs hne hpres
    · exact absurd (h.touches.others d hdc) hne

/-- The thread that takes the step does not use the mutex for it. -/
theorem along (h : w.Settling t k key c stamp s') (hw : w.Sound) :
    w.Along t (w.settled t k c stamp s') :=
  ⟨h.grows hw, ⟨h.touches.holder.symm.trans, h.touches.holder.trans⟩, fun _ => h.frame⟩

/-- The key has what the cell holds now. -/
theorem state_site (h : w.Settling t k key c stamp s') (hw : w.Sound) :
    (w.settled t k c stamp s').chronicle.state (w.site c) =
      (w.chronicle.state (w.site c)).set key (s'.slot c).handle? := by
  have hself := w.chronicle.state_enter_self
    (w.deed k (w.site c) stamp (w.shared.slot c).handle?)
  change _ = ((w.chronicle.state (w.site c)).apply stamp k.request).2 at hself
  rwa [Plain.apply_of_key h.about, h.held hw, ← h.slot] at hself

/-- The other eras are as before. -/
theorem state_of_ne (h : w.Settling t k key c stamp s') (hw : w.Sound) {i : Nat} (hi : i ≤ w.era)
    (hne : w.site c ≠ i) :
    (w.settled t k c stamp s').chronicle.state i = w.chronicle.state i :=
  w.chronicle.state_enter_of_ne (fun hlt => h.harmless hw (Nat.lt_of_lt_of_le hlt hi)) hne

omit [EquivBEq K] in
/-- The tables lead to the same cells as before. -/
theorem roster (h : w.Settling t k key c stamp s') (hw : w.Sound) :
    (w.settled t k c stamp s').Roster where
  serves query d := by
    show s'.find? query = some d ↔ _
    rw [h.touches.find? query]
    exact hw.roster.serves query d
  published query d := by
    show s'.snapshot.find? query = some d ↔ _
    rw [h.touches.snapshot]
    exact hw.roster.published query d
  used d hd := Nat.lt_of_lt_of_eq (hw.roster.used d hd) h.touches.size.symm
  dropped d own j hd := (h.touches.tombstoned_eq d).trans (hw.roster.dropped d own j hd)

/-- What the other cells hold is still what the chronicle says. -/
theorem held_after (h : w.Settling t k key c stamp s') (hw : w.Sound) {d : CellId} {own : K}
    (hd : (w.standing d).key? = some own) :
    (w.settled t k c stamp s').chronicle.state (w.site d) own = (s'.slot d).handle? := by
  obtain ⟨own', hown, heq, -⟩ := h.knows
  by_cases hsites : w.site c = w.site d
  -- In the era of the call the key is either the call's own, whose one cell is `c`, or another one.
  · rw [← hsites, h.state_site hw, Plain.set_apply]
    split
    · next hkk =>
      have hdc := hw.cell_unique hown hd hsites (PartialEquivBEq.trans heq hkk)
      rw [hdc]
    · next hkk =>
      have hdc : d ≠ c := by
        rintro rfl
        obtain rfl := Option.some.inj (hown.symm.trans hd)
        exact hkk (BEq.symm heq)
      rw [h.touches.others d hdc, hsites]
      exact hw.ledger.held d own hd
  -- Another era has other cells.
  · have hdc : d ≠ c := fun hdc => hsites (by rw [hdc])
    rw [h.state_of_ne hw (hw.ledger.site_le d) hsites, h.touches.others d hdc]
    exact hw.ledger.held d own hd

/-- A key without a cell is not the key of the call, unless the call counts in an earlier era. -/
theorem missing_after (h : w.Settling t k key c stamp s') (hw : w.Sound) {query : K}
    (hq : w.shared.find? query = none) :
    (w.settled t k c stamp s').chronicle.state w.era query = none := by
  by_cases hnow : w.site c = w.era
  · obtain ⟨own, hown, heq, -⟩ := h.knows
    rw [← hnow, h.state_site hw, Plain.set_apply, if_neg, hnow]
    · exact hw.ledger.missing query hq
    · intro hkk
      obtain ⟨p, hserves⟩ := hw.ledger.serving_of_site_eq hown hnow
      have hfind := (hw.roster.serves query c).2
        ⟨own, p, hserves, PartialEquivBEq.trans heq hkk⟩
      simp [hq] at hfind
  · rw [h.state_of_ne hw (Nat.le_refl _) hnow]
    exact hw.ledger.missing query hq

/-- The cells still hold what the chronicle says. -/
theorem ledger (h : w.Settling t k key c stamp s') (hw : w.Sound) :
    (w.settled t k c stamp s').Ledger where
  explained := hw.explained_enter (by rw [Plain.apply_of_key h.about, h.held hw]) (h.harmless hw)
  current := hw.ledger.current
  held _ _ hd := h.held_after hw hd
  missing query hq := h.missing_after hw ((h.touches.find? query).symm.trans hq)
  fates := hw.ledger.fates
  alone := hw.ledger.alone
  endings := hw.ledger.endings

omit [EquivBEq K] in
/-- No value comes into a cell that a deletion took away. -/
theorem isSome_before (h : w.Settling t k key c stamp s') (hw : w.Sound) {id : CallId}
    {r : Request K V} {query : K} (hend : w.chronicle.ended (w.site c) = some (id, r))
    (hquery : r.key? = some query) (hafter : (s'.slot c).handle?.isSome = true) :
    (w.shared.slot c).handle?.isSome = true := by
  by_contra hnone
  have hmay := h.installs (fun heq => hnone (heq ▸ hafter)) (isPresent_of_handle? hafter)
  obtain ⟨own, j, fate, hret, hj⟩ := retired_of_site_lt (hw.ledger.lt_era_of_ended hend)
  obtain ⟨-, hfits⟩ := hw.ledger.fates c own j fate hret
  rw [← hj, hend] at hfits
  cases fate with
  | dropped => simp [Fate.Fits] at hfits
  | withdrawn => simp [MayInstall, hret] at hmay
  | discarded =>
      obtain ⟨id', hclear⟩ := hfits
      simp only [Option.some.injEq, Prod.mk.injEq] at hclear
      simp [hclear.2, Request.key?] at hquery

/-- A deletion that ended an era counts there without being entered only as long as it is not. -/
theorem ended_ne (h : w.Settling t k key c stamp s') (hw : w.Sound) {j : Nat} {id : CallId}
    {r : Request K V} (hend : w.chronicle.ended j = some (id, r))
    (heff : ∀ key, r.key? = some key →
      ((w.settled t k c stamp s').chronicle.state j key).isSome = true) : id ≠ k.id := by
  rintro rfl
  have hholds := (hw.docket.tickets t k h.ticket).2.2
  rcases h.progress with hp | ⟨i, own, hp, hret⟩
  · simp only [Ticket.Holds, hp] at hholds
    exact hholds.2 j r hend
  · simp only [Ticket.Holds, hp] at hholds
    -- the call ended the era itself, and now leaves its key without a value there
    obtain rfl := hw.docket.once j i _ _ _ hend hholds.2
    have hreq := hend.symm.trans hholds.2
    simp only [Option.some.injEq, Prod.mk.injEq] at hreq
    have hsite : w.site c = j := by simp [World.site, hret, Standing.site]
    have hafter := heff key (hreq.2 ▸ h.about)
    rcases hw.ledger.endings j _ _ hholds.2 with hclear | ⟨key', hrem⟩
    · have hkey := h.about
      simp [hclear, Request.key?] at hkey
    · rw [← hsite, h.state_site hw, Plain.set_self, h.slot,
        Request.effect_of_removes? hrem] at hafter
      simp at hafter

/-- The call is entered once, in an era that was not over when it was made. -/
theorem docket (h : w.Settling t k key c stamp s') (hw : w.Sound) :
    (w.settled t k c stamp s').Docket := by
  have hlimit : k.id < w.chronicle.limit (w.site c) := by
    obtain ⟨own, -, -, hid⟩ := h.knows
    exact hid
  refine hw.docket.enter h.ticket (fun answer ha => ?_) rfl rfl (hw.ledger.site_le c) hlimit rfl
    h.stamped (fun j id r hend heff => ⟨fun query hquery => ?_, h.ended_ne hw hend heff⟩)
    (Nat.le_of_eq h.touches.clock.symm) rfl rfl rfl rfl
  · rcases h.progress with hp | ⟨j, own, hp, -⟩ <;> simp [hp] at ha
  -- A call that ended an era and would now count there counted there before.
  · have hafter := heff query hquery
    by_cases hsites : w.site c = j
    · subst hsites
      rw [show w.chronicle.enter _ = (w.settled t k c stamp s').chronicle from rfl,
        h.state_site hw, Plain.set_apply] at hafter
      split at hafter
      · next hkk =>
        rw [← w.chronicle.respects_state (w.site c) hkk, h.held hw]
        exact h.isSome_before hw hend hquery hafter
      · exact hafter
    -- The entry is in another era, which keeps its map.
    · have hle := Nat.le_of_lt (hw.ledger.lt_era_of_ended hend)
      rwa [show w.chronicle.enter _ = (w.settled t k c stamp s').chronicle from rfl,
        h.state_of_ne hw hle hsites] at hafter

/-- A call takes effect where the slot of its cell is read or exchanged. -/
theorem sound (h : w.Settling t k key c stamp s') (hw : w.Sound) :
    (w.settled t k c stamp s').Sound where
  tidy := hw.tidy.congr h.touches.snapshot h.touches.staging (Nat.le_of_eq h.touches.size.symm)
    fun d _ => h.touches.tombstoned_eq d
  free hfree := hw.free (h.touches.holder.symm.trans hfree)
  minted d := by
    refine (h.grows hw).genuine ?_
    show w.Genuine (s'.slot d)
    by_cases hd : d = c
    · subst hd
      exact h.genuine
    · rw [h.touches.others d hd]
      exact hw.minted d
  roster := h.roster hw
  ledger := h.ledger hw
  docket := h.docket hw

end Settling

/-! ## A call on a key without a cell -/

section Missing

variable {key : K} {c : CellId} {stamp : Stamp} {held : Option (Handle V)}

/-- An entry in the current era changes no other one. -/
theorem state_enter_now {i : Nat} (hi : i < w.era) :
    (w.chronicle.enter (w.deed k w.era stamp held)).state i = w.chronicle.state i :=
  w.chronicle.state_enter_of_ne (fun hlt => absurd hlt (by simp only [deed]; omega))
    (by simp only [deed]; omega)

/-- A call entered in the current era has its effect on its own key, and on no other. -/
theorem state_enter_now_self (hkey : k.request.key? = some key)
    (hheld : w.chronicle.state w.era key = held) :
    (w.chronicle.enter (w.deed k w.era stamp held)).state w.era =
      (w.chronicle.state w.era).set key (k.request.effect stamp held).2 := by
  have hself := w.chronicle.state_enter_self (w.deed k w.era stamp held)
  change _ = ((w.chronicle.state w.era).apply stamp k.request).2 at hself
  rwa [Plain.apply_of_key hkey, hheld] at hself

/-- Entering a call in the current era keeps the names of the calls in order. -/
theorem Sound.docket_enter_now (hw : w.Sound) (hk : w.tickets t = some k)
    (hpend : k.progress = .pending)
    (hstamp : ∀ v, k.request.value? = some v → stamp < w.shared.clock ∧ (w.mint stamp).2 = k.id)
    (hclock : w.shared.clock ≤ w'.shared.clock) (hmint : w'.mint = w.mint)
    (hchron : w'.chronicle = w.chronicle.enter (w.deed k w.era stamp held))
    (hrules : w'.rules = w.rules)
    (htick : w'.tickets = Function.update w.tickets t
      (some (k.closed (k.request.effect stamp held).1))) : w'.Docket := by
  obtain ⟨hid, -, hholds⟩ := hw.docket.tickets t k hk
  simp only [Ticket.Holds, hpend] at hholds
  refine hw.docket.enter hk (fun answer ha => by simp [hpend] at ha) rfl rfl (Nat.le_refl _) hid rfl
    hstamp (fun j id r hend heff => ⟨fun query hquery => ?_, ?_⟩) hclock hmint hchron hrules htick
  · have hafter := heff query hquery
    rwa [state_enter_now (hw.ledger.lt_era_of_ended hend)] at hafter
  · rintro rfl
    exact hholds.2 j r hend

/-- A call that finds nothing to change leaves every map as it was. -/
theorem state_idle (happly : (w.chronicle.state w.era).apply stamp k.request =
      ((k.request.effect stamp none).1, w.chronicle.state w.era)) {j : Nat} (hj : j ≤ w.era) :
    (w.entered t k w.shared (w.deed k w.era stamp none)).chronicle.state j =
      w.chronicle.state j := by
  rcases Nat.lt_or_eq_of_le hj with hlt | rfl
  · exact state_enter_now hlt
  · have hself := w.chronicle.state_enter_self (w.deed k w.era stamp none)
    change _ = ((w.chronicle.state w.era).apply stamp k.request).2 at hself
    rwa [happly] at hself

/-- Such a call takes effect at once. -/
theorem Sound.idle (hw : w.Sound) (hk : w.tickets t = some k) (hpend : k.progress = .pending)
    (happly : (w.chronicle.state w.era).apply stamp k.request =
      ((k.request.effect stamp none).1, w.chronicle.state w.era))
    (hstamp : ∀ v, k.request.value? = some v →
      stamp < w.shared.clock ∧ (w.mint stamp).2 = k.id) :
    (w.entered t k w.shared (w.deed k w.era stamp none)).Sound where
  tidy := hw.tidy
  free := hw.free
  minted := hw.minted
  roster := ⟨hw.roster.serves, hw.roster.published, hw.roster.used, hw.roster.dropped⟩
  ledger :=
    { explained := hw.explained_enter (by rw [happly]) fun hlt => absurd hlt (Nat.lt_irrefl _)
      current := hw.ledger.current
      held := fun c own hown =>
        (congrFun (state_idle happly (hw.ledger.site_le c)) own).trans (hw.ledger.held c own hown)
      missing := fun query hq =>
        (congrFun (state_idle happly (Nat.le_refl _)) query).trans (hw.ledger.missing query hq)
      fates := hw.ledger.fates
      alone := hw.ledger.alone
      endings := hw.ledger.endings }
  docket := hw.docket_enter_now hk hpend hstamp (Nat.le_refl _) rfl rfl rfl rfl

/-- Entering a call in the current era without touching the shared state is no concern of the other
threads. -/
theorem guarantee_entered (w : World K V) (t : ThreadId) (k : Ticket K V) {d : Deed K V}
    (hera : d.era = w.era) : w.Guarantee t (w.entered t k w.shared d) := by
  have hframe : w.Frame (w.entered t k w.shared d) := { Frame.refl w with }
  exact
    { grows :=
        { Grows.refl w with
          chronicle := w.chronicle.extends_enter fun hlt => absurd hera (Nat.ne_of_lt hlt)
          recorded := fun _ _ _ hrec => hrec.enter _ }
      others := fun u hu => Function.update_of_ne hu _ _
      holder := .inl rfl
      calls := fun _ => rfl
      frame := fun _ => hframe
      protocol := hframe.protocol (fun _ _ _ => rfl) fun _ _ hne => absurd rfl hne }

/-- The thread that enters a call in the current era does not use the mutex for it. -/
theorem along_entered (w : World K V) (t : ThreadId) (k : Ticket K V) {d : Deed K V}
    (hera : d.era = w.era) : w.Along t (w.entered t k w.shared d) :=
  ⟨(w.guarantee_entered t k hera).grows, Iff.rfl, fun _ => { Frame.refl w with }⟩

/-- What a call does to a key without a cell, if it leaves the key without a value. -/
theorem Sound.apply_missing [EquivBEq K] (hw : w.Sound) (hkey : k.request.key? = some key)
    (hmiss : w.shared.find? key = none)
    (heff : (k.request.effect stamp (none : Option (Handle V))).2 = none) :
    (w.chronicle.state w.era).apply stamp k.request =
      ((k.request.effect stamp none).1, w.chronicle.state w.era) := by
  have hheld := hw.ledger.missing key hmiss
  rw [Plain.apply_of_key hkey, hheld, heff, (w.chronicle.respects_state _).set_eq_self hheld]

/-- What a clearing does to a map without cells. -/
theorem Sound.apply_clear (hw : w.Sound) (hreq : k.request = .clear)
    (hmiss : ∀ key, w.shared.find? key = none) :
    (w.chronicle.state w.era).apply stamp k.request =
      ((k.request.effect stamp none).1, w.chronicle.state w.era) := by
  have hempty : w.chronicle.state w.era = .empty :=
    funext fun key => hw.ledger.missing key (hmiss key)
  rw [hreq, Plain.apply_clear, hempty]
  rfl

end Missing

/-! ## A call that stages its key -/

/-- Thread `t`, which holds the mutex, stages the key of its call with the new cell `c`. -/
structure Inserting (w : World K V) (t : ThreadId) (k : Ticket K V) (key : K) (c : CellId)
    (stamp : Stamp) : Prop where
  ticket : w.tickets t = some k
  pending : k.progress = .pending
  about : k.request.key? = some key
  holder : w.shared.holder = some t
  rest : w.phase = .rest
  amended : w.shared.snapshot.amended = true
  unlisted : w.shared.snapshot.find? key = none
  unstaged : w.shared.staging.find? key = none
  unused : w.standing c = .unused
  lt : c < w.shared.cells.size
  live : w.shared.tombstoned c = false
  stamped : ∀ v, k.request.value? = some v → stamp < w.shared.clock ∧ (w.mint stamp).2 = k.id
  slot : (w.shared.slot c).handle? = (k.request.effect stamp none).2

/-- The world after a key was staged with a new cell. -/
def inserted (w : World K V) (t : ThreadId) (k : Ticket K V) (key : K) (c : CellId)
    (stamp : Stamp) : World K V :=
  { w.entered t k
      (w.shared.setStaged (some ((w.shared.staging.table.getD .empty).insert key c)))
      (w.deed k w.era stamp none) with
    standing := Function.update w.standing c (.serving key false) }

namespace Inserting

variable {key : K} {c : CellId} {stamp : Stamp}

/-- Before the call no table has its key. -/
theorem missing (h : w.Inserting t k key c stamp) : w.shared.find? key = none := by
  rw [Shared.find?_of_staging h.unlisted h.amended, h.unstaged]

/-- The other cells are to the keys what they were. -/
theorem standing_of_ne {d : CellId} (hd : d ≠ c) :
    (w.inserted t k key c stamp).standing d = w.standing d :=
  Function.update_of_ne hd _ _

theorem standing_self : (w.inserted t k key c stamp).standing c = .serving key false :=
  Function.update_self c _ _

/-- The cells that are retired were retired before. -/
theorem retired (h : w.Inserting t k key c stamp) {d : CellId} {own : K} {j : Nat} {fate : Fate}
    (hd : (w.inserted t k key c stamp).standing d = .retired own j fate) :
    w.standing d = .retired own j fate := by
  by_cases hdc : d = c
  · subst hdc
    simp [standing_self] at hd
  · rwa [standing_of_ne hdc] at hd

/-- Staging a key loses nothing of what lasts. -/
theorem grows (h : w.Inserting t k key c stamp) : w.Grows (w.inserted t k key c stamp) :=
  { Grows.refl w with
    standing := fun d => by
      by_cases hdc : d = c
      · subst hdc
        rw [h.unused]
        trivial
      · rw [standing_of_ne hdc]
        exact .refl _ _
    limits := fun d hd => by
      have hdc : d ≠ c := fun hdc => hd (hdc ▸ h.unused)
      rw [World.site, World.site, standing_of_ne hdc]
      exact Nat.le_refl _
    chronicle := w.chronicle.extends_enter fun hlt => absurd hlt (Nat.lt_irrefl _)
    recorded := fun _ _ _ hrec => hrec.enter _ }

/-- The holder of the mutex may stage a key. -/
theorem guarantee (h : w.Inserting t k key c stamp) :
    w.Guarantee t (w.inserted t k key c stamp) where
  grows := h.grows
  others u hu := Function.update_of_ne hu _ _
  holder := .inl rfl
  calls _ := rfl
  frame hne := absurd h.holder hne
  protocol :=
    { installs := fun _ _ hne => absurd rfl hne
      tombstones := fun _ _ hne => absurd rfl hne
      lifts := fun d hd hd' => by
        change w.shared.tombstoned d = false at hd'
        simp [hd] at hd'
      readmits := fun _ _ hp => by simp [h.rest] at hp }

variable [EquivBEq K]

/-- The key of the call now has the new cell, and the other keys have the cells that they had. -/
theorem find? (h : w.Inserting t k key c stamp) (query : K) :
    (w.inserted t k key c stamp).shared.find? query =
      if key == query then some c else w.shared.find? query :=
  Tidy.find?_stageNew h.amended h.unlisted c query

/-- The new cell serves the key of the call, and the other cells serve the keys that they did. -/
theorem serves (h : w.Inserting t k key c stamp) (hw : w.Sound) (query : K) (d : CellId) :
    (w.inserted t k key c stamp).shared.find? query = some d ↔
      ∃ own p, (w.inserted t k key c stamp).standing d = .serving own p ∧
        (own == query) = true := by
  rw [h.find?]
  constructor
  · intro hd
    split at hd
    · next hq =>
      obtain rfl := Option.some.inj hd
      exact ⟨key, false, standing_self, hq⟩
    · obtain ⟨own, p, hs, heq⟩ := (hw.roster.serves query d).1 hd
      have hdc : d ≠ c := by
        rintro rfl
        simp [h.unused] at hs
      exact ⟨own, p, by rw [standing_of_ne hdc, hs], heq⟩
  · rintro ⟨own, p, hs, heq⟩
    -- The new cell was unused, so it is the answer for the key of the call only.
    by_cases hdc : d = c
    · subst hdc
      simp only [standing_self, Standing.serving.injEq] at hs
      rw [hs.1, if_pos heq]
    -- Any other cell serves what it served, and that is not the key of the call.
    · rw [standing_of_ne hdc] at hs
      have hfind := (hw.roster.serves query d).2 ⟨own, p, hs, heq⟩
      rw [if_neg, hfind]
      intro hq
      rw [← w.shared.find?_congr hq, h.missing] at hfind
      simp at hfind

/-- The tables lead to the cells that serve the keys, the new one included. -/
theorem roster (h : w.Inserting t k key c stamp) (hw : w.Sound) :
    (w.inserted t k key c stamp).Roster where
  serves := h.serves hw
  published query d := by
    show w.shared.snapshot.find? query = some d ↔ _
    rw [hw.roster.published]
    by_cases hdc : d = c
    · subst hdc
      simp [standing_self, h.unused]
    · rw [standing_of_ne hdc]
  used d hd := by
    by_cases hdc : d = c
    · subst hdc
      exact h.lt
    · rw [standing_of_ne hdc] at hd
      exact hw.roster.used d hd
  dropped d own j hd := hw.roster.dropped d own j (h.retired hd)

omit [EquivBEq K] in
/-- The key of the call has what the new cell holds. -/
theorem state_era (h : w.Inserting t k key c stamp) (hw : w.Sound) :
    (w.inserted t k key c stamp).chronicle.state w.era =
      (w.chronicle.state w.era).set key (w.shared.slot c).handle? := by
  rw [h.slot]
  exact state_enter_now_self h.about (hw.ledger.missing key h.missing)

/-- What the cells hold, the new one included, is what the chronicle says. -/
theorem held (h : w.Inserting t k key c stamp) (hw : w.Sound) {d : CellId} {own : K}
    (hd : ((w.inserted t k key c stamp).standing d).key? = some own) :
    (w.inserted t k key c stamp).chronicle.state ((w.inserted t k key c stamp).site d) own =
      (w.shared.slot d).handle? := by
  by_cases hdc : d = c
  · subst hdc
    rw [World.site, standing_self]
    obtain rfl : key = own := by simpa [standing_self, Standing.key?] using hd
    exact (congrFun (h.state_era hw) key).trans (Plain.set_self _ _ _)
  · rw [standing_of_ne hdc] at hd
    rw [World.site, standing_of_ne hdc]
    show (w.inserted t k key c stamp).chronicle.state (w.site d) own = _
    have hold := hw.ledger.held d own hd
    rcases Nat.lt_or_eq_of_le (hw.ledger.site_le d) with hlt | hnow
    · rw [← hold]
      exact congrFun (state_enter_now hlt) own
    · -- a cell of the current era serves another key, for this key had none
      rw [hnow] at hold ⊢
      rw [h.state_era hw, Plain.set_apply, if_neg, hold]
      intro hq
      obtain ⟨p, hs⟩ := hw.ledger.serving_of_site_eq hd hnow
      have hfind := (hw.roster.serves key d).2 ⟨own, p, hs, BEq.symm hq⟩
      simp [h.missing] at hfind

/-- The cells still hold what the chronicle says. -/
theorem ledger (h : w.Inserting t k key c stamp) (hw : w.Sound) :
    (w.inserted t k key c stamp).Ledger where
  explained :=
    hw.explained_enter (by rw [Plain.apply_of_key h.about, hw.ledger.missing key h.missing])
      fun hlt => absurd hlt (Nat.lt_irrefl _)
  current := hw.ledger.current
  held _ _ hd := h.held hw hd
  missing query hq := by
    show (w.inserted t k key c stamp).chronicle.state w.era query = none
    rw [h.find?] at hq
    rw [h.state_era hw, Plain.set_apply]
    split at hq
    -- The key of the call has the new cell, so it is not missing.
    · simp at hq
    · next hne =>
      rw [if_neg hne]
      exact hw.ledger.missing query hq
  fates d own j fate hd := hw.ledger.fates d own j fate (h.retired hd)
  alone d e own own' j fate fate' hd he heq :=
    hw.ledger.alone d e own own' j fate fate' (h.retired hd) (h.retired he) heq
  endings := hw.ledger.endings

/-- A call takes effect where it stages its key. -/
theorem sound (h : w.Inserting t k key c stamp) (hw : w.Sound) :
    (w.inserted t k key c stamp).Sound where
  tidy := by
    show Tidy w.phase (w.shared.setStaged _)
    rw [h.rest]
    -- No table leads to the new cell yet, since it is unused.
    refine (h.rest ▸ hw.tidy).stageNew h.amended h.unlisted h.lt (fun query => ⟨?_, ?_⟩) h.live
    · intro hq
      obtain ⟨own, hs, -⟩ := (hw.roster.published query c).1 hq
      simp [h.unused] at hs
    · intro hq
      obtain ⟨own, p, hs, -⟩ :=
        (hw.roster.serves query c).1 ((h.rest ▸ hw.tidy).find?_of_staged hq)
      simp [h.unused] at hs
  free _ := h.rest
  minted := hw.minted
  roster := h.roster hw
  ledger := h.ledger hw
  docket := hw.docket_enter_now h.ticket h.pending h.stamped (Nat.le_refl _) rfl rfl rfl rfl

end Inserting

end World

end ConcurrentMap
