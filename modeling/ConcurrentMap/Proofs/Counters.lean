import ConcurrentMap.Proofs.Deals

/-!
# Counters and races

What a list of calls says about a single key if the calls keep to a pattern. If they only create the
key and exchange a value for the next one (`Trace.Counter`), the key counts the exchanges that
succeeded. If they only put a value in place of none (`Trace.Race`), one of them is the first and
the others find its value. Neither depends on the order of the calls, and `Trace.Reconciled` says it
of a trace, together with the account of all handles.
-/

namespace ConcurrentMap

variable {K V : Type}

/-- The comparison let the operation go ahead. -/
def Answer.agreed : Answer V → Bool
  | .decided changed => changed
  | .finished => false
  | .found _ => false
  | .settled _ _ => false

/-- The key had no value before. -/
def Answer.fresh : Answer V → Bool
  | .settled _ loaded => !loaded
  | .finished => false
  | .found _ => false
  | .decided _ => false

/-- The request puts a value in place of none, and leaves a value alone. -/
def Request.claims : Request K V → Bool
  | .loadOrStore _ _ => true
  | .load _ => false
  | .store _ _ => false
  | .swap _ _ => false
  | .loadAndDelete _ => false
  | .delete _ => false
  | .compareAndSwap _ _ _ => false
  | .compareAndDelete _ _ => false
  | .clear => false

/-- What a counter is made of: the key is read, created with `v₀`, or a value that was read is
exchanged for the one that `f` makes of it. -/
inductive Request.Counts (f : V → V) (v₀ : V) : Request K V → Prop where
  | read (key : K) : Counts f v₀ (.load key)
  | claim (key : K) : Counts f v₀ (.loadOrStore key v₀)
  | create (key : K) : Counts f v₀ (.store key v₀)
  | next (key : K) (v : V) : Counts f v₀ (.compareAndSwap key v (f v))

/-- The key is written without regard to what it held. -/
def Request.creates : Request K V → Bool
  | .store _ _ => true
  | .load _ => false
  | .swap _ _ => false
  | .loadOrStore _ _ => false
  | .loadAndDelete _ => false
  | .delete _ => false
  | .compareAndSwap _ _ _ => false
  | .compareAndDelete _ _ => false
  | .clear => false

/-- The number of entries about the key that satisfy `p`. -/
def Trace.tally [BEq K] (key : K) (p : Request K V × Answer V → Bool) (trace : Trace K V) : Nat :=
  trace.countP fun e => e.1.about key && p e

/-- All that the trace does to the key is to count in it, from one beginning: either nobody resets
the key, or only one request creates it. -/
structure Trace.Counter [BEq K] (key : K) (f : V → V) (v₀ : V) (trace : Trace K V) : Prop where
  counts : ∀ e ∈ trace, e.1.about key = true → e.1.Counts f v₀
  created : 0 < trace.tally key fun e => e.1.creates || e.1.claims
  once : trace.tally key (·.1.creates) = 0 ∨ trace.tally key (fun e => e.1.creates || e.1.claims) = 1

/-- What a race for a key is made of: a value is put in place of none, the key is read, or a
comparison fails. -/
def Trace.Races (e : Request K V × Answer V) : Prop :=
  e.1.claims = true ∨ (∃ given, e.1 = .load given) ∨ e.2 = .decided false

/-- All that the trace does to the key is to put a value in place of none, more than once maybe. -/
structure Trace.Race [BEq K] (key : K) (trace : Trace K V) : Prop where
  claimed : 0 < trace.tally key (·.1.claims)
  others : ∀ e ∈ trace, e.1.about key = true → Races e

namespace Trace

variable [BEq K] {key : K} {p : Request K V × Answer V → Bool}

@[simp] theorem tally_nil : tally key p [] = 0 := rfl

theorem tally_cons_of_not_about {e : Request K V × Answer V} {trace : Trace K V}
    (h : e.1.about key = false) : tally key p (e :: trace) = tally key p trace := by
  simp [tally, h]

theorem tally_cons_of_about {e : Request K V × Answer V} {trace : Trace K V}
    (h : e.1.about key = true) :
    tally key p (e :: trace) = tally key p trace + (p e).toNat := by
  cases hp : p e <;> simp [tally, h, hp]

/-- The tally does not depend on the order of the entries. -/
theorem tally_perm {trace trace' : Trace K V} (h : trace.Perm trace') :
    tally key p trace = tally key p trace' := h.countP_eq _

/-- A weaker condition is met by as many entries at least. -/
theorem tally_mono (key : K) {q : Request K V × Answer V → Bool} (h : ∀ e, p e = true → q e = true)
    (trace : Trace K V) : tally key p trace ≤ tally key q trace := by
  refine List.countP_mono_left fun e _ he => ?_
  simp only [Bool.and_eq_true] at he ⊢
  exact ⟨he.1, h e he.2⟩

/-- Whether a trace counts does not depend on the order of its entries. -/
theorem Counter.perm {f : V → V} {v₀ : V} {trace trace' : Trace K V} (h : trace.Perm trace')
    (hc : Counter key f v₀ trace) : Counter key f v₀ trace' where
  counts e he := hc.counts e (h.mem_iff.2 he)
  created := tally_perm h ▸ hc.created
  once := by
    rw [← tally_perm h, ← tally_perm h]
    exact hc.once

omit [BEq K] in
/-- A value is left alone, and whoever wants to put one in its place finds it. -/
theorem races_some [BEq V] {r : Request K V} {stamp : Stamp} {held : Handle V}
    (h : Races (r, (r.effect stamp (some held)).1)) :
    (r.effect stamp (some held)).2 = some held ∧ (r.effect stamp (some held)).1.fresh = false ∧
      ∀ found loaded, (r.effect stamp (some held)).1 = .settled found loaded → found = held := by
  rcases h with hclaims | ⟨given, rfl⟩ | hrefused
  · cases r <;> simp_all [Request.claims, Request.effect, Answer.fresh]
  · simp [Request.effect, Answer.fresh]
  · refine ⟨Request.effect_of_refused hrefused, ?_, fun found loaded hfound => ?_⟩
    · rw [show (r.effect stamp (some held)).1 = .decided false from hrefused]
      rfl
    · rw [show (r.effect stamp (some held)).1 = .decided false from hrefused] at hfound
      simp at hfound

omit [BEq K] in
/-- A key without a value gets one, or stays without. -/
theorem races_none [BEq V] {r : Request K V} {stamp : Stamp}
    (h : Races (r, (r.effect stamp (none : Option (Handle V))).1)) :
    (∃ given v, r = .loadOrStore given v) ∨
      r.claims = false ∧ (r.effect stamp (none : Option (Handle V))).2 = none ∧
        (r.effect stamp (none : Option (Handle V))).1.fresh = false ∧
          ∀ found loaded, (r.effect stamp (none : Option (Handle V))).1 ≠ .settled found loaded := by
  rcases h with hclaims | ⟨given, rfl⟩ | hrefused
  · cases r <;> simp_all [Request.claims]
  · exact .inr ⟨rfl, rfl, rfl, by simp [Request.effect]⟩
  · cases r <;> simp_all [Request.claims, Request.effect, Answer.fresh]

/-- Whether a trace is a race does not depend on the order of its entries. -/
theorem Race.perm {trace trace' : Trace K V} (h : trace.Perm trace') (hr : Race key trace) :
    Race key trace' where
  claimed := tally_perm h ▸ hr.claimed
  others e he := hr.others e (h.mem_iff.2 he)

end Trace

/-! ## One key of a plain map -/

namespace Plain

variable [BEq K] [EquivBEq K] [BEq V] {m : Plain K V} {key : K} {calls : List (Call K V)}
  {f : V → V} {v₀ : V}

/-- A key that has a value counts on from there. -/
theorem value_of_counts (hf : ∀ u v, (u == v) = true → f u = f v) (hm : m.Respects)
    (hex : m.Explains calls) (hclear : ∀ c ∈ calls, c.request ≠ .clear)
    (hcounts : ∀ c ∈ calls, c.request.about key = true → c.request.Counts f v₀)
    (hkept : Trace.tally key (·.1.creates) (calls.map Call.entry) = 0) {held : Handle V}
    (hheld : m key = some held) :
    ∃ final, m.after calls key = some final ∧
      final.value = f^[Trace.tally key (·.2.agreed) (calls.map Call.entry)] held.value := by
  induction calls generalizing m held with
  | nil => exact ⟨held, hheld, rfl⟩
  | cons c calls ih =>
      obtain ⟨r, stamp, answer⟩ := c
      obtain ⟨hr, hclear'⟩ := List.forall_mem_cons.1 hclear
      obtain ⟨hcount, hcounts'⟩ := List.forall_mem_cons.1 hcounts
      have hrest := ih (hm.apply stamp r) hex.2 hclear' hcounts'
      rw [List.map_cons] at hkept ⊢
      cases habout : r.about key with
      | false =>
          rw [Trace.tally_cons_of_not_about habout] at hkept ⊢
          exact hrest hkept ((apply_of_not_about hr stamp habout).trans hheld)
      | true =>
          obtain ⟨-, hnext, -⟩ := hm.apply_of_about stamp habout
          obtain rfl : answer = (r.effect stamp (m key)).1 := hm.answer_of_about hex habout
          rw [Trace.tally_cons_of_about habout] at hkept ⊢
          rw [hheld] at hnext ⊢
          have hkept := Nat.eq_zero_of_add_eq_zero hkept
          cases hcount habout with
          | read given => exact hrest hkept.1 hnext
          | claim given => exact hrest hkept.1 hnext
          | create given => exact absurd hkept.2 (by simp [Call.entry, Request.creates])
          | next given v =>
              cases hcmp : held.value == v with
              | false =>
                  have heffect : (Request.compareAndSwap given v (f v)).effect stamp (some held) =
                      (.decided false, some held) := by simp [Request.effect, hcmp]
                  rw [heffect] at hnext ⊢
                  exact hrest hkept.1 hnext
              | true =>
                  have heffect : (Request.compareAndSwap given v (f v)).effect stamp (some held) =
                      (.decided true, some ⟨stamp, f v⟩) := by simp [Request.effect, hcmp]
                  rw [heffect] at hnext ⊢
                  obtain ⟨final, hfinal, hvalue⟩ := hrest hkept.1 hnext
                  -- the value that was exchanged is the one that the key had
                  exact ⟨final, hfinal, hvalue.trans (by rw [← hf _ _ hcmp]; rfl)⟩

/-- A counter counts its increments, from the value with which it was created. -/
theorem value_of_counter (hf : ∀ u v, (u == v) = true → f u = f v) (hm : m.Respects)
    (hex : m.Explains calls) (hclear : ∀ c ∈ calls, c.request ≠ .clear) (hnone : m key = none)
    (hcounter : Trace.Counter key f v₀ (calls.map Call.entry)) :
    ∃ final, m.after calls key = some final ∧
      final.value = f^[Trace.tally key (·.2.agreed) (calls.map Call.entry)] v₀ := by
  obtain ⟨hcounts, hcreated, honce⟩ := hcounter
  replace hcounts : ∀ c ∈ calls, c.request.about key = true → c.request.Counts f v₀ :=
    fun c hc => hcounts c.entry (List.mem_map_of_mem hc)
  induction calls generalizing m with
  | nil => exact absurd hcreated (Nat.lt_irrefl 0)
  | cons c calls ih =>
      obtain ⟨r, stamp, answer⟩ := c
      obtain ⟨hr, hclear'⟩ := List.forall_mem_cons.1 hclear
      obtain ⟨hcount, hcounts'⟩ := List.forall_mem_cons.1 hcounts
      have hrest := ih (hm.apply stamp r) hex.2 hclear'
      rw [List.map_cons] at hcreated honce ⊢
      -- A call on another key makes no difference to this one.
      cases habout : r.about key with
      | false =>
          simp only [Trace.tally_cons_of_not_about (e := Call.entry ⟨r, stamp, answer⟩) habout]
            at hcreated honce ⊢
          exact hrest ((apply_of_not_about hr stamp habout).trans hnone) hcreated honce hcounts'
      | true =>
          obtain ⟨-, hnext, -⟩ := hm.apply_of_about stamp habout
          obtain rfl : answer = (r.effect stamp (m key)).1 := hm.answer_of_about hex habout
          simp only [Trace.tally_cons_of_about (e := Call.entry ⟨r, stamp, _⟩) habout]
            at hcreated honce ⊢
          rw [hnone] at hcreated honce hnext ⊢
          have hle := Trace.tally_mono key (p := fun e => e.1.creates)
            (q := fun e => e.1.creates || e.1.claims)
            (fun e he => by rw [he]; rfl) (calls.map Call.entry)
          -- A key without a value is read or compared in vain, until a call creates it.
          cases hcount habout with
          | read given => exact hrest hnext hcreated honce hcounts'
          | next given v => exact hrest hnext hcreated honce hcounts'
          -- From here on nobody creates the key again, and it counts on from its value.
          | claim given =>
              refine value_of_counts hf (hm.apply _ _) hex.2 hclear' hcounts' ?_ hnext
              rcases honce with hnever | honly
              · exact hnever
              · exact Nat.le_zero.1 (Nat.le_trans hle (Nat.le_of_eq (Nat.succ.inj honly)))
          | create given =>
              refine value_of_counts hf (hm.apply _ _) hex.2 hclear' hcounts' ?_ hnext
              rcases honce with hnever | honly
              · exact absurd hnever (Nat.succ_ne_zero _)
              · exact Nat.le_zero.1 (Nat.le_trans hle (Nat.le_of_eq (Nat.succ.inj honly)))

/-- Where a value is left alone, it is the one that everybody finds. -/
theorem found_of_race (hm : m.Respects) (hex : m.Explains calls)
    (hclear : ∀ c ∈ calls, c.request ≠ .clear)
    (hothers : ∀ c ∈ calls, c.request.about key = true → Trace.Races c.entry) {held : Handle V}
    (hheld : m key = some held) :
    m.after calls key = some held ∧
      Trace.tally key (·.2.fresh) (calls.map Call.entry) = 0 ∧
      ∀ c ∈ calls, c.request.about key = true → ∀ found loaded,
        c.answer = .settled found loaded → found = held := by
  induction calls generalizing m with
  | nil => exact ⟨hheld, rfl, fun c hc => absurd hc List.not_mem_nil⟩
  | cons c calls ih =>
      obtain ⟨r, stamp, answer⟩ := c
      obtain ⟨hr, hclear'⟩ := List.forall_mem_cons.1 hclear
      obtain ⟨hraces, hothers'⟩ := List.forall_mem_cons.1 hothers
      have hrest := ih (hm.apply stamp r) hex.2 hclear' hothers'
      rw [List.map_cons]
      -- A call on another key makes no difference to this one.
      cases habout : r.about key with
      | false =>
          rw [Trace.tally_cons_of_not_about habout]
          obtain ⟨hafter, hfresh, hfound⟩ :=
            hrest ((apply_of_not_about hr stamp habout).trans hheld)
          refine ⟨hafter, hfresh, List.forall_mem_cons.2 ⟨fun hyes => ?_, hfound⟩⟩
          simp [habout] at hyes
      | true =>
          obtain ⟨-, hnext, -⟩ := hm.apply_of_about stamp habout
          obtain rfl : answer = (r.effect stamp (m key)).1 := hm.answer_of_about hex habout
          rw [Trace.tally_cons_of_about habout]
          have hraces := hraces habout
          rw [hheld] at hnext hraces ⊢
          -- The value is left alone, and whoever wants to put one in its place finds it.
          obtain ⟨hsame, hold, hgiven⟩ := Trace.races_some hraces
          obtain ⟨hafter, hfresh, hfound⟩ := hrest (hnext.trans hsame)
          refine ⟨hafter, ?_, List.forall_mem_cons.2 ⟨fun _ => hgiven, hfound⟩⟩
          rw [hfresh, Nat.zero_add]
          exact congrArg Bool.toNat hold

/-- Of the calls that put a value in place of none one is the first, and the others find its
value. -/
theorem winner_of_race (hm : m.Respects) (hex : m.Explains calls)
    (hclear : ∀ c ∈ calls, c.request ≠ .clear) (hnone : m key = none)
    (hrace : Trace.Race key (calls.map Call.entry)) :
    ∃ final, m.after calls key = some final ∧
      Trace.tally key (·.2.fresh) (calls.map Call.entry) = 1 ∧
      ∀ c ∈ calls, c.request.about key = true → ∀ found loaded,
        c.answer = .settled found loaded → found = final := by
  obtain ⟨hclaimed, hothers⟩ := hrace
  replace hothers : ∀ c ∈ calls, c.request.about key = true → Trace.Races c.entry :=
    fun c hc => hothers c.entry (List.mem_map_of_mem hc)
  induction calls generalizing m with
  | nil => exact absurd hclaimed (Nat.lt_irrefl 0)
  | cons c calls ih =>
      obtain ⟨r, stamp, answer⟩ := c
      obtain ⟨hr, hclear'⟩ := List.forall_mem_cons.1 hclear
      obtain ⟨hraces, hothers'⟩ := List.forall_mem_cons.1 hothers
      have hrest := ih (hm.apply stamp r) hex.2 hclear'
      rw [List.map_cons] at hclaimed ⊢
      cases habout : r.about key with
      | false =>
          rw [Trace.tally_cons_of_not_about habout] at hclaimed ⊢
          obtain ⟨final, hafter, hfresh, hfound⟩ :=
            hrest ((apply_of_not_about hr stamp habout).trans hnone) hclaimed hothers'
          refine ⟨final, hafter, hfresh, List.forall_mem_cons.2 ⟨fun hyes => ?_, hfound⟩⟩
          simp [habout] at hyes
      | true =>
          obtain ⟨-, hnext, -⟩ := hm.apply_of_about stamp habout
          obtain rfl : answer = (r.effect stamp (m key)).1 := hm.answer_of_about hex habout
          rw [Trace.tally_cons_of_about habout] at hclaimed ⊢
          have hraces := hraces habout
          rw [hnone] at hnext hraces ⊢
          rcases Trace.races_none hraces with ⟨given, v, rfl⟩ | ⟨hno, hsame, hold, hgiven⟩
          · -- the first one to put a value there
            obtain ⟨hafter, hfresh, hfound⟩ :=
              found_of_race (hm.apply stamp _) hex.2 hclear' hothers' hnext
            refine ⟨_, hafter, by rw [hfresh]; rfl, List.forall_mem_cons.2 ⟨fun _ => ?_, hfound⟩⟩
            rintro found loaded ⟨⟩
            rfl
          · have hclaimed' : 0 < Trace.tally key (·.1.claims) (calls.map Call.entry) := by
              simpa [Call.entry, hno] using hclaimed
            obtain ⟨final, hafter, hfresh, hfound⟩ := hrest (hnext.trans hsame) hclaimed' hothers'
            refine ⟨final, hafter, ?_, List.forall_mem_cons.2 ⟨fun _ found loaded h => ?_, hfound⟩⟩
            · rw [hfresh]
              exact congrArg (1 + Bool.toNat ·) hold
            · exact absurd h (hgiven found loaded)

end Plain

/-! ## What a trace tells of the values -/

/-- What was answered, in whatever order, fits what a map that started out empty holds in the
end. -/
structure Trace.Reconciled [BEq K] [BEq V] (trace : Trace K V) (final : Plain K V) : Prop where
  /-- Every handle that was put into the map is still there or was taken by one call. -/
  conserved : ∃ calls contents, (calls.map Call.entry).Perm trace ∧ Plain.empty.Explains calls ∧
    final = Plain.empty.after calls ∧ Deals.Conserved (Plain.empty.deals calls) final contents
  /-- A counter loses no increment. -/
  counter : ∀ key f v₀, (∀ u v, (u == v) = true → f u = f v) → trace.Counter key f v₀ →
    ∃ held, final key = some held ∧ held.value = f^[trace.tally key (·.2.agreed)] v₀
  /-- One call wins a race, and the others find its value. -/
  race : ∀ key, trace.Race key → ∃ held, final key = some held ∧
    trace.tally key (·.2.fresh) = 1 ∧
    ∀ e ∈ trace, e.1.about key = true → ∀ found loaded, e.2 = .settled found loaded → found = held

/-- The answers of a plain map that is not cleared fit what it holds in the end. -/
theorem Plain.reconciled [BEq K] [EquivBEq K] [BEq V] {calls : List (Call K V)} {trace : Trace K V}
    (hex : empty.Explains calls) (hclear : ∀ c ∈ calls, c.request ≠ .clear)
    (hapart : calls.Pairwise Call.Apart) (htrace : (calls.map Call.entry).Perm trace) :
    Trace.Reconciled trace (empty.after calls) where
  conserved := by
    obtain ⟨contents, hconserved⟩ := conserved hex hclear hapart
    exact ⟨calls, contents, htrace, hex, rfl, hconserved⟩
  counter key f v₀ hf hcounter := by
    rw [← Trace.tally_perm htrace]
    exact value_of_counter hf respects_empty hex hclear rfl (hcounter.perm htrace.symm)
  race key hrace := by
    obtain ⟨held, hheld, hfresh, hfound⟩ :=
      winner_of_race respects_empty hex hclear rfl (hrace.perm htrace.symm)
    refine ⟨held, hheld, Trace.tally_perm htrace ▸ hfresh, fun e he habout => ?_⟩
    obtain ⟨c, hc, rfl⟩ := List.mem_map.1 (htrace.mem_iff.2 he)
    exact hfound c hc habout

end ConcurrentMap
