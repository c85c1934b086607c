import ConcurrentMap.Machine
import ConcurrentMap.Proofs.Client
import ConcurrentMap.Proofs.Interference.Calling

/-!
# Whole runs

`Program.wp_client` is the rule for clients: between its calls a thread is `World.Idle`, and what
its trace says is what the chronicle has on record. The rest of the module leads from the rules to
runs.
`Program.wp_run` is about a thread that runs alone, `Machine.Backed` about machines: any schedule of
threads that carry clients out is backed by worlds that are sound.
-/

namespace ConcurrentMap

variable {K V ε α β σ : Type} [BEq K] [BEq V]

namespace World

/-! ## Between two calls -/

/-- The chronicle has these calls of one thread on record, and each was answered before the next one
was made. -/
structure Remembers (w : World K V) (log : List (Deed K V)) : Prop where
  made : ∀ d ∈ log, d.id < w.chronicle.issued ∧ w.chronicle.asked d.id = d.request
  recorded : ∀ d ∈ log,
    d.horizon ≤ w.chronicle.issued ∧ w.chronicle.Recorded d.id d.answer d.horizon
  ordered : log.Pairwise fun x y => x.id < y.id ∧ x.horizon ≤ y.id

/-- The thread is between two calls. It was answered as its trace says, and the requests that are
made satisfy `P`. -/
structure Idle (t : ThreadId) (P : Request K V → Prop) (trace : Trace K V) (w : World K V) :
    Prop where
  sound : w.Sound
  holder : w.shared.holder ≠ some t
  rules : w.rules = ⟨P, False⟩
  told : ∃ log, w.Remembers log ∧ log.map (·.id) = w.callsOf t ∧
    log.map (fun d => (d.request, d.answer)) = trace

variable {w w' : World K V} {t : ThreadId} {P : Request K V → Prop} {trace : Trace K V}
  {log : List (Deed K V)}

/-- What the chronicle has on record lasts. -/
theorem Remembers.grows (h : w.Remembers log) (hg : w.Grows w') : w'.Remembers log where
  made d hd := by
    obtain ⟨hid, hask⟩ := h.made d hd
    exact ⟨Nat.lt_of_lt_of_le hid hg.issued, (hg.asked d.id hid).trans hask⟩
  recorded d hd := by
    obtain ⟨hle, hrec⟩ := h.recorded d hd
    exact ⟨Nat.le_trans hle hg.issued, hg.recorded _ _ _ hrec⟩
  ordered := h.ordered

/-- The next call of the thread comes after all that it remembers. -/
theorem Remembers.concat (h : w.Remembers log) (hw : w.Sound) {d : Deed K V}
    (hg : (w.issue t d.request).Grows w') (hid : d.id = w.chronicle.issued)
    (hhor : d.horizon ≤ w'.chronicle.issued)
    (hrec : w'.chronicle.Recorded d.id d.answer d.horizon) : w'.Remembers (log ++ [d]) := by
  have hold := h.grows ((hw.grows_issue t d.request).trans hg)
  have hnew : d.id < (w.chronicle.issue d.request).issued := by
    rw [hid, w.chronicle.issued_issue]
    exact Nat.lt_succ_self _
  refine ⟨fun e he => ?_, fun e he => ?_, ?_⟩
  -- An earlier call, or the new one, which was named when it was made.
  · rcases List.mem_append.1 he with he | he
    · exact hold.made e he
    · obtain rfl := List.mem_singleton.1 he
      refine ⟨Nat.lt_of_lt_of_le hnew hg.issued, (hg.asked _ hnew).trans ?_⟩
      show (w.chronicle.issue e.request).asked e.id = e.request
      rw [hid, w.chronicle.asked_issue_self]
  · rcases List.mem_append.1 he with he | he
    · exact hold.recorded e he
    · obtain rfl := List.mem_singleton.1 he
      exact ⟨hhor, hrec⟩
  -- The new call was made after every earlier one had been answered.
  · refine List.pairwise_append.2 ⟨h.ordered, List.pairwise_singleton _ _, fun e he f hf => ?_⟩
    obtain rfl := List.mem_singleton.1 hf
    rw [hid]
    exact ⟨(h.made e he).1, (h.recorded e he).1⟩

/-- Nobody has made a call on a map that was never written, so every thread is idle. -/
theorem idle_start (t : ThreadId) (P : Request K V → Prop) : (start ⟨P, False⟩).Idle t P [] where
  sound := sound_start _
  holder := by simp [start, Shared.initial]
  rules := rfl
  told := ⟨[], ⟨by simp, by simp, .nil⟩, rfl, rfl⟩

/-- An idle thread is outside the mutex. -/
theorem Idle.outside (h : w.Idle t P trace) : w.Outside t (w.tickets t) := ⟨rfl, h.holder⟩

/-- A thread stays idle while its calls stay the same. -/
theorem Idle.grows (h : w.Idle t P trace) (hg : w.Grows w') (hw' : w'.Sound)
    (hout : w'.Outside t (w.tickets t)) : w'.Idle t P trace where
  sound := hw'
  holder := hout.holder
  rules := hg.rules.trans h.rules
  told := by
    obtain ⟨log, hlog, hids, htrace⟩ := h.told
    refine ⟨log, hlog.grows hg, ?_, htrace⟩
    rw [hids, callsOf, callsOf, hout.ticket]

/-- A thread stays idle while the others take steps. -/
theorem Idle.rely (h : w.Idle t P trace) (hr : w.Rely t w') (hw' : w'.Sound) :
    w'.Idle t P trace :=
  h.grows hr.grows hw' (h.outside.rely hr)

/-- A call that was answered is remembered. -/
theorem Idle.answered (h : w.Idle t P trace) {r : Request K V} {answer : Answer V}
    (hg : (w.issue t r).Grows w') (hw' : w'.Sound)
    (hout : w'.Outside t (some ⟨w.chronicle.issued, r, .answered answer, w.callsOf t⟩)) :
    w'.Idle t P (trace ++ [(r, answer)]) where
  sound := hw'
  holder := hout.holder
  rules := hg.rules.trans h.rules
  told := by
    obtain ⟨log, hlog, hids, htrace⟩ := h.told
    obtain ⟨horizon, hhor, hrec⟩ := (hw'.docket.tickets t _ hout.ticket).2.2
    refine ⟨log ++ [⟨⟨r, 0, answer⟩, w.chronicle.issued, 0, horizon⟩],
      hlog.concat h.sound hg rfl hhor hrec, ?_, ?_⟩
    · have hcalls : w'.callsOf t = w.callsOf t ++ [w.chronicle.issued] := by
        rw [callsOf, hout.ticket]
        rfl
      rw [List.map_append, hids, hcalls]
      rfl
    · rw [List.map_append, htrace]
      rfl

end World

open World

namespace Program

variable [EquivBEq K] {order : Enumeration K} {t : ThreadId} {w : World K V}
  {P : Request K V → Prop}

/-! ## Clients -/

/-- An idle thread makes a request and gets its answer. -/
theorem wp_ask {made : Trace K V} {r : Request K V} {p : Program K V α} {answer : α → Answer V}
    {Q : α → World K V → Prop} (hp : r.program = p >>= fun x => done (answer x))
    (h : w.Idle t P made) (hr : P r)
    (hQ : ∀ x w', w'.Idle t P (made ++ [(r, answer x)]) → Q x w') : p.wp order t Q w := by
  refine wp_call hp h.outside (by rwa [h.rules]) (by simp [h.rules])
    fun x w₁ w' hrely hs hg hs' hout' => ?_
  exact hQ x w' ((h.rely hrely hs).answered hg hs' hout')

/-- A batch of pairs is stored pair by pair, each with a call of its own. -/
theorem wp_extend {made : Trace K V} {pairs : List (K × V)} {Q : Unit → World K V → Prop}
    (h : w.Idle t P made) (hallowed : ∀ p ∈ pairs, P (.store p.1 p.2))
    (hQ : ∀ w', w'.Idle t P (made ++ .stores pairs) → Q () w') :
    (Map.extend pairs).wp order t Q w := by
  induction pairs generalizing made w with
  | nil => exact hQ w (by simpa [Trace.stores] using h)
  | cons p pairs ih =>
      have hstore : (Request.store p.1 p.2).program =
          Map.store p.1 p.2 >>= fun _ => done .finished := rfl
      refine wp_bind (wp_ask hstore h (hallowed p List.mem_cons_self) fun _ w₁ h₁ => ?_)
      refine ih h₁ (fun q hq => hallowed q (List.mem_cons_of_mem p hq)) fun w₂ h₂ => hQ w₂ ?_
      rwa [List.append_assoc] at h₂

omit [EquivBEq K] in
/-- The visits of a traversal, if each visit is carried out properly. -/
theorem wp_visits {visit : K → Handle V → σ → Client K V ε (ForInStep σ)}
    {entries : List (K × CellId)} {made trace : Trace K V} {start : σ}
    (hvisit : ∀ key held state trace (w : World K V), w.Idle t P (made ++ trace) →
      ((visit key held state).program trace).wp order t (fun x w' => w'.Idle t P (made ++ x.2)) w)
    (h : w.Idle t P (made ++ trace)) :
    (Client.visits visit entries start trace).wp order t
      (fun x w' => w'.Idle t P (made ++ x.2)) w := by
  -- the visitors' calls go to the end of the trace, so the induction is for any trace
  induction entries generalizing start trace w with
  | nil => exact h
  | cons e entries ih =>
      obtain ⟨key, c⟩ := e
      rw [Client.visits_cons]
      refine wp_bind (wp_mono (wp_upshot (wp_peek fun held w₁ hr => hr) h.sound)
        fun held w₁ ⟨hs₁, _, hr₁⟩ => ?_)
      have h₁ := h.rely hr₁ hs₁
      cases held with
      | none => exact ih h₁
      | some held =>
          refine wp_bind (wp_mono (hvisit key held start trace w₁ h₁) fun x w₂ h₂ => ?_)
          obtain ⟨(failure | step), trace'⟩ := x
          · exact h₂
          · cases step with
            | done state => exact h₂
            | yield state => exact ih h₂

/-- A client that makes only requests that satisfy `P` is carried out properly. -/
theorem wp_client {made trace : Trace K V} {c : Client K V ε α} (h : w.Idle t P (made ++ trace))
    (honly : c.Only P) :
    (c.program trace).wp order t (fun x w' => w'.Idle t P (made ++ x.2)) w := by
  -- By induction on the client; `trace` is what the visits and attempts around it have added.
  induction c generalizing trace w with
  | done x => exact h
  | fail e => exact h
  | request r next ih =>
      rw [Client.program_request]
      refine wp_bind (wp_ask (bind_done _).symm h honly.1 fun answer w₁ h₁ => ?_)
      rw [List.append_assoc] at h₁
      exact ih answer h₁ (honly.2 answer)
  | extend pairs next ih =>
      rw [Client.program_extend]
      refine wp_bind (wp_extend h honly.1 fun w₁ h₁ => ?_)
      rw [List.append_assoc] at h₁
      exact ih h₁ honly.2
  | traverse visit start next ihvisit ih =>
      rw [Client.program_traverse]
      refine wp_bind (wp_mono (wp_upshot (wp_itinerary h.outside fun _ _ _ hout' _ _ => hout') h.sound)
        fun entries w₁ ⟨hs₁, hg₁, hout₁⟩ => wp_bind ?_)
      refine wp_mono (wp_visits (fun key held state trace w hidle => ?_) (h.grows hg₁ hs₁ hout₁))
        fun x w₂ h₂ => ?_
      · exact ihvisit key held state hidle (honly.1 key held state)
      -- A visitor that failed ends the client, one that did not lets it go on.
      · obtain ⟨(failure | state), trace'⟩ := x
        · exact h₂
        · exact ih state h₂ (honly.2 state)
  | attempt body next ihbody ih =>
      rw [Client.program_attempt]
      refine wp_bind (wp_mono (ihbody h honly.1) fun x w₁ h₁ => ?_)
      exact ih x.1 h₁ (honly.2 x.1)

/-! ## A thread alone -/

omit [EquivBEq K] in
/-- Alone, a retried exchange ends at the slot that the cell holds. -/
theorem settle_eq {u : Update V} (hw : w.Sound) (hseen : w.Genuine u.seen)
    (hacc : u.accepts u.seen.content = true) :
    u.settle w.shared = if u.accepts (w.shared.slot u.cell).content then
      (.installed (w.shared.slot u.cell), w.shared.setSlot u.cell u.candidate)
    else
      (.refused (w.shared.slot u.cell), w.shared) := by
  unfold Update.settle
  by_cases hstamp : (w.shared.slot u.cell).stamp = u.seen.stamp
  · have hslot := (hw.minted u.cell).eq_of_stamp hseen hstamp
    simp only [hslot, hacc, if_true]
  · simp only [hstamp, if_false]

omit [EquivBEq K] in
/-- A thread that starts while the mutex is free runs to its end, and to the others this is what
they count on. -/
theorem wp_run {p : Program K V α} {Q : α → World K V → Prop} (h : p.wp order t Q w)
    (hw : w.Sound) (hholder : w.shared.holder = none ∨ w.shared.holder = some t) :
    ∃ x w', p.run order t w.shared = some (x, w'.shared) ∧ w'.Sound ∧ Q x w' ∧
      (w'.shared.holder = none ∨ w'.shared.holder = some t) ∧ ∀ u, u ≠ t → w.Rely u w' := by
  induction p generalizing w with
  | done x => exact ⟨x, w, rfl, hw, h, hholder, fun u _ => .refl u w⟩
  | act a next ih =>
      obtain ⟨hacq, hact⟩ := h w (.refl t w) hw
      cases hperf : a.perform order t w.shared with
      | none =>
          -- only a mutex that is held refuses an action, and this thread does not ask for its own
          obtain ⟨ha, hheld⟩ := (Action.perform_eq_none_iff order t w.shared a).1 hperf
          rcases hholder with hnone | hself
          · simp [hnone] at hheld
          · exact absurd hself (hacq ha)
      | some r =>
          obtain ⟨w₁, hs₁, hw₁, hg, h₁⟩ := hact r hperf
          obtain ⟨x, w', hrun, hw', hQ, hheld, hrely⟩ := ih r.1 h₁ hw₁ (hg.free_or_own hholder)
          refine ⟨x, w', ?_, hw', hQ, hheld, fun u hu => (hg.rely hu).trans (hrely u hu)⟩
          rwa [run_act, hperf, Option.bind_some, ← hs₁]
  | retry u next ih =>
      obtain ⟨hseen, hacc, h⟩ := h
      obtain ⟨hin, hout⟩ := h w (.refl t w) hw
      have hstep : w.Reaches t (u.settle w.shared).2
          fun w₁ => (next (u.settle w.shared).1).wp order t Q w₁ := by
        rw [settle_eq hw hseen hacc]
        split
        · next haccepts => exact hin haccepts
        · next hrefuses => exact hout (by simpa using hrefuses)
      obtain ⟨w₁, hs₁, hw₁, hg, h₁⟩ := hstep
      obtain ⟨x, w', hrun, hw', hQ, hheld, hrely⟩ := ih _ h₁ hw₁ (hg.free_or_own hholder)
      refine ⟨x, w', ?_, hw', hQ, hheld, fun u hu => (hg.rely hu).trans (hrely u hu)⟩
      rwa [run_retry, ← hs₁]

end Program

/-! ## The first state -/

variable [EquivBEq K] {order : Enumeration K} {t : ThreadId} {P : Request K V → Prop}

/-- A map can be built from any list of values, and then nobody else has made a call. -/
theorem World.exists_ofList {pairs : List (K × V)} (order : Enumeration K) (t : ThreadId)
    (hallowed : ∀ p ∈ pairs, P (.store p.1 p.2)) :
    ∃ w : World K V, Shared.ofList order t pairs = some w.shared ∧ w.shared.holder = none ∧
      w.Idle t P (.stores pairs) ∧ ∀ u, u ≠ t → w.tickets u = none := by
  have hextend : (Map.extend pairs).wp order t (fun _ w => w.Idle t P (.stores pairs))
      (start ⟨P, False⟩) :=
    Program.wp_extend (idle_start t P) hallowed fun w h => h
  obtain ⟨x, w, hrun, hw, hidle, hheld, hrely⟩ := Program.wp_run hextend (sound_start _) (.inl rfl)
  refine ⟨w, ?_, hheld.resolve_right hidle.holder, hidle, fun u hu => (hrely u hu).ticket⟩
  rw [Shared.ofList]
  exact congrArg (Option.map Prod.snd) hrun

/-- Every thread can start on a map that was built. -/
theorem World.exists_ready {pairs : List (K × V)} (order : Enumeration K) (t₀ : ThreadId)
    (hallowed : ∀ p ∈ pairs, P (.store p.1 p.2)) :
    ∃ w : World K V, Shared.ofList order t₀ pairs = some w.shared ∧ w.shared.holder = none ∧
      ∀ t, ∃ made, w.Idle t P made := by
  obtain ⟨w, hof, hfree, hidle, hothers⟩ := World.exists_ofList order t₀ hallowed
  refine ⟨w, hof, hfree, fun t => ?_⟩
  by_cases ht : t = t₀
  · subst ht
    exact ⟨_, hidle⟩
  · refine ⟨[], hidle.sound, by simp [hfree], hidle.rules, [], ⟨by simp, by simp, .nil⟩, ?_, rfl⟩
    simp [callsOf, hothers t ht]

/-- A client that starts while the mutex is free runs to its end. -/
theorem World.Idle.run {w : World K V} {made : Trace K V} (h : w.Idle t P made)
    (hfree : w.shared.holder = none) {c : Client K V ε α} (honly : c.Only P)
    (order : Enumeration K) :
    ∃ x, ∃ w' : World K V, (c.program []).run order t w.shared = some (x, w'.shared) ∧
      w'.shared.holder = none ∧ w'.Idle t P (made ++ x.2) ∧
        ∀ u, u ≠ t → w'.tickets u = w.tickets u := by
  have hstart : w.Idle t P (made ++ []) := by rwa [List.append_nil]
  have hwp : (c.program []).wp order t (fun x w' => w'.Idle t P (made ++ x.2)) w :=
    Program.wp_client hstart honly
  obtain ⟨x, w', hrun, -, hidle, hheld, hrely⟩ := Program.wp_run hwp h.sound (.inl hfree)
  exact ⟨x, w', hrun, hheld.resolve_right hidle.holder, hidle, fun u hu => (hrely u hu).ticket⟩

/-! ## Machines -/

namespace Machine

omit [EquivBEq K] in
/-- A sound world has the machine's shared state, and each thread is carried out properly. -/
structure Backed (order : Enumeration K) (m : Machine K V α) (w : World K V) : Prop where
  shared : w.shared = m.shared
  sound : w.Sound
  threads : ∀ t (p : Program K V α), m.threads[t]? = some p →
    p.wp order t (fun _ w' => w'.shared.holder ≠ some t) w

omit [EquivBEq K] in
/-- The same, and each thread ends in `Q`. -/
structure Attended (order : Enumeration K) (Q : ThreadId → α → World K V → Prop)
    (m : Machine K V α) (w : World K V) : Prop where
  shared : w.shared = m.shared
  sound : w.Sound
  threads : ∀ t (p : Program K V α), m.threads[t]? = some p → p.wp order t (Q t) w

variable {m : Machine K V α} {w : World K V} {Q : ThreadId → α → World K V → Prop}

omit [EquivBEq K] in
/-- A machine is backed if its threads are attended to and end outside the mutex. -/
theorem backed_iff : m.Backed order w ↔
    m.Attended order (fun t _ w' => w'.shared.holder ≠ some t) w :=
  ⟨fun h => ⟨h.shared, h.sound, h.threads⟩, fun h => ⟨h.shared, h.sound, h.threads⟩⟩

omit [BEq V] [EquivBEq K] in
/-- A step neither adds a thread nor takes one away. -/
theorem size_step (order : Enumeration K) (m : Machine K V α) (t : ThreadId) :
    (m.step order t).threads.size = m.threads.size := by
  unfold Machine.step
  split
  · rfl
  · split <;> simp

omit [BEq V] [EquivBEq K] in
/-- However long the schedule, the machine keeps its threads. -/
theorem size_follow (order : Enumeration K) (m : Machine K V α) (schedule : List ThreadId) :
    (m.follow order schedule).threads.size = m.threads.size := by
  induction schedule generalizing m with
  | nil => rfl
  | cons t schedule ih => exact (ih _).trans (m.size_step order t)

omit [EquivBEq K] in
/-- The next step of a thread is one that the thread may take. -/
theorem Attended.step (hQ : ∀ t x w w', Q t x w → w.Rely t w' → Q t x w')
    (h : m.Attended order Q w) (t : ThreadId) :
    ∃ w', (m.step order t).Attended order Q w' ∧ w.Guarantee t w' ∧
      (m.threads[t]? = none → w' = w) := by
  unfold Machine.step
  split
  · exact ⟨w, h, .refl t w, fun _ => rfl⟩
  · next p hp =>
    split
    · exact ⟨w, h, .refl t w, fun _ => rfl⟩
    · next p' s' hstep =>
      rw [← h.shared] at hstep
      obtain ⟨w', hs', hw', hg, hp'⟩ := Program.wp_step (h.threads t p hp) h.sound hstep
      refine ⟨w', ⟨hs', hw', fun u q hq => ?_⟩, hg, fun hnone => by simp [hp] at hnone⟩
      rw [Array.getElem?_setIfInBounds] at hq
      -- the thread itself goes on from here, and to the others this is a step of another one
      by_cases hu : t = u
      · subst hu
        rw [if_pos rfl] at hq
        split at hq
        · obtain rfl := Option.some.inj hq
          exact hp'
        · exact absurd hq (by simp)
      · rw [if_neg hu] at hq
        exact Program.wp_rely (h.threads u q hq) (hg.rely (Ne.symm hu)) (hQ u)

omit [EquivBEq K] in
/-- Whoever has no thread counts on the threads as on the steps of others. -/
theorem Attended.follow (hQ : ∀ t x w w', Q t x w → w.Rely t w' → Q t x w')
    (h : m.Attended order Q w) (schedule : List ThreadId) :
    ∃ w', (m.follow order schedule).Attended order Q w' ∧ w.Grows w' ∧
      ∀ u, m.threads[u]? = none → w.Rely u w' := by
  induction schedule generalizing m w with
  | nil => exact ⟨w, h, .refl w, fun u _ => .refl u w⟩
  | cons t schedule ih =>
      obtain ⟨w₁, h₁, hg, hidle⟩ := h.step hQ t
      obtain ⟨w₂, h₂, hg₂, hothers⟩ := ih h₁
      refine ⟨w₂, h₂, hg.grows.trans hg₂, fun u hu => ?_⟩
      have hsize := m.size_step order t
      have hu' : (m.step order t).threads[u]? = none := by
        rw [Array.getElem?_eq_none_iff] at hu ⊢
        rwa [hsize]
      by_cases hut : u = t
      · subst hut
        exact hidle hu ▸ hothers u hu'
      · exact (hg.rely hut).trans (hothers u hu')

omit [BEq K] [BEq V] [EquivBEq K] in
/-- A machine that is done has a result for each of its threads. -/
theorem Finished.length {results : List α} (h : m.Finished results) :
    results.length = m.threads.size := by
  have hlength := congrArg List.length h
  rw [List.length_map, List.length_map, Array.length_toList] at hlength
  exact hlength.symm

omit [BEq V] [EquivBEq K] in
/-- It has none for a thread that it did not begin with. -/
theorem Finished.getElem?_eq_none {m : Machine K V α} {schedule : List ThreadId} {results : List α}
    (h : (m.follow order schedule).Finished results) {t : ThreadId} (ht : results[t]? = none) :
    m.threads[t]? = none := by
  rw [Array.getElem?_eq_none_iff, ← m.size_follow order schedule, ← h.length]
  exact List.getElem?_eq_none_iff.1 ht

omit [EquivBEq K] in
/-- What a thread that is done was attended to for. -/
theorem Attended.finished {m : Machine K V α} {Q : ThreadId → α → World K V → Prop}
    (h : m.Attended order Q w) {results : List α} (hdone : m.Finished results) {t : ThreadId}
    {x : α} (hx : results[t]? = some x) : Q t x w := by
  have hres : (m.threads.toList.map Program.result?)[t]? = some (some x) := by
    rw [hdone, List.getElem?_map, hx]
    rfl
  rw [List.getElem?_map, Array.getElem?_toList, Option.map_eq_some_iff] at hres
  obtain ⟨p, hp, hpx⟩ := hres
  obtain rfl := Program.eq_done_of_result? hpx
  exact h.threads t _ hp

omit [EquivBEq K] in
/-- To be outside the mutex lasts. -/
private theorem outside_lasts (t : ThreadId) (_ : α) (w w' : World K V)
    (h : w.shared.holder ≠ some t) (hr : w.Rely t w') : w'.shared.holder ≠ some t := fun hheld =>
  h (hr.along.holder.1 hheld)

omit [EquivBEq K] in
/-- The next step of a thread is one that the thread may take. -/
theorem Backed.step (h : m.Backed order w) (t : ThreadId) :
    ∃ w', (m.step order t).Backed order w' ∧ w.Guarantee t w' := by
  obtain ⟨w', h', hg, -⟩ := (backed_iff.1 h).step outside_lasts t
  exact ⟨w', backed_iff.2 h', hg⟩

omit [EquivBEq K] in
/-- Any schedule is backed by what becomes of the world. -/
theorem Backed.follow (h : m.Backed order w) (schedule : List ThreadId) :
    ∃ w', (m.follow order schedule).Backed order w' ∧ w.Grows w' := by
  obtain ⟨w', h', hg, -⟩ := (backed_iff.1 h).follow outside_lasts schedule
  exact ⟨w', backed_iff.2 h', hg⟩

/-- The machine of clients that share a map. -/
def ofClients (s : Shared K V) (clients : List (Client K V ε α)) :
    Machine K V (Except ε α × Trace K V) :=
  ⟨s, (clients.map fun c => c.program []).toArray⟩

omit [EquivBEq K] in
/-- Each thread has to carry out one of the clients. -/
theorem exists_client {s : Shared K V} {clients : List (Client K V ε α)} {t : ThreadId}
    {p : Program K V (Except ε α × Trace K V)} (hp : (ofClients s clients).threads[t]? = some p) :
    ∃ c ∈ clients, p = c.program [] := by
  rw [ofClients, List.getElem?_toArray] at hp
  obtain ⟨c, hc, hprogram⟩ := List.mem_map.1 (List.mem_of_getElem? hp)
  exact ⟨c, hc, hprogram.symm⟩

/-- Clients can start where every thread is idle. -/
theorem backed_ofClients {clients : List (Client K V ε α)} (honly : ∀ c ∈ clients, c.Only P)
    (hw : w.Sound) (hidle : ∀ t, ∃ made, w.Idle t P made) :
    (ofClients w.shared clients).Backed order w := by
  refine ⟨rfl, hw, fun t p hp => ?_⟩
  obtain ⟨c, hc, rfl⟩ := exists_client hp
  obtain ⟨made, hidle⟩ := hidle t
  have hstart : w.Idle t P (made ++ []) := by rwa [List.append_nil]
  exact Program.wp_mono (Program.wp_client hstart (honly c hc)) fun x w' h => h.holder

end Machine

end ConcurrentMap
