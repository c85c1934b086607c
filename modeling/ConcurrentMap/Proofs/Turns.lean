import ConcurrentMap.Proofs.Interference.Runs

/-!
# Threads in turn

`Machine.runThread` lets one thread run to its end while the others wait, and `Machine.inTurn` lets
several do so, one after the other. Some schedule does the same (`Machine.exists_follow_inTurn`).

A thread that is attended to comes to its end if the mutex is free or its own. So the threads of a
machine do so in any order in which the holder of the mutex comes first
(`Machine.Attended.exists_inTurn`), and whatever schedule a machine has followed, there is a way to
finish (`Machine.Attended.exists_finished`).
-/

namespace ConcurrentMap

variable {K V α : Type}

/-- After an attempt that found another slot the next one ends, unless somebody interferes. -/
theorem Update.attempt_of_attempt {u u' : Update V} {s s' : Shared K V}
    (h : u.attempt s = (.inr u', s')) :
    u'.attempt s' = (.inl (u'.settle s').1, (u'.settle s').2) := by
  simp only [attempt] at h
  split at h
  · simp at h
  · split at h
    · simp only [Prod.mk.injEq, Sum.inr.injEq] at h
      obtain ⟨rfl, rfl⟩ := h
      simp [attempt, settle]
    · simp at h

variable [BEq K]

namespace Machine

/-- Thread `t` runs to its end. -/
def runThread (order : Enumeration K) (m : Machine K V α) (t : ThreadId) :
    Option (Machine K V α) :=
  match m.threads[t]? with
  | none => some m
  | some p => (p.run order t m.shared).map fun r => ⟨r.2, m.threads.setIfInBounds t (.done r.1)⟩

/-- The threads run to their ends, one after the other. -/
def inTurn (order : Enumeration K) (m : Machine K V α) (turns : List ThreadId) :
    Option (Machine K V α) :=
  turns.foldlM (runThread order) m

variable {order : Enumeration K} {m m' : Machine K V α} {t : ThreadId} {p p' : Program K V α}
  {s s' : Shared K V}

/-! ## As schedules -/

theorem follow_append (order : Enumeration K) (m : Machine K V α) (turns turns' : List ThreadId) :
    m.follow order (turns ++ turns') = (m.follow order turns).follow order turns' :=
  List.foldl_append

theorem step_of_step (hp : m.threads[t]? = some p)
    (hstep : p.step order t m.shared = some (p', s')) :
    m.step order t = ⟨s', m.threads.setIfInBounds t p'⟩ := by
  simp [step, hp, hstep]

/-- A turn changes nothing, or it is a step of the thread's program. -/
theorem step_cases (order : Enumeration K) (m : Machine K V α) (t : ThreadId) :
    (m.step order t = m ∧
      ∀ p, m.threads[t]? = some p → p.step order t m.shared = none) ∨
    ∃ p p', m.threads[t]? = some p ∧
      p.step order t m.shared = some (p', (m.step order t).shared) ∧
      ∀ u, (m.step order t).threads[u]? = if u = t then some p' else m.threads[u]? := by
  cases hp : m.threads[t]? with
  | none => exact .inl ⟨by simp only [step, hp], fun p h => by cases h⟩
  | some p =>
      cases hstep : p.step order t m.shared with
      | none =>
          refine .inl ⟨by simp only [step, hp, hstep], fun q h => ?_⟩
          obtain rfl := Option.some.inj h
          exact hstep
      | some next =>
          obtain ⟨p', s'⟩ := next
          obtain ⟨ht, -⟩ := Array.getElem?_eq_some_iff.1 hp
          refine .inr ⟨p, p', rfl, ?_, fun u => ?_⟩
          · rw [step_of_step hp hstep, hstep]
          · rw [step_of_step hp hstep, Array.getElem?_setIfInBounds]
            by_cases hut : u = t
            · rw [if_pos hut.symm, if_pos hut, if_pos ht]
            · rw [if_neg (Ne.symm hut), if_neg hut]

omit [BEq K] in
/-- What is known of each thread is still known of the others after a step of thread `t`. -/
theorem threads_update {γ : Type} {f : ThreadId → γ} {z : γ} {P : Program K V α → γ → Prop}
    (h : ∀ u q, m.threads[u]? = some q → P q (f u)) (hz : P p' z)
    (hthreads : ∀ u, m'.threads[u]? = if u = t then some p' else m.threads[u]?) :
    ∀ u q, m'.threads[u]? = some q → P q (Function.update f t z u) := by
  intro u q hq
  rw [hthreads] at hq
  by_cases hut : u = t
  · rw [if_pos hut] at hq
    obtain rfl := Option.some.inj hq
    subst hut
    rwa [Function.update_self]
  · rw [if_neg hut] at hq
    rw [Function.update_of_ne hut]
    exact h u q hq

/-- A thread that has taken a step takes those that are left. -/
private theorem exists_follow_of_step (hp : m.threads[t]? = some p)
    (hstep : p.step order t m.shared = some (p', s')) {x : α} {s'' : Shared K V}
    (hrest : ∀ m' : Machine K V α, m'.threads[t]? = some p' → m'.shared = s' →
      ∃ turns, m'.follow order turns = ⟨s'', m'.threads.setIfInBounds t (.done x)⟩) :
    ∃ turns, m.follow order turns = ⟨s'', m.threads.setIfInBounds t (.done x)⟩ := by
  obtain ⟨ht, -⟩ := Array.getElem?_eq_some_iff.1 hp
  obtain ⟨turns, hturns⟩ := hrest ⟨s', m.threads.setIfInBounds t p'⟩
    (Array.getElem?_setIfInBounds_self_of_lt ht) rfl
  refine ⟨t :: turns, ?_⟩
  rw [Array.setIfInBounds_setIfInBounds, ← step_of_step hp hstep] at hturns
  exact hturns

/-- A thread that runs to its end takes its steps without a pause. -/
theorem exists_follow_run {x : α} (hp : m.threads[t]? = some p)
    (hrun : p.run order t m.shared = some (x, s')) :
    ∃ turns, m.follow order turns = ⟨s', m.threads.setIfInBounds t (.done x)⟩ := by
  induction p generalizing m with
  | done y =>
      obtain ⟨rfl, rfl⟩ : y = x ∧ m.shared = s' := by simpa using hrun
      refine ⟨[], ?_⟩
      have hsame : m.threads.setIfInBounds t (.done y) = m.threads := by
        refine Array.ext_getElem? fun i => ?_
        rw [Array.getElem?_setIfInBounds]
        split
        · next hi =>
            subst hi
            rw [hp, if_pos (Array.getElem?_eq_some_iff.1 hp).1]
        · rfl
      rw [hsame]
      rfl
  | act a next ih =>
      obtain ⟨r, hr, hrun⟩ := Option.bind_eq_some_iff.1 hrun
      have hstep : (Program.act a next).step order t m.shared = some (next r.1, r.2) := by
        simp [Program.step, hr]
      exact exists_follow_of_step hp hstep fun m' hp' hs => ih r.1 hp' (hs ▸ hrun)
  | retry u next ih =>
      rw [Program.run_retry] at hrun
      have hsettle := u.settle_eq_of_attempt m.shared
      cases hattempt : u.attempt m.shared with
      | mk outcome s₁ =>
        rw [hattempt] at hsettle
        cases outcome with
        | inl o =>
            have hstep : (Program.retry u next).step order t m.shared = some (next o, s₁) := by
              simp [Program.step, hattempt]
            rw [hsettle] at hrun
            exact exists_follow_of_step hp hstep fun m' hp' hs => ih o hp' (hs ▸ hrun)
        | inr u' =>
            -- the first attempt only looks, and the second one ends the exchange
            have hstep : (Program.retry u next).step order t m.shared =
                some (.retry u' next, s₁) := by
              simp [Program.step, hattempt]
            have hstep' : (Program.retry u' next).step order t s₁ =
                some (next (u'.settle s₁).1, (u'.settle s₁).2) := by
              simp [Program.step, Update.attempt_of_attempt hattempt]
            rw [hsettle] at hrun
            refine exists_follow_of_step hp hstep fun m₁ hp₁ hs₁ => ?_
            obtain rfl := hs₁
            exact exists_follow_of_step hp₁ hstep' fun m' hp' hs => ih _ hp' (hs ▸ hrun)

/-- To let threads run in turn is a schedule like others. -/
theorem exists_follow_inTurn {turns : List ThreadId} (h : m.inTurn order turns = some m') :
    ∃ schedule, m.follow order schedule = m' := by
  induction turns generalizing m with
  | nil => exact ⟨[], Option.some.inj h⟩
  | cons t turns ih =>
      obtain ⟨m₁, hrun, hrest⟩ := Option.bind_eq_some_iff.1 h
      obtain ⟨schedule, hschedule⟩ := ih hrest
      unfold runThread at hrun
      split at hrun
      · obtain rfl := Option.some.inj hrun
        exact ⟨schedule, hschedule⟩
      · next p hp =>
          obtain ⟨⟨x, s'⟩, hends, rfl⟩ := Option.map_eq_some_iff.1 hrun
          obtain ⟨first, hfirst⟩ := exists_follow_run hp hends
          refine ⟨first ++ schedule, ?_⟩
          rw [follow_append, hfirst, hschedule]

omit [BEq K] in
/-- If every thread is done, there are results. -/
theorem exists_finished_of_isSome
    (h : ∀ p ∈ m.threads.toList, p.result?.isSome = true) : ∃ results, m.Finished results := by
  refine ⟨m.threads.toList.filterMap Program.result?, ?_⟩
  rw [Finished, List.map_filterMap]
  generalize m.threads.toList = threads at h
  induction threads with
  | nil => rfl
  | cons p threads ih =>
      obtain ⟨x, hx⟩ := Option.isSome_iff_exists.1 (h p List.mem_cons_self)
      simpa [hx] using ih fun q hq => h q (List.mem_cons_of_mem p hq)

/-! ## What the threads come to -/

variable [BEq V] {Q : ThreadId → α → World K V → Prop} {w w' : World K V} {turns : List ThreadId}

/-- The machine was `m` in world `w`. In world `w'` it is `m'`, the mutex is free, and the threads
`turns` are done. -/
structure Turned (order : Enumeration K) (Q : ThreadId → α → World K V → Prop)
    (m : Machine K V α) (w : World K V) (turns : List ThreadId) (m' : Machine K V α)
    (w' : World K V) : Prop where
  attended : m'.Attended order Q w'
  free : w'.shared.holder = none
  size : m'.threads.size = m.threads.size
  others : ∀ u, m.threads.size ≤ u → w.Rely u w'
  done : ∀ t, t ∈ turns ∨ (∃ x, m.threads[t]? = some (.done x)) →
    ∃ x, m'.threads[t]? = some (.done x)

/-- A thread that is attended to comes to its end, if the mutex is free or its own. -/
theorem Attended.exists_runThread (hQ : ∀ t x w w', Q t x w → w.Rely t w' → Q t x w')
    (hout : ∀ t x w, Q t x w → w.shared.holder ≠ some t) (h : m.Attended order Q w)
    (ht : t < m.threads.size) (hholder : w.shared.holder = none ∨ w.shared.holder = some t) :
    ∃ m' w', m.runThread order t = some m' ∧ Turned order Q m w [t] m' w' := by
  obtain ⟨p, hp⟩ : ∃ p, m.threads[t]? = some p := ⟨_, Array.getElem?_eq_getElem ht⟩
  obtain ⟨x, w', hrun, hw', hx, hheld, hrely⟩ := Program.wp_run (h.threads t p hp) h.sound hholder
  have hset : ∀ u, (m.threads.setIfInBounds t (.done x))[u]? =
      if t = u then some (.done x) else m.threads[u]? := by
    intro u
    rw [Array.getElem?_setIfInBounds, if_pos ht]
  refine ⟨⟨w'.shared, m.threads.setIfInBounds t (.done x)⟩, w', ?_, ⟨rfl, hw', fun u q hq => ?_⟩,
    hheld.resolve_right (hout t x w' hx), Array.size_setIfInBounds, fun u hu => ?_, fun u hu => ?_⟩
  · simp [runThread, hp, ← h.shared, hrun]
  · rw [hset] at hq
    split at hq
    · next htu =>
        subst htu
        obtain rfl := Option.some.inj hq
        exact hx
    · next htu => exact Program.wp_rely (h.threads u q hq) (hrely u (Ne.symm htu)) (hQ u)
  · exact hrely u (Nat.ne_of_gt (Nat.lt_of_lt_of_le ht hu))
  · show ∃ y, (m.threads.setIfInBounds t (.done x))[u]? = some (.done y)
    rw [hset]
    split
    · exact ⟨x, rfl⟩
    · next htu =>
        rcases hu with hu | hu
        · exact absurd (List.mem_singleton.1 hu).symm htu
        · exact hu

/-- So do several threads in turn, if the holder of the mutex comes first. -/
theorem Attended.exists_inTurn (hQ : ∀ t x w w', Q t x w → w.Rely t w' → Q t x w')
    (hout : ∀ t x w, Q t x w → w.shared.holder ≠ some t) (h : m.Attended order Q w)
    (hturns : ∀ t ∈ turns, t < m.threads.size)
    (hholder : ∀ t, w.shared.holder = some t → turns.head? = some t) :
    ∃ m' w', m.inTurn order turns = some m' ∧ Turned order Q m w turns m' w' := by
  induction turns generalizing m w with
  | nil =>
      refine ⟨m, w, rfl, h, ?_, rfl, fun u _ => .refl u w, fun t ht => ?_⟩
      · exact Option.eq_none_iff_forall_ne_some.2 fun t ht => by simpa using hholder t ht
      · exact ht.resolve_left List.not_mem_nil
  | cons t turns ih =>
      have hfirst : w.shared.holder = none ∨ w.shared.holder = some t := by
        cases hheld : w.shared.holder with
        | none => exact .inl rfl
        | some u => exact .inr (hholder u hheld).symm
      obtain ⟨m₁, w₁, hrun, h₁⟩ :=
        h.exists_runThread hQ hout (hturns t List.mem_cons_self) hfirst
      obtain ⟨m₂, w₂, hrest, h₂⟩ := ih h₁.attended
        (fun u hu => by rw [h₁.size]; exact hturns u (List.mem_cons_of_mem t hu))
        (fun u hu => by simp [h₁.free] at hu)
      refine ⟨m₂, w₂, ?_, h₂.attended, h₂.free, h₂.size.trans h₁.size, fun u hu => ?_,
        fun u hu => h₂.done u ?_⟩
      · rw [inTurn, List.foldlM_cons, hrun]
        exact hrest
      · exact (h₁.others u hu).trans (h₂.others u (by rwa [h₁.size]))
      · rcases hu with hu | hu
        · rcases List.mem_cons.1 hu with rfl | hu
          · exact .inr (h₁.done u (.inl (List.mem_singleton_self u)))
          · exact .inl hu
        · exact .inr (h₁.done u (.inr hu))

omit [BEq K] [BEq V] in
/-- If all threads have had their turns, the machine is done. -/
theorem exists_finished_of_done (h : ∀ t < m.threads.size, ∃ x, m.threads[t]? = some (.done x)) :
    ∃ results, m.Finished results := by
  refine exists_finished_of_isSome fun p hp => ?_
  obtain ⟨t, ht⟩ := List.getElem?_of_mem hp
  rw [Array.getElem?_toList] at ht
  obtain ⟨x, hx⟩ := h t (Array.getElem?_eq_some_iff.1 ht).1
  obtain rfl : p = .done x := Option.some.inj (ht.symm.trans hx)
  rfl

/-- Threads that are attended to can be carried to their ends. -/
theorem Attended.exists_finished (hQ : ∀ t x w w', Q t x w → w.Rely t w' → Q t x w')
    (hout : ∀ t x w, Q t x w → w.shared.holder ≠ some t) (h : m.Attended order Q w)
    (hholder : ∀ t, w.shared.holder = some t → t < m.threads.size) :
    ∃ schedule results, (m.follow order schedule).Finished results := by
  have hturns : ∀ t ∈ w.shared.holder.toList ++ List.range m.threads.size, t < m.threads.size := by
    intro t ht
    rcases List.mem_append.1 ht with ht | ht
    · exact hholder t (Option.mem_toList.1 ht)
    · exact List.mem_range.1 ht
  obtain ⟨m', w', hrun, hturned⟩ := h.exists_inTurn hQ hout hturns fun t ht => by simp [ht]
  obtain ⟨schedule, rfl⟩ := exists_follow_inTurn hrun
  refine ⟨schedule, exists_finished_of_done fun t ht => hturned.done t (.inl ?_)⟩
  rw [hturned.size] at ht
  exact List.mem_append_right _ (List.mem_range.2 ht)

end Machine

end ConcurrentMap
