import ConcurrentMap.Proofs.Thrift
import ConcurrentMap.Proofs.Tombstones
import ConcurrentMap.Proofs.Turns
import Mathlib.Data.List.Basic
import Mathlib.Logic.Function.Basic

/-!
# What is put into the cells

`Machine.installs` lists the slots that the threads of a machine put into cells, in the order of the
steps. A cell holds the last slot that was put into it (`Machine.slot_follow`). When clients share a
map that starts out empty, no stamp is in the list twice (`Machine.nodup_installs`): no slot is put
into a cell again, nor into another one. So the slot that a cell holds has the stamp of an earlier
one only if nothing was put into the cell in between (`Machine.stamp_eq_iff`).
-/

namespace ConcurrentMap

variable {K V ε α : Type}

/-- A slot that a thread put into a cell. -/
structure Install (V : Type) where
  thread : ThreadId
  cell : CellId
  slot : Slot V

/-- The last slot that was put into the cell, if it held `x` before. -/
def lastInto (c : CellId) (x : Slot V) (es : List (Install V)) : Slot V :=
  es.foldl (fun y e => if e.cell = c then e.slot else y) x

section LastInto

variable {c : CellId} {x : Slot V} {es : List (Install V)}

theorem lastInto_append (c : CellId) (x : Slot V) (es es' : List (Install V)) :
    lastInto c x (es ++ es') = lastInto c (lastInto c x es) es' := List.foldl_append

/-- A cell into which nothing is put holds what it held. -/
theorem lastInto_of_forall (h : ∀ e ∈ es, e.cell ≠ c) : lastInto c x es = x := by
  induction es with
  | nil => rfl
  | cons e es ih =>
      rw [lastInto, List.foldl_cons, if_neg (h e List.mem_cons_self)]
      exact ih fun e' he' => h e' (List.mem_cons_of_mem e he')

/-- The cell holds what it held before, or one of the slots that were put into it. -/
theorem lastInto_cases (c : CellId) (x : Slot V) (es : List (Install V)) :
    (∀ e ∈ es, e.cell ≠ c) ∨ ∃ e ∈ es, e.cell = c ∧ lastInto c x es = e.slot := by
  induction es generalizing x with
  | nil => exact .inl fun e he => absurd he List.not_mem_nil
  | cons e es ih =>
      rcases ih (if e.cell = c then e.slot else x) with hnone | ⟨e', he', hcell, hlast⟩
      · by_cases hc : e.cell = c
        · refine .inr ⟨e, List.mem_cons_self, hc, ?_⟩
          rw [lastInto, List.foldl_cons, if_pos hc]
          exact lastInto_of_forall hnone
        · left
          intro e' he'
          rcases List.mem_cons.1 he' with rfl | he'
          · exact hc
          · exact hnone e' he'
      · exact .inr ⟨e', List.mem_cons_of_mem e he', hcell, hlast⟩

end LastInto

/-! ## One step -/

/-- What the action puts into which cell. A name that no cell has cannot be written. -/
def Action.installs (t : ThreadId) (s : Shared K V) : Action K V → List (Install V)
  | .newCell x => [⟨t, s.cells.size, x⟩]
  | .exchange c x => if c < s.cells.size then [⟨t, c, x⟩] else []
  | .compareExchange c seen x =>
    if (s.slot c).stamp = seen.stamp ∧ c < s.cells.size then [⟨t, c, x⟩] else []
  | _ => []

/-- What the next attempt puts into the cell. -/
def Update.installs (t : ThreadId) (s : Shared K V) (u : Update V) : List (Install V) :=
  (Action.compareExchange u.cell u.seen u.candidate : Action K V).installs t s

/-- What the next step of the program puts into which cell. -/
def Program.installs (t : ThreadId) (s : Shared K V) : Program K V α → List (Install V)
  | .done _ => []
  | .act a _ => a.installs t s
  | .retry u _ => u.installs t s

/-- What an exchange leaves in any cell is the last slot put there. -/
theorem Shared.slot_setSlot_eq_lastInto (s : Shared K V) (t : ThreadId) (c d : CellId)
    (x : Slot V) :
    (s.setSlot c x).slot d =
      lastInto d (s.slot d) (if c < s.cells.size then [⟨t, c, x⟩] else []) := by
  rw [slot_setSlot]
  by_cases hc : c < s.cells.size
  · simp only [hc, and_true, if_true, lastInto, List.foldl_cons, List.foldl_nil]
  · simp only [hc, and_false, if_false, lastInto, List.foldl_nil]

/-- What a compared exchange leaves in any cell is the last slot put there. -/
theorem Shared.slot_compareExchange (s : Shared K V) (t : ThreadId) (c d : CellId)
    (seen x : Slot V) :
    (s.compareExchange c seen x).2.slot d = lastInto d (s.slot d)
      ((Action.compareExchange c seen x : Action K V).installs t s) := by
  unfold compareExchange Action.installs
  by_cases hstamp : (s.slot c).stamp = seen.stamp
  · simp only [hstamp, true_and, if_true]
    exact s.slot_setSlot_eq_lastInto t c d x
  · simp only [hstamp, false_and, if_false]
    rfl

variable {t : ThreadId} {s s' : Shared K V} {own own' : Set Stamp} {p p' : Program K V α}
  {Q : α → Set Stamp → Prop}

/-- A step of a thread puts in what this thread puts in. -/
theorem Program.thread_of_mem_installs {e : Install V} (he : e ∈ p.installs t s) : e.thread = t := by
  have hone : ∀ {c : CellId} {x : Slot V} {q : Prop} [Decidable q],
      e ∈ (if q then [⟨t, c, x⟩] else [] : List (Install V)) → e.thread = t := by
    intro c x q _ he
    split at he
    · exact List.mem_singleton.1 he ▸ rfl
    · exact absurd he List.not_mem_nil
  cases p with
  | done x => exact absurd he List.not_mem_nil
  | retry u next => exact hone he
  | act a next =>
      cases a with
      | newCell x => exact List.mem_singleton.1 he ▸ rfl
      | exchange d x | compareExchange d seen x => exact hone he
      | _ => exact absurd he List.not_mem_nil

variable [BEq K] {order : Enumeration K}

/-- An action leaves in each cell the last slot that it put there. -/
theorem Action.slot_perform {a : Action K V} {r : a.Response × Shared K V}
    (hr : a.perform order t s = some r) (d : CellId) :
    r.2.slot d = lastInto d (s.slot d) (a.installs t s) := by
  cases a with
  | acquire =>
      obtain ⟨-, rfl⟩ := of_perform_acquire hr
      rfl
  | newCell x =>
      obtain rfl := Option.some.inj hr
      simp only [Shared.slot_addCell, installs, lastInto, List.foldl_cons, List.foldl_nil,
        eq_comm (a := d)]
  | exchange c x =>
      obtain rfl := Option.some.inj hr
      exact s.slot_setSlot_eq_lastInto t c d x
  | compareExchange c seen x =>
      obtain rfl := Option.some.inj hr
      exact s.slot_compareExchange t c d seen x
  | _ =>
      obtain rfl := Option.some.inj hr
      rfl

/-- A step leaves in each cell the last slot that it put there. -/
theorem Program.slot_step (h : p.step order t s = some (p', s')) (d : CellId) :
    s'.slot d = lastInto d (s.slot d) (p.installs t s) := by
  cases p with
  | done x => cases h
  | act a next =>
      obtain ⟨r, hr, rfl, rfl⟩ := of_step_act h
      exact Action.slot_perform hr d
  | retry u next =>
      have hattempt := s.slot_compareExchange t u.cell d u.seen u.candidate
      rcases step_retry_cases h with ⟨hstamp, -, rfl⟩ | ⟨hstamp, rfl, -⟩
      · rwa [Shared.compareExchange, if_pos hstamp] at hattempt
      · rwa [Shared.compareExchange, if_neg hstamp] at hattempt

/-- What a step makes of the thread's own stamps: it may draw one, and it may spend one. -/
structure Outlay (s : Shared K V) (own : Set Stamp) (es : List (Install V)) (s' : Shared K V)
    (own' : Set Stamp) : Prop where
  clock : s.clock ≤ s'.clock
  drawn : ∀ r ∈ own', r ∈ own ∨ s.clock ≤ r ∧ r < s'.clock
  spent : ∀ e ∈ es, e.slot.stamp ∈ own ∧ e.slot.stamp ∉ own'
  once : (es.map (·.slot.stamp)).Nodup

namespace Outlay

omit [BEq K] in
/-- Nothing is put into a cell, and no stamp is drawn. -/
theorem none (hclock : s'.clock = s.clock) (hown : own' ⊆ own) : Outlay s own [] s' own' where
  clock := Nat.le_of_eq hclock.symm
  drawn _ hr := .inl (hown hr)
  spent _ he := absurd he List.not_mem_nil
  once := .nil

omit [BEq K] in
/-- An own slot is put into a cell, if there is such a cell. -/
theorem spend (t : ThreadId) {x : Slot V} (hclock : s'.clock = s.clock) (hx : x.stamp ∈ own)
    (c : CellId) {es : List (Install V)} (hes : es = [⟨t, c, x⟩] ∨ es = []) :
    Outlay s own es s' (own \ {x.stamp}) := by
  rcases hes with rfl | rfl
  · refine ⟨Nat.le_of_eq hclock.symm, fun r hr => .inl hr.1, fun e he => ?_,
      List.pairwise_singleton _ _⟩
    obtain rfl := List.mem_singleton.1 he
    exact ⟨hx, fun hmem => hmem.2 rfl⟩
  · exact none hclock Set.sdiff_subset

end Outlay

/-- An action draws new stamps only, and spends those of its thread. -/
theorem Action.outlay (order : Enumeration K) {a : Action K V} {r : a.Response × Shared K V}
    (ha : ∀ x, a.slot? = some x → x.stamp ∈ own) (hr : a.perform order t s = some r) :
    Outlay s own (a.installs t s) r.2 (a.purse own r.1) := by
  cases a with
  | acquire =>
      obtain ⟨-, rfl⟩ := of_perform_acquire hr
      exact .none rfl subset_rfl
  | drawStamp =>
      obtain rfl := Option.some.inj hr
      refine ⟨Nat.le_succ s.clock, fun r hr => ?_, fun e he => absurd he List.not_mem_nil, .nil⟩
      -- The stamp that is drawn is the one that the clock shows.
      rcases Set.mem_insert_iff.1 hr with rfl | hr
      · exact .inr ⟨Nat.le_refl _, Nat.lt_succ_self _⟩
      · exact .inl hr
  | newCell x =>
      obtain rfl := Option.some.inj hr
      show Outlay s own [⟨t, s.cells.size, x⟩] (s.addCell x).2 (own \ {x.stamp})
      refine .spend t ?_ (ha x rfl) s.cells.size (.inl rfl)
      rfl
  | exchange c x =>
      obtain rfl := Option.some.inj hr
      show Outlay s own (if c < s.cells.size then [⟨t, c, x⟩] else []) (s.setSlot c x)
        (own \ {x.stamp})
      refine .spend t ?_ (ha x rfl) c ?_
      · rfl
      · split
        · exact .inl rfl
        · exact .inr rfl
  | compareExchange c seen x =>
      obtain rfl := Option.some.inj hr
      show Outlay s own _ (s.compareExchange c seen x).2
        (if (s.compareExchange c seen x).1 then own \ {x.stamp} else own)
      unfold Shared.compareExchange installs
      -- The exchange succeeds and spends its stamp, or fails and keeps it.
      by_cases hstamp : (s.slot c).stamp = seen.stamp
      · simp only [hstamp, true_and, if_true]
        refine .spend t ?_ (ha x rfl) c ?_
        · rfl
        · split
          · exact .inl rfl
          · exact .inr rfl
      · simp only [hstamp, false_and, if_false]
        exact .none rfl subset_rfl
  | _ =>
      obtain rfl := Option.some.inj hr
      exact .none rfl subset_rfl

/-- A step of a program that spends its own stamps only. A stamp that is drawn is new, because the
stamps that the thread has were drawn before. -/
theorem Program.affords_step (h : p.affords Q own) (hown : ∀ r ∈ own, r < s.clock)
    (hstep : p.step order t s = some (p', s')) :
    ∃ own', p'.affords Q own' ∧ Outlay s own (p.installs t s) s' own' := by
  cases p with
  | done x => cases hstep
  | act a next =>
      obtain ⟨r, hr, rfl, rfl⟩ := of_step_act hstep
      -- The stamps that the thread has were drawn before, so the one that is drawn now is none of
      -- them.
      refine ⟨a.purse own r.1, h.2 r.1 ?_, Action.outlay order h.1 hr⟩
      cases a with
      | drawStamp =>
          obtain rfl := Option.some.inj hr
          exact fun hmem => Nat.lt_irrefl _ (hown _ hmem)
      | _ => trivial
  | retry u next =>
      have hattempt : Outlay s own (u.installs t s)
          (s.compareExchange u.cell u.seen u.candidate).2
          (Action.purse own (.compareExchange u.cell u.seen u.candidate : Action K V)
            (s.compareExchange u.cell u.seen u.candidate).1) :=
        Action.outlay order (fun x hx => Option.some.inj hx ▸ h.1) rfl
      -- The attempt succeeds, or it fails and the program goes on with another attempt or without.
      rcases step_retry_cases hstep with ⟨hstamp, rfl, rfl⟩ | ⟨hstamp, rfl, hgoes⟩
      · simp only [Shared.compareExchange, if_pos hstamp] at hattempt
        exact ⟨_, h.2 (.installed u.seen), hattempt⟩
      · simp only [Shared.compareExchange, if_neg hstamp] at hattempt
        refine ⟨own, ?_, hattempt⟩
        rcases hgoes with ⟨-, rfl⟩ | ⟨-, rfl⟩
        · exact h
        · exact h.2 (.refused _)

/-- A thread that cannot take its step puts nothing into a cell. -/
theorem Program.installs_of_step_eq_none (h : p.step order t s = none) : p.installs t s = [] := by
  cases p with
  | done x => rfl
  | act a next =>
      obtain ⟨rfl, -⟩ := (Action.perform_eq_none_iff order t s a).1 (Option.map_eq_none_iff.1 h)
      rfl
  | retry u next =>
      simp only [step] at h
      split at h <;> cases h

/-! ## Runs -/

namespace Machine

variable {m : Machine K V α} {es : List (Install V)} {purse : ThreadId → Set Stamp}

/-- What thread `t` puts into which cell if the next turn is its own. -/
def installed (m : Machine K V α) (t : ThreadId) : List (Install V) :=
  match m.threads[t]? with
  | none => []
  | some p => p.installs t m.shared

/-- What is put into the cells in the steps of a schedule. -/
def installs (order : Enumeration K) (m : Machine K V α) : List ThreadId → List (Install V)
  | [] => []
  | t :: σ => m.installed t ++ (m.step order t).installs order σ

omit [BEq K] in
/-- In a turn of a thread this thread alone puts something into a cell. -/
theorem thread_of_mem_installed {e : Install V} {t : ThreadId} (he : e ∈ m.installed t) :
    e.thread = t := by
  unfold installed at he
  split at he
  · exact absurd he List.not_mem_nil
  · exact Program.thread_of_mem_installs he

/-- What is put in during a schedule is what is put in during its parts. -/
theorem installs_append (order : Enumeration K) (m : Machine K V α) (σ τ : List ThreadId) :
    m.installs order (σ ++ τ) = m.installs order σ ++ (m.follow order σ).installs order τ := by
  induction σ generalizing m with
  | nil => rfl
  | cons t σ ih =>
      rw [List.cons_append, installs, ih, installs, List.append_assoc]
      rfl

/-- The last turn of a schedule comes last in what is put in. -/
theorem installs_concat (order : Enumeration K) (m : Machine K V α) (σ : List ThreadId)
    (t : ThreadId) :
    m.installs order (σ ++ [t]) = m.installs order σ ++ (m.follow order σ).installed t := by
  rw [installs_append, installs, installs, List.append_nil]

/-- A turn leaves in each cell the last slot that it put there. -/
theorem slot_step (order : Enumeration K) (m : Machine K V α) (t : ThreadId) (c : CellId) :
    (m.step order t).shared.slot c = lastInto c (m.shared.slot c) (m.installed t) := by
  unfold installed
  rcases m.step_cases order t with ⟨hsame, hnone⟩ | ⟨p, p', hp, hstep, -⟩
  · rw [hsame]
    cases hp : m.threads[t]? with
    | none => rfl
    | some p =>
        show _ = lastInto c _ (p.installs t m.shared)
        rw [Program.installs_of_step_eq_none (hnone p hp)]
        rfl
  · rw [hp]
    exact Program.slot_step hstep c

/-- A cell holds the last slot that was put into it. -/
theorem slot_follow (order : Enumeration K) (m : Machine K V α) (σ : List ThreadId) (c : CellId) :
    (m.sharedAt order σ).slot c = lastInto c (m.shared.slot c) (m.installs order σ) := by
  induction σ generalizing m with
  | nil => rfl
  | cons t σ ih =>
      rw [installs, lastInto_append, ← m.slot_step order]
      exact ih (m.step order t)

/-- The threads have stamps of their own, which were drawn before, and spend no others. The slots
`es` were put into cells, each of them once, and their stamps are spent. -/
structure Thrifty (m : Machine K V α) (es : List (Install V)) (purse : ThreadId → Set Stamp) :
    Prop where
  clock : 0 < m.shared.clock
  threads : ∀ t (p : Program K V α), m.threads[t]? = some p →
    p.affords (fun _ _ => True) (purse t)
  drawn : ∀ t, ∀ r ∈ purse t, 0 < r ∧ r < m.shared.clock
  apart : ∀ t u r, r ∈ purse t → r ∈ purse u → t = u
  spent : ∀ e ∈ es, 0 < e.slot.stamp ∧ e.slot.stamp < m.shared.clock ∧
    ∀ t, e.slot.stamp ∉ purse t
  once : (es.map (·.slot.stamp)).Nodup

variable {s' : Shared K V} {t : ThreadId} {own' : Set Stamp} {new : List (Install V)}

omit [BEq K] in
/-- What a thread has after a step of thread `t`, it had before, or it drew it just now. -/
theorem mem_purse (h : Outlay m.shared (purse t) new s' own') {u : ThreadId} {r : Stamp}
    (hr : r ∈ Function.update purse t own' u) :
    r ∈ purse u ∨ u = t ∧ m.shared.clock ≤ r ∧ r < s'.clock := by
  by_cases hut : u = t
  · subst hut
    rw [Function.update_self] at hr
    exact (h.drawn r hr).imp_right fun hnew => ⟨rfl, hnew⟩
  · rw [Function.update_of_ne hut] at hr
    exact .inl hr

omit [BEq K] in
/-- After a step no two threads have the same stamp. -/
theorem Thrifty.apart_outlay (h : m.Thrifty es purse) (hout : Outlay m.shared (purse t) new s' own')
    {u v : ThreadId} {r : Stamp} (hu : r ∈ Function.update purse t own' u)
    (hv : r ∈ Function.update purse t own' v) : u = v := by
  rcases mem_purse hout hu with hold | ⟨hut, hle, -⟩ <;>
    rcases mem_purse hout hv with hold' | ⟨hvt, hle', -⟩
  · exact h.apart u v r hold hold'
  · exact absurd (h.drawn u r hold).2 (Nat.not_lt.2 hle')
  · exact absurd (h.drawn v r hold').2 (Nat.not_lt.2 hle)
  · exact hut.trans hvt.symm

omit [BEq K] in
/-- After a step nobody has a stamp that was spent, in this step or before. -/
theorem Thrifty.spent_outlay (h : m.Thrifty es purse) (hout : Outlay m.shared (purse t) new s' own')
    {e : Install V} (he : e ∈ es ++ new) : 0 < e.slot.stamp ∧ e.slot.stamp < s'.clock ∧
      ∀ u, e.slot.stamp ∉ Function.update purse t own' u := by
  rcases List.mem_append.1 he with he | he
  · obtain ⟨hpos, hlt, hnobody⟩ := h.spent e he
    refine ⟨hpos, Nat.lt_of_lt_of_le hlt hout.clock, fun u hu => ?_⟩
    rcases mem_purse hout hu with hu | ⟨-, hle, -⟩
    · exact hnobody u hu
    · exact Nat.not_lt.2 hle hlt
  · obtain ⟨hmine, hgone⟩ := hout.spent e he
    obtain ⟨hpos, hlt⟩ := h.drawn t _ hmine
    refine ⟨hpos, Nat.lt_of_lt_of_le hlt hout.clock, fun u hu => ?_⟩
    by_cases hut : u = t
    · subst hut
      rw [Function.update_self] at hu
      exact hgone hu
    · rw [Function.update_of_ne hut] at hu
      exact hut (h.apart u t _ hu hmine)

omit [BEq K] in
/-- What is spent in a step was not spent before. -/
theorem Thrifty.once_outlay (h : m.Thrifty es purse)
    (hout : Outlay m.shared (purse t) new s' own') :
    ((es ++ new).map (·.slot.stamp)).Nodup := by
  rw [List.map_append]
  refine List.nodup_append.2 ⟨h.once, hout.once, ?_⟩
  intro r hr r' hr' hsame
  obtain ⟨e, he, rfl⟩ := List.mem_map.1 hr
  obtain ⟨e', he', rfl⟩ := List.mem_map.1 hr'
  exact (h.spent e he).2.2 t (hsame ▸ (hout.spent e' he').1)

/-- A step spends a stamp of its thread, which nobody has from then on. -/
theorem Thrifty.step (h : m.Thrifty es purse) (order : Enumeration K) (t : ThreadId) :
    ∃ purse', (m.step order t).Thrifty (es ++ m.installed t) purse' := by
  unfold installed
  rcases m.step_cases order t with ⟨hsame, hnone⟩ | ⟨p, p', hp, hstep, hthreads⟩
  -- The turn changes nothing: there is no such thread, or it is done or waits for the mutex.
  · rw [hsame]
    refine ⟨purse, ?_⟩
    cases hp : m.threads[t]? with
    | none => rwa [List.append_nil]
    | some p =>
        show m.Thrifty (es ++ p.installs t m.shared) purse
        rwa [Program.installs_of_step_eq_none (hnone p hp), List.append_nil]
  · rw [hp]
    -- The thread's own stamps change, and the others keep theirs.
    obtain ⟨own', hp', hout⟩ :=
      Program.affords_step (h.threads t p hp) (fun r hr => (h.drawn t r hr).2) hstep
    exact ⟨Function.update purse t own', {
      clock := Nat.lt_of_lt_of_le h.clock hout.clock
      threads :=
        threads_update (P := fun q own => q.affords (fun _ _ => True) own) h.threads hp' hthreads
      drawn := by
        intro u r hr
        rcases mem_purse hout hr with hr | ⟨-, hle, hlt⟩
        · exact ⟨(h.drawn u r hr).1, Nat.lt_of_lt_of_le (h.drawn u r hr).2 hout.clock⟩
        · exact ⟨Nat.lt_of_lt_of_le h.clock hle, hlt⟩
      apart := fun u v r hu hv => h.apart_outlay hout hu hv
      spent := fun e he => h.spent_outlay hout he
      once := h.once_outlay hout }⟩

/-- However long the schedule, each stamp is spent once. -/
theorem Thrifty.follow (h : m.Thrifty es purse) (order : Enumeration K) (σ : List ThreadId) :
    ∃ purse', (m.follow order σ).Thrifty (es ++ m.installs order σ) purse' := by
  induction σ generalizing m es purse with
  | nil => exact ⟨purse, by rwa [installs, List.append_nil]⟩
  | cons t σ ih =>
      obtain ⟨purse₁, h₁⟩ := h.step order t
      obtain ⟨purse₂, h₂⟩ := ih h₁
      rw [List.append_assoc] at h₂
      exact ⟨purse₂, h₂⟩

/-! ## Clients -/

variable [BEq V]

/-- Clients begin without stamps, and nothing is in a cell. -/
theorem thrifty_ofClients (clients : List (Client K V ε α)) :
    (ofClients (.initial : Shared K V) clients).Thrifty [] fun _ => ∅ where
  clock := Nat.zero_lt_one
  threads t p hp := by
    obtain ⟨c, -, rfl⟩ := exists_client hp
    have hfrugal := Client.program_composed Program.composes_frugal Map.supports_frugal c []
    exact Program.affords_mono (hfrugal ∅) fun _ _ _ => trivial
  drawn _ r hr := absurd hr (Set.notMem_empty r)
  apart _ _ r hr _ := absurd hr (Set.notMem_empty r)
  spent e he := absurd he List.not_mem_nil
  once := .nil

/-- In a run of clients, nothing is put into a cell twice, nor into two cells. -/
theorem nodup_installs (order : Enumeration K) (clients : List (Client K V ε α))
    (σ : List ThreadId) :
    (((ofClients .initial clients).installs order σ).map (·.slot.stamp)).Nodup := by
  obtain ⟨purse, h⟩ := (thrifty_ofClients clients).follow order σ
  exact h.once

/-- A cell holds a slot with the stamp of an earlier one only if nothing was put into it since. -/
theorem stamp_eq_iff (order : Enumeration K) (clients : List (Client K V ε α))
    (σ τ : List ThreadId) (c : CellId) :
    (((ofClients .initial clients).sharedAt order (σ ++ τ)).slot c).stamp =
        (((ofClients .initial clients).sharedAt order σ).slot c).stamp ↔
      ∀ e ∈ ((ofClients .initial clients).follow order σ).installs order τ, e.cell ≠ c := by
  obtain ⟨purse, h⟩ := (thrifty_ofClients clients).follow order (σ ++ τ)
  rw [List.nil_append, installs_append] at h
  have hlast : ((ofClients .initial clients).sharedAt order (σ ++ τ)).slot c =
      lastInto c (((ofClients .initial clients).sharedAt order σ).slot c)
        (((ofClients .initial clients).follow order σ).installs order τ) := by
    rw [sharedAt_append]
    exact slot_follow order _ τ c
  constructor
  · intro hsame
    rcases lastInto_cases c _ _ with hnone | ⟨e, he, -, hslot⟩
    · exact hnone
    · rw [hlast, hslot] at hsame
      -- the slot before was there from the beginning, or was put there before
      have hbefore := slot_follow order (ofClients .initial clients) σ c
      rcases lastInto_cases c _ _ with hnone | ⟨e', he', -, hslot'⟩
      · rw [lastInto_of_forall hnone] at hbefore
        rw [hbefore] at hsame
        have hpos := (h.spent e (List.mem_append_right _ he)).1
        rw [hsame] at hpos
        exact absurd hpos (Nat.lt_irrefl 0)
      · rw [hslot'] at hbefore
        rw [hbefore] at hsame
        have honce := h.once
        rw [List.map_append] at honce
        exact absurd hsame.symm ((List.nodup_append.1 honce).2.2 _ (List.mem_map_of_mem he') _
          (List.mem_map_of_mem he))
  · intro hnone
    rw [hlast, lastInto_of_forall hnone]

end Machine

end ConcurrentMap
