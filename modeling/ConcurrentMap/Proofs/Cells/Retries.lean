import ConcurrentMap.Proofs.Cells.Access
import ConcurrentMap.Proofs.Parts
import Mathlib.Data.List.Induction

/-!
# How often an operation on a cell retries

A call of an operation on a cell looks at the cell, and tries to exchange the slot that it saw
there. `Program.minds` says that each attempt is for the slot that was seen last, and that there is
none after one that succeeded; `Program.within` bounds the steps that are not failed attempts. From
one step (`Program.minds_step`) follows what a whole call does among other threads, by induction on
the schedule: an attempt that fails is due to another thread, which has put a slot into the cell
since it was looked at (`Machine.LockFree`).

That an attempt succeeds only if nothing at all was put into the cell rests on
`Machine.stamp_eq_iff`.
-/

namespace ConcurrentMap

variable {K V ε α β : Type}

/-! ## Looking and trying -/

namespace Program

/-- The next step learns which slot the cell holds, or whether it is the one that was seen. -/
def Looks (c : CellId) : Program K V α → Prop
  | .act (.readCell d) _ => d = c
  | .act (.compareExchange d _ _) _ => d = c
  | .retry u _ => u.cell = c
  | _ => False

/-- The cell that the next step tries to write, and the slot that it must still hold. -/
def attempt? : Program K V α → Option (CellId × Slot V)
  | .act (.compareExchange c seen _) _ => some (c, seen)
  | .retry u _ => some (u.cell, u.seen)
  | _ => none

/-- The attempt in the next step, if there is one. -/
def attempts (p : Program K V α) (_ : Shared K V) : List (CellId × Slot V) := p.attempt?.toList

/-- The attempt in the next step, if there is one and it fails. -/
def failures (p : Program K V α) (s : Shared K V) : List (CellId × Slot V) :=
  p.attempt?.toList.filter fun a => (s.slot a.1).stamp ≠ a.2.stamp

end Program

/-- What a call knows about its cell. -/
inductive Outlook (V : Type) where
  /-- It has not looked yet. -/
  | fresh
  /-- It saw this slot last. -/
  | sees (x : Slot V)
  /-- It tries no more. -/
  | closed

namespace Outlook

/-- The cell holds another slot than the one that was seen. -/
def stale (x : Slot V) : Outlook V → Nat
  | sees y => if x.stamp = y.stamp then 0 else 1
  | fresh => 0
  | closed => 0

theorem stale_le_one (o : Outlook V) (x : Slot V) : o.stale x ≤ 1 := by
  cases o with
  | sees y =>
      simp only [stale]
      split <;> omega
  | fresh | closed => exact Nat.zero_le 1

/-- Another attempt may succeed. -/
def spare : Outlook V → Nat
  | closed => 0
  | fresh => 1
  | sees _ => 1

end Outlook

/-- The action is about the cell, and an attempt is for the slot that was seen. -/
def Action.Minds (c : CellId) (o : Outlook V) : Action K V → Prop
  | .drawStamp => True
  | .readCell d => d = c ∧ o = .fresh
  | .exchange d _ => d = c
  | .compareExchange d seen _ => d = c ∧ o = .sees seen
  | _ => False

/-- What is known after the action. -/
def Action.outlook (o : Outlook V) : (a : Action K V) → a.Response → Outlook V
  | .drawStamp, _ => o
  | .readCell _, x => .sees x
  | _, _ => .closed

namespace Program

/-- All attempts of the program are for the slot that it saw last in the cell, and none comes after
one that succeeded. -/
def minds (c : CellId) : Program K V α → Outlook V → Prop
  | .done _, _ => True
  | .act a next, o => a.Minds c o ∧ ∀ r, (next r).minds c (a.outlook o r)
  | .retry u next, o => u.cell = c ∧ o = .sees u.seen ∧ ∀ outcome, (next outcome).minds c .closed

/-- The program takes at most `n` steps that are not failed attempts. -/
def within : Program K V α → Nat → Prop
  | .done _, _ => True
  | .act _ next, n => 0 < n ∧ ∀ r, (next r).within (n - 1)
  | .retry _ next, n => 0 < n ∧ ∀ outcome, (next outcome).within (n - 1)

variable {c : CellId} {o : Outlook V} {p p' : Program K V α} {n k : Nat}

/-- A sequence of programs that heed what was seen heeds it as a whole. -/
theorem minds_bind {f : α → Program K V β} (hp : p.minds c o) (hf : ∀ x o', (f x).minds c o') :
    (p >>= f).minds c o := by
  induction p generalizing o with
  | done x => exact hf x o
  | act a next ih => exact ⟨hp.1, fun r => ih r (hp.2 r)⟩
  | retry u next ih => exact ⟨hp.1, hp.2.1, fun outcome => ih outcome (hp.2.2 outcome)⟩

/-- An action about the cell may be followed by what heeds what it learned. -/
theorem minds_action {a : Action K V} {f : a.Response → Program K V β} (ha : a.Minds c o)
    (h : ∀ r, (f r).minds c (a.outlook o r)) : (a.program >>= f).minds c o := ⟨ha, h⟩

/-- The slot that was seen is exchanged. -/
theorem minds_update {seen candidate : Slot V} {accepts : Content V → Bool}
    {next : Outcome V → Program K V β} (h : ∀ outcome o', (next outcome).minds c o') :
    (Update.program ⟨c, seen, candidate, accepts⟩ >>= next).minds c (.sees seen) := by
  unfold Update.program
  split
  · exact ⟨rfl, rfl, fun outcome => h outcome .closed⟩
  · exact h _ _

/-- A larger bound is one too. -/
theorem within_mono (hp : p.within n) (hle : n ≤ k) : p.within k := by
  induction p generalizing n k with
  | done x => trivial
  | act a next ih =>
      exact ⟨Nat.lt_of_lt_of_le hp.1 hle, fun r => ih r (hp.2 r) (Nat.sub_le_sub_right hle 1)⟩
  | retry u next ih =>
      exact ⟨Nat.lt_of_lt_of_le hp.1 hle, fun r => ih r (hp.2 r) (Nat.sub_le_sub_right hle 1)⟩

/-- A sequence takes no more steps than its two parts may take. -/
theorem within_bind {f : α → Program K V β} (hp : p.within n) (hf : ∀ x, (f x).within k) :
    (p >>= f).within (n + k) := by
  induction p generalizing n with
  | done x => exact within_mono (hf x) (Nat.le_add_left k n)
  | act a next ih =>
      refine ⟨Nat.add_pos_left hp.1 k, fun r => ?_⟩
      rw [Nat.sub_add_comm hp.1]
      exact ih r (hp.2 r)
  | retry u next ih =>
      refine ⟨Nat.add_pos_left hp.1 k, fun outcome => ?_⟩
      rw [Nat.sub_add_comm hp.1]
      exact ih outcome (hp.2 outcome)

/-- An action is one step. -/
theorem within_action {a : Action K V} {f : a.Response → Program K V β}
    (h : ∀ r, (f r).within n) : (a.program >>= f).within (n + 1) := ⟨Nat.succ_pos n, h⟩

/-- A retried exchange is one step, but for its failed attempts. -/
theorem within_update {u : Update V} {next : Outcome V → Program K V β}
    (h : ∀ outcome, (next outcome).within n) : (u.program >>= next).within (n + 1) := by
  unfold Update.program
  split
  · exact ⟨Nat.succ_pos n, h⟩
  · exact within_mono (h _) (Nat.le_succ n)

end Program

open Program

/-! ## The operations -/

namespace Cell

variable (c : CellId)

/-- An overwrite looks at the cell and tries to exchange what it saw. -/
theorem minds_trySwap (new : Handle V) : (trySwap c new : Program K V _).minds c .fresh := by
  refine minds_action ⟨rfl, rfl⟩ ?_
  intro seen
  apply minds_update
  intro outcome o
  cases outcome <;> trivial

theorem within_trySwap (new : Handle V) : (trySwap c new : Program K V _).within 2 := by
  apply within_action
  intro seen
  apply within_update
  intro outcome
  cases outcome <;> trivial

/-- Filling looks at the cell and tries to exchange what it saw. -/
theorem minds_tryLoadOrStore (candidate : Handle V) :
    (tryLoadOrStore c candidate : Program K V _).minds c .fresh := by
  refine minds_action ⟨rfl, rfl⟩ ?_
  intro seen
  apply minds_update
  intro outcome o
  cases outcome <;> trivial

theorem within_tryLoadOrStore (candidate : Handle V) :
    (tryLoadOrStore c candidate : Program K V _).within 2 := by
  apply within_action
  intro seen
  apply within_update
  intro outcome
  cases outcome <;> trivial

/-- Vacating looks at the cell, draws a stamp and tries to exchange what it saw. -/
theorem minds_vacate (wanted : Content V → Bool) :
    (vacate c wanted : Program K V _).minds c .fresh := by
  refine minds_action ⟨rfl, rfl⟩ ?_
  intro seen
  split
  · refine minds_action trivial ?_
    intro stamp
    apply minds_update
    intro outcome o
    cases outcome <;> trivial
  · trivial

theorem within_vacate (wanted : Content V → Bool) : (vacate c wanted : Program K V _).within 3 := by
  apply within_action
  intro seen
  split
  · apply within_action
    intro stamp
    apply within_update
    intro outcome
    cases outcome <;> trivial
  · trivial

namespace Access

variable [BEq V]

/-- All attempts of an operation are for the slot that it saw last. -/
theorem minds (x : Access V) : (x.program c : Program K V _).minds c .fresh := by
  cases x with
  -- By cases on the operation: those that retry are one look and one exchange after it.
  | load => exact minds_action ⟨rfl, rfl⟩ fun _ => trivial
  | tryStore new => exact minds_bind (minds_trySwap c new) fun _ _ => trivial
  | trySwap new => exact minds_trySwap c new
  | tryLoadOrStore candidate => exact minds_tryLoadOrStore c candidate
  | remove => exact minds_bind (minds_vacate c _) fun _ _ => trivial
  | compareAndSwap old new =>
      refine minds_action ⟨rfl, rfl⟩ ?_
      intro seen
      apply minds_update
      intro outcome o
      cases outcome <;> trivial
  | compareAndDelete old => exact minds_bind (minds_vacate c _) fun _ _ => trivial
  | store new => exact minds_action rfl fun _ => trivial
  | swap new => exact minds_action rfl fun _ => trivial
  | loadOrStore candidate =>
      apply minds_bind (minds_tryLoadOrStore c candidate)
      -- Filling under the mutex overwrites what it meets when it is not answered.
      intro answer o
      cases answer with
      | some answer => trivial
      | none => exact minds_action rfl fun _ => trivial
  | revive =>
      refine minds_action ⟨rfl, rfl⟩ ?_
      intro seen
      split
      · refine minds_action trivial ?_
        intro stamp
        exact ⟨⟨rfl, rfl⟩, fun _ => trivial⟩
      · trivial
  | bury =>
      refine minds_action ⟨rfl, rfl⟩ ?_
      intro seen
      split
      · refine minds_action trivial ?_
        intro stamp
        apply minds_update
        intro outcome o
        cases outcome <;> trivial
      · trivial

/-- No operation takes more than three steps but for its failed attempts. -/
theorem within_three (x : Access V) : (x.program c : Program K V _).within 3 := by
  -- An operation that is over takes no step.
  have hnone : ∀ {α : Type} (y : α) (n : Nat), (done y : Program K V α).within n :=
    fun _ _ => trivial
  cases x with
  | load => exact within_action fun _ => hnone _ 2
  | tryStore new => exact within_bind (within_trySwap c new) fun _ => hnone _ 1
  | trySwap new => exact within_mono (within_trySwap c new) (Nat.le_succ 2)
  | tryLoadOrStore candidate =>
      exact within_mono (within_tryLoadOrStore c candidate) (Nat.le_succ 2)
  | remove => exact within_bind (within_vacate c _) fun _ => hnone _ 0
  | compareAndSwap old new =>
      apply within_action
      intro seen
      apply within_update
      intro outcome
      cases outcome <;> exact hnone _ 1
  | compareAndDelete old => exact within_bind (within_vacate c _) fun _ => hnone _ 0
  | store new => exact within_action fun _ => hnone _ 2
  | swap new => exact within_action fun _ => hnone _ 2
  | loadOrStore candidate =>
      show within _ (2 + 1)
      apply within_bind (within_tryLoadOrStore c candidate)
      intro answer
      cases answer with
      | some answer => exact hnone _ 1
      | none => exact within_action fun _ => hnone _ 0
  | revive =>
      apply within_action
      intro seen
      split
      · exact within_action fun _ => ⟨Nat.zero_lt_one, fun _ => trivial⟩
      · exact hnone _ 2
  | bury =>
      apply within_action
      intro seen
      split
      · apply within_action
        intro stamp
        apply within_update
        intro outcome
        cases outcome <;> exact hnone _ 0
      · exact hnone _ 2

end Access

end Cell

/-! ## One step -/

variable [BEq K] {order : Enumeration K} {t u : ThreadId} {c : CellId} {s s' : Shared K V}
  {p p' : Program K V α} {o : Outlook V} {n : Nat}

/-- What a step of a call makes of what it knows. An attempt fails if the cell does not hold the
slot that was seen, and only then another one may follow; what is seen last, the cell holds in the
step that looks at it. -/
structure Outlook.Steps (c : CellId) (t : ThreadId) (o : Outlook V) (p : Program K V α)
    (s s' : Shared K V) (o' : Outlook V) : Prop where
  failures : (p.failures s).length + o'.stale (s'.slot c) ≤ o.stale (s.slot c)
  attempts : (p.attempts s).length + o'.spare ≤ (p.failures s).length + o.spare
  seen : ∀ x, o' = .sees x → p.installs t s = [] ∧
    (p.Looks c ∧ s.slot c = x ∨ ¬p.Looks c ∧ o = .sees x)

omit [BEq K] in
/-- An attempt for the slot that was seen fails if the cell holds another one. -/
theorem Program.length_failures {seen : Slot V} (h : p.attempt? = some (c, seen)) :
    (p.failures s).length = (Outlook.sees seen).stale (s.slot c) := by
  rw [failures, h, Option.toList_some, List.filter_singleton, Outlook.stale]
  by_cases hstamp : (s.slot c).stamp = seen.stamp
  · simp [hstamp]
  · simp [hstamp]

/-- A step accounts for an attempt that fails, and leaves a program that heeds what was seen. -/
theorem Program.minds_step (h : p.minds c o) (hstep : p.step order t s = some (p', s')) :
    ∃ o', p'.minds c o' ∧ o.Steps c t p s s' o' := by
  cases p with
  | done x => cases hstep
  | act a next =>
      obtain ⟨r, hr, rfl, rfl⟩ := of_step_act hstep
      refine ⟨a.outlook o r.1, h.2 r.1, ?_⟩
      cases a with
      | drawStamp =>
          obtain rfl := Option.some.inj hr
          exact ⟨Nat.le_of_eq (Nat.zero_add _), Nat.le_refl _, fun x hx => ⟨rfl, .inr ⟨id, hx⟩⟩⟩
      | readCell d =>
          obtain ⟨rfl, rfl⟩ := h.1
          obtain rfl := Option.some.inj hr
          refine ⟨?_, Nat.le_refl _, fun x hx => ⟨rfl, .inl ⟨rfl, Outlook.sees.inj hx⟩⟩⟩
          have hsame : (Outlook.sees (s.slot d)).stale (s.slot d) = 0 := if_pos rfl
          exact Nat.le_of_eq ((Nat.zero_add _).trans hsame)
      | exchange d x =>
          exact ⟨Nat.zero_le _, Nat.zero_le _, fun x hx => by cases hx⟩
      | compareExchange d seen x =>
          obtain ⟨rfl, rfl⟩ := h.1
          refine ⟨?_, Nat.le_add_left _ _, fun x hx => by cases hx⟩
          rw [length_failures rfl]
          exact Nat.le_refl _
      | _ => exact h.1.elim
  | retry u next =>
      obtain ⟨rfl, rfl, hnext⟩ := h
      have hfails : ∀ s : Shared K V, ((retry u next).failures s).length =
          (Outlook.sees u.seen).stale (s.slot u.cell) := fun s => length_failures rfl
      have hclosed : ∀ s', (Outlook.sees u.seen).Steps u.cell t (retry u next) s s' .closed := by
        refine fun s' => ⟨?_, Nat.le_add_left _ _, fun x hx => by cases hx⟩
        rw [hfails]
        exact Nat.le_refl _
      rcases step_retry_cases hstep with ⟨-, rfl, -⟩ | ⟨hstamp, rfl, ⟨-, rfl⟩ | ⟨-, rfl⟩⟩
      · exact ⟨.closed, hnext _, hclosed s'⟩
      · -- the attempt fails, and the slot that it found is the one to try next
        have hstale : (Outlook.sees u.seen).stale (s'.slot u.cell) = 1 := if_neg hstamp
        refine ⟨.sees (s'.slot u.cell), ⟨rfl, rfl, hnext⟩, ?_, ?_, ?_⟩
        · rw [hfails, hstale]
          simp [Outlook.stale]
        · rw [hfails, hstale]
          exact Nat.le_refl 2
        · intro x hx
          refine ⟨?_, .inl ⟨rfl, Outlook.sees.inj hx⟩⟩
          simp [installs, Update.installs, Action.installs, hstamp]
      · exact ⟨.closed, hnext _, hclosed s'⟩

/-- A step that is not a failed attempt is one of those that the program is allowed. -/
theorem Program.within_step (h : p.within n) (hstep : p.step order t s = some (p', s')) :
    ∃ k, p'.within k ∧ k + 1 ≤ n + (p.failures s).length := by
  cases p with
  | done x => cases hstep
  | act a next =>
      obtain ⟨r, hr, rfl, rfl⟩ := of_step_act hstep
      exact ⟨n - 1, h.2 r.1, by have := h.1; omega⟩
  | retry u next =>
      obtain ⟨hpos, hnext⟩ := h
      rcases step_retry_cases hstep with ⟨-, rfl, -⟩ | ⟨hstamp, rfl, ⟨-, rfl⟩ | ⟨-, rfl⟩⟩
      · exact ⟨n - 1, hnext _, by omega⟩
      · have hfails : ((retry u next).failures s').length = 1 :=
          (length_failures rfl).trans (if_neg hstamp)
        exact ⟨n, ⟨hpos, hnext⟩, by omega⟩
      · exact ⟨n - 1, hnext _, by omega⟩

/-! ## A call among other threads -/

namespace Machine

variable {m : Machine K V α} {p : Program K V β} {f : β → Program K V α} {τ : List ThreadId}

/-- The number of slots that other threads than `t` put into the cell. -/
def foreign (order : Enumeration K) (m : Machine K V α) (t : ThreadId) (c : CellId)
    (τ : List ThreadId) : Nat :=
  (m.installs order τ).countP fun e => e.cell = c ∧ e.thread ≠ t

/-- A turn of another thread makes what was seen stale only by putting a slot into the cell. -/
theorem stale_step (order : Enumeration K) (m : Machine K V α) (o : Outlook V) (c : CellId)
    (hut : u ≠ t) : o.stale ((m.step order u).shared.slot c) ≤ o.stale (m.shared.slot c) +
      (m.installed u).countP fun e => e.cell = c ∧ e.thread ≠ t := by
  rw [m.slot_step order u c]
  rcases lastInto_cases c (m.shared.slot c) (m.installed u) with hnone | ⟨e, he, hcell, -⟩
  · rw [lastInto_of_forall hnone]
    exact Nat.le_add_right _ _
  · have hforeign : 0 < (m.installed u).countP fun e => e.cell = c ∧ e.thread ≠ t := by
      refine List.countP_pos_iff.2 ⟨e, he, ?_⟩
      simp [hcell, thread_of_mem_installed he, hut]
    exact (o.stale_le_one _).trans (by omega)

/-- What others put into the cell in a schedule is what they put there turn by turn. -/
theorem foreign_cons (order : Enumeration K) (m : Machine K V α) (t u : ThreadId) (c : CellId)
    (τ : List ThreadId) : m.foreign order t c (u :: τ) =
      ((m.installed u).countP fun e => e.cell = c ∧ e.thread ≠ t) +
        (m.step order u).foreign order t c τ := List.countP_append

/-- How often what is left of a call tries and fails, and how many turns it takes: `o` is what the
call knows, and `n` bounds the steps that are not failed attempts. -/
structure Counted (order : Enumeration K) (m : Machine K V α) (t : ThreadId) (c : CellId)
    (p : Program K V β) (o : Outlook V) (n : Nat) (τ : List ThreadId) : Prop where
  failures : (gather order t Program.failures m p τ).length ≤
    m.foreign order t c τ + o.stale (m.shared.slot c)
  attempts : (gather order t Program.attempts m p τ).length ≤
    (gather order t Program.failures m p τ).length + o.spare
  ends : (∃ x, remains order t m p τ = .done x) ∨
    τ.count t + 1 ≤ n + (gather order t Program.failures m p τ).length

namespace Counted

/-- A call that is over does nothing any more. -/
theorem done (order : Enumeration K) (m : Machine K V α) (t : ThreadId) (c : CellId) (x : β)
    (o : Outlook V) (n : Nat) (τ : List ThreadId) :
    m.Counted order t c (.done x : Program K V β) o n τ where
  failures := by
    rw [gather_done m (fun _ _ => rfl) x τ]
    exact Nat.zero_le _
  attempts := by
    rw [gather_done m (fun _ _ => rfl) x τ]
    exact Nat.zero_le _
  ends := .inl ⟨x, remains_done m x τ⟩

/-- A turn of another thread adds to the slots that others put into the cell, if anything. -/
theorem other (h : (m.step order u).Counted order t c p o n τ) (hut : u ≠ t) :
    m.Counted order t c p o n (u :: τ) := by
  obtain ⟨hfail, htry, hend⟩ := h
  have hstale := m.stale_step order o c hut
  refine ⟨?_, ?_, ?_⟩ <;> simp only [gather, remains, if_neg hut, List.nil_append]
  · rw [foreign_cons]
    omega
  · exact htry
  · rwa [List.count_cons_of_ne hut]

/-- A turn of the thread itself adds to the failed attempts, or to the other steps. -/
theorem turn {p' : Program K V β} {o' : Outlook V} {k : Nat}
    (h : (m.step order t).Counted order t c p' o' k τ)
    (hstep : p.step order t m.shared = some (p', (m.step order t).shared))
    (hsteps : o.Steps c t p m.shared (m.step order t).shared o')
    (hk : k + 1 ≤ n + (p.failures m.shared).length) : m.Counted order t c p o n (t :: τ) := by
  obtain ⟨hfail, htry, hend⟩ := h
  have hstale := hsteps.failures
  have hspare := hsteps.attempts
  refine ⟨?_, ?_, ?_⟩ <;>
    simp only [gather, remains, if_true, List.length_append, Program.next_of_step hstep]
  · rw [foreign_cons]
    omega
  · omega
  · rw [List.count_cons_self]
    exact hend.imp_right fun hend => by omega

end Counted

/-- A call is counted from its first step on. -/
theorem Inside.counted (h : m.Inside t p f) (order : Enumeration K) (hcells : p.OnCells)
    {o : Outlook V} (hminds : p.minds c o) {n : Nat} (hwithin : p.within n) (τ : List ThreadId) :
    m.Counted order t c p o n τ := by
  induction τ generalizing m p o n with
  -- By induction on the schedule: a call that is not over has at least one step to take.
  | nil =>
      refine ⟨Nat.zero_le _, Nat.zero_le _, ?_⟩
      cases p with
      | done x => exact .inl ⟨x, rfl⟩
      | act a next => exact .inr hwithin.1
      | retry u next => exact .inr hwithin.1
  | cons u τ ih =>
      by_cases hut : u = t
      -- The thread's own turn takes a step of the call, if there is one left.
      · subst hut
        rcases hcells.exists_step order u m.shared with ⟨x, rfl⟩ | ⟨p', s', hstep⟩
        · exact .done order m u c x o n (u :: τ)
        · obtain ⟨rfl, hinside, -⟩ := h.turn hstep
          obtain ⟨o', hminds', hsteps⟩ := Program.minds_step hminds hstep
          obtain ⟨k, hwithin', hk⟩ := Program.within_step hwithin hstep
          have hrest := ih hinside (hcells.step hstep).1 hminds' hwithin'
          exact hrest.turn hstep hsteps hk
      -- In a turn of another thread the call stays as it is.
      · have hother : (m.step order u).Inside t p f := h.other hut
        exact (ih hother hcells hminds hwithin).other hut

/-! ## What an attempt is based on -/

/-- In the steps of `ρ`, the call looked at the cell last when the steps of `ρ₁` had been taken, and
saw `x`. Since then, its thread has put nothing into the cell. -/
structure Saw (order : Enumeration K) (m : Machine K V α) (t : ThreadId) (c : CellId)
    (p : Program K V β) (ρ : List ThreadId) (x : Slot V) (ρ₁ ρ₂ : List ThreadId) : Prop where
  split : ρ = ρ₁ ++ t :: ρ₂
  looked : (remains order t m p ρ₁).Looks c
  saw : (m.sharedAt order ρ₁).slot c = x
  last : ∀ ρ₃ ρ₄, ρ₂ = ρ₃ ++ t :: ρ₄ → ¬(remains order t m p (ρ₁ ++ t :: ρ₃)).Looks c
  alien : ∀ e ∈ (m.follow order ρ₁).installs order (t :: ρ₂), e.cell = c → e.thread ≠ t

variable {ρ ρ₁ ρ₂ : List ThreadId} {x : Slot V}

/-- It is still what the call saw last after a step in which it does not look. -/
theorem Saw.concat (h : m.Saw order t c p ρ x ρ₁ ρ₂)
    (hlooks : u = t → ¬(remains order t m p ρ).Looks c)
    (halien : ∀ e ∈ (m.follow order ρ).installed u, e.cell = c → e.thread ≠ t) :
    m.Saw order t c p (ρ ++ [u]) x ρ₁ (ρ₂ ++ [u]) where
  split := by rw [h.split, List.append_assoc, List.cons_append]
  looked := h.looked
  saw := h.saw
  last ρ₃ ρ₄ heq := by
    rcases List.eq_nil_or_concat ρ₄ with rfl | ⟨ρ₄, v, rfl⟩
    · obtain ⟨rfl, hut⟩ := List.append_inj' heq rfl
      rw [← h.split]
      exact hlooks (List.cons.inj hut).1
    · rw [List.concat_eq_append, ← List.cons_append, ← List.append_assoc] at heq
      exact h.last ρ₃ ρ₄ (List.append_inj' heq rfl).1
  alien e he := by
    rw [← List.cons_append, installs_concat, ← follow_append, ← h.split] at he
    rcases List.mem_append.1 he with he | he
    · exact h.alien e he
    · exact halien e he

/-- A step in which the call looks at the cell without writing it. -/
theorem saw_now (hlooks : (remains order t m p ρ).Looks c)
    (hnone : (m.follow order ρ).installed t = []) :
    m.Saw order t c p (ρ ++ [t]) ((m.sharedAt order ρ).slot c) ρ [] where
  split := rfl
  looked := hlooks
  saw := rfl
  last ρ₃ ρ₄ heq := by simp at heq
  alien e he := by
    rw [installs, installs, hnone] at he
    exact absurd he List.not_mem_nil

/-- What a call knows, it saw. -/
theorem Inside.sights (h : m.Inside t p f) (order : Enumeration K) (hcells : p.OnCells)
    (hminds : p.minds c .fresh) (ρ : List ThreadId) :
    (m.follow order ρ).Inside t (remains order t m p ρ) f ∧
      (remains order t m p ρ).OnCells ∧ ∃ o, (remains order t m p ρ).minds c o ∧
        ∀ x, o = .sees x → ∃ ρ₁ ρ₂, m.Saw order t c p ρ x ρ₁ ρ₂ := by
  induction ρ using List.reverseRecOn with
  | nil => exact ⟨h, hcells, .fresh, hminds, fun x hx => by cases hx⟩
  -- By induction on the end of the schedule: what was seen last may be seen in the last step.
  | append_singleton ρ u ih =>
      obtain ⟨hinside, hcells', o, hminds', hsaw⟩ := ih
      rw [follow_append]
      by_cases hut : u = t
      · subst hut
        rw [remains_concat_self]
        rcases hcells'.exists_step order u (m.follow order ρ).shared with ⟨y, hy⟩ | ⟨p', s', hstep⟩
        · rw [hy]
          exact ⟨.inl ⟨y, rfl⟩, trivial, .closed, trivial, fun x hx => by cases hx⟩
        · obtain ⟨-, hinside', hins⟩ := hinside.turn hstep
          obtain ⟨o', hminds'', hsteps⟩ := Program.minds_step hminds' hstep
          rw [Program.next_of_step hstep]
          refine ⟨hinside', (hcells'.step hstep).1, o', hminds'', fun x hx => ?_⟩
          -- The call has just looked, or it still knows what it saw before.
          obtain ⟨hnone, ⟨hlooks, hslot⟩ | ⟨hlooks, hold⟩⟩ := hsteps.seen x hx
          · obtain rfl := hslot
            exact ⟨ρ, [], saw_now hlooks (hins.trans hnone)⟩
          · obtain ⟨ρ₁, ρ₂, hsaw⟩ := hsaw x hold
            refine ⟨ρ₁, ρ₂ ++ [u], hsaw.concat (fun _ => hlooks) fun e he => ?_⟩
            rw [hins, hnone] at he
            exact absurd he List.not_mem_nil
      -- Another thread may put slots into the cell, but it is none of this call's.
      · rw [remains_concat_of_ne order m p ρ hut]
        refine ⟨hinside.other hut, hcells', o, hminds', fun x hx => ?_⟩
        obtain ⟨ρ₁, ρ₂, hsaw⟩ := hsaw x hx
        refine ⟨ρ₁, ρ₂ ++ [u], hsaw.concat (fun heq => absurd heq hut) fun e he _ => ?_⟩
        rwa [thread_of_mem_installed he]

end Machine

omit [BEq K] in
/-- An attempt is for the slot that was seen last. -/
theorem Program.minds_attempt {d : CellId} {seen : Slot V} (h : p.minds c o)
    (hattempt : p.attempt? = some (d, seen)) : d = c ∧ o = .sees seen := by
  cases p with
  | done x => cases hattempt
  | retry u next =>
      obtain ⟨rfl, rfl⟩ := Prod.mk.inj (Option.some.inj hattempt)
      exact ⟨h.1, h.2.1⟩
  | act a next =>
      cases a with
      | compareExchange d' seen' x =>
          obtain ⟨rfl, rfl⟩ := Prod.mk.inj (Option.some.inj hattempt)
          exact h.1
      | _ => cases hattempt

namespace Machine

/-! ## Clients -/

/-- The call `p` of an operation on cell `c`, which thread `t` is about to make. -/
structure LockFree (order : Enumeration K) (m : Machine K V α) (t : ThreadId) (c : CellId)
    (p : Program K V β) (f : β → Program K V α) : Prop where
  /-- After any steps the thread has to do what is left of the call, until that is done. -/
  inside : ∀ ρ, (m.follow order ρ).Inside t (remains order t m p ρ) f
  /-- An attempt is for the slot that the call saw last. It succeeds if and only if nothing was put
  into the cell since then, and what was put there is from other threads. -/
  based : ∀ ρ d seen, (remains order t m p ρ).attempt? = some (d, seen) →
    d = c ∧ ∃ ρ₁ ρ₂, m.Saw order t c p ρ seen ρ₁ ρ₂ ∧
      (((m.sharedAt order ρ).slot c).stamp = seen.stamp ↔
        ∀ e ∈ (m.follow order ρ₁).installs order (t :: ρ₂), e.cell ≠ c)
  /-- No more attempts fail than slots are put into the cell by other threads meanwhile. -/
  failures : ∀ τ, (gather order t Program.failures m p τ).length ≤ m.foreign order t c τ
  /-- At most one attempt does not fail. -/
  attempts : ∀ τ, (gather order t Program.attempts m p τ).length ≤
    (gather order t Program.failures m p τ).length + 1
  /-- After three turns, and one more for each slot that others put into the cell, the call is
  done. -/
  ends : ∀ τ, m.foreign order t c τ + 3 ≤ τ.count t → ∃ x, remains order t m p τ = .done x

variable [BEq V]

/-- In a run of clients no slot is put into a cell twice, nor into two cells. A call of an operation
on a cell retries only after another thread has put a slot into the cell, and one time for each such
slot at most. -/
theorem ofClients_lockFree (order : Enumeration K) (clients : List (Client K V ε α))
    (σ : List ThreadId) (t : ThreadId) (c : CellId) (x : Cell.Access V)
    (f : x.Result → Program K V (Except ε α × Trace K V))
    (hcall : ((ofClients .initial clients).follow order σ).threads[t]? = some (x.program c >>= f)) :
    (∀ τ, (((ofClients .initial clients).installs order τ).map (·.slot.stamp)).Nodup) ∧
      ((ofClients .initial clients).follow order σ).LockFree order t c (x.program c) f := by
  have hinside : ((ofClients .initial clients).follow order σ).Inside t (x.program c) f :=
    .inr hcall
  have hcounted := hinside.counted order (x.onCells c) (x.minds c) (x.within_three c)
  refine ⟨nodup_installs order clients, ?_, ?_, ?_, ?_, ?_⟩
  · exact fun ρ => (hinside.sights order (x.onCells c) (x.minds c) ρ).1
  -- The last look is the one of `ρ₁`; since then the stamp has changed exactly if a slot was
  -- installed.
  · intro ρ d seen hattempt
    obtain ⟨-, -, o, hminds, hsaw⟩ := hinside.sights order (x.onCells c) (x.minds c) ρ
    obtain ⟨rfl, rfl⟩ := Program.minds_attempt hminds hattempt
    obtain ⟨ρ₁, ρ₂, hsaw⟩ := hsaw seen rfl
    refine ⟨rfl, ρ₁, ρ₂, hsaw, ?_⟩
    have hsame := stamp_eq_iff order clients (σ ++ ρ₁) (t :: ρ₂) d
    rw [List.append_assoc, ← hsaw.split, follow_append, sharedAt_append, sharedAt_append] at hsame
    rw [← hsaw.saw]
    exact hsame
  · exact fun τ => (hcounted τ).failures
  · exact fun τ => (hcounted τ).attempts
  -- More turns than allowed would mean more failures than slots that others have put there.
  · intro τ hturns
    obtain ⟨hfail, -, hend⟩ := hcounted τ
    exact hend.resolve_right fun hmore => by simp only [Outlook.stale] at hfail; omega

/-- Two threads overwrite the value of a key, after one of them has stored it and brought it into
the snapshot. -/
def overwriting : List (Client Nat Nat Unit Unit) :=
  [.request (.store 0 7) fun _ => .request (.load 0) fun _ => .request (.swap 0 8) fun _ => .done (),
    .request (.swap 0 9) fun _ => .done ()]

set_option maxRecDepth 2000 in
/-- Thread 0 has come to its overwrite, and goes on with something. -/
theorem calls_overwriting : ∃ f, ((ofClients .initial overwriting).follow .insertion
    (List.replicate 26 0)).threads[0]? =
      some ((Cell.Access.trySwap ⟨2, 8⟩).program 0 >>= f) :=
  thread_of_begins (.within (.within (.within (.within (.first _) _) _) _) _) rfl

/-- Thread 1 overwrites the value between the first look of thread 0 and its first attempt, which
fails for that, and no other one does. -/
theorem ofClients_lockFree_overwriting : ∃ f,
    ((ofClients .initial overwriting).follow .insertion (List.replicate 26 0)).threads[0]? =
        some ((Cell.Access.trySwap ⟨2, 8⟩).program 0 >>= f) ∧
      (gather .insertion 0 Program.failures
        ((ofClients .initial overwriting).follow .insertion (List.replicate 26 0))
        ((Cell.Access.trySwap ⟨2, 8⟩).program 0) [0, 1, 1, 1, 1, 0, 0]).length = 1 ∧
      ((ofClients .initial overwriting).follow .insertion (List.replicate 26 0)).LockFree .insertion 0 0
        ((Cell.Access.trySwap ⟨2, 8⟩).program 0) f := by
  obtain ⟨f, hcall⟩ := calls_overwriting
  refine ⟨f, hcall, by decide +kernel, ?_⟩
  exact (ofClients_lockFree .insertion overwriting _ 0 0 (.trySwap ⟨2, 8⟩) f hcall).2

end Machine

end ConcurrentMap
