import ConcurrentMap.Action

/-! # Programs of one thread

A program says which action a thread performs next and how it goes on from the answer. It is a
tree with one branch per answer, so every path through it is finite; the one kind of loop a thread
needs, the retried exchange of a slot, is a node of its own.

The same program has two readings. `Program.step` performs its next atomic step and leaves the
rest of the program, so that the steps of several threads can be interleaved. `Program.run` runs
it to its end without disturbance; `run_eq_of_step` says that the second is the closure of the
first.
-/

namespace ConcurrentMap

/-- What one thread does, ending with a result in `α`. -/
inductive Program (K V α : Type) where
  /-- Nothing is left to do. -/
  | done (result : α)
  /-- Perform an action and go on from its answer. -/
  | act (a : Action K V) (next : a.Response → Program K V α)
  /-- Retry an exchange until it ends, and go on from how it ended. -/
  | retry (u : Update V) (next : Outcome V → Program K V α)

namespace Program

variable {K V α β γ : Type}

/-- Go on with `f` once the program is done. -/
def bind : Program K V α → (α → Program K V β) → Program K V β
  | done x, f => f x
  | act a next, f => act a fun r => (next r).bind f
  | retry u next, f => retry u fun o => (next o).bind f

instance : Monad (Program K V) where
  pure := done
  bind := bind

/-- To return is to be done. -/
@[simp] theorem pure_eq_done (x : α) : (pure x : Program K V α) = done x := rfl

@[simp] theorem done_bind (x : α) (f : α → Program K V β) : (done x >>= f) = f x := rfl

/-- A sequence performs the actions of its first part first. -/
@[simp] theorem act_bind (a : Action K V) (next : a.Response → Program K V α)
    (f : α → Program K V β) : (act a next >>= f) = act a fun r => next r >>= f := rfl

/-- A sequence retries the exchanges of its first part first. -/
@[simp] theorem retry_bind (u : Update V) (next : Outcome V → Program K V α)
    (f : α → Program K V β) : (retry u next >>= f) = retry u fun o => next o >>= f := rfl

/-- Nothing after a program makes no difference to it. -/
theorem bind_done (p : Program K V α) : (p >>= done) = p := by
  induction p with
  | done x => rfl
  | act a next ih => exact congrArg (act a) (funext ih)
  | retry u next ih => exact congrArg (retry u) (funext ih)

/-- It does not matter how a sequence of three is nested. -/
theorem bind_assoc (p : Program K V α) (f : α → Program K V β) (g : β → Program K V γ) :
    (p >>= f >>= g) = p >>= fun x => f x >>= g := by
  induction p with
  | done x => rfl
  | act a next ih => exact congrArg (act a) (funext ih)
  | retry u next ih => exact congrArg (retry u) (funext ih)

instance : LawfulMonad (Program K V) :=
  LawfulMonad.mk' (Program K V) bind_done (fun _ _ => rfl) bind_assoc

/-! ## One thread alone -/

variable [BEq K]

/-- Perform everything up to the end as thread `t`, undisturbed. There is no result if the thread
asks for a mutex that is held: alone, it would wait for ever. -/
def run (order : Enumeration K) (t : ThreadId) :
    Program K V α → Shared K V → Option (α × Shared K V)
  | done x, s => some (x, s)
  | act a next, s => (a.perform order t s).bind fun r => (next r.1).run order t r.2
  | retry u next, s => (next (u.settle s).1).run order t (u.settle s).2

variable (order : Enumeration K) (t : ThreadId)

/-- A program that is done leaves the state alone. -/
@[simp] theorem run_done (x : α) (s : Shared K V) :
    (done x : Program K V α).run order t s = some (x, s) := rfl

/-- An action is performed, and the run goes on from its answer, unless it is refused. -/
theorem run_act (a : Action K V) (next : a.Response → Program K V α) (s : Shared K V) :
    (act a next).run order t s =
      (a.perform order t s).bind fun r => (next r.1).run order t r.2 := rfl

/-- Undisturbed, a retried exchange settles at once. -/
theorem run_retry (u : Update V) (next : Outcome V → Program K V α) (s : Shared K V) :
    (retry u next).run order t s = (next (u.settle s).1).run order t (u.settle s).2 := rfl

/-- A sequence of programs runs one after the other. -/
@[simp] theorem run_bind (p : Program K V α) (f : α → Program K V β) (s : Shared K V) :
    (p >>= f).run order t s = (p.run order t s).bind fun r => (f r.1).run order t r.2 := by
  induction p generalizing s with
  | done x => rfl
  | act a next ih => simp only [act_bind, run_act, Option.bind_assoc, ih]
  | retry u next ih => simp only [retry_bind, run_retry, ih]

/-! ## One step of a thread among others -/

/-- Perform the next atomic step as thread `t`, and keep what is left to do. There is no step once
the program is done, nor while its next action is refused. -/
def step : Program K V α → Shared K V → Option (Program K V α × Shared K V)
  | done _, _ => none
  | act a next, s => (a.perform order t s).map fun r => (next r.1, r.2)
  | retry u next, s =>
    match u.attempt s with
    | (.inl o, s') => some (next o, s')
    | (.inr u', s') => some (retry u' next, s')

variable {order} {t}

/-- A step of a program that goes on with an action performs the action. -/
theorem of_step_act {a : Action K V} {next : a.Response → Program K V α} {p' : Program K V α}
    {s s' : Shared K V} (h : (act a next).step order t s = some (p', s')) :
    ∃ r, a.perform order t s = some r ∧ p' = next r.1 ∧ s' = r.2 := by
  obtain ⟨r, hr, heq⟩ := Option.map_eq_some_iff.1 h
  obtain ⟨rfl, rfl⟩ := Prod.mk.inj heq
  exact ⟨r, hr, rfl, rfl⟩

/-- A retried exchange is over because the cell still held the slot that was seen, or goes on from
the slot that it found instead, or is over because that one is not acceptable. -/
theorem step_retry_cases {u : Update V} {next : Outcome V → Program K V α}
    {p' : Program K V α} {s s' : Shared K V}
    (h : (retry u next).step order t s = some (p', s')) :
    ((s.slot u.cell).stamp = u.seen.stamp ∧ p' = next (.installed u.seen) ∧
        s' = s.setSlot u.cell u.candidate) ∨
      (s.slot u.cell).stamp ≠ u.seen.stamp ∧ s' = s ∧
        (u.accepts (s.slot u.cell).content = true ∧
            p' = retry { u with seen := s.slot u.cell } next ∨
          u.accepts (s.slot u.cell).content = false ∧ p' = next (.refused (s.slot u.cell))) := by
  simp only [step, Update.attempt] at h
  by_cases hstamp : (s.slot u.cell).stamp = u.seen.stamp
  · simp only [hstamp, if_true, Option.some.injEq, Prod.mk.injEq] at h
    exact .inl ⟨hstamp, h.1.symm, h.2.symm⟩
  · by_cases hacc : u.accepts (s.slot u.cell).content = true
    · simp only [hstamp, hacc, if_true, if_false, Option.some.injEq, Prod.mk.injEq] at h
      exact .inr ⟨hstamp, h.2.symm, .inl ⟨hacc, h.1.symm⟩⟩
    · simp only [hstamp, hacc, if_false, Bool.false_eq_true, Option.some.injEq,
        Prod.mk.injEq] at h
      exact .inr ⟨hstamp, h.2.symm, .inr ⟨Bool.eq_false_iff.2 hacc, h.1.symm⟩⟩

/-- An attempt writes the cell or leaves everything as it is. -/
theorem of_step_retry {u : Update V} {next : Outcome V → Program K V α}
    {p' : Program K V α} {s s' : Shared K V}
    (h : (retry u next).step order t s = some (p', s')) :
    s' = s ∨ s' = s.setSlot u.cell u.candidate := by
  rcases step_retry_cases h with ⟨-, -, rfl⟩ | ⟨-, rfl, -⟩
  · exact .inr rfl
  · exact .inl rfl

/-- A step does not change where an undisturbed run ends. -/
theorem run_eq_of_step {p p' : Program K V α} {s s' : Shared K V}
    (h : p.step order t s = some (p', s')) : p.run order t s = p'.run order t s' := by
  cases p with
  | done x => simp [step] at h
  | act a next =>
      obtain ⟨r, hr, rfl, rfl⟩ := of_step_act h
      simp [run_act, hr]
  | retry u next =>
      have hsettle := u.settle_eq_of_attempt s
      simp only [step] at h
      generalize u.attempt s = r at h hsettle
      obtain ⟨o | u', s''⟩ := r
      -- the attempt ended the exchange, or it goes on from the slot that it found
      · simp only [Option.some.injEq, Prod.mk.injEq] at h
        obtain ⟨rfl, rfl⟩ := h
        rw [run_retry, hsettle]
      · simp only [Option.some.injEq, Prod.mk.injEq] at h
        obtain ⟨rfl, rfl⟩ := h
        rw [run_retry, hsettle, run_retry]

/-- The value of a finished program. -/
def result? : Program K V α → Option α
  | done x => some x
  | act _ _ => none
  | retry _ _ => none

omit [BEq K] in
/-- A program with a result is done. -/
theorem eq_done_of_result? {p : Program K V α} {x : α} (h : p.result? = some x) : p = done x := by
  cases p with
  | done y => exact congrArg done (Option.some.inj h)
  | act a next => simp [result?] at h
  | retry u next => simp [result?] at h

end Program

/-! ## Programs of a single step -/

variable {K V : Type}

/-- The program that performs one action. -/
def Action.program (a : Action K V) : Program K V a.Response := .act a .done

/-- The program that retries one exchange to its end. An update whose starting slot is not
acceptable is over before it begins. -/
def Update.program (u : Update V) : Program K V (Outcome V) :=
  if u.accepts u.seen.content then .retry u .done else .done (.refused u.seen)

variable [BEq K] (order : Enumeration K) (t : ThreadId)

/-- A program of one action ends where the action leads. -/
@[simp] theorem Action.run_program (a : Action K V) (s : Shared K V) :
    a.program.run order t s = a.perform order t s := by
  cases h : a.perform order t s <;> simp [Action.program, Program.run_act, h]

/-- A program of one exchange ends where that settles, or at once if nothing acceptable was seen. -/
@[simp] theorem Update.run_program (u : Update V) (s : Shared K V) :
    (u.program : Program K V _).run order t s =
      some (if u.accepts u.seen.content then u.settle s else (.refused u.seen, s)) := by
  unfold Update.program
  split <;> simp [Program.run_retry]

end ConcurrentMap
