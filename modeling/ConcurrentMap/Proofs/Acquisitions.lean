import ConcurrentMap.Proofs.Rearranging

/-!
# When the mutex is acquired

`Program.acquisitions` counts how often a thread that nobody disturbs acquires the mutex. An
operation does so once or not at all, and `Operation.needsMutex` decides which, from the snapshot
and the cell that it leads to alone (`Operation.acquisitions_eq`). What is done inside the mutex,
and what is done after it, never asks for it: those programs are `Program.Lockless`.
-/

namespace ConcurrentMap

variable {K V α β : Type}

/-- The mutex is asked for. -/
def Action.acquires : Action K V → Bool
  | .acquire => true
  | _ => false

namespace Program

/-- The program never asks for the mutex. -/
def Lockless : Program K V α → Prop
  | .done _ => True
  | .act a next => a.acquires = false ∧ ∀ r, (next r).Lockless
  | .retry _ next => ∀ o, (next o).Lockless

namespace Lockless

theorem bind {p : Program K V α} {f : α → Program K V β} (hp : p.Lockless)
    (hf : ∀ x, (f x).Lockless) : (p >>= f).Lockless := by
  induction p with
  | done x => exact hf x
  | act a next ih => exact ⟨hp.1, fun r => ih r (hp.2 r)⟩
  | retry u next ih => exact fun o => ih o (hp o)

theorem action {a : Action K V} (h : a.acquires = false) : a.program.Lockless :=
  ⟨h, fun _ => trivial⟩

end Lockless

/-- A program that works on cells never asks for the mutex. -/
theorem OnCells.lockless {p : Program K V α} (h : p.OnCells) : p.Lockless := by
  induction p with
  | done x => trivial
  | act a next ih => exact ⟨by cases a <;> first | rfl | exact h.1.elim, fun r => ih r (h.2 r)⟩
  | retry u next ih => exact fun o => ih o (h o)

variable [BEq K] (order : Enumeration K) (t : ThreadId)

/-- How often thread `t`, undisturbed, acquires the mutex before the program is done. -/
def acquisitions : Program K V α → Shared K V → Nat
  | .done _, _ => 0
  | .act a next, s =>
    match a.perform order t s with
    | none => 0
    | some r => a.acquires.toNat + (next r.1).acquisitions r.2
  | .retry u next, s => (next (u.settle s).1).acquisitions (u.settle s).2

/-- A sequence acquires the mutex as often as its two parts together. -/
theorem acquisitions_bind (p : Program K V α) (f : α → Program K V β) (s : Shared K V) :
    (p >>= f).acquisitions order t s = p.acquisitions order t s +
      ((p.run order t s).map fun r => (f r.1).acquisitions order t r.2).getD 0 := by
  induction p generalizing s with
  | done x => exact (Nat.zero_add _).symm
  | act a next ih =>
      simp only [act_bind, acquisitions, run_act]
      cases a.perform order t s with
      | none => rfl
      | some r => simp only [ih, Option.bind_some, Nat.add_assoc]
  | retry u next ih => simp only [retry_bind, acquisitions, run_retry, ih]

/-- A program that never asks for the mutex never acquires it. -/
theorem Lockless.acquisitions_eq {p : Program K V α} (h : p.Lockless) (s : Shared K V) :
    p.acquisitions order t s = 0 := by
  induction p generalizing s with
  | done x => rfl
  | act a next ih =>
      simp only [acquisitions]
      cases a.perform order t s with
      | none => rfl
      | some r => simp [h.1, ih r.1 (h.2 r.1)]
  | retry u next ih => exact ih _ (h _) _

/-- What comes after does not count if it never asks for the mutex. -/
theorem acquisitions_bind_lockless (p : Program K V α) {f : α → Program K V β}
    (hf : ∀ x, (f x).Lockless) (s : Shared K V) :
    (p >>= f).acquisitions order t s = p.acquisitions order t s := by
  rw [acquisitions_bind]
  cases p.run order t s with
  | none => rfl
  | some r => simp [(hf r.1).acquisitions_eq]

/-- What is made of the result does not count. -/
theorem acquisitions_map (p : Program K V α) (f : α → β) (s : Shared K V) :
    (p >>= fun x => .done (f x)).acquisitions order t s = p.acquisitions order t s :=
  acquisitions_bind_lockless order t p (f := fun x => .done (f x)) (fun _ => trivial) s

end Program

open Program Shared

namespace Map

/-! ## Inside the mutex -/

theorem lockless_promote (reason : PromotionReason) : (promote reason : Program K V _).Lockless :=
  .bind (.action rfl) fun _ => .bind (.action rfl) fun _ => .bind (.action rfl) fun _ =>
    .bind (.action rfl) fun _ => trivial

theorem lockless_recordMiss : (recordMiss : Program K V _).Lockless := by
  refine .bind (.action rfl) fun due => ?_
  split
  · exact .bind (lockless_promote _) fun _ => trivial
  · trivial

theorem lockless_clearLocked : (clearLocked : Program K V _).Lockless := by
  have hreset : (clearLocked.reset : Program K V _).Lockless :=
    .bind (.action rfl) fun _ => .action rfl
  refine .bind (.action rfl) fun snapshot => ?_
  split
  · exact .bind (.action rfl) fun _ => hreset
  · exact hreset

theorem lockless_completeLocked : (completeLocked : Program K V _).Lockless := by
  refine .bind (.action rfl) fun snapshot => ?_
  split
  · exact lockless_promote _
  · trivial

variable [BEq K]

/-- Copying the entries, or tombstoning their cells, takes place inside the mutex. -/
theorem lockless_copyLive (entries : List (K × CellId)) (copies : Table K) (n : Nat) :
    (copyLive entries copies n : Program K V _).Lockless := by
  induction entries generalizing copies n with
  | nil => trivial
  | cons e entries ih =>
      refine .bind (Cell.onCells_bury e.2).lockless fun buried => ?_
      split
      · exact ih _ _
      · exact ih _ _

theorem lockless_rebuild (snapshot : Snapshot K) :
    (rebuild snapshot : Program K V _).Lockless := by
  refine .bind (.action rfl) fun staged => ?_
  split
  · trivial
  · exact .bind (.action rfl) fun _ => .bind (lockless_copyLive _ _ _) fun _ =>
      .bind (.action rfl) fun _ => .action rfl

theorem lockless_openStaging (snapshot : Snapshot K) :
    (openStaging snapshot : Program K V _).Lockless := by
  unfold openStaging
  split
  · trivial
  · exact .bind (lockless_rebuild snapshot) fun _ => .action rfl

theorem lockless_locate (key : K) : (locate key : Program K V _).Lockless := by
  refine .bind (.action rfl) fun snapshot => ?_
  split
  · trivial
  · split
    · exact .bind (.action rfl) fun _ => .bind lockless_recordMiss fun _ => trivial
    · trivial

theorem lockless_withdraw (key : K) : (withdraw key : Program K V _).Lockless := by
  refine .bind (.action rfl) fun snapshot => ?_
  split
  · trivial
  · split
    · exact .action rfl
    · trivial

theorem lockless_compareAndSwapLocked [BEq V] (key : K) (old : V) (new : Handle V) :
    (compareAndSwapLocked key old new).Lockless := by
  refine .bind (.action rfl) fun snapshot => ?_
  split
  · exact (Cell.onCells_compareAndSwap _ _ _).lockless
  · refine .bind (.action rfl) fun staged => ?_
    split
    · exact .bind (Cell.onCells_compareAndSwap _ _ _).lockless fun _ =>
        .bind lockless_recordMiss fun _ => trivial
    · trivial

/-- A write that works on cells never asks for the mutex once it is inside. -/
theorem Write.OnCells.lockless_underMutex {w : Write K V α} (hw : w.OnCells) (key : K)
    (new : Handle V) : (w.underMutex key new).Lockless := by
  refine .bind (.action rfl) fun snapshot => ?_
  -- The snapshot leads to the cell, which is lifted if need be.
  split
  · refine .bind (.bind (Cell.onCells_revive _).lockless fun revived => ?_) fun _ =>
      (hw.guarded _ _).lockless
    split
    · exact .action rfl
    · trivial
  -- Otherwise the key is staged, or it is staged now with a new cell.
  · refine .bind (.action rfl) fun staged => ?_
    split
    · refine .bind (hw.guarded _ _).lockless fun _ => .bind ?_ fun _ => trivial
      unfold Write.charge
      split
      · exact lockless_recordMiss
      · trivial
    · exact .bind (.bind (lockless_openStaging _) fun _ => .bind (.action rfl) fun _ =>
        .action rfl) fun _ => trivial

/-! ## Operations -/

variable (order : Enumeration K) (t : ThreadId) {s : Shared K V} {key : K}

/-- Reading the snapshot needs no mutex. -/
theorem acquisitions_readSnapshot (f : Snapshot K → Program K V α) :
    (Action.readSnapshot.program >>= f).acquisitions order t s =
      (f s.snapshot).acquisitions order t s := Nat.zero_add _

/-- Drawing a stamp needs no mutex. -/
theorem acquisitions_drawStamp (f : Stamp → Program K V α) :
    (Action.drawStamp.program >>= f).acquisitions order t s =
      (f s.clock).acquisitions order t s.tick := Nat.zero_add _

/-- What is done inside the mutex acquires it once, if nobody holds it. -/
theorem acquisitions_locked (hfree : s.holder = none) {body : Program K V α}
    (hbody : body.Lockless) : (locked body).acquisitions order t s = 1 := by
  have hrest : (body >>= fun x => Action.release.program >>= fun _ => pure x).Lockless :=
    .bind hbody fun _ => .bind (.action rfl) fun _ => trivial
  have hacquire : (Action.acquire : Action K V).perform order t s = some ((), s.hold t) := by
    simp [Action.perform, acquire, hfree, hold]
  have hlocked : locked body = .act .acquire fun _ =>
      body >>= fun x => Action.release.program >>= fun _ => pure x := rfl
  rw [hlocked, acquisitions, hacquire]
  exact congrArg (1 + ·) (hrest.acquisitions_eq order t (s.hold t))

/-- An operation that goes on under the mutex if the snapshot is amended and lacks the key. -/
theorem acquisitions_gate {found : CellId → Program K V α} {guarded missing : Program K V α}
    (hfound : ∀ c, (found c).Lockless) (hguarded : guarded.acquisitions order t s = 1)
    (hmissing : missing.Lockless) :
    (Action.readSnapshot.program >>= fun snapshot =>
      match snapshot.find? key with
      | some c => found c
      | none => if snapshot.amended then guarded else missing).acquisitions order t s =
      ((s.snapshot.find? key).isNone && s.snapshot.amended).toNat := by
  rw [acquisitions_readSnapshot]
  cases s.snapshot.find? key with
  | some c => exact (hfound c).acquisitions_eq order t s
  | none =>
      cases s.snapshot.amended with
      | false => exact hmissing.acquisitions_eq order t s
      | true => exact hguarded

/-- An operation that looks for a cell, and works on it without the mutex. -/
theorem acquisitions_seek (hfree : s.holder = none) {found : CellId → Program K V α}
    {missing : Program K V α} {search : Program K V (Option CellId)}
    (hfound : ∀ c, (found c).Lockless) (hmissing : missing.Lockless) (hsearch : search.Lockless) :
    (seek key search found missing).acquisitions order t s =
      ((s.snapshot.find? key).isNone && s.snapshot.amended).toNat := by
  rw [seek]
  refine acquisitions_gate order t hfound ?_ hmissing
  rw [acquisitions_bind_lockless, acquisitions_locked order t hfree hsearch]
  intro x
  cases x with
  | some c => exact hfound c
  | none => exact hmissing

/-- A write acquires the mutex unless the snapshot leads to a cell that is not tombstoned. -/
theorem Write.Settles.acquisitions_eq {w : Write K V α}
    {answer : Option (Handle V) → Handle V → α} {settled : Option (Handle V) → Handle V → Handle V}
    {order} {t} (hw : w.Settles order t answer settled) (hcells : w.OnCells)
    (hfree : s.holder = none) (v : V) :
    (w.program key v).acquisitions order t s =
      ((s.snapshot.find? key).all s.tombstoned).toNat := by
  have hlocked : ∀ new, (locked (w.underMutex key new)).acquisitions order t s.tick = 1 :=
    fun new => acquisitions_locked order t (s := s.tick) hfree (hcells.lockless_underMutex key new)
  rw [Write.program, acquisitions_drawStamp, acquisitions_readSnapshot]
  simp only [snapshot_tick]
  cases s.snapshot.find? key with
  | none => exact hlocked _
  | some c =>
      simp only [acquisitions_bind, (hcells.attempt c _).lockless.acquisitions_eq, Option.all_some]
      cases htomb : s.tombstoned c with
      | true => simp [hw.stopped s.tick c _ htomb, hlocked]
      | false => simp [hw.attempt s.tick c _ htomb, acquisitions]

/-- A comparison acquires the mutex if the snapshot lacks the key and is amended. -/
theorem acquisitions_compareAndSwap [BEq V] (hfree : s.holder = none) (old new : V) :
    (compareAndSwap key old new).acquisitions order t s =
      ((s.snapshot.find? key).isNone && s.snapshot.amended).toNat := by
  rw [compareAndSwap, acquisitions_drawStamp]
  exact acquisitions_gate order t (s := s.tick)
    (fun c => (Cell.onCells_compareAndSwap c _ _).lockless)
    (acquisitions_locked order t (s := s.tick) hfree (lockless_compareAndSwapLocked key old _))
    trivial

/-- Clearing acquires the mutex unless the snapshot is complete and has no entries. -/
theorem acquisitions_clear (hfree : s.holder = none) :
    (clear : Program K V _).acquisitions order t s =
      (decide (0 < s.snapshot.size) || s.snapshot.amended).toNat := by
  rw [clear, acquisitions_readSnapshot]
  cases (decide (0 < s.snapshot.size) || s.snapshot.amended) with
  | false => rfl
  | true => exact acquisitions_locked order t hfree lockless_clearLocked

/-- Fixing what a traversal visits acquires the mutex if the snapshot is amended. -/
theorem acquisitions_itinerary (hfree : s.holder = none) :
    (itinerary : Program K V _).acquisitions order t s = s.snapshot.amended.toNat := by
  rw [itinerary, acquisitions_bind_lockless, complete, acquisitions_readSnapshot]
  cases s.snapshot.amended with
  | false => rfl
  | true => exact acquisitions_locked order t hfree lockless_completeLocked
  exact fun _ => .action rfl

end Map

variable [BEq K]

/-- The request acquires the mutex. A request that writes does so unless the snapshot leads to a
cell that is not tombstoned, and any other one that is about a key if the snapshot lacks it and is
amended. Clearing takes it unless there is nothing to clear. -/
def Request.needsMutex (s : Shared K V) (r : Request K V) : Bool :=
  match r.key? with
  | none => decide (0 < s.snapshot.size) || s.snapshot.amended
  | some key =>
    if r.writes?.isSome then (s.snapshot.find? key).all s.tombstoned
    else (s.snapshot.find? key).isNone && s.snapshot.amended

/-- The operation acquires the mutex: a traversal does so if it has to promote the staged table, and
then never again. -/
def Operation.needsMutex (s : Shared K V) : Operation K V → Bool
  | .request r => r.needsMutex s
  | .depart => s.snapshot.amended
  | .reach _ => false

variable [BEq V]

/-- A request acquires the mutex once, or not at all. -/
theorem Request.acquisitions_eq (order : Enumeration K) (t : ThreadId) {s : Shared K V}
    (hfree : s.holder = none) (r : Request K V) :
    r.program.acquisitions order t s = (r.needsMutex s).toNat := by
  -- What an operation makes of its result does not count, and neither does its work on the cell.
  cases r with
  | load key =>
      exact (acquisitions_map order t (Map.load key) Answer.found s).trans
        (Map.acquisitions_seek order t hfree (fun c => (Cell.onCells_load c).lockless) trivial
          (Map.lockless_locate key))
  | store key v =>
      exact (acquisitions_map order t (Map.store key v) (fun _ => Answer.finished) s).trans
        ((Map.Write.settles_storing order t).acquisitions_eq Map.Write.onCells_storing hfree v)
  | swap key v =>
      exact (acquisitions_map order t (Map.swap key v) Answer.found s).trans
        ((Map.Write.settles_swapping order t).acquisitions_eq Map.Write.onCells_swapping hfree v)
  | loadOrStore key v =>
      exact (acquisitions_map order t (Map.loadOrStore key v)
        (fun x => Answer.settled x.1 x.2) s).trans
        ((Map.Write.settles_filling order t).acquisitions_eq Map.Write.onCells_filling hfree v)
  | loadAndDelete key =>
      exact (acquisitions_map order t (Map.loadAndDelete key) Answer.found s).trans
        (Map.acquisitions_seek order t hfree (fun c => (Cell.onCells_remove c).lockless) trivial
          (Map.lockless_withdraw key))
  | delete key =>
      exact (acquisitions_map order t (Map.delete key) (fun _ => Answer.finished) s).trans
        ((acquisitions_map order t (Map.loadAndDelete key) (fun _ => ()) s).trans
          (Map.acquisitions_seek order t hfree (fun c => (Cell.onCells_remove c).lockless) trivial
            (Map.lockless_withdraw key)))
  | compareAndSwap key old new =>
      exact (acquisitions_map order t (Map.compareAndSwap key old new) Answer.decided s).trans
        (Map.acquisitions_compareAndSwap order t hfree old new)
  | compareAndDelete key old =>
      exact (acquisitions_map order t (Map.compareAndDelete key old) Answer.decided s).trans
        (Map.acquisitions_seek order t hfree
          (fun c => (Cell.onCells_compareAndDelete c old).lockless) trivial (Map.lockless_locate key))
  | clear =>
      exact (acquisitions_map order t Map.clear (fun _ => Answer.finished) s).trans
        (Map.acquisitions_clear order t hfree)

/-- An operation acquires the mutex once, or not at all. -/
theorem Operation.acquisitions_eq (order : Enumeration K) (t : ThreadId) {s : Shared K V}
    (hfree : s.holder = none) (o : Operation K V) :
    o.program.acquisitions order t s = (o.needsMutex s).toNat := by
  cases o with
  | request r => exact r.acquisitions_eq order t hfree
  | depart => exact Map.acquisitions_itinerary order t hfree
  | reach c => exact (Cell.onCells_load c).lockless.acquisitions_eq order t s

end ConcurrentMap
