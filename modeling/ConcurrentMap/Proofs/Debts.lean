import ConcurrentMap.Proofs.Composition
import ConcurrentMap.Proofs.Custody.Steps
import ConcurrentMap.Proofs.Reshaping

/-!
# What the holder of the mutex announces

Whoever marks the snapshot as amended owes a key to the staged table: one that the snapshot lacks. A
`Debt` is what the holder of the mutex knows of the snapshot, and whether the key is staged.

`Program.announces` is defined along a program, and says that the thread pays before it lets the
mutex go, and that it replaces or drops a staged table only where none is announced. All operations
of the map do (`Map.supports_announces`). What one action makes of a debt that is right is
`Debt.Holds.perform`.
-/

namespace ConcurrentMap

variable {K V α β : Type}

/-- The staged table has the key, and the snapshot lacks it. -/
def Shared.StagedOnly [BEq K] (s : Shared K V) (key : K) : Prop :=
  (s.staging.find? key).isSome = true ∧ s.snapshot.find? key = none

/-! ## Debts -/

/-- What the holder of the mutex knows of the snapshot. -/
inductive Debt (K : Type) where
  /-- It has not looked. -/
  | unread
  /-- This is the snapshot. -/
  | known (snapshot : Snapshot K)
  /-- This is the snapshot, just marked as amended. A key that it lacks is yet to be staged. -/
  | due (snapshot : Snapshot K)
  /-- This is the snapshot, just marked as amended, and the key that it lacks is staged. -/
  | paid (snapshot : Snapshot K) (key : K)

namespace Debt

/-- Nothing was announced. -/
def Settled (n : Debt K) : Prop := n = unread ∨ ∃ snapshot, n = known snapshot

/-- What was announced is staged. -/
def Cleared (n : Debt K) : Prop := n.Settled ∨ ∃ snapshot key, n = paid snapshot key

/-- The thread knows that nothing amends the snapshot. -/
def Complete (n : Debt K) : Prop := ∃ snapshot, n = known snapshot ∧ snapshot.amended = false

theorem settled_known (snapshot : Snapshot K) : (known snapshot).Settled := .inr ⟨snapshot, rfl⟩

end Debt

variable [BEq K]

/-- When an action is in order: what is announced is paid for before anything else happens to the
tables and before the mutex is let go, and a staged table is replaced or dropped only where none is
announced. -/
def Action.InOrder (n : Debt K) : Action K V → Prop
  | .acquire => n.Settled
  | .release => n.Cleared
  | .readSnapshot => n.Settled
  | .publish _ => n.Settled
  | .stage key _ => ∀ snapshot, n = .due snapshot → snapshot.find? key = none
  | .unstage _ => n.Settled
  | .installStaged _ => n.Complete
  | .dropStaging => n.Complete
  | _ => True

omit [BEq K] in
/-- What the thread knows after an action. -/
def Action.debt (n : Debt K) : (a : Action K V) → a.Response → Debt K
  | .acquire, _ => .unread
  | .release, _ => .unread
  | .readSnapshot, snapshot => .known snapshot
  | .publish snapshot, _ => if snapshot.amended then .due snapshot else .known snapshot
  | .stage key _, _ =>
    match n with
    | .due snapshot => .paid snapshot key
    | n => n
  | _, _ => n

/-- All actions are in order, and when the program is done, `Q` holds of the debt. -/
def Program.announces : Program K V α → (α → Debt K → Prop) → Debt K → Prop
  | .done x, Q, n => Q x n
  | .act a next, Q, n => a.InOrder n ∧ ∀ r, (next r).announces Q (a.debt n r)
  | .retry _ next, Q, n => ∀ o, (next o).announces Q n

namespace Program

variable {p : Program K V α} {n : Debt K} {Q Q' : α → Debt K → Prop}

/-- What holds of the debt in the end may be weakened. -/
theorem announces_mono (h : p.announces Q n) (himp : ∀ x n, Q x n → Q' x n) :
    p.announces Q' n := by
  induction p generalizing n with
  | done x => exact himp x n h
  | act a next ih => exact ⟨h.1, fun r => ih r (h.2 r)⟩
  | retry u next ih => exact fun o => ih o (h o)

/-- A sequence is in order if the second part is, whatever debt the first one leaves. -/
theorem announces_bind {f : α → Program K V β} {R : β → Debt K → Prop}
    (h : p.announces (fun x n => (f x).announces R n) n) : (p >>= f).announces R n := by
  induction p generalizing n with
  | done x => exact h
  | act a next ih => exact ⟨h.1, fun r => ih r (h.2 r)⟩
  | retry u next ih => exact fun o => ih o (h o)

/-- Work on cells makes no difference. -/
theorem OnCells.announces (hp : p.OnCells) (h : ∀ x, Q x n) : p.announces Q n := by
  induction p with
  | done x => exact h x
  | act a next ih =>
      cases a with
      | drawStamp | newCell _ | readCell _ | exchange _ _ | compareExchange _ _ _ =>
          exact ⟨trivial, fun r => ih r (hp.2 r)⟩
      | _ => exact hp.1.elim
  | retry u next ih => exact fun o => ih o (hp o)

/-- An action that is in order may be followed by what is in order after it. -/
theorem announces_action {a : Action K V} {f : a.Response → Program K V β}
    {R : β → Debt K → Prop} (ha : a.InOrder n) (h : ∀ r, (f r).announces R (a.debt n r)) :
    (a.program >>= f).announces R n := ⟨ha, h⟩

end Program

open Program

/-! ## The operations -/

/-- The program owes nothing when it begins, nor when it is done. -/
def Program.Announces (p : Program K V α) : Prop :=
  ∀ n : Debt K, n.Settled → p.announces (fun _ n' => n'.Settled) n

/-- Work on cells begins and ends without a debt. -/
theorem Program.OnCells.announced {p : Program K V α} (hp : p.OnCells) : p.Announces :=
  fun _ hn => hp.announces fun _ => hn

/-- Programs that begin and end without a debt may be put together. -/
theorem Program.composes_announces :
    Program.Composes fun _ (p : Program K V _) => p.Announces where
  done _ _ hn := hn
  bind hp hf n hn := announces_bind (announces_mono (hp n hn) fun x n' hn' => hf x n' hn')

namespace Map

/-- What is done in the mutex has to be paid for by the end. -/
theorem announces_locked {body : Program K V α}
    (h : body.announces (fun _ n => n.Cleared) .unread) : (locked body).Announces := by
  intro n hn
  refine announces_action hn ?_
  intro _
  apply announces_bind
  apply announces_mono h
  intro x n' hn'
  exact ⟨hn', fun _ => .inl rfl⟩

/-- Promoting the staged table leaves nothing announced. -/
theorem announces_promote (reason : PromotionReason) {n : Debt K} (hn : n.Settled) :
    (promote reason : Program K V _).announces (fun _ n' => n'.Settled) n := by
  refine announces_action trivial ?_
  intro staging
  refine announces_action trivial ?_
  intro _
  refine announces_action hn ?_
  intro _
  -- the promoted table is complete, so the staged one may go
  refine announces_action ⟨_, rfl, rfl⟩ ?_
  exact fun _ => Debt.settled_known _

/-- Recording a miss leaves nothing announced, also if it promotes. -/
theorem announces_recordMiss {n : Debt K} (hn : n.Settled) :
    (recordMiss : Program K V _).announces (fun _ n' => n'.Settled) n := by
  refine announces_action trivial ?_
  intro due
  split
  · exact announces_bind (announces_mono (announces_promote .misses hn) fun _ _ hn' => hn')
  · exact hn

/-- Looking for the cell of a key announces nothing. -/
theorem announces_locate (key : K) : (locate key : Program K V _).Announces := by
  intro n hn
  refine announces_action hn ?_
  intro snapshot
  have hknown := Debt.settled_known snapshot
  split
  · exact hknown
  · split
    · refine announces_action trivial ?_
      intro found
      exact announces_bind (announces_mono (announces_recordMiss hknown) fun _ _ hn' => hn')
    · exact hknown

/-- Taking a key from the staged table announces nothing. -/
theorem announces_withdraw (key : K) : (withdraw key : Program K V _).Announces := by
  intro n hn
  refine announces_action hn ?_
  intro snapshot
  have hknown := Debt.settled_known snapshot
  split
  · exact hknown
  · split
    · exact ⟨hknown, fun _ => hknown⟩
    · exact hknown

/-- Clearing under the mutex announces nothing. -/
theorem announces_clearLocked : (clearLocked : Program K V _).Announces := by
  -- the reset comes where the snapshot is complete: it was so before, or it is empty now
  have hreset : ∀ snapshot : Snapshot K, snapshot.amended = false →
      (clearLocked.reset : Program K V _).announces (fun _ n => n.Settled) (.known snapshot) :=
    fun snapshot hcomplete => ⟨⟨snapshot, rfl, hcomplete⟩, fun _ =>
      ⟨trivial, fun _ => Debt.settled_known snapshot⟩⟩
  intro n hn
  refine announces_action hn ?_
  intro snapshot
  split
  · refine announces_action (Debt.settled_known snapshot) ?_
    exact fun _ => hreset .empty rfl
  · next hblank =>
    refine hreset snapshot ?_
    simp only [Bool.or_eq_true, not_or, Bool.not_eq_true] at hblank
    exact hblank.2

/-- Completing the snapshot under the mutex announces nothing. -/
theorem announces_completeLocked : (completeLocked : Program K V _).Announces := by
  intro n hn
  refine announces_action hn ?_
  intro snapshot
  split
  · exact announces_promote .traversal (Debt.settled_known snapshot)
  · exact Debt.settled_known snapshot

/-- A comparison under the mutex announces nothing. -/
theorem announces_compareAndSwapLocked [BEq V] (key : K) (old : V) (new : Handle V) :
    (compareAndSwapLocked key old new).Announces := by
  intro n hn
  refine announces_action hn ?_
  intro snapshot
  have hknown := Debt.settled_known snapshot
  split
  · exact (Cell.onCells_compareAndSwap _ _ _).announced _ hknown
  · refine announces_action trivial ?_
    intro staged
    split
    · apply announces_bind
      apply (Cell.onCells_compareAndSwap _ _ _).announces
      intro swapped
      exact announces_bind (announces_mono (announces_recordMiss hknown) fun _ _ hn' => hn')
    · exact hknown

/-- Copying the live entries is work on cells. -/
theorem onCells_copyLive (entries : List (K × CellId)) (copies : Table K) (buried : Nat) :
    (copyLive entries copies buried : Program K V _).OnCells := by
  induction entries generalizing copies buried with
  | nil => trivial
  | cons e entries ih =>
      refine .bind (Cell.onCells_bury e.2) fun gone => ?_
      split
      · exact ih _ _
      · exact ih _ _

/-- A staged table that is opened is announced at once, and what it announces is due. -/
theorem announces_openStaging (snapshot : Snapshot K) :
    (openStaging snapshot : Program K V _).announces
      (fun _ n => n = .known snapshot ∧ snapshot.amended = true ∨ n = .due snapshot.markAmended)
      (.known snapshot) := by
  unfold openStaging
  split
  · next ham => exact .inl ⟨rfl, ham⟩
  · next ham =>
    have hcomplete : (Debt.known snapshot).Complete := ⟨snapshot, rfl, by simpa using ham⟩
    have hpublish : (Action.publish snapshot.markAmended : Action K V).program.announces
        (fun _ n => n = .known snapshot ∧ snapshot.amended = true ∨
          n = .due snapshot.markAmended) (.known snapshot) :=
      ⟨Debt.settled_known snapshot, fun _ => .inr rfl⟩
    apply announces_bind
    -- The staged table is made before it is announced; it replaces none, as nothing is staged.
    refine announces_action trivial ?_
    intro staged
    split
    · exact hpublish
    · refine announces_action trivial ?_
      intro entries
      apply announces_bind
      apply (onCells_copyLive _ _ _).announces
      intro copied
      exact ⟨trivial, fun _ => ⟨hcomplete, fun _ => hpublish⟩⟩

/-- Staging a new key pays for what is announced. -/
theorem announces_stageNew {snapshot : Snapshot K} {key : K} (hkey : snapshot.find? key = none)
    (new : Handle V) :
    (stageNew snapshot key new).announces (fun _ n => n.Cleared) (.known snapshot) := by
  apply announces_bind
  apply announces_mono (announces_openStaging snapshot)
  intro _ n hn
  refine announces_action trivial ?_
  intro c
  obtain ⟨rfl, -⟩ | rfl := hn
  · refine ⟨?_, fun _ => .inl (Debt.settled_known snapshot)⟩
    intro other hother
    cases hother
  · refine ⟨?_, fun _ => .inr ⟨snapshot.markAmended, key, rfl⟩⟩
    intro other hother
    cases hother
    exact hkey

/-- A write under the mutex pays for what it announces. -/
theorem Write.OnCells.announces_underMutex {w : Write K V α} (hw : w.OnCells) (key : K)
    (new : Handle V) : (w.underMutex key new).announces (fun _ n => n.Cleared) .unread := by
  refine announces_action (.inl rfl) ?_
  intro snapshot
  have hknown := Debt.settled_known snapshot
  split
  -- The snapshot leads to the cell, so whatever is staged was announced before.
  · next c _ =>
    apply announces_bind
    apply announces_bind
    apply (Cell.onCells_revive c).announces
    intro revived
    have hguarded : (w.guarded c new).announces (fun _ n => n.Cleared) (.known snapshot) :=
      (hw.guarded c new).announces fun _ => .inl hknown
    split
    · refine ⟨?_, fun _ => hguarded⟩
      intro other hother
      cases hother
    · exact hguarded
  -- The key is not in the snapshot: it is staged already, or staged now, which pays.
  · next hkey =>
    refine announces_action trivial ?_
    intro staged
    split
    · next c =>
      apply announces_bind
      apply (hw.guarded c new).announces
      intro answer
      apply announces_bind
      unfold Write.charge
      split
      · exact announces_mono (announces_recordMiss hknown) fun _ _ hn' => .inl hn'
      · exact .inl hknown
    · apply announces_bind
      exact announces_mono (announces_stageNew hkey new) fun _ _ hn' => hn'

/-- A write owes nothing when it is done, whether it takes the mutex or not. -/
theorem Write.OnCells.announces_program {w : Write K V α} (hw : w.OnCells) (key : K) (value : V) :
    (w.program key value).Announces := by
  have hlocked : ∀ new : Handle V, (locked (w.underMutex key new)).Announces := fun new =>
    announces_locked (hw.announces_underMutex key new)
  intro n hn
  refine announces_action trivial ?_
  intro stamp
  refine announces_action hn ?_
  intro snapshot
  have hknown := Debt.settled_known snapshot
  split
  · next c _ =>
    apply announces_bind
    apply (hw.attempt c _).announces
    intro answer
    split
    · exact hknown
    · exact hlocked _ _ hknown
  · exact hlocked _ _ hknown

/-- An operation that looks for a cell, in the mutex if need be, and then works on it. -/
theorem announces_seek {key : K} {found : CellId → Program K V α} {missing : Program K V α}
    {search : Program K V (Option CellId)} (hsearch : search.Announces)
    (hfound : ∀ c, (found c).OnCells) (hmissing : missing.OnCells) :
    (seek key search found missing).Announces := by
  intro n hn
  rw [seek]
  refine announces_action hn ?_
  intro snapshot
  have hknown := Debt.settled_known snapshot
  have hlocked : (locked search).Announces :=
    announces_locked (announces_mono (hsearch .unread (.inl rfl)) fun _ _ hn' => .inl hn')
  split
  · next c _ => exact (hfound c).announced _ hknown
  · split
    · apply announces_bind
      apply announces_mono (hlocked _ hknown)
      intro c n' hn'
      cases c with
      | some c => exact (hfound c).announced _ hn'
      | none => exact hmissing.announced _ hn'
    · exact hmissing.announced _ hknown

/-- A comparison owes nothing when it is done. -/
theorem announces_compareAndSwap [BEq V] (key : K) (old new : V) :
    (compareAndSwap key old new).Announces := by
  intro n hn
  refine announces_action trivial ?_
  intro stamp
  refine announces_action hn ?_
  intro snapshot
  have hknown := Debt.settled_known snapshot
  split
  · exact (Cell.onCells_compareAndSwap _ _ _).announced _ hknown
  · split
    · refine announces_locked (announces_mono ?_ fun _ _ hn' => .inl hn') _ hknown
      exact announces_compareAndSwapLocked key old _ .unread (.inl rfl)
    · exact hknown

/-- Clearing owes nothing when it is done. -/
theorem announces_clear : (clear : Program K V _).Announces := by
  intro n hn
  refine announces_action hn ?_
  intro seen
  have hknown := Debt.settled_known seen
  split
  · refine announces_locked (announces_mono ?_ fun _ _ hn' => .inl hn') _ hknown
    exact announces_clearLocked .unread (.inl rfl)
  · exact hknown

/-- Fixing what a traversal visits owes nothing when it is done. -/
theorem announces_itinerary : (itinerary : Program K V _).Announces := by
  have hwalk : ∀ (snapshot : Snapshot K) (n : Debt K), n.Settled →
      (Action.walk snapshot.table : Action K V).program.announces (fun _ n' => n'.Settled) n :=
    fun _ _ hn => ⟨trivial, fun _ => hn⟩
  intro n hn
  apply announces_bind
  refine announces_action hn ?_
  intro seen
  have hknown := Debt.settled_known seen
  split
  · have hcleared : (completeLocked : Program K V _).announces (fun _ n => n.Cleared) .unread :=
      announces_mono (announces_completeLocked .unread (.inl rfl)) fun _ _ hn' => .inl hn'
    exact announces_mono (announces_locked hcleared _ hknown) hwalk
  · exact hwalk seen _ hknown

/-- No operation of the map owes anything when it is done. -/
theorem supports_announces [BEq V] :
    Map.Supports fun _ (p : Program K V _) => p.Announces where
  store key value := Write.onCells_storing.announces_program key value
  itinerary := announces_itinerary
  load c := (Cell.onCells_load c).announced
  request r := by
    -- What is made of an answer adds no debt.
    have hdone : ∀ {β : Type} (x : β), (done x : Program K V β).Announces := fun _ _ hn => hn
    cases r with
    | load key =>
        exact composes_announces.bind
          (announces_seek (announces_locate key) Cell.onCells_load trivial) fun _ => hdone _
    | store key value =>
        exact composes_announces.bind (Write.onCells_storing.announces_program key value)
          fun _ => hdone _
    | swap key value =>
        exact composes_announces.bind (Write.onCells_swapping.announces_program key value)
          fun _ => hdone _
    | loadOrStore key value =>
        exact composes_announces.bind (Write.onCells_filling.announces_program key value)
          fun _ => hdone _
    | loadAndDelete key =>
        exact composes_announces.bind
          (announces_seek (announces_withdraw key) Cell.onCells_remove trivial) fun _ => hdone _
    | delete key =>
        exact composes_announces.bind (composes_announces.bind
          (announces_seek (announces_withdraw key) Cell.onCells_remove trivial) fun _ => hdone _)
          fun _ => hdone _
    | compareAndSwap key old new =>
        exact composes_announces.bind (announces_compareAndSwap key old new) fun _ => hdone _
    | compareAndDelete key old =>
        exact composes_announces.bind (announces_seek (announces_locate key)
          (fun c => Cell.onCells_compareAndDelete c old) trivial) fun _ => hdone _
    | clear => exact composes_announces.bind announces_clear fun _ => hdone _

end Map

/-! ## One step -/

/-- The debt is right about the state. -/
def Debt.Holds (s : Shared K V) : Debt K → Prop
  | unread => True
  | known snapshot => s.snapshot = snapshot
  | due snapshot => s.snapshot = snapshot
  | paid snapshot key => s.snapshot = snapshot ∧ s.StagedOnly key

omit [BEq K] in
/-- Something was announced since the mutex was taken. -/
def Debt.Open : Debt K → Prop
  | unread => False
  | known _ => False
  | due _ => True
  | paid _ _ => True

variable {order : Enumeration K} {t : ThreadId} {s s' : Shared K V} {n : Debt K} {key : K}
  {a : Action K V} {r : a.Response × Shared K V}

/-- Whether only the staged table has a key depends on the two tables alone. -/
theorem Shared.StagedOnly.congr (h : s.StagedOnly key) (hsnap : s'.snapshot = s.snapshot)
    (hstag : s'.staging = s.staging) : s'.StagedOnly key := by
  unfold StagedOnly
  rw [hsnap, hstag]
  exact h

/-- Whether a debt is right depends on the two tables alone. -/
theorem Debt.Holds.congr (h : n.Holds s) (hsnap : s'.snapshot = s.snapshot)
    (hstag : s'.staging = s.staging) : n.Holds s' := by
  cases n with
  | unread => trivial
  | known snapshot => exact hsnap.trans h
  | due snapshot => exact hsnap.trans h
  | paid snapshot key => exact ⟨hsnap.trans h.1, h.2.congr hsnap hstag⟩

/-- The mutex is taken by no other action. -/
theorem Action.eq_acquire (hr : a.perform order t s = some r) (hheld : r.2.holder = some t)
    (hs : s.holder ≠ some t) : a = .acquire := by
  cases a with
  | acquire => rfl
  | compareExchange c seen new =>
      obtain rfl := Option.some.inj hr
      simp only [Shared.compareExchange] at hheld
      split at hheld <;> exact absurd hheld hs
  | release =>
      obtain rfl := Option.some.inj hr
      cases hheld
  | _ =>
      obtain rfl := Option.some.inj hr
      exact absurd hheld hs

/-- A snapshot is only replaced by whoever owes for it. -/
theorem Action.snapshot_perform (n : Debt K) (hr : a.perform order t s = some r) :
    r.2.snapshot = s.snapshot ∨ r.2.holder = s.holder ∧
      (r.2.snapshot.amended = true → (a.debt n r.1).Open) := by
  cases a with
  -- Only this action replaces a snapshot.
  | publish snapshot =>
      obtain rfl := Option.some.inj hr
      refine .inr ⟨rfl, fun ham => ?_⟩
      have ham : snapshot.amended = true := ham
      simp only [debt, ham, if_true]
      trivial
  | acquire =>
      obtain ⟨-, rfl⟩ := of_perform_acquire hr
      exact .inl rfl
  | compareExchange c seen new =>
      obtain rfl := Option.some.inj hr
      exact .inl (s.steady_compareExchange c seen new).snapshot
  | _ =>
      obtain rfl := Option.some.inj hr
      exact .inl rfl

/-- What was announced stays so until the mutex is let go, and then it is paid for. -/
theorem Debt.Open.perform (h : n.Open) (ha : a.InOrder n) (r : a.Response) :
    (a = .release ∧ ∃ snapshot key, n = .paid snapshot key) ∨ (a.debt n r).Open := by
  have hopen : ¬n.Settled := by
    rintro (rfl | ⟨snapshot, rfl⟩) <;> exact h
  cases a with
  | release =>
      rcases ha with hsettled | hpaid
      · exact absurd hsettled hopen
      · exact .inl ⟨rfl, hpaid⟩
  | acquire => exact absurd ha hopen
  | readSnapshot => exact absurd ha hopen
  | publish snapshot => exact absurd ha hopen
  | stage key c => cases n <;> first | exact h.elim | exact .inr trivial
  | _ => exact .inr h

variable [EquivBEq K]

/-- A key stays staged if another one is. -/
theorem Shared.StagedOnly.stage (h : s.StagedOnly key) (other : K) (c : CellId) :
    (s.setStaged (some ((s.staging.table.getD .empty).insert other c))).StagedOnly key := by
  refine ⟨?_, h.2⟩
  rw [Shared.setStaged, Staging.find?_insert]
  split
  · rfl
  · exact h.1

/-- What a thread knows after an action, it knows rightly. -/
theorem Debt.Holds.perform (h : n.Holds s) (ha : a.InOrder n)
    (hr : a.perform order t s = some r) : (a.debt n r.1).Holds r.2 := by
  cases a with
  | acquire => trivial
  | release => trivial
  | readSnapshot =>
      obtain rfl := Option.some.inj hr
      rfl
  | publish snapshot =>
      obtain rfl := Option.some.inj hr
      simp only [Action.debt]
      split <;> rfl
  -- Staging a key that the snapshot lacks pays; a key that was staged already stays so.
  | stage key c =>
      obtain rfl := Option.some.inj hr
      cases n with
      | unread => trivial
      | known snapshot => exact h
      | due snapshot =>
          have hsnap : s.snapshot = snapshot := h
          refine ⟨hsnap, ?_, hsnap ▸ ha snapshot rfl⟩
          rw [Shared.setStaged, Staging.find?_insert, if_pos BEq.rfl]
          rfl
      | paid snapshot other => exact ⟨h.1, h.2.stage key c⟩
  -- Nothing is taken from the staged table while it is announced and unpaid.
  | unstage key =>
      obtain rfl := Option.some.inj hr
      rcases ha with rfl | ⟨snapshot, rfl⟩
      · trivial
      · exact h
  | installStaged table =>
      obtain rfl := Option.some.inj hr
      obtain ⟨snapshot, rfl, -⟩ := ha
      exact h
  | dropStaging =>
      obtain rfl := Option.some.inj hr
      obtain ⟨snapshot, rfl, -⟩ := ha
      exact h
  | compareExchange c seen new =>
      obtain rfl := Option.some.inj hr
      have hsteady := s.steady_compareExchange c seen new
      exact h.congr hsteady.snapshot hsteady.staging
  | countMiss =>
      obtain rfl := Option.some.inj hr
      cases n <;> exact h
  | _ =>
      obtain rfl := Option.some.inj hr
      exact h.congr rfl rfl

/-- Beside an amended snapshot, a key that only the staged table has leaves it by being dropped, and
in no other way. -/
theorem Shared.StagedOnly.perform (hs : s.StagedOnly key) (ham : s.snapshot.amended = true)
    (h : n.Holds s) (ha : a.InOrder n) (hr : a.perform order t s = some r)
    (hsnap : r.2.snapshot = s.snapshot) :
    r.2.StagedOnly key ∨ ∃ other, a = .unstage other ∧ (other == key) = true := by
  -- A debt that knows the snapshot to be complete would be wrong here.
  have hcomplete : ¬n.Complete := by
    rintro ⟨snapshot, rfl, hcomplete⟩
    have hsnap : s.snapshot = snapshot := h
    rw [hsnap, hcomplete] at ham
    cases ham
  cases a with
  | acquire =>
      obtain ⟨-, rfl⟩ := Action.of_perform_acquire hr
      exact .inl hs
  | installStaged table => exact absurd ha hcomplete
  | dropStaging => exact absurd ha hcomplete
  | stage other c =>
      obtain rfl := Option.some.inj hr
      exact .inl (hs.stage other c)
  | unstage other =>
      obtain rfl := Option.some.inj hr
      -- The key itself is dropped, or another one is.
      by_cases hother : (other == key) = true
      · exact .inr ⟨other, rfl, hother⟩
      · refine .inl ⟨?_, hs.2⟩
        rw [Shared.setStaged, Staging.find?_erase, if_neg hother]
        exact hs.1
  | publish snapshot =>
      obtain rfl := Option.some.inj hr
      exact .inl (hs.congr hsnap rfl)
  | compareExchange c seen new =>
      obtain rfl := Option.some.inj hr
      have hsteady := s.steady_compareExchange c seen new
      exact .inl (hs.congr hsteady.snapshot hsteady.staging)
  | _ =>
      obtain rfl := Option.some.inj hr
      exact .inl hs

omit [EquivBEq K] in
/-- A step performs an action, or attempts an exchange. -/
theorem Program.announces_step {p p' : Program K V α} {Q : α → Debt K → Prop}
    (hp : p.announces Q n) (hstep : p.step order t s = some (p', s')) :
    (∃ (a : Action K V) (next : a.Response → Program K V α) (r : a.Response × Shared K V),
      p = .act a next ∧ a.InOrder n ∧ a.perform order t s = some r ∧ s' = r.2 ∧
        p'.announces Q (a.debt n r.1)) ∨
      p'.announces Q n ∧ s.Steady s' := by
  cases p with
  | done x => simp [step] at hstep
  | act a next =>
      obtain ⟨r, hperf, rfl, rfl⟩ := of_step_act hstep
      exact .inl ⟨a, next, r, rfl, hp.1, hperf, rfl, hp.2 r.1⟩
  | retry u next =>
      rcases step_retry_cases hstep with ⟨-, rfl, rfl⟩ | ⟨-, rfl, ⟨-, rfl⟩ | ⟨-, rfl⟩⟩
      · exact .inr ⟨hp _, rfl, rfl, rfl, rfl, rfl⟩
      · exact .inr ⟨hp, .refl _⟩
      · exact .inr ⟨hp _, .refl _⟩

end ConcurrentMap
