import ConcurrentMap.Proofs.Cells.Supplies
import ConcurrentMap.Proofs.Composition
import ConcurrentMap.Proofs.Reshaping
import Mathlib.Order.BooleanAlgebra.Set

/-!
# Every stamp is spent once

A stamp is drawn by one thread, which may put one slot with it into one cell. `Program.affords` says
that a program keeps to that: it puts slots into cells only if their stamps are its own, and a stamp
is no longer its own once it was used. All operations do (`Map.supports_frugal`), also those that
try a slot without the mutex first and again under it: they only go on to the second attempt if the
first one did not put the slot anywhere.
-/

namespace ConcurrentMap

variable {K V α β : Type}

/-! ## Own stamps -/

/-- A stamp that is drawn is not one that the thread has. -/
def Action.Fresh (own : Set Stamp) : (a : Action K V) → a.Response → Prop
  | .drawStamp, stamp => stamp ∉ own
  | _, _ => True

/-- The thread's own stamps after an action. -/
def Action.purse (own : Set Stamp) : (a : Action K V) → a.Response → Set Stamp
  | .drawStamp, stamp => insert stamp own
  | .newCell x, _ => own \ {x.stamp}
  | .exchange _ x, _ => own \ {x.stamp}
  | .compareExchange _ _ x, done => if done then own \ {x.stamp} else own
  | _, _ => own

/-- The thread's own stamps after a retried exchange has ended. -/
def Outcome.purse (own : Set Stamp) (candidate : Slot V) : Outcome V → Set Stamp
  | .installed _ => own \ {candidate.stamp}
  | .refused _ => own

/-- The program only puts its own slots into cells, and each of them once. When it is done, `Q`
holds of the stamps that it has left. -/
def Program.affords : Program K V α → (α → Set Stamp → Prop) → Set Stamp → Prop
  | .done x, Q, own => Q x own
  | .act a next, Q, own => (∀ x, a.slot? = some x → x.stamp ∈ own) ∧
      ∀ r, a.Fresh own r → (next r).affords Q (a.purse own r)
  | .retry u next, Q, own => u.candidate.stamp ∈ own ∧
      ∀ o, (next o).affords Q (o.purse own u.candidate)

namespace Program

variable {p : Program K V α} {own own' : Set Stamp} {Q Q' : α → Set Stamp → Prop} {r : Stamp}

/-- What holds in the end may be weakened. -/
theorem affords_mono (h : p.affords Q own) (himp : ∀ x own', Q x own' → Q' x own') :
    p.affords Q' own := by
  induction p generalizing own with
  | done x => exact himp x own h
  | act a next ih => exact ⟨h.1, fun r hr => ih r (h.2 r hr)⟩
  | retry u next ih => exact ⟨h.1, fun o => ih o (h.2 o)⟩

/-- A sequence keeps to its stamps if its parts do, each with what the one before has left. -/
theorem affords_bind {f : α → Program K V β} {R : β → Set Stamp → Prop}
    (h : p.affords (fun x own' => (f x).affords R own') own) : (p >>= f).affords R own := by
  induction p generalizing own with
  | done x => exact h
  | act a next ih => exact ⟨h.1, fun r hr => ih r (h.2 r hr)⟩
  | retry u next ih => exact ⟨h.1, fun o => ih o (h.2 o)⟩

/-- An action may put a slot into a cell if the thread has its stamp. -/
theorem affords_action {a : Action K V} {f : a.Response → Program K V β} {R : β → Set Stamp → Prop}
    (ha : ∀ x, a.slot? = some x → x.stamp ∈ own)
    (h : ∀ r, a.Fresh own r → (f r).affords R (a.purse own r)) : (a.program >>= f).affords R own :=
  ⟨ha, h⟩

/-- The program draws the stamps that it needs, and uses no others. -/
def Frugal (p : Program K V α) : Prop :=
  ∀ own, p.affords (fun _ own' => own ⊆ own') own

/-- The program may use the stamp `r`. -/
def Spends (r : Stamp) (p : Program K V α) : Prop :=
  ∀ own, r ∈ own → p.affords (fun _ own' => own \ {r} ⊆ own') own

/-- The program may use the stamp `r`, but has not done so if it has no answer. -/
def Tries (r : Stamp) (p : Program K V (Option α)) : Prop :=
  ∀ own, r ∈ own → p.affords (fun x own' => own \ {r} ⊆ own' ∧ (x = none → own ⊆ own')) own

/-- To be frugal is a property that sequences inherit from their parts. -/
theorem composes_frugal : Program.Composes fun _ (p : Program K V _) => p.Frugal where
  done _ _ := subset_rfl
  bind hp hf own := affords_bind (affords_mono (hp own) fun x own' hown' =>
    affords_mono (hf x own') fun _ _ hown'' => hown'.trans hown'')

/-- A sequence of frugal programs is frugal. -/
theorem Frugal.bind {f : α → Program K V β} (hp : p.Frugal) (hf : ∀ x, (f x).Frugal) :
    (p >>= f).Frugal := composes_frugal.bind hp hf

/-- A program that is done uses no stamp. -/
theorem frugal_done (x : α) : (done x : Program K V α).Frugal := composes_frugal.done x

/-- An action that has nothing to do with stamps. -/
theorem frugal_action {a : Action K V} (hslot : a.slot? = none)
    (hpurse : ∀ own r, a.purse own r = own) : a.program.Frugal := by
  refine fun own => ⟨fun x hx => ?_, fun r _ => ?_⟩
  · rw [hslot] at hx
    cases hx
  · rw [hpurse]
    exact subset_rfl

/-- A frugal program may do without a stamp that it is given. -/
theorem Frugal.spends (h : p.Frugal) : p.Spends r := fun own _ =>
  affords_mono (h own) fun _ _ hown' => Set.sdiff_subset.trans hown'

/-- A frugal program leaves the stamp to the one that comes next. -/
theorem Frugal.bind_spends {f : α → Program K V β} (hp : p.Frugal) (hf : ∀ x, (f x).Spends r) :
    (p >>= f).Spends r := by
  intro own hr
  apply affords_bind
  apply affords_mono (hp own)
  intro x own₁ hown₁
  apply affords_mono (hf x own₁ (hown₁ hr))
  exact fun _ _ hown₂ => (Set.sdiff_subset_sdiff_left hown₁).trans hown₂

/-- A frugal program leaves the stamp to the one that tries it next. -/
theorem Frugal.bind_tries {f : α → Program K V (Option β)} (hp : p.Frugal)
    (hf : ∀ x, (f x).Tries r) : (p >>= f).Tries r := by
  intro own hr
  apply affords_bind
  apply affords_mono (hp own)
  intro x own₁ hown₁
  apply affords_mono (hf x own₁ (hown₁ hr))
  exact fun _ _ hown₂ => ⟨(Set.sdiff_subset_sdiff_left hown₁).trans hown₂.1,
    fun hnone => hown₁.trans (hown₂.2 hnone)⟩

/-- Once the stamp is used, the rest has to be frugal. -/
theorem Spends.bind_frugal {f : α → Program K V β} (hp : p.Spends r) (hf : ∀ x, (f x).Frugal) :
    (p >>= f).Spends r := by
  intro own hr
  apply affords_bind
  apply affords_mono (hp own hr)
  intro x own₁ hown₁
  apply affords_mono (hf x own₁)
  exact fun _ _ hown₂ => hown₁.trans hown₂

/-- Another answer, but not in the place of none. -/
theorem Tries.map {p : Program K V (Option α)} {f : Option α → Program K V (Option β)}
    (hp : p.Tries r) (hf : ∀ x, (∃ y, f x = done (some y)) ∨ x = none ∧ f x = done none) :
    (p >>= f).Tries r := by
  intro own hr
  apply affords_bind
  apply affords_mono (hp own hr)
  intro x own₁ hown₁
  rcases hf x with ⟨y, hy⟩ | ⟨hnone, hy⟩ <;> rw [hy]
  · exact ⟨hown₁.1, fun hnone => by cases hnone⟩
  · exact ⟨hown₁.1, fun _ => hown₁.2 hnone⟩

/-- What was not used at the first try may be used afterwards. -/
theorem Tries.bind {p : Program K V (Option α)} {f : Option α → Program K V β} (hp : p.Tries r)
    (hsome : ∀ x, (f (some x)).Frugal) (hnone : (f none).Spends r) : (p >>= f).Spends r := by
  intro own hr
  apply affords_bind
  apply affords_mono (hp own hr)
  intro x own₁ hown₁
  cases x with
  | some x => exact affords_mono (hsome x own₁) fun _ _ hown₂ => hown₁.1.trans hown₂
  | none =>
      have hkept := hown₁.2 rfl
      apply affords_mono (hnone own₁ (hkept hr))
      exact fun _ _ hown₂ => (Set.sdiff_subset_sdiff_left hkept).trans hown₂

/-- A stamp is drawn for what comes next. -/
theorem frugal_drawStamp {next : Stamp → Program K V β} (h : ∀ r, (next r).Spends r) :
    ((Action.drawStamp : Action K V).program >>= next).Frugal := by
  intro own
  refine affords_action (fun x hx => by cases hx) ?_
  intro r hr
  have hfresh : r ∉ own := hr
  apply affords_mono (h r (insert r own) (Set.mem_insert r own))
  intro _ own' hown'
  rwa [Set.insert_sdiff_self_of_notMem hfresh] at hown'

/-- A retried exchange uses the stamp if it ends by putting the slot into the cell. -/
theorem affords_update {u : Update V} {next : Outcome V → Program K V β} {R : β → Set Stamp → Prop}
    (hr : u.candidate.stamp ∈ own)
    (hin : ∀ previous, (next (.installed previous)).affords R (own \ {u.candidate.stamp}))
    (hout : ∀ found, (next (.refused found)).affords R own) :
    (u.program >>= next).affords R own := by
  unfold Update.program
  split
  · refine ⟨hr, fun o => ?_⟩
    cases o with
    | installed previous => exact hin previous
    | refused found => exact hout found
  · exact hout _

/-- A write uses the stamp of its slot. -/
theorem spends_exchange (c : CellId) (x : Slot V) :
    ((Action.exchange c x).program : Program K V _).Spends x.stamp :=
  fun _ hr => ⟨fun _ hy => Option.some.inj hy ▸ hr, fun _ _ => subset_rfl⟩

/-- A new cell uses the stamp of its slot. -/
theorem spends_newCell (x : Slot V) :
    ((Action.newCell x).program : Program K V _).Spends x.stamp :=
  fun _ hr => ⟨fun _ hy => Option.some.inj hy ▸ hr, fun _ _ => subset_rfl⟩

/-- A single exchange uses the stamp of its slot, or fails. -/
theorem spends_compareExchange (c : CellId) (seen x : Slot V) :
    ((Action.compareExchange c seen x).program : Program K V _).Spends x.stamp := by
  refine fun own hr => ⟨fun _ hy => Option.some.inj hy ▸ hr, fun done _ => ?_⟩
  cases done with
  | true => exact subset_rfl
  | false => exact Set.sdiff_subset

/-- To read a cell takes no stamp. -/
theorem frugal_readCell (c : CellId) : ((Action.readCell c).program : Program K V _).Frugal :=
  frugal_action rfl fun _ _ => rfl

end Program

open Program

/-! ## Operations on cells -/

namespace Cell

variable (c : CellId)

/-- A load takes no stamp. -/
theorem frugal_load : (load c : Program K V _).Frugal :=
  (frugal_readCell c).bind fun _ => frugal_done _

/-- A swap that meets a tombstone has not used its slot. -/
theorem tries_trySwap (new : Handle V) : (trySwap c new : Program K V _).Tries new.stamp := by
  apply (frugal_readCell c).bind_tries
  -- the answer is none only if the exchange was refused
  intro seen own hr
  apply affords_update hr
  · exact fun _ => ⟨subset_rfl, fun hnone => by cases hnone⟩
  · exact fun _ => ⟨Set.sdiff_subset, fun _ => subset_rfl⟩

/-- An attempt that meets a tombstone has not used its slot. -/
theorem tries_tryLoadOrStore (candidate : Handle V) :
    (tryLoadOrStore c candidate : Program K V _).Tries candidate.stamp := by
  apply (frugal_readCell c).bind_tries
  intro seen own hr
  apply affords_update hr
  · exact fun _ => ⟨subset_rfl, fun hnone => by cases hnone⟩
  · exact fun _ => ⟨Set.sdiff_subset, fun _ => subset_rfl⟩

/-- To vacate a cell takes one stamp, which is drawn for the absent slot. -/
theorem frugal_vacate (wanted : Content V → Bool) : (vacate c wanted : Program K V _).Frugal := by
  apply (frugal_readCell c).bind
  intro seen
  split
  · apply frugal_drawStamp
    intro r own hr
    apply affords_update hr
    · exact fun _ => subset_rfl
    · exact fun _ => Set.sdiff_subset
  · exact frugal_done _

/-- A removal draws the stamp that it needs. -/
theorem frugal_remove : (remove c : Program K V _).Frugal :=
  (frugal_vacate c _).bind fun _ => frugal_done _

/-- A comparison that fails has not used its slot, and one that succeeds has used it once. -/
theorem spends_compareAndSwap [BEq V] (old : V) (new : Handle V) :
    (compareAndSwap c old new : Program K V _).Spends new.stamp := by
  apply (frugal_readCell c).bind_spends
  intro seen own hr
  apply affords_update hr
  · exact fun _ => subset_rfl
  · exact fun _ => Set.sdiff_subset

/-- A comparison that deletes draws the stamp that it needs. -/
theorem frugal_compareAndDelete [BEq V] (old : V) :
    (compareAndDelete c old : Program K V _).Frugal :=
  (frugal_vacate c _).bind fun _ => frugal_done _

/-- A swap under the mutex uses its slot at once. -/
theorem spends_swap (new : Handle V) : (swap c new : Program K V _).Spends new.stamp :=
  (spends_exchange c new.slot).bind_frugal fun _ => frugal_done _

/-- A store under the mutex uses its slot at once. -/
theorem spends_store (new : Handle V) : (store c new : Program K V _).Spends new.stamp :=
  (spends_exchange c new.slot).bind_frugal fun _ => frugal_done _

/-- The second attempt uses the slot only if the first one has not. -/
theorem spends_loadOrStore (candidate : Handle V) :
    (loadOrStore c candidate : Program K V _).Spends candidate.stamp := by
  apply (tries_tryLoadOrStore c candidate).bind
  · exact fun _ => frugal_done _
  · exact (spends_store c candidate).bind_frugal fun _ => frugal_done _

/-- To lift a tombstone takes one stamp, which is drawn for the absent slot. -/
theorem frugal_revive : (revive c : Program K V _).Frugal := by
  apply (frugal_readCell c).bind
  intro seen
  split
  · apply frugal_drawStamp
    exact fun r => spends_compareExchange c seen ⟨r, .absent⟩
  · exact frugal_done _

/-- To bury a cell takes one stamp, which is drawn for the tombstone. -/
theorem frugal_bury : (bury c : Program K V _).Frugal := by
  apply (frugal_readCell c).bind
  intro seen
  split
  · apply frugal_drawStamp
    intro r own hr
    apply affords_update hr
    · exact fun _ => subset_rfl
    · exact fun _ => Set.sdiff_subset
  · exact frugal_done _

end Cell

/-! ## Operations of the map -/

namespace Map

/-- To take the mutex and to let it go takes no stamp. -/
theorem frugal_locked {body : Program K V α} (h : body.Frugal) : (locked body).Frugal :=
  (frugal_action rfl fun _ _ => rfl).bind fun _ => h.bind fun _ =>
    (frugal_action rfl fun _ _ => rfl).bind fun _ => frugal_done _

/-- What is done under the mutex uses the stamp that it would use anyway. -/
theorem spends_locked {body : Program K V α} {r : Stamp} (h : body.Spends r) :
    (locked body).Spends r :=
  (frugal_action rfl fun _ _ => rfl).bind_spends fun _ => h.bind_frugal fun _ =>
    (frugal_action rfl fun _ _ => rfl).bind fun _ => frugal_done _

/-- A promotion takes no stamp. -/
theorem frugal_promote (reason : PromotionReason) : (promote reason : Program K V _).Frugal := by
  apply (frugal_action rfl fun _ _ => rfl).bind
  intro staging
  apply (frugal_action rfl fun _ _ => rfl).bind
  intro _
  apply (frugal_action rfl fun _ _ => rfl).bind
  intro _
  exact (frugal_action rfl fun _ _ => rfl).bind fun _ => frugal_done _

/-- To count a miss takes no stamp, even if it leads to a promotion. -/
theorem frugal_recordMiss : (recordMiss : Program K V _).Frugal := by
  apply (frugal_action rfl fun _ _ => rfl).bind
  intro due
  split
  · exact (frugal_promote .misses).bind fun _ => frugal_done _
  · exact frugal_done _

/-- To bring a cell back draws the stamp that it needs. -/
theorem frugal_readmit (key : K) (c : CellId) : ( readmit key c : Program K V _).Frugal := by
  apply (Cell.frugal_revive c).bind
  intro revived
  split
  · exact frugal_action rfl fun _ _ => rfl
  · exact frugal_done _

/-- A way of writing a key that uses the slot at most once. -/
structure Write.Frugal (w : Write K V α) : Prop where
  attempt : ∀ c new, (w.attempt c new).Tries new.stamp
  guarded : ∀ c new, (w.guarded c new).Spends new.stamp

/-- To store is to try a swap first and to store under the mutex if that was refused. -/
theorem Write.frugal_storing : (storing : Write K V Unit).Frugal where
  attempt c new := by
    show (Cell.tryStore c new >>= _).Tries _
    rw [Cell.tryStore, LawfulMonad.bind_assoc]
    apply (Cell.tries_trySwap c new).map
    intro previous
    cases previous with
    | some handle => exact .inl ⟨_, rfl⟩
    | none => exact .inr ⟨rfl, rfl⟩
  guarded := Cell.spends_store

/-- To swap is to try a swap first and to swap under the mutex if that was refused. -/
theorem Write.frugal_swapping : (swapping : Write K V _).Frugal :=
  ⟨Cell.tries_trySwap, Cell.spends_swap⟩

/-- To load or store is to try it first, and again under the mutex if that was refused. -/
theorem Write.frugal_filling : (filling : Write K V _).Frugal :=
  ⟨Cell.tries_tryLoadOrStore, Cell.spends_loadOrStore⟩

variable [BEq K]

/-- A rebuild draws a stamp for each tombstone. -/
theorem frugal_copyLive (entries : List (K × CellId)) (copies : Table K) (buried : Nat) :
    (copyLive entries copies buried : Program K V _).Frugal := by
  induction entries generalizing copies buried with
  | nil => exact frugal_done _
  | cons e entries ih =>
      apply (Cell.frugal_bury e.2).bind
      intro gone
      split
      · exact ih _ _
      · exact ih _ _

/-- To make sure of a staged table takes the stamps of the rebuild. -/
theorem frugal_openStaging (snapshot : Snapshot K) :
    (openStaging snapshot : Program K V _).Frugal := by
  unfold openStaging
  split
  · exact frugal_done _
  · refine Frugal.bind ?_ fun _ => frugal_action rfl fun _ _ => rfl
    apply (frugal_action rfl fun _ _ => rfl).bind
    intro staged
    split
    · exact frugal_done _
    · apply (frugal_action rfl fun _ _ => rfl).bind
      intro entries
      apply (frugal_copyLive entries .empty 0).bind
      intro copied
      exact (frugal_action rfl fun _ _ => rfl).bind fun _ => frugal_action rfl fun _ _ => rfl

/-- A new key is staged with a new cell, which uses the slot of the writer. -/
theorem spends_stageNew (snapshot : Snapshot K) (key : K) (new : Handle V) :
    (stageNew snapshot key new).Spends new.stamp :=
  (frugal_openStaging snapshot).bind_spends fun _ =>
    (spends_newCell new.slot).bind_frugal fun _ => frugal_action rfl fun _ _ => rfl

/-- Under the mutex the slot is used once: in the cell of the snapshot, in that of the staged table,
or in a new one. -/
theorem Write.Frugal.spends_underMutex {w : Write K V α} (hw : w.Frugal) (key : K)
    (new : Handle V) : (w.underMutex key new).Spends new.stamp := by
  apply (frugal_action rfl fun _ _ => rfl).bind_spends
  intro snapshot
  split
  -- the snapshot has the key, and its cell is not tombstoned any more
  · next c _ =>
    have hreadmitted := frugal_readmit (V := V) key c
    exact hreadmitted.bind_spends fun _ => hw.guarded c new
  · apply (frugal_action rfl fun _ _ => rfl).bind_spends
    intro staged
    split
    -- the staged table has it, and the miss that may be counted takes no stamp
    · next c =>
      apply (hw.guarded c new).bind_frugal
      intro answer
      refine Program.Frugal.bind ?_ fun _ => frugal_done _
      unfold Write.charge
      split
      · exact frugal_recordMiss
      · exact frugal_done _
    · exact (spends_stageNew snapshot key new).bind_frugal fun _ => frugal_done _

/-- The slot that was tried without the mutex is only used under it if it was not put anywhere. -/
theorem Write.Frugal.program {w : Write K V α} (hw : w.Frugal) (key : K) (value : V) :
    (w.program key value).Frugal := by
  apply frugal_drawStamp
  intro r
  have hlocked : (locked (w.underMutex key ⟨r, value⟩)).Spends r :=
    spends_locked (hw.spends_underMutex key ⟨r, value⟩)
  apply (frugal_action rfl fun _ _ => rfl).bind_spends
  intro snapshot
  split
  · next c _ => exact (hw.attempt c ⟨r, value⟩).bind (fun _ => frugal_done _) hlocked
  · exact hlocked

/-- An operation that looks for a cell, in the mutex if need be, and then works on it. -/
theorem frugal_seek {key : K} {found : CellId → Program K V α} {missing : Program K V α}
    {search : Program K V (Option CellId)} (hsearch : search.Frugal)
    (hfound : ∀ c, (found c).Frugal) (hmissing : missing.Frugal) :
    (seek key search found missing).Frugal := by
  rw [seek]
  apply (frugal_action rfl fun _ _ => rfl).bind
  intro snapshot
  split
  · next c _ => exact hfound c
  · split
    · apply (frugal_locked hsearch).bind
      intro c
      cases c with
      | some c => exact hfound c
      | none => exact hmissing
    · exact hmissing

/-- To look a cell up takes no stamp. -/
theorem frugal_locate (key : K) : (locate key : Program K V _).Frugal := by
  apply (frugal_action rfl fun _ _ => rfl).bind
  intro snapshot
  split
  · exact frugal_done _
  · split
    · apply (frugal_action rfl fun _ _ => rfl).bind
      exact fun found => frugal_recordMiss.bind fun _ => frugal_done _
    · exact frugal_done _

/-- To withdraw a key takes no stamp. -/
theorem frugal_withdraw (key : K) : (withdraw key : Program K V _).Frugal := by
  apply (frugal_action rfl fun _ _ => rfl).bind
  intro snapshot
  split
  · exact frugal_done _
  · split
    · exact frugal_action rfl fun _ _ => rfl
    · exact frugal_done _

/-- Under the mutex a comparison uses its slot at most once. -/
theorem spends_compareAndSwapLocked [BEq V] (key : K) (old : V) (new : Handle V) :
    (compareAndSwapLocked key old new).Spends new.stamp := by
  apply (frugal_action rfl fun _ _ => rfl).bind_spends
  intro snapshot
  split
  · exact Cell.spends_compareAndSwap _ old new
  · apply (frugal_action rfl fun _ _ => rfl).bind_spends
    intro staged
    split
    · apply (Cell.spends_compareAndSwap _ old new).bind_frugal
      exact fun swapped => frugal_recordMiss.bind fun _ => frugal_done _
    · exact (frugal_done _).spends

/-- A comparison draws one stamp, and uses it in the one cell that it compares. -/
theorem frugal_compareAndSwap [BEq V] (key : K) (old new : V) :
    (compareAndSwap key old new).Frugal := by
  apply frugal_drawStamp
  intro r
  apply (frugal_action rfl fun _ _ => rfl).bind_spends
  intro snapshot
  split
  · exact Cell.spends_compareAndSwap _ old ⟨r, new⟩
  · split
    · exact spends_locked (spends_compareAndSwapLocked key old ⟨r, new⟩)
    · exact (frugal_done _).spends

omit [BEq K] in
/-- To clear the map takes no stamp. -/
theorem frugal_clear : (clear : Program K V _).Frugal := by
  have hreset : (clearLocked.reset : Program K V _).Frugal :=
    (frugal_action rfl fun _ _ => rfl).bind fun _ => frugal_action rfl fun _ _ => rfl
  apply (frugal_action rfl fun _ _ => rfl).bind
  intro seen
  split
  · apply frugal_locked
    apply (frugal_action rfl fun _ _ => rfl).bind
    intro snapshot
    split
    · exact (frugal_action rfl fun _ _ => rfl).bind fun _ => hreset
    · exact hreset
  · exact frugal_done _

omit [BEq K] in
/-- To begin a traversal takes no stamp. -/
theorem frugal_itinerary : (itinerary : Program K V _).Frugal := by
  refine Frugal.bind ?_ fun _ => frugal_action rfl fun _ _ => rfl
  apply (frugal_action rfl fun _ _ => rfl).bind
  intro seen
  split
  · apply frugal_locked
    apply (frugal_action rfl fun _ _ => rfl).bind
    intro snapshot
    split
    · exact frugal_promote .traversal
    · exact frugal_done _
  · exact frugal_done _

/-- All operations of the map draw the stamps that they need, and use each of them once. -/
theorem supports_frugal [BEq V] : Map.Supports fun _ (p : Program K V _) => p.Frugal where
  store key value := Write.frugal_storing.program key value
  itinerary := frugal_itinerary
  load := Cell.frugal_load
  request r := by
    cases r with
    | load key =>
        exact (frugal_seek (frugal_locate key) Cell.frugal_load (frugal_done _)).bind
          fun _ => frugal_done _
    | store key value =>
        exact (Write.frugal_storing.program key value).bind fun _ => frugal_done _
    | swap key value =>
        exact (Write.frugal_swapping.program key value).bind fun _ => frugal_done _
    | loadOrStore key value =>
        exact (Write.frugal_filling.program key value).bind fun _ => frugal_done _
    | loadAndDelete key =>
        exact (frugal_seek (frugal_withdraw key) Cell.frugal_remove (frugal_done _)).bind
          fun _ => frugal_done _
    | delete key =>
        exact ((frugal_seek (frugal_withdraw key) Cell.frugal_remove (frugal_done _)).bind
          fun _ => frugal_done _).bind fun _ => frugal_done _
    | compareAndSwap key old new =>
        exact (frugal_compareAndSwap key old new).bind fun _ => frugal_done _
    | compareAndDelete key old =>
        exact (frugal_seek (frugal_locate key) (fun c => Cell.frugal_compareAndDelete c old)
          (frugal_done _)).bind fun _ => frugal_done _
    | clear => exact frugal_clear.bind fun _ => frugal_done _

end Map

end ConcurrentMap
