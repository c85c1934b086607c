import ConcurrentMap.Proofs.Alone

/-!
# What an operation does to the structure

Alone, an operation changes the structure in one of three ways or not at all, and logs what it does:
`Shared.Reshapes` lists the possibilities, with the circumstances in which each of them occurs and
with what the event says. `Request.ends_leaves` and `Map.ends_itinerary` cover all operations.
-/

namespace ConcurrentMap

variable {K V α β : Type} [BEq K]

/-- The snapshot and the log before and after an operation. -/
inductive Shared.Reshapes (s s' : Shared K V) : Prop where
  /-- Nothing was changed, and nothing is logged. -/
  | kept (snapshot : s'.snapshot = s.snapshot) (log : s'.log = s.log)
  /-- The staged table was rebuilt from the snapshot. -/
  | rebuilt (copied expunged : Nat) (complete : s.snapshot.amended = false)
      (size : copied + expunged = s.snapshot.size)
      (live : ∃ pairs, s.view.Lists pairs ∧ pairs.length = copied)
      (snapshot : s'.snapshot = s.snapshot.markAmended)
      (log : s'.log = .rebuilt copied expunged :: s.log)
  /-- The staged table was promoted. -/
  | promoted (table : Table K) (misses : Nat) (reason : PromotionReason)
      (amended : s.snapshot.amended = true) (paid : reason = .misses → max 1 table.size ≤ misses)
      (snapshot : s'.snapshot = .ofTable table)
      (log : s'.log = .promoted table.size misses reason :: s.log)
  /-- Everything was dropped. -/
  | cleared (filled : 0 < s.snapshot.size ∨ s.snapshot.amended = true)
      (snapshot : s'.snapshot = .empty) (log : s'.log = .cleared :: s.log)

/-- The operation has let go of the mutex, and has changed the structure in one way at most. -/
structure Shared.Leaves (s s' : Shared K V) : Prop where
  free : s'.holder = none
  reshapes : s.Reshapes s'

namespace Shared

variable {s s₁ s' : Shared K V}

/-- Work on cells does not change the structure. -/
theorem Steady.reshapes (h : s.Steady s') : s.Reshapes s' := .kept h.snapshot h.log

/-- Work on cells without the mutex leaves the structure as it is. -/
theorem Steady.leaves (h : s.Steady s') (hfree : s.holder = none) : s.Leaves s' :=
  ⟨h.holder.trans hfree, h.reshapes⟩

/-- What comes before the change makes no difference if it leaves the view alone, too. -/
theorem Reshapes.from (h : s₁.Reshapes s') (hsnap : s₁.snapshot = s.snapshot)
    (hlog : s₁.log = s.log) (hview : s₁.view = s.view) : s.Reshapes s' := by
  cases h with
  | kept snapshot log => exact .kept (snapshot.trans hsnap) (log.trans hlog)
  | rebuilt copied expunged complete size live snapshot log =>
      rw [hsnap] at complete size snapshot
      rw [hlog] at log
      rw [hview] at live
      exact .rebuilt copied expunged complete size live snapshot log
  | promoted table misses reason amended paid snapshot log =>
      rw [hsnap] at amended
      rw [hlog] at log
      exact .promoted table misses reason amended paid snapshot log
  | cleared filled snapshot log =>
      rw [hsnap] at filled
      rw [hlog] at log
      exact .cleared filled snapshot log

/-- What comes after the change makes no difference if it only works on cells. -/
theorem Reshapes.upTo (h : s.Reshapes s₁) (hsnap : s'.snapshot = s₁.snapshot)
    (hlog : s'.log = s₁.log) : s.Reshapes s' := by
  cases h with
  | kept snapshot log => exact .kept (hsnap.trans snapshot) (hlog.trans log)
  | rebuilt copied expunged complete size live snapshot log =>
      exact .rebuilt copied expunged complete size live (hsnap.trans snapshot) (hlog.trans log)
  | promoted table misses reason amended paid snapshot log =>
      exact .promoted table misses reason amended paid (hsnap.trans snapshot) (hlog.trans log)
  | cleared filled snapshot log => exact .cleared filled (hsnap.trans snapshot) (hlog.trans log)

/-- A miss leads to a promotion only if there are as many as staged keys. -/
theorem reshapes_missed (hsnap : s₁.snapshot = s.snapshot) (hlog : s₁.log = s.log)
    (ham : s.snapshot.amended = true) : s.Reshapes s₁.missed := by
  unfold Shared.missed
  by_cases hpaid : s₁.staging.size ≤ s₁.staging.misses + 1
  · simp only [hpaid, if_true]
    refine .promoted (s₁.staging.table.getD .empty) (s₁.staging.misses + 1) .misses ham
      (fun _ => ?_) rfl (congrArg _ hlog)
    have hsize : s₁.staging.size = (s₁.staging.table.getD .empty).size := by
      unfold Staging.size
      cases s₁.staging.table <;> rfl
    omega
  · simp only [hpaid, if_false]
    exact .kept hsnap hlog

omit [BEq K] in
/-- Counting a miss does not concern the mutex. -/
theorem holder_missed (s : Shared K V) : s.missed.holder = s.holder := by
  dsimp only [missed]
  split <;> rfl

end Shared

open Program Shared

variable {order : Enumeration K} {t : ThreadId} {s s₁ : Shared K V}

/-! ## Rebuilding -/

/-- The cells of a table are as distinct as its keys. -/
theorem Tidy.cellsDistinct [EquivBEq K] {phase : Phase K} (h : Tidy phase s) :
    s.snapshot.table.entries.Pairwise fun a b => a.2 ≠ b.2 := by
  refine h.keys.imp_of_mem fun {a b} ha hb hab heq => ?_
  have hfind := h.keys.find?_of_mem hb
  rw [← heq] at hfind
  rw [h.oneKey a.1 b.1 a.2 (.inl (h.keys.find?_of_mem ha)) (.inl hfind)] at hab
  exact Bool.false_ne_true hab.symm

namespace Map

variable [EquivBEq K]

/-- Opening the staged table rebuilds it, unless the snapshot is amended already. -/
theorem ends_openStaging (h : Tidy .rest s) :
    (openStaging s.snapshot).Ends order t s fun _ s' =>
      s.Reshapes s' ∧ s'.holder = s.holder := by
  unfold openStaging
  cases ham : s.snapshot.amended with
  -- The snapshot is amended, so there is a staged table.
  | true => exact ends_done ⟨.kept rfl rfl, rfl⟩
  | false =>
      -- The snapshot is complete, and its live entries are copied in the order of the walk.
      have hempty := h.staging_eq_empty ham
      have hstaged : s.staging.table.isSome = false := by rw [hempty]; rfl
      have hperm := order.perm s.walks s.snapshot.table.entries
      have hcells : (order.arrange s.walks s.snapshot.table.entries).Pairwise
          fun a b => a.2 ≠ b.2 :=
        (hperm.pairwise_iff Ne.symm).2 h.cellsDistinct
      have hlive : ∀ e ∈ order.arrange s.walks s.snapshot.table.entries,
          ({ s with walks := s.walks + 1 } : Shared K V).tombstoned e.2 = false := fun e he =>
        (h.phase.2.1 (by rw [hempty]; rfl)).2 e.1 e.2 (h.keys.find?_of_mem (hperm.mem_iff.1 he))
      have hasStaged : (Action.hasStaged : Action K V).perform order t s = some (false, s) := by
        simp [Action.perform, hstaged]
      refine ends_bind (ends_action hasStaged (ends_action rfl (ends_bind ?_)))
      refine (ends_copyLive (h.keys.admits hperm) hcells hlive).mono
        fun x s₁ hcopied => ends_action rfl (ends_action rfl (ends_done (ends_action rfl ?_)))
      -- What was copied and what was tombstoned make up the entries of the snapshot.
      obtain ⟨hs₁, hsize, hsum⟩ := hcopied
      rw [Table.size_empty, Nat.zero_add] at hsize
      refine ends_done ⟨.rebuilt x.1.size x.2 ham ?_ ⟨_, h.lists_pairsOf ham hperm, hsize.symm⟩ ?_ ?_,
        hs₁.holder⟩
      · rw [hsum, hperm.length_eq, Table.size_empty, Nat.zero_add]
        rfl
      · rfl
      · exact congrArg _ hs₁.log

/-! ## Operations on one key -/

omit [EquivBEq K] in
/-- What a thread that holds the mutex leaves behind. -/
theorem ends_locked_leaves {body : Program K V α} (hfree : s.holder = none)
    (h : body.Ends order t { s with holder := some t } fun _ s' =>
      ({ s with holder := some t } : Shared K V).Reshapes s') :
    (locked body).Ends order t s fun _ s' => s.Leaves s' :=
  ends_locked hfree (h.mono fun _ _ hs' =>
    ⟨rfl, (Reshapes.from (s := s) hs' rfl rfl rfl).upTo rfl rfl⟩)

omit [EquivBEq K] in
/-- What comes after the change works on cells only. -/
theorem ends_onCells {p : Program K V α} {f : α → Program K V β} (hf : ∀ x, (f x).OnCells)
    (h : p.Ends order t s fun _ s' => s.Leaves s') :
    (p >>= f).Ends order t s fun _ s' => s.Leaves s' :=
  ends_bind (h.mono fun x s₁ hs₁ => ((hf x).ends order t s₁).mono fun _ _ hs' =>
    ⟨hs'.holder.trans hs₁.free, hs₁.reshapes.upTo hs'.snapshot hs'.log⟩)

omit [EquivBEq K] in
/-- Looking for the cell of a key changes the structure at most by a miss that promotes. -/
theorem ends_locate (key : K) : (locate key).Ends order t s fun _ s' => s.Reshapes s' := by
  refine ends_action rfl ?_
  split
  · exact ends_done (.kept rfl rfl)
  · split
    · next ham =>
      exact ends_action rfl (ends_bind ⟨_, _, run_recordMiss, ends_done (reshapes_missed rfl rfl ham)⟩)
    · exact ends_done (.kept rfl rfl)

omit [EquivBEq K] in
/-- Taking a key from the staged table changes the structure in no way that shows. -/
theorem ends_withdraw (key : K) : (withdraw key).Ends order t s fun _ s' => s.Reshapes s' := by
  refine ends_action rfl ?_
  split
  · exact ends_done (.kept rfl rfl)
  · split
    · exact ends_action rfl (ends_done (.kept rfl rfl))
    · exact ends_done (.kept rfl rfl)

omit [EquivBEq K] in
/-- An operation that looks for a cell, under the mutex if need be, and then works on it. -/
theorem ends_seek {key : K} {found : CellId → Program K V α} {missing : Program K V α}
    {search : Program K V (Option CellId)} (hfree : s.holder = none)
    (hfound : ∀ c, (found c).OnCells) (hmissing : missing.OnCells)
    (hsearch : ∀ s : Shared K V, search.Ends order t s fun _ s' => s.Reshapes s') :
    (seek key search found missing).Ends order t s fun _ s' => s.Leaves s' := by
  rw [seek]
  refine ends_action rfl ?_
  split
  · next c _ => exact ((hfound c).ends order t s).mono fun _ _ hs' => hs'.leaves hfree
  · split
    · refine ends_onCells (fun c => ?_) (ends_locked_leaves hfree (hsearch _))
      cases c with
      | some c => exact hfound c
      | none => exact hmissing
    · exact (hmissing.ends order t s).mono fun _ _ hs' => hs'.leaves hfree

/-- A way of writing a key that works on cells. -/
structure Write.OnCells (w : Write K V α) : Prop where
  attempt : ∀ c new, (w.attempt c new).OnCells
  guarded : ∀ c new, (w.guarded c new).OnCells

section Writes

omit [BEq K] [EquivBEq K]

/-- How `store` writes. -/
def Write.storing : Write K V Unit where
  attempt c new := do
    let stored ← Cell.tryStore c new
    return if stored then some () else none
  guarded := Cell.store
  inserted _ := ()
  countsMiss := false

/-- How `swap` writes. -/
def Write.swapping : Write K V (Option (Handle V)) where
  attempt := Cell.trySwap
  guarded := Cell.swap
  inserted _ := none
  countsMiss := false

/-- How `loadOrStore` writes. -/
def Write.filling : Write K V (Handle V × Bool) where
  attempt := Cell.tryLoadOrStore
  guarded := Cell.loadOrStore
  inserted new := (new, false)
  countsMiss := true

theorem Write.onCells_storing : (storing : Write K V Unit).OnCells where
  attempt c new := .bind (.bind (Cell.onCells_trySwap c new) fun _ => trivial) fun _ => trivial
  guarded := Cell.onCells_store

theorem Write.onCells_swapping : (swapping : Write K V _).OnCells :=
  ⟨Cell.onCells_trySwap, Cell.onCells_swap⟩

theorem Write.onCells_filling : (filling : Write K V _).OnCells :=
  ⟨Cell.onCells_tryLoadOrStore, Cell.onCells_loadOrStore⟩

end Writes

omit [EquivBEq K] in
/-- Lifting the tombstone of a snapshot's cell neither replaces the snapshot nor logs anything. -/
theorem ends_readmitted (key : K) (c : CellId) :
    ( readmit key c).Ends order t s fun _ s' => s'.snapshot = s.snapshot ∧ s'.log = s.log := by
  refine ends_bind (((Cell.onCells_revive c).ends order t s).mono fun revived s₁ hs₁ => ?_)
  split
  · exact ends_action rfl (ends_done ⟨hs₁.snapshot, hs₁.log⟩)
  · exact ends_done ⟨hs₁.snapshot, hs₁.log⟩

/-- Staging a new key needs a rebuild if the snapshot is complete. -/
theorem ends_stageNew (h : Tidy .rest s) (key : K) (new : Handle V) :
    (stageNew s.snapshot key new).Ends order t s fun _ s' => s.Reshapes s' :=
  ends_bind ((ends_openStaging h).mono fun _ _ hs₁ =>
    ends_action rfl (ends_action rfl (ends_done (hs₁.1.upTo rfl rfl))))

omit [EquivBEq K] in
/-- A key of the snapshot is written without a change of the structure that shows. -/
theorem Write.OnCells.ends_underMutex_of_find? {w : Write K V α} (hw : w.OnCells) {key : K}
    {c : CellId} (hc : s.snapshot.find? key = some c) (new : Handle V) :
    (w.underMutex key new).Ends order t s fun _ s' =>
      s'.snapshot = s.snapshot ∧ s'.log = s.log := by
  refine ends_action rfl ?_
  simp only [hc]
  refine ends_bind ((ends_readmitted key c).mono fun _ s₁ ⟨hsnap, hlog⟩ => ?_)
  exact ((hw.guarded c new).ends order t s₁).mono fun _ _ hs' =>
    ⟨hs'.snapshot.trans hsnap, hs'.log.trans hlog⟩

/-- A write under the mutex changes the structure in one way at most. -/
theorem Write.OnCells.ends_underMutex {w : Write K V α} (hw : w.OnCells) (h : Tidy .rest s)
    (key : K) (new : Handle V) :
    (w.underMutex key new).Ends order t s fun _ s' => s.Reshapes s' := by
  cases hsnap : s.snapshot.find? key with
  | some c => exact (hw.ends_underMutex_of_find? hsnap new).mono fun _ _ hs' => .kept hs'.1 hs'.2
  | none =>
      refine ends_action rfl ?_
      simp only [hsnap]
      refine ends_action rfl ?_
      cases hc : s.staging.find? key with
      -- The key is staged: the write may charge a miss, which may promote.
      | some c =>
          refine ends_bind (((hw.guarded c new).ends order t s).mono fun answer s₁ hs₁ => ?_)
          unfold Write.charge
          split
          · have ham := h.phase.1.trans (Staging.isSome_of_find? hc)
            exact ends_bind ⟨_, _, run_recordMiss,
              ends_done (reshapes_missed hs₁.snapshot hs₁.log ham)⟩
          · exact ends_done (.kept hs₁.snapshot hs₁.log)
      -- The key is new, and a complete snapshot needs a rebuild first.
      | none => exact ends_bind ((ends_stageNew h key new).mono fun _ _ hs' => ends_done hs')

/-- A write changes the structure in one way at most, and lets go of the mutex. -/
theorem Write.OnCells.ends {w : Write K V α} (hw : w.OnCells) (h : Tidy .rest s)
    (hfree : s.holder = none) (key : K) (value : V) :
    (w.program key value).Ends order t s fun _ s' => s.Leaves s' := by
  refine ends_action rfl (ends_action rfl ?_)
  split
  · next c hc =>
    refine ends_bind (((hw.attempt c _).ends order t _).mono fun answer s₁ hs₁ => ?_)
    cases answer with
    | some answer => exact ends_done ⟨hs₁.holder.trans hfree, .kept hs₁.snapshot hs₁.log⟩
    | none =>
        -- the cell is tombstoned, so the snapshot is amended already
        have hc₁ : s₁.snapshot.find? key = some c := by rw [hs₁.snapshot]; exact hc
        refine ends_locked (hs₁.holder.trans hfree) ?_
        refine (hw.ends_underMutex_of_find? (s := { s₁ with holder := some t }) hc₁ _).mono
          fun _ _ hs' => ⟨rfl, ?_⟩
        exact .kept (hs'.1.trans hs₁.snapshot) (hs'.2.trans hs₁.log)
  · have htidy : Tidy .rest { s.drawStamp.2 with holder := some t } :=
      h.congr rfl rfl (Nat.le_refl _) fun _ _ => rfl
    refine ends_locked hfree ((hw.ends_underMutex htidy key _).mono fun _ _ hs' => ⟨rfl, ?_⟩)
    exact (Reshapes.from (s := s) hs' rfl rfl rfl).upTo rfl rfl

omit [EquivBEq K] in
/-- A comparison changes the structure at most by a miss that promotes. -/
theorem ends_compareAndSwap [BEq V] (hfree : s.holder = none) (key : K) (old new : V) :
    (compareAndSwap key old new).Ends order t s fun _ s' => s.Leaves s' := by
  refine ends_action rfl (ends_action rfl ?_)
  split
  -- The cell is in the snapshot, and the mutex is not needed.
  · next c _ =>
    exact ((Cell.onCells_compareAndSwap c old _).ends order t _).mono fun _ _ hs' =>
      ⟨hs'.holder.trans hfree, .kept hs'.snapshot hs'.log⟩
  · split
    · next ham =>
      refine ends_locked hfree (ends_action rfl ?_)
      split
      · next c _ =>
        exact ((Cell.onCells_compareAndSwap c old _).ends order t _).mono fun _ _ hs' =>
          ⟨rfl, .kept hs'.snapshot hs'.log⟩
      · refine ends_action rfl ?_
        split
        -- The cell is staged, and the lookup is a miss.
        · next c _ =>
          refine ends_bind (((Cell.onCells_compareAndSwap c old _).ends order t _).mono
            fun swapped s₁ hs₁ => ends_bind ⟨_, _, run_recordMiss, ends_done ⟨rfl, ?_⟩⟩)
          exact (reshapes_missed (s := s) hs₁.snapshot hs₁.log ham).upTo rfl rfl
        · exact ends_done ⟨rfl, .kept rfl rfl⟩
    · exact ends_done ⟨hfree, .kept rfl rfl⟩

/-! ## Operations on the whole map -/

omit [EquivBEq K] in
/-- Clearing drops everything, or finds nothing to drop. -/
theorem ends_clear (hfree : s.holder = none) :
    (clear : Program K V Unit).Ends order t s fun _ s' => s.Leaves s' := by
  refine ends_action rfl ?_
  split
  · next hfilled =>
    refine ends_locked hfree (ends_action rfl ?_)
    simp only [hfilled, if_true]
    refine ends_action rfl (ends_action rfl (ends_action rfl (ends_done ⟨rfl, ?_⟩)))
    exact .cleared (by simpa using hfilled) rfl rfl
  · exact ends_done ⟨hfree, .kept rfl rfl⟩

omit [EquivBEq K] in
/-- Fixing what a traversal visits promotes the staged table, if there is one. -/
theorem ends_itinerary (hfree : s.holder = none) :
    (itinerary : Program K V _).Ends order t s fun _ s' => s.Leaves s' := by
  refine ends_bind (ends_action rfl ?_)
  cases ham : s.snapshot.amended with
  | true =>
      refine ends_locked hfree (ends_action rfl ?_)
      simp only [ham, if_true]
      refine ⟨_, _, run_promote .traversal, ends_action rfl (ends_done ⟨rfl, ?_⟩)⟩
      exact .promoted (s.staging.table.getD .empty) s.staging.misses .traversal ham
        (fun hne => by simp at hne) rfl rfl
  | false => exact ends_done (ends_action rfl (ends_done ⟨hfree, .kept rfl rfl⟩))

end Map

/-! ## All requests -/

open Map

variable [EquivBEq K] [BEq V]

/-- What a request leaves behind. -/
theorem Request.ends_leaves (h : Tidy .rest s) (hfree : s.holder = none) (r : Request K V) :
    r.program.Ends order t s fun _ s' => s.Leaves s' := by
  -- What a request does to its answer, and its work on cells, comes after the change.
  cases r with
  | load key =>
      exact ends_onCells (fun _ => trivial)
        (ends_seek hfree Cell.onCells_load trivial fun _ => ends_locate key)
  | store key v =>
      exact ends_onCells (fun _ => trivial) (Write.onCells_storing.ends h hfree key v)
  | swap key v =>
      exact ends_onCells (fun _ => trivial) (Write.onCells_swapping.ends h hfree key v)
  | loadOrStore key v =>
      exact ends_onCells (fun _ => trivial) (Write.onCells_filling.ends h hfree key v)
  | loadAndDelete key =>
      exact ends_onCells (fun _ => trivial)
        (ends_seek hfree Cell.onCells_remove trivial fun _ => ends_withdraw key)
  | delete key =>
      exact ends_onCells (fun _ => trivial) (ends_onCells (fun _ => trivial)
        (ends_seek hfree Cell.onCells_remove trivial fun _ => ends_withdraw key))
  | compareAndSwap key old new =>
      exact ends_onCells (fun _ => trivial) (ends_compareAndSwap hfree key old new)
  | compareAndDelete key old =>
      exact ends_onCells (fun _ => trivial) (ends_seek hfree
        (fun c => Cell.onCells_compareAndDelete c old) trivial fun _ => ends_locate key)
  | clear => exact ends_onCells (fun _ => trivial) (ends_clear hfree)

end ConcurrentMap
