import ConcurrentMap.Proofs.Relocation

/-!
# Programs that do the same elsewhere

`Program.Mirrors ρ F p q` says that `q` does with relocated cells and stamps what `p` does, and ends
with `F x` if `p` ends with `x`. So `q` takes above `base` the steps that `p` takes in a state of
its own (`Program.Mirrors.step`). No operation of the map looks at the number of a cell or of a
stamp: each one mirrors itself (`Request.mirrors`), and so does a client that sees the relocated
stamps (`Client.mirrors`).
-/

namespace ConcurrentMap

variable {K V α α' β β' : Type}

/-- The second program does with relocated cells and stamps what the first one does. -/
inductive Program.Mirrors (ρ : Relocation) (F : α → α') :
    Program K V α → Program K V α' → Prop
  | done (x : α) : Mirrors ρ F (.done x) (.done (F x))
  | act (a : Action K V) {next : a.Response → Program K V α}
      {next' : (ρ.action a).Response → Program K V α'}
      (h : ∀ r, Mirrors ρ F (next r) (next' (ρ.response a r))) :
      Mirrors ρ F (.act a next) (.act (ρ.action a) next')
  | retry (u : Update V) {next : Outcome V → Program K V α} {next' : Outcome V → Program K V α'}
      (h : ∀ o, Mirrors ρ F (next o) (next' (ρ.outcome o))) :
      Mirrors ρ F (.retry u next) (.retry (ρ.update u) next')

namespace Program.Mirrors

variable {ρ : Relocation} {F : α → α'} {G : β → β'} {p : Program K V α} {q : Program K V α'}
  {f : α → Program K V β} {g : α' → Program K V β'}

/-- A sequence is mirrored part by part, the second one from the relocated answer. -/
theorem bind (h : Mirrors ρ F p q) (hf : ∀ x, Mirrors ρ G (f x) (g (F x))) :
    Mirrors ρ G (p >>= f) (q >>= g) := by
  induction h with
  | done x => exact hf x
  | act a _ ih => exact .act a ih
  | retry u _ ih => exact .retry u ih

/-- One action, and then the rest. -/
theorem action (a : Action K V) {f : a.Response → Program K V β}
    {g : (ρ.action a).Response → Program K V β'}
    (hf : ∀ r, Mirrors ρ G (f r) (g (ρ.response a r))) :
    Mirrors ρ G (a.program >>= f) ((ρ.action a).program >>= g) := .act a hf

/-- An exchange that is retried, and then the rest. -/
theorem update (u : Update V) {f : Outcome V → Program K V β} {g : Outcome V → Program K V β'}
    (hf : ∀ o, Mirrors ρ G (f o) (g (ρ.outcome o))) :
    Mirrors ρ G (u.program >>= f) ((ρ.update u).program >>= g) := by
  have haccepts : (ρ.update u).accepts (ρ.update u).seen.content = u.accepts u.seen.content := rfl
  simp only [Update.program, haccepts]
  split
  · exact .retry u hf
  · exact hf _

/-- Both programs branch in the same way. -/
theorem branch {c c' : Bool} (hc : c' = c) {p₁ p₂ : Program K V α} {q₁ q₂ : Program K V α'}
    (hyes : Mirrors ρ F p₁ q₁) (hno : Mirrors ρ F p₂ q₂) :
    Mirrors ρ F (if c then p₁ else p₂) (if c' then q₁ else q₂) := by
  subst hc
  split
  · exact hyes
  · exact hno

/-! ## Steps and runs -/

section Above

variable [BEq K] {order order' : Enumeration K} {t : ThreadId} {s base : Shared K V}

/-- The step of the second program above `base` is the step of the first one. -/
theorem step (h : Mirrors base.relocation F p q) (hs : 0 < s.clock) (hbase : 0 < base.clock)
    (horder : order.Follows base order') :
    match p.step order' t s with
    | none => q.step order t (s.above base) = none
    | some (p', s') => s.clock ≤ s'.clock ∧
        ∃ q', q.step order t (s.above base) = some (q', s'.above base) ∧
          Mirrors base.relocation F p' q' := by
  cases h with
  | done x => rfl
  | act a h =>
      simp only [Program.step, Action.perform_above hs hbase horder]
      cases hperf : a.perform order' t s with
      | none => rfl
      | some r => exact ⟨Action.perform_clock hperf, _, rfl, h r.1⟩
  | retry u h =>
      have hclock := u.clock_attempt s
      simp only [Program.step, Update.attempt_above hbase]
      generalize u.attempt s = r at hclock
      obtain ⟨o | u', s'⟩ := r
      · exact ⟨Nat.le_of_eq hclock.symm, _, rfl, h o⟩
      · exact ⟨Nat.le_of_eq hclock.symm, _, rfl, .retry u' h⟩

/-- The run of the second program above `base` is the run of the first one. -/
theorem run (h : Mirrors base.relocation F p q) (hs : 0 < s.clock) (hbase : 0 < base.clock)
    (horder : order.Follows base order') :
    q.run order t (s.above base) =
      (p.run order' t s).map fun r => (F r.1, r.2.above base) := by
  induction h generalizing s with
  | done x => rfl
  | act a _ ih =>
      rw [run_act, run_act, Action.perform_above hs hbase horder]
      cases hperf : a.perform order' t s with
      | none => rfl
      | some r => exact ih r.1 (Nat.lt_of_lt_of_le hs (Action.perform_clock hperf))
  | retry u _ ih =>
      rw [run_retry, run_retry, Update.settle_above hbase]
      exact ih _ (by rwa [u.clock_settle])

end Above

end Program.Mirrors

open Program Program.Mirrors

variable {ρ : Relocation}

/-! ## Operations on cells -/

namespace Cell

variable (c : CellId)

/-- A load answers the relocated handle. -/
theorem mirrors_load :
    Mirrors ρ (Option.map ρ.handle) (load c : Program K V _) (load (ρ.cell c)) := by
  refine action (.readCell c) fun seen => ?_
  show Mirrors ρ _ _ (.done (ρ.slot seen).handle?)
  rw [ρ.handle?_slot]
  exact .done _

/-- A swap puts the relocated slot into the relocated cell, and answers the relocated handle. -/
theorem mirrors_trySwap (new : Handle V) :
    Mirrors ρ (Option.map (Option.map ρ.handle)) (trySwap c new : Program K V _)
      (trySwap (ρ.cell c) (ρ.handle new)) := by
  refine action (.readCell c) fun seen => update ⟨c, seen, new.slot, _⟩ fun o => ?_
  cases o with
  | installed previous =>
      show Mirrors ρ _ _ (.done (some (ρ.slot previous).handle?))
      rw [ρ.handle?_slot]
      exact .done _
  | refused found => exact .done _

/-- Whether a store is refused does not depend on where it is done. -/
theorem mirrors_tryStore (new : Handle V) :
    Mirrors ρ id (tryStore c new : Program K V _) (tryStore (ρ.cell c) (ρ.handle new)) := by
  refine (mirrors_trySwap c new).bind fun previous => ?_
  cases previous <;> exact .done _

/-- An attempt answers the relocated handle, and whether it was there already. -/
theorem mirrors_tryLoadOrStore (new : Handle V) :
    Mirrors ρ (Option.map fun a => (ρ.handle a.1, a.2)) (tryLoadOrStore c new : Program K V _)
      (tryLoadOrStore (ρ.cell c) (ρ.handle new)) := by
  refine action (.readCell c) fun seen => update ⟨c, seen, new.slot, _⟩ fun o => ?_
  cases o with
  | installed previous => exact .done (some (new, false))
  | refused found =>
      show Mirrors ρ _ _ (.done ((ρ.slot found).handle?.map fun h => (h, true)))
      have hheld : ((found.handle?.map ρ.handle).map fun h => (h, true)) =
          (found.handle?.map fun h => (h, true)).map fun a => (ρ.handle a.1, a.2) := by
        cases found.handle? <;> rfl
      rw [ρ.handle?_slot, hheld]
      exact .done _

/-- What is vacated is the relocated slot: whether it is wanted depends on its content alone. -/
theorem mirrors_vacate (wanted : Content V → Bool) :
    Mirrors ρ (Option.map ρ.slot) (vacate c wanted : Program K V _)
      (vacate (ρ.cell c) wanted) := by
  refine action (.readCell c) fun seen => ?_
  refine branch rfl ?_ ?_
  · refine action .drawStamp fun stamp => update ⟨c, seen, ⟨stamp, .absent⟩, wanted⟩ fun o => ?_
    cases o <;> exact .done _
  · exact .done none

/-- A removal answers the relocated handle. -/
theorem mirrors_remove :
    Mirrors ρ (Option.map ρ.handle) (remove c : Program K V _) (remove (ρ.cell c)) := by
  refine (mirrors_vacate c _).bind fun previous => ?_
  cases previous with
  | none => exact .done none
  | some previous =>
      show Mirrors ρ _ _ (.done (ρ.slot previous).handle?)
      rw [ρ.handle?_slot]
      exact .done _

/-- A comparison looks at values, which are not relocated. -/
theorem mirrors_compareAndSwap [BEq V] (old : V) (new : Handle V) :
    Mirrors ρ id (compareAndSwap c old new : Program K V _)
      (compareAndSwap (ρ.cell c) old (ρ.handle new)) := by
  refine action (.readCell c) fun seen => update ⟨c, seen, new.slot, _⟩ fun o => ?_
  cases o <;> exact .done _

/-- A comparison that deletes looks at values as well. -/
theorem mirrors_compareAndDelete [BEq V] (old : V) :
    Mirrors ρ id (compareAndDelete c old : Program K V _) (compareAndDelete (ρ.cell c) old) := by
  refine (mirrors_vacate c _).bind fun previous => ?_
  cases previous <;> exact .done _

/-- A swap under the mutex answers the relocated handle. -/
theorem mirrors_swap (new : Handle V) :
    Mirrors ρ (Option.map ρ.handle) (swap c new : Program K V _)
      (swap (ρ.cell c) (ρ.handle new)) := by
  refine action (.exchange c new.slot) fun previous => ?_
  show Mirrors ρ _ _ (.done (ρ.slot previous).handle?)
  rw [ρ.handle?_slot]
  exact .done _

/-- A store under the mutex puts the relocated slot into the relocated cell. -/
theorem mirrors_store (new : Handle V) :
    Mirrors ρ id (store c new : Program K V _) (store (ρ.cell c) (ρ.handle new)) :=
  action (.exchange c new.slot) fun _ => .done ()

/-- If the first attempt is refused here, it is refused there, and both store. -/
theorem mirrors_loadOrStore (new : Handle V) :
    Mirrors ρ (fun a => (ρ.handle a.1, a.2)) (loadOrStore c new : Program K V _)
      (loadOrStore (ρ.cell c) (ρ.handle new)) := by
  refine (mirrors_tryLoadOrStore c new).bind fun x => ?_
  cases x with
  | some answer => exact .done answer
  | none => exact (mirrors_store c new).bind fun _ => .done (new, false)

/-- A tombstone here is a tombstone there. -/
theorem mirrors_revive : Mirrors ρ id (revive c : Program K V _) (revive (ρ.cell c)) := by
  refine action (.readCell c) fun seen => ?_
  refine branch rfl ?_ ?_
  · refine action .drawStamp fun stamp => ?_
    exact .act (.compareExchange c seen ⟨stamp, .absent⟩) fun swapped => .done swapped
  · exact .done false

/-- A cell that is buried here is buried there. -/
theorem mirrors_bury : Mirrors ρ id (bury c : Program K V _) (bury (ρ.cell c)) := by
  refine action (.readCell c) fun seen => ?_
  refine branch rfl ?_ ?_
  · refine action .drawStamp fun stamp =>
      update ⟨c, seen, ⟨stamp, .tombstoned⟩, Content.isAbsent⟩ fun o => ?_
    cases o <;> exact .done _
  · exact .done _

end Cell

/-! ## Changes of the structure -/

namespace Map

/-- To take the mutex and to let it go is the same everywhere. -/
theorem mirrors_locked {F : α → α'} {p : Program K V α} {q : Program K V α'}
    (h : Mirrors ρ F p q) : Mirrors ρ F (locked p) (locked q) :=
  action .acquire fun _ => h.bind fun x => action .release fun _ => .done x

/-- A promotion publishes the relocated table. -/
theorem mirrors_promote (reason : PromotionReason) :
    Mirrors ρ ρ.snapshot (promote reason : Program K V _) (promote reason) := by
  refine action .readStaging fun staging => ?_
  have htable : (ρ.staging staging).table.getD .empty = ρ.table (staging.table.getD .empty) :=
    ρ.getD_table staging.table
  simp only [Relocation.response]
  rw [htable, ρ.size_table]
  exact action (.emit _) fun _ => action (.publish (.ofTable (staging.table.getD .empty))) fun _ =>
    action .dropStaging fun _ => .done _

/-- Both miss counters reach the size of their staged tables at once, for these have equal sizes. -/
theorem mirrors_recordMiss : Mirrors ρ id (recordMiss : Program K V Unit) recordMiss := by
  refine action .countMiss fun paid => ?_
  refine branch rfl ?_ ?_
  · exact (mirrors_promote .misses).bind fun _ => .done ()
  · exact .done ()

/-- A cell that is brought back here is brought back and staged there. -/
theorem mirrors_readmitted (key : K) (c : CellId) :
    Mirrors ρ id ( readmit key c : Program K V Unit) ( readmit key (ρ.cell c)) := by
  refine (Cell.mirrors_revive c).bind fun revived => ?_
  refine branch rfl ?_ ?_
  · exact .act (.stage key c) fun _ => .done ()
  · exact .done ()

variable [BEq K]

/-- The copies are relocated entry by entry, and as many are left out. -/
theorem mirrors_copyLive (entries : List (K × CellId)) (copies : Table K) (buried : Nat) :
    Mirrors ρ (fun x => (ρ.table x.1, x.2)) (copyLive entries copies buried : Program K V _)
      (copyLive (entries.map ρ.entry) (ρ.table copies) buried) := by
  induction entries generalizing copies buried with
  | nil => exact .done (copies, buried)
  | cons e rest ih =>
      obtain ⟨key, c⟩ := e
      refine (Cell.mirrors_bury c).bind fun gone => ?_
      refine branch rfl ?_ ?_
      · exact ih copies (buried + 1)
      · rw [ρ.insert_table]
        exact ih (copies.insert key c) buried

/-- A rebuild stages the relocated copies. -/
theorem mirrors_rebuild (snapshot : Snapshot K) :
    Mirrors ρ id (rebuild snapshot : Program K V Unit) (rebuild (ρ.snapshot snapshot)) := by
  refine action .hasStaged fun staged => ?_
  refine branch rfl ?_ ?_
  · exact .done ()
  · refine action (.walk snapshot.table) fun entries =>
      (mirrors_copyLive entries .empty 0).bind fun x => ?_
    show Mirrors ρ id _ ((Action.emit (.rebuilt (ρ.table x.1).size x.2)).program >>= _)
    rw [ρ.size_table]
    exact action (.emit _) fun _ => .act (.installStaged x.1) fun _ => .done ()

/-- A table is staged here exactly if one is staged there. -/
theorem mirrors_openStaging (snapshot : Snapshot K) :
    Mirrors ρ id (openStaging snapshot : Program K V Unit) (openStaging (ρ.snapshot snapshot)) := by
  unfold openStaging
  refine branch rfl ?_ ?_
  · exact .done ()
  · exact (mirrors_rebuild snapshot).bind fun _ =>
      .act (.publish snapshot.markAmended) fun _ => .done ()

/-- A new key is staged with a cell that is the relocated new one. -/
theorem mirrors_stageNew (snapshot : Snapshot K) (key : K) (new : Handle V) :
    Mirrors ρ id (stageNew snapshot key new) (stageNew (ρ.snapshot snapshot) key (ρ.handle new)) :=
  (mirrors_openStaging snapshot).bind fun _ => action (.newCell new.slot) fun c =>
    .act (.stage key c) fun _ => .done ()

/-! ## Operations on one key -/

/-- A lookup finds the relocated cell. -/
theorem mirrors_locate (key : K) :
    Mirrors ρ (Option.map ρ.cell) (locate key : Program K V _) (locate key) := by
  refine action .readSnapshot fun snapshot => ?_
  simp only [Relocation.response, ρ.find?_snapshot]
  cases snapshot.find? key with
  | some c => exact .done (some c)
  | none =>
      refine branch rfl ?_ ?_
      · exact action (.findStaged key) fun found => mirrors_recordMiss.bind fun _ => .done found
      · exact .done none

/-- A key that is withdrawn here is withdrawn there. -/
theorem mirrors_withdraw (key : K) :
    Mirrors ρ (Option.map ρ.cell) (withdraw key : Program K V _) (withdraw key) := by
  refine action .readSnapshot fun snapshot => ?_
  simp only [Relocation.response, ρ.find?_snapshot]
  cases snapshot.find? key with
  | some c => exact .done (some c)
  | none =>
      refine branch rfl ?_ ?_
      · exact .act (.unstage key) fun found => .done found
      · exact .done none

/-- An operation that looks for a cell, under the mutex if need be, and then works on it. -/
theorem mirrors_seek {F : α → α'} {key : K} {found : CellId → Program K V α}
    {found' : CellId → Program K V α'} {missing : Program K V α} {missing' : Program K V α'}
    {search : Program K V (Option CellId)} (hfound : ∀ c, Mirrors ρ F (found c) (found' (ρ.cell c)))
    (hmissing : Mirrors ρ F missing missing') (hsearch : Mirrors ρ (Option.map ρ.cell) search search) :
    Mirrors ρ F (seek key search found missing) (seek key search found' missing') := by
  simp only [seek]
  refine action .readSnapshot fun snapshot => ?_
  simp only [Relocation.response, ρ.find?_snapshot]
  cases snapshot.find? key with
  | some c => exact hfound c
  | none =>
      refine branch rfl ?_ ?_
      · refine (mirrors_locked hsearch).bind fun x => ?_
        cases x with
        | some c => exact hfound c
        | none => exact hmissing
      · exact hmissing

/-- A way of writing that mirrors another one. -/
structure Write.Mirrors (ρ : Relocation) (F : α → α') (w : Write K V α) (w' : Write K V α') :
    Prop where
  attempt : ∀ c new, Program.Mirrors ρ (Option.map F) (w.attempt c new)
    (w'.attempt (ρ.cell c) (ρ.handle new))
  guarded : ∀ c new, Program.Mirrors ρ F (w.guarded c new) (w'.guarded (ρ.cell c) (ρ.handle new))
  inserted : ∀ new, w'.inserted (ρ.handle new) = F (w.inserted new)
  countsMiss : w'.countsMiss = w.countsMiss

variable {F : α → α'} {w : Write K V α} {w' : Write K V α'}

omit [BEq K] in
/-- Both ways of writing count a miss, or neither does. -/
theorem Write.Mirrors.charge (h : w.Mirrors ρ F w') :
    Program.Mirrors ρ id w.charge w'.charge := by
  unfold Write.charge
  rw [h.countsMiss]
  split
  · exact mirrors_recordMiss
  · exact .done ()

/-- Under the mutex, both writes go the same way: by the snapshot, the staged table or a new
cell. -/
theorem Write.Mirrors.underMutex (h : w.Mirrors ρ F w') (key : K) (new : Handle V) :
    Program.Mirrors ρ F (w.underMutex key new) (w'.underMutex key (ρ.handle new)) := by
  refine action .readSnapshot fun snapshot => ?_
  simp only [Relocation.response, ρ.find?_snapshot]
  cases snapshot.find? key with
  | some c => exact (mirrors_readmitted key c).bind fun _ => h.guarded c new
  | none =>
      refine action (.findStaged key) fun found => ?_
      cases found with
      | some c => exact (h.guarded c new).bind fun x => h.charge.bind fun _ => .done x
      | none =>
          refine (mirrors_stageNew snapshot key new).bind fun _ => ?_
          rw [h.inserted]
          exact .done _

/-- Both writes get by without the mutex, or neither does. -/
theorem Write.Mirrors.program (h : w.Mirrors ρ F w') (key : K) (value : V) :
    Program.Mirrors ρ F (w.program key value) (w'.program key value) := by
  refine action .drawStamp fun stamp => action .readSnapshot fun snapshot => ?_
  simp only [Relocation.response, ρ.find?_snapshot]
  have hlocked := mirrors_locked (h.underMutex key ⟨stamp, value⟩)
  cases snapshot.find? key with
  | some c =>
      refine (h.attempt c ⟨stamp, value⟩).bind fun x => ?_
      cases x with
      | some answer => exact .done answer
      | none => exact hlocked
  | none => exact hlocked

/-- A store does the same elsewhere. -/
theorem mirrors_store (key : K) (value : V) :
    Mirrors ρ id (store key value : Program K V Unit) (store key value) := by
  refine Write.Mirrors.program ⟨fun c new => ?_, Cell.mirrors_store, fun _ => rfl, rfl⟩ key value
  refine (Cell.mirrors_tryStore c new).bind fun stored => ?_
  cases stored <;> exact .done _

/-- A comparison finds the relocated cell in the same table, and decides alike. -/
theorem mirrors_compareAndSwap [BEq V] (key : K) (old new : V) :
    Mirrors ρ id (compareAndSwap key old new : Program K V Bool) (compareAndSwap key old new) := by
  -- the key is in the snapshot, both here and there, or in neither
  refine action .drawStamp fun stamp => action .readSnapshot fun snapshot => ?_
  simp only [Relocation.response, ρ.find?_snapshot]
  cases snapshot.find? key with
  | some c => exact Cell.mirrors_compareAndSwap c old ⟨stamp, new⟩
  | none =>
      refine branch rfl ?_ ?_
      · refine mirrors_locked (action .readSnapshot fun snapshot => ?_)
        simp only [Relocation.response, ρ.find?_snapshot]
        cases snapshot.find? key with
        | some c => exact Cell.mirrors_compareAndSwap c old ⟨stamp, new⟩
        -- under the mutex everything is looked up once more
        | none =>
            refine action (.findStaged key) fun found => ?_
            cases found with
            | some c =>
                exact (Cell.mirrors_compareAndSwap c old ⟨stamp, new⟩).bind fun swapped =>
                  mirrors_recordMiss.bind fun _ => .done swapped
            | none => exact .done false
      · exact .done false

/-! ## Operations on the whole map -/

omit [BEq K] in
/-- To clear the map empties both snapshots. -/
theorem mirrors_clear : Mirrors ρ id (clear : Program K V Unit) clear := by
  have hfilled : ∀ snapshot : Snapshot K,
      (decide (0 < (ρ.snapshot snapshot).size) || (ρ.snapshot snapshot).amended) =
        (decide (0 < snapshot.size) || snapshot.amended) := fun snapshot => by
    rw [Snapshot.size, Relocation.snapshot, ρ.size_table]
    rfl
  have hreset : Mirrors ρ id (clearLocked.reset : Program K V Unit) clearLocked.reset :=
    action .dropStaging fun _ => .act (.emit .cleared) fun _ => .done ()
  have hlocked : Mirrors ρ id (clearLocked : Program K V Unit) clearLocked :=
    action .readSnapshot fun snapshot =>
      branch (hfilled snapshot) (action (.publish .empty) fun _ => hreset) hreset
  exact action .readSnapshot fun snapshot =>
    branch (hfilled snapshot) (mirrors_locked hlocked) (.done ())

omit [BEq K] in
/-- A traversal fixes the relocated entries. -/
theorem mirrors_itinerary :
    Mirrors ρ (List.map ρ.entry) (itinerary : Program K V _) itinerary := by
  have hlocked : Mirrors ρ ρ.snapshot (completeLocked : Program K V _) completeLocked := by
    refine action .readSnapshot fun snapshot => ?_
    refine branch rfl ?_ ?_
    · exact mirrors_promote .traversal
    · exact .done snapshot
  have hcomplete : Mirrors ρ ρ.snapshot (complete : Program K V _) complete := by
    refine action .readSnapshot fun snapshot => ?_
    refine branch rfl ?_ ?_
    · exact mirrors_locked hlocked
    · exact .done snapshot
  exact hcomplete.bind fun snapshot => .act (.walk snapshot.table) fun entries => .done entries

/-- To extend the map stores the same pairs here and there. -/
theorem mirrors_extend (pairs : List (K × V)) :
    Mirrors ρ id (extend pairs : Program K V Unit) (extend pairs) := by
  induction pairs with
  | nil => exact .done ()
  | cons p rest ih => exact (mirrors_store p.1 p.2).bind fun _ => ih

end Map

/-! ## Requests -/

variable [BEq K] [BEq V]

open Map

/-- A request does the same elsewhere, and answers the relocated handles. -/
theorem Request.mirrors (r : Request K V) : Program.Mirrors ρ ρ.answer r.program r.program := by
  -- each operation was mirrored above; its answer is relocated with it
  cases r with
  | load key =>
      exact (mirrors_seek Cell.mirrors_load (.done none) (mirrors_locate key)).bind fun _ => .done _
  | store key v => exact (mirrors_store key v).bind fun _ => .done _
  | swap key v =>
      have hwrite : Program.Mirrors ρ (Option.map ρ.handle) (Map.swap key v)
          (Map.swap key v) :=
        Write.Mirrors.program ⟨Cell.mirrors_trySwap, Cell.mirrors_swap, fun _ => rfl, rfl⟩ key v
      exact hwrite.bind fun _ => .done _
  | loadOrStore key v =>
      have hwrite : Program.Mirrors ρ (fun a => (ρ.handle a.1, a.2)) (Map.loadOrStore key v)
          (Map.loadOrStore key v) :=
        Write.Mirrors.program ⟨Cell.mirrors_tryLoadOrStore, Cell.mirrors_loadOrStore,
          fun _ => rfl, rfl⟩ key v
      exact hwrite.bind fun a => .done (Answer.settled a.1 a.2)
  | loadAndDelete key =>
      exact (mirrors_seek Cell.mirrors_remove (.done none) (mirrors_withdraw key)).bind
        fun _ => .done _
  | delete key =>
      have hdelete : Program.Mirrors ρ id (Map.delete key : Program K V Unit) (Map.delete key) :=
        (mirrors_seek Cell.mirrors_remove (.done none) (mirrors_withdraw key)).bind
          fun _ => .done ()
      exact hdelete.bind fun _ => .done _
  | compareAndSwap key old new => exact (mirrors_compareAndSwap key old new).bind fun _ => .done _
  | compareAndDelete key old =>
      have hdelete : Program.Mirrors ρ id (Map.compareAndDelete key old : Program K V Bool)
          (Map.compareAndDelete key old) :=
        mirrors_seek (fun c => Cell.mirrors_compareAndDelete c old) (.done false)
          (mirrors_locate key)
      exact hdelete.bind fun _ => .done _
  | clear => exact mirrors_clear.bind fun _ => .done _

/-! ## Clients -/

variable {ε σ : Type}

omit [BEq K] [BEq V] in
/-- The client, seeing relocated stamps. -/
def Relocation.client (ρ : Relocation) : {α : Type} → Client K V ε α → Client K V ε α
  | _, .done x => .done x
  | _, .fail e => .fail e
  | _, .request r next => .request r fun answer => ρ.client (next (ρ.answer answer))
  | _, .extend pairs next => .extend pairs (ρ.client next)
  | _, .traverse visit start next =>
    .traverse (fun key held state => ρ.client (visit key (ρ.handle held) state)) start
      fun state => ρ.client (next state)
  | _, .attempt body next => .attempt (ρ.client body) fun result => ρ.client (next result)

namespace Client

/-- How a client ends, with the relocated trace. -/
def ending (ρ : Relocation) (x : Except ε α × Trace K V) : Except ε α × Trace K V :=
  (x.1, ρ.trace x.2)

/-- A traversal that sees relocated handles visits the relocated entries. -/
theorem mirrors_visits {visit : K → Handle V → σ → Client K V ε (ForInStep σ)}
    (hvisit : ∀ key held state made, Program.Mirrors ρ (ending ρ)
      ((ρ.client (visit key (ρ.handle held) state)).program made)
      ((visit key (ρ.handle held) state).program (ρ.trace made)))
    (entries : List (K × CellId)) (state : σ) (made : Trace K V) :
    Program.Mirrors ρ (ending ρ)
      (visits (fun key held state => ρ.client (visit key (ρ.handle held) state)) entries state made)
      (visits visit (entries.map ρ.entry) state (ρ.trace made)) := by
  induction entries generalizing state made with
  | nil => exact .done _
  | cons e rest ih =>
      obtain ⟨key, c⟩ := e
      rw [List.map_cons, visits_cons]
      show Program.Mirrors ρ _ _ (visits visit ((key, ρ.cell c) :: _) state _)
      rw [visits_cons]
      -- the cells hold values here and there, or neither does
      refine (Cell.mirrors_load c).bind fun x => ?_
      cases x with
      | none => exact ih state made
      | some held =>
          refine (hvisit key held state made).bind fun x => ?_
          obtain ⟨(e | step), made'⟩ := x
          · exact .done _
          -- the visitor goes on here and there, or ends both traversals
          · cases step with
            | done state => exact .done _
            | yield state => exact ih state made'

/-- A client does the same elsewhere, as if it had seen the relocated stamps. -/
theorem mirrors (c : Client K V ε α) (made : Trace K V) :
    Program.Mirrors ρ (ending ρ) ((ρ.client c).program made) (c.program (ρ.trace made)) := by
  -- the induction is on the client; its visitors are clients as well
  induction c generalizing made with
  | done x => exact .done _
  | fail e => exact .done _
  | request r next ih =>
      rw [Relocation.client, program_request, program_request]
      refine r.mirrors.bind fun answer => ?_
      have h := ih (ρ.answer answer) (made ++ [(r, answer)])
      rwa [Relocation.trace, List.map_append] at h
  | extend pairs next ih =>
      rw [Relocation.client, program_extend, program_extend]
      refine (mirrors_extend pairs).bind fun _ => ?_
      have h := ih (made ++ .stores pairs)
      have hstores : ρ.trace (made ++ .stores pairs) = ρ.trace made ++ .stores pairs := by
        simp [Relocation.trace, Trace.stores, Relocation.answer]
      rwa [hstores] at h
  | traverse visit start next ihvisit ih =>
      rw [Relocation.client, program_traverse, program_traverse]
      refine mirrors_itinerary.bind fun entries => (mirrors_visits
        (fun key held state made => ihvisit key (ρ.handle held) state made) entries start
        made).bind fun x => ?_
      obtain ⟨(e | state), made'⟩ := x
      · exact .done _
      · exact ih state made'
  | attempt body next ihbody ih =>
      rw [Relocation.client, program_attempt, program_attempt]
      exact (ihbody made).bind fun x => ih x.1 x.2

end Client

end ConcurrentMap
