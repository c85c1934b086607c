import ConcurrentMap.Proofs.Solo.Structure

/-!
# What requests do alone

Every request of a thread that has the map for itself is a function of the state: `Request.solo`
says which answer it gives and what it leaves behind, `Operation.solo` says so of all operations.
The answer and the new value of the key are those of the plain map (`Request.effect`). What there is
to say beside that is which cell serves the key, whether a stamp is drawn for a value that may be
installed, and whether a miss is counted (`Request.misses`).

`Request.run_solo` ties this to the programs.
-/

namespace ConcurrentMap

variable {K V α : Type}

/-- The request counts a miss if the snapshot is amended and lacks its key. A request that reads
does so in any case, one that may write only if the key is staged. -/
def Request.misses (staged : Bool) : Request K V → Bool
  | .load _ => true
  | .compareAndDelete _ _ => true
  | .loadOrStore _ _ => staged
  | .compareAndSwap _ _ _ => staged
  | .store _ _ => false
  | .swap _ _ => false
  | .loadAndDelete _ => false
  | .delete _ => false
  | .clear => false

namespace Shared

/-- A request that may install a value draws a stamp for it. -/
def drawn (s : Shared K V) (r : Request K V) : Shared K V :=
  if r.value?.isSome then s.tick else s

/-- Drawing a stamp for a value changes neither the tables nor the cells. -/
theorem steady_drawn (s : Shared K V) (r : Request K V) : s.Steady (s.drawn r) := by
  unfold drawn
  split
  · exact ⟨rfl, rfl, rfl, rfl, rfl⟩
  · exact .refl s

@[simp] theorem slot_drawn (s : Shared K V) (r : Request K V) (c : CellId) :
    (s.drawn r).slot c = s.slot c := by
  unfold drawn
  split <;> rfl

@[simp] theorem tombstoned_drawn (s : Shared K V) (r : Request K V) (c : CellId) :
    (s.drawn r).tombstoned c = s.tombstoned c := by
  rw [tombstoned, slot_drawn, tombstoned]

/-- The miss of a request is counted. -/
def charged (s : Shared K V) (r : Request K V) (staged : Bool) : Shared K V :=
  if s.snapshot.amended && r.misses staged then s.missed else s

end Shared

open Shared

variable [BEq K]

/-- A map at rest stays so when a stamp is drawn for a value. -/
theorem Tidy.drawn {s : Shared K V} (h : Tidy .rest s) (r : Request K V) :
    Tidy .rest (s.drawn r) := by
  have hdrawn := steady_drawn s r
  refine h.congr hdrawn.snapshot hdrawn.staging ?_ fun c _ => tombstoned_drawn s r c
  unfold Shared.drawn
  split <;> exact Nat.le_refl _

/-- What a request for `key` leaves behind, after which the key holds `held`. -/
def Request.settle (r : Request K V) (order : Enumeration K) (s : Shared K V) (key : K)
    (held : Option (Handle V)) : Shared K V :=
  let ready := if r.removes?.isSome then s.erased key else s.drawn r
  match s.snapshot.find? key with
  | some c => (s.drawn r).rewritten key c held
  | none =>
    match s.staging.find? key with
    | some c => (ready.serve c held).charged r true
    | none =>
      match held with
      | some new => (s.drawn r).inserted order key new
      | none => ready.charged r false

namespace Request

variable {r : Request K V} {order : Enumeration K} {s : Shared K V} {key : K} {c : CellId}
  {held : Option (Handle V)}

/-- A key of the snapshot is settled in its cell, which is readmitted if need be. -/
theorem settle_of_snapshot (hsnap : s.snapshot.find? key = some c) :
    r.settle order s key held = (s.drawn r).rewritten key c held := by
  simp only [settle, hsnap]

/-- A key that only the staged table has is settled in its cell, and the miss is charged; a deletion
erases it instead. -/
theorem settle_of_staged (hsnap : s.snapshot.find? key = none)
    (hstaged : s.staging.find? key = some c) :
    r.settle order s key held =
      (((if r.removes?.isSome then s.erased key else s.drawn r).serve c held).charged r true) := by
  simp only [settle, hsnap, hstaged]

/-- A key that neither table has is staged with a new cell, if it comes to hold something. -/
theorem settle_of_new (hsnap : s.snapshot.find? key = none) (hstaged : s.staging.find? key = none)
    (new : Handle V) :
    r.settle order s key (some new) = (s.drawn r).inserted order key new := by
  simp only [settle, hsnap, hstaged]

/-- If it comes to hold nothing, only the miss is charged. -/
theorem settle_of_missing (hsnap : s.snapshot.find? key = none)
    (hstaged : s.staging.find? key = none) :
    r.settle order s key none =
      (if r.removes?.isSome then s.erased key else s.drawn r).charged r false := by
  simp only [settle, hsnap, hstaged]

/-- The clock goes on after the stamp that is drawn for a value. -/
theorem clock_le_settle (r : Request K V) (order : Enumeration K) (s : Shared K V) (key : K)
    (held : Option (Handle V)) : (s.drawn r).clock ≤ (r.settle order s key held).clock := by
  have hcharged : ∀ (s : Shared K V) staged, (s.charged r staged).clock = s.clock := by
    intro s staged
    unfold charged
    split
    · exact clock_missed s
    · rfl
  have hready : (s.drawn r).clock ≤
      (if r.removes?.isSome then s.erased key else s.drawn r).clock := by
    split
    · next hremoves =>
      obtain ⟨own, hown⟩ := Option.isSome_iff_exists.1 hremoves
      simp [drawn, value?_of_removes? hown, erased, setStaged]
    · exact Nat.le_refl _
  cases hsnap : s.snapshot.find? key with
  | some c =>
      rw [settle_of_snapshot hsnap]
      exact clock_le_rewritten _ key c held
  | none =>
      cases hstaged : s.staging.find? key with
      | some c =>
          rw [settle_of_staged hsnap hstaged, hcharged, clock_serve]
          exact Nat.le_trans hready (Nat.le_add_right _ _)
      | none =>
          cases held with
          | some new =>
              rw [settle_of_new hsnap hstaged]
              exact clock_le_inserted _ order key new
          | none =>
              rw [settle_of_missing hsnap hstaged, hcharged]
              exact hready

end Request

/-! ## Looking for a cell -/

namespace Map

open Program

variable (order : Enumeration K) (t : ThreadId) {s s' : Shared K V} {key : K} {c : CellId}

/-- Looking for a cell under the mutex finds what is staged, and counts a miss. -/
theorem run_locate (hsnap : s.snapshot.find? key = none) (ham : s.snapshot.amended = true) :
    (locate key).run order t s = some (s.staging.find? key, s.missed) := by
  rw [locate, run_readSnapshot]
  simp only [hsnap, ham, if_true]
  rw [run_findStaged, run_bind, run_recordMiss]
  rfl

/-- A deletion under the mutex finds what is staged, and erases it. -/
theorem run_withdraw (hsnap : s.snapshot.find? key = none) (ham : s.snapshot.amended = true) :
    (withdraw key).run order t s = some (s.staging.find? key, s.erased key) := by
  rw [withdraw, run_readSnapshot]
  simp only [hsnap, ham, if_true]
  rfl

/-- A request that looks for a cell and then works on it without the mutex. -/
theorem run_seek (found : CellId → Program K V α) (missing : Program K V α)
    (answer : Option (Handle V) → α) (settled : Option (Handle V) → Option (Handle V))
    (sought : Shared K V → Shared K V) {search : Program K V (Option CellId)}
    (hfree : s.holder = none) (hflag : s.snapshot.amended = s.staging.table.isSome)
    (hfound : ∀ (s : Shared K V) c, (found c).run order t s =
      some (answer (s.slot c).handle?, s.serve c (settled (s.slot c).handle?)))
    (hmissing : ∀ s : Shared K V, missing.run order t s = some (answer none, s))
    (hsearch : s.snapshot.find? key = none → s.snapshot.amended = true →
      search.run order t (s.hold t) = some (s.staging.find? key, (sought s).hold t))
    (hsought : (sought s).holder = none) (hslot : ∀ c, (sought s).slot c = s.slot c) :
    (seek key search found missing).run order t s =
      some (answer (s.view key), match s.snapshot.find? key, s.staging.find? key with
        | some c, _ => s.serve c (settled (s.slot c).handle?)
        | none, some c => (sought s).serve c (settled (s.slot c).handle?)
        | none, none => if s.snapshot.amended then sought s else s) := by
  rw [seek, run_readSnapshot]
  cases hsnap : s.snapshot.find? key with
  -- The snapshot leads to the cell, and the mutex is not needed.
  | some c => simp only [hfound, view_of_find? (find?_of_snapshot hsnap)]
  | none =>
      cases ham : s.snapshot.amended with
      | false =>
          -- The snapshot is complete and lacks the key, so there is nothing to find.
          have hstaged : s.staging.find? key = none :=
            Staging.find?_of_isSome_eq_false (hflag.symm.trans ham)
          simp [hmissing, view_of_missing (find?_of_complete hsnap ham), hstaged]
      | true =>
          -- The search goes on under the mutex, and the cell is worked on after that.
          have hlocked := run_locked order t hfree hsought (hsearch hsnap ham)
          have hview := find?_of_staging hsnap ham
          simp only [if_true, run_bind, hlocked, Option.bind_some]
          cases hstaged : s.staging.find? key with
          | some c => simp only [hfound, view_of_find? (hview.trans hstaged), hslot]
          | none => simp only [hmissing, view_of_missing (hview.trans hstaged)]

/-! ## Writing a key -/

/-- What the write of `key` leaves behind, after which the key holds `held`. -/
def Write.left (w : Write K V α) (order : Enumeration K) (s : Shared K V) (key : K)
    (held : Handle V) : Shared K V :=
  match s.snapshot.find? key, s.staging.find? key with
  | some c, _ => s.rewritten key c (some held)
  | none, some c => if w.countsMiss then (s.serve c (some held)).missed else s.serve c (some held)
  | none, none => s.inserted order key held

omit order t in
/-- A write leaves the same behind whether or not its thread holds the mutex. -/
theorem Write.left_hold (w : Write K V α) (order : Enumeration K) (t : ThreadId) (s : Shared K V)
    (key : K) (held : Handle V) :
    w.left order (s.hold t) key held = (w.left order s key held).hold t := by
  unfold left
  simp only [snapshot_hold, staging_hold]
  split
  · simp [rewritten]
  · split <;> simp
  · simp

omit order t in
/-- A write leaves the mutex to whoever holds it. -/
theorem Write.holder_left (w : Write K V α) (order : Enumeration K) (s : Shared K V) (key : K)
    (held : Handle V) : (w.left order s key held).holder = s.holder := by
  unfold left
  split
  · simp only [rewritten, readmitted]
    split <;> rfl
  · split
    · exact holder_missed _
    · rfl
  · exact holder_inserted s order key held

/-- Alone, the write lets the key hold `settled`, and answers `answer`. -/
structure Write.Settles (w : Write K V α) (order : Enumeration K) (t : ThreadId)
    (answer : Option (Handle V) → Handle V → α)
    (settled : Option (Handle V) → Handle V → Handle V) : Prop where
  attempt : ∀ (s : Shared K V) c new, s.tombstoned c = false → (w.attempt c new).run order t s =
    some (some (answer (s.slot c).handle? new), s.serve c (some (settled (s.slot c).handle? new)))
  stopped : ∀ (s : Shared K V) c new, s.tombstoned c = true →
    (w.attempt c new).run order t s = some (none, s)
  guarded : ∀ (s : Shared K V) c new, s.tombstoned c = false → (w.guarded c new).run order t s =
    some (answer (s.slot c).handle? new, s.serve c (some (settled (s.slot c).handle? new)))
  inserted : ∀ new, w.inserted new = answer none new
  fresh : ∀ new, settled none new = new

namespace Write.Settles

variable {w : Write K V α} {answer : Option (Handle V) → Handle V → α}
  {settled : Option (Handle V) → Handle V → Handle V} {order} {t}

/-- Under the mutex a write settles the key, and answers by what the key held before. -/
theorem run_underMutex (hw : w.Settles order t answer settled)
    (hflag : s.snapshot.amended = s.staging.table.isSome)
    (hlive : ∀ c, s.staging.find? key = some c → s.tombstoned c = false) (new : Handle V) :
    (w.underMutex key new).run order t s =
      some (answer (s.view key) new, w.left order s key (settled (s.view key) new)) := by
  rw [underMutex, run_readSnapshot, left]
  cases hsnap : s.snapshot.find? key with
  | some c =>
      have hview := view_of_find? (find?_of_snapshot hsnap)
      simp only [run_bind, run_readmit, Option.bind_some, rewritten]
      cases htomb : s.tombstoned c with
      | false =>
          have hsame : s.readmitted key c = s := by simp [readmitted, htomb]
          -- A cell that was tombstoned is absent when it is written.
          rw [hsame, hw.guarded s c new htomb, hview]
      | true =>
          have hslot : (s.readmitted key c).slot c = ⟨s.clock, .absent⟩ := by
            rw [readmitted, if_pos htomb]
            exact slot_revived htomb
          have hback : (s.readmitted key c).tombstoned c = false := by
            simp [tombstoned, hslot, Content.isTombstoned]
          have hnone : ((s.readmitted key c).slot c).handle? = none := by
            simp [hslot, Slot.handle?]
          rw [hw.guarded _ c new hback, hview, handle?_of_tombstoned htomb, hnone]
  | none =>
      dsimp only
      rw [run_findStaged]
      cases hstaged : s.staging.find? key with
      | some c =>
          have ham := hflag.trans (Staging.isSome_of_find? hstaged)
          have hview := view_of_find? ((find?_of_staging hsnap ham).trans hstaged)
          simp only [run_bind, hw.guarded s c new (hlive c hstaged), Option.bind_some, charge, hview]
          cases w.countsMiss with
          | true => simp [run_recordMiss]
          | false => simp
      | none =>
          have hfind : s.find? key = none := by
            simp [find?, hsnap, hstaged]
          simp only [run_bind, run_stageNew order t hflag, Option.bind_some, hw.inserted,
            view_of_missing hfind, hw.fresh]
          rfl

/-- A write settles the key, whether it gets by without the mutex or not. -/
theorem run_program (hw : w.Settles order t answer settled) (h : Tidy .rest s)
    (hfree : s.holder = none) (value : V) :
    (w.program key value).run order t s =
      some (answer (s.view key) ⟨s.clock, value⟩,
        w.left order s.tick key (settled (s.view key) ⟨s.clock, value⟩)) := by
  have hlocked : (locked (w.underMutex key ⟨s.clock, value⟩)).run order t s.tick =
      some (answer (s.view key) ⟨s.clock, value⟩,
        w.left order s.tick key (settled (s.view key) ⟨s.clock, value⟩)) := by
    refine run_locked order t hfree ((w.holder_left order _ key _).trans hfree) ?_
    rw [← left_hold]
    exact hw.run_underMutex (s := s.tick.hold t) h.phase.1 (fun c => h.stagedLive key c) _
  rw [Write.program, Cell.run_drawStamp, run_readSnapshot]
  simp only [snapshot_tick]
  cases hsnap : s.snapshot.find? key with
  | none => exact hlocked
  | some c =>
      have hview := view_of_find? (find?_of_snapshot hsnap)
      cases htomb : s.tombstoned c with
      -- The first attempt stops at a tombstone, and the write goes on under the mutex.
      | true =>
          simp only [run_bind, hw.stopped s.tick c _ htomb]
          exact hlocked
      | false =>
          -- The first attempt has written the cell, which is all that there is to do.
          have hleft : ∀ held, w.left order s.tick key held = s.tick.serve c (some held) :=
            fun held => by
              simp only [left, snapshot_tick, hsnap]
              exact rewritten_of_live (s := s.tick) htomb _
          simp only [run_bind, hw.attempt s.tick c _ htomb, Option.bind_some, hleft, hview]
          rfl

end Write.Settles

/-! ## Comparing first -/

/-- A comparison under the mutex is decided by what the staged cell holds, and counts a miss;
without a cell it fails. -/
theorem run_compareAndSwapLocked [BEq V] (hsnap : s.snapshot.find? key = none) (old : V)
    (new : Handle V) : (compareAndSwapLocked key old new).run order t s =
      match s.staging.find? key with
      | some c => some ((s.slot c).handle?.any (·.value == old), (s.serve c
          (if (s.slot c).handle?.any (·.value == old) then some new else (s.slot c).handle?)).missed)
      | none => some (false, s) := by
  rw [compareAndSwapLocked, run_readSnapshot]
  simp only [hsnap]
  rw [run_findStaged]
  cases s.staging.find? key with
  | some c => simp only [run_bind, Cell.run_compareAndSwap, Option.bind_some, run_recordMiss]; rfl
  | none => rfl

/-- A comparison is decided by what the key holds, and settles it accordingly. -/
theorem run_compareAndSwap [BEq V] (h : Tidy .rest s) (hfree : s.holder = none) (old new : V) :
    (compareAndSwap key old new).run order t s =
      some ((s.view key).any (·.value == old),
        (Request.compareAndSwap key old new).settle order s key
          (if (s.view key).any (·.value == old) then some ⟨s.clock, new⟩ else s.view key)) := by
  rw [compareAndSwap, Cell.run_drawStamp, run_readSnapshot]
  simp only [snapshot_tick]
  cases hsnap : s.snapshot.find? key with
  | some c =>
      have hview := view_of_find? (find?_of_snapshot hsnap)
      simp only [Cell.run_compareAndSwap, slot_tick, hview, Request.settle_of_snapshot hsnap]
      cases htomb : s.tombstoned c with
      | false => rw [rewritten_of_live (s := s.drawn (.compareAndSwap key old new)) htomb]; rfl
      -- A tombstoned cell holds nothing, so the comparison fails and nothing is readmitted.
      | true =>
          simp only [handle?_of_tombstoned htomb]
          rfl
  | none =>
      have hmissing : ∀ hstaged : s.staging.find? key = none,
          (Request.compareAndSwap key old new).settle order s key none = s.tick := fun hstaged => by
        simp [Request.settle_of_missing hsnap hstaged, charged, Request.misses, Request.removes?,
          drawn, Request.value?]
      dsimp only
      by_cases ham : s.snapshot.amended = true
      · have hview := find?_of_staging hsnap ham
        have hlocked := run_compareAndSwapLocked order t (s := s.tick.hold t) hsnap old
          ⟨s.clock, new⟩
        simp only [ham, if_true]
        cases hstaged : s.staging.find? key with
        -- The cell is staged, and the miss is charged after the comparison.
        | some c =>
            simp only [staging_hold, staging_tick, hstaged, serve_hold, missed_hold] at hlocked
            rw [view_of_find? (hview.trans hstaged), Request.settle_of_staged hsnap hstaged]
            refine (run_locked order t (s := s.tick) hfree ?_ hlocked).trans ?_
            · exact (holder_missed _).trans ((steady_serve _ _ _).holder.trans hfree)
            · have ham' : ∀ held, (s.tick.serve c held).snapshot.amended = true := fun held => by
                rw [(steady_serve _ _ _).snapshot]
                exact ham
              simp only [Request.removes?, drawn, Request.value?, charged, Request.misses, ham',
                Option.isSome_none, Option.isSome_some, Bool.and_true, if_true, Bool.false_eq_true,
                if_false]
              rfl
        | none =>
            simp only [staging_hold, staging_tick, hstaged] at hlocked
            rw [view_of_missing (hview.trans hstaged), Option.any_none, if_neg Bool.false_ne_true,
              hmissing hstaged]
            exact run_locked order t (s := s.tick) hfree hfree hlocked
      -- The snapshot is complete, so neither table has the key.
      · have ham : s.snapshot.amended = false := by simpa using ham
        have hstaged : s.staging.find? key = none :=
          Staging.find?_of_isSome_eq_false (h.phase.1.symm.trans ham)
        simp only [view_of_missing (find?_of_complete hsnap ham), ham, Option.any_none,
          Bool.false_eq_true, if_false, hmissing hstaged]
        rfl

end Map

/-! ## All requests -/

namespace Request

variable {order : Enumeration K} {t : ThreadId} {s : Shared K V} {r : Request K V} {key : K}

/-- What a request leaves behind that deletes its key, or that reads it first and writes no
value. -/
theorem settle_seek (order : Enumeration K) (r : Request K V) (key : K)
    (settled : Option (Handle V) → Option (Handle V))
    (hflag : s.snapshot.amended = s.staging.table.isSome) (hvalue : r.value? = none)
    (hsettled : settled none = none) {sought : Shared K V}
    (hsought : r.removes?.isSome = true ∧ (∀ staged, r.misses staged = false) ∧
        sought = s.erased key ∨
      r.removes?.isSome = false ∧ (∀ staged, r.misses staged = true) ∧ sought = s.missed) :
    r.settle order s key (settled (s.view key)) =
      match s.snapshot.find? key, s.staging.find? key with
        | some c, _ => s.serve c (settled (s.slot c).handle?)
        | none, some c => sought.serve c (settled (s.slot c).handle?)
        | none, none => if s.snapshot.amended then sought else s := by
  have hdrawn : s.drawn r = s := by simp [drawn, hvalue]
  cases hsnap : s.snapshot.find? key with
  | some c =>
      rw [settle_of_snapshot hsnap, hdrawn, view_of_find? (find?_of_snapshot hsnap)]
      cases htomb : s.tombstoned c with
      | false => exact rewritten_of_live htomb _
      -- A tombstoned cell holds nothing, and it is left alone.
      | true =>
          simp only [handle?_of_tombstoned htomb, hsettled]
          rfl
  | none =>
      cases hstaged : s.staging.find? key with
      | some c =>
          have ham := hflag.trans (Staging.isSome_of_find? hstaged)
          have ham' : ∀ held, (s.serve c held).snapshot.amended = true := fun held => by
            rw [(steady_serve _ _ _).snapshot, ham]
          rw [settle_of_staged hsnap hstaged, hdrawn,
            view_of_find? ((find?_of_staging hsnap ham).trans hstaged)]
          -- A deletion erases the key and counts no miss; a request that reads counts one.
          rcases hsought with ⟨hremoves, hmisses, rfl⟩ | ⟨hremoves, hmisses, rfl⟩
          · simp only [hremoves, if_true, charged, hmisses, Bool.and_false, Bool.false_eq_true,
              if_false]
          · simp only [hremoves, Bool.false_eq_true, if_false, charged, hmisses, Bool.and_true, ham',
              if_true, missed_serve]
      | none =>
          have hfind : s.find? key = none := by simp [find?, hsnap, hstaged]
          rw [view_of_missing hfind, hsettled, settle_of_missing hsnap hstaged, hdrawn]
          rcases hsought with ⟨hremoves, hmisses, rfl⟩ | ⟨hremoves, hmisses, rfl⟩
          · simp only [hremoves, if_true, charged, hmisses, Bool.and_false, Bool.false_eq_true,
              if_false]
            split
            · rfl
            · next ham =>
              -- Nothing is staged, so there is nothing to erase either.
              have hnone : s.staging.table = none := by
                cases htable : s.staging.table with
                | none => rfl
                | some table => simp [hflag, htable] at ham
              simp only [erased, setStaged, hnone, Option.map_none]
              rw [← hnone]
          · simp only [hremoves, Bool.false_eq_true, if_false, charged, hmisses, Bool.and_true]

/-- What a write leaves behind is what the request of that write leaves behind. -/
theorem settle_write {w : Map.Write K V α} (hvalue : r.value?.isSome = true)
    (hmisses : ∀ staged, r.misses staged = (w.countsMiss && staged))
    (hflag : s.snapshot.amended = s.staging.table.isSome) (held : Handle V) :
    r.settle order s key (some held) = w.left order s.tick key held := by
  have hdrawn : s.drawn r = s.tick := by simp [drawn, hvalue]
  have hremoves : r.removes?.isSome = false := by
    cases r <;> first | rfl | simp [value?] at hvalue
  simp only [Map.Write.left, snapshot_tick, staging_tick]
  cases hsnap : s.snapshot.find? key with
  | some c => rw [settle_of_snapshot hsnap, hdrawn]
  | none =>
      cases hstaged : s.staging.find? key with
      | some c =>
          have ham := hflag.trans (Staging.isSome_of_find? hstaged)
          have ham' : (s.tick.serve c (some held)).snapshot.amended = true := ham
          rw [settle_of_staged hsnap hstaged, hremoves, if_neg Bool.false_ne_true, hdrawn, charged,
            ham', hmisses, Bool.true_and, Bool.and_true]
      | none => rw [settle_of_new hsnap hstaged, hdrawn]

end Request

namespace Map

/-- A swap lets the key hold the new handle and answers the old one. -/
theorem Write.settles_swapping (order : Enumeration K) (t : ThreadId) :
    (swapping : Write K V _).Settles order t (fun held _ => held) fun _ new => new where
  attempt _ _ new hlive := Cell.run_trySwap order t hlive new
  stopped _ _ new htomb := Cell.run_trySwap_of_tombstoned order t htomb new
  guarded _ _ new _ := Cell.run_swap order t new
  inserted _ := rfl
  fresh _ := rfl

/-- A store lets the key hold the new handle and answers nothing. -/
theorem Write.settles_storing (order : Enumeration K) (t : ThreadId) :
    (storing : Write K V _).Settles order t (fun _ _ => ()) fun _ new => new where
  attempt _ _ new hlive := by
    simp only [storing, Cell.tryStore, Program.run_bind, Cell.run_trySwap order t hlive]
    rfl
  stopped _ _ new htomb := by
    simp only [storing, Cell.tryStore, Program.run_bind, Cell.run_trySwap_of_tombstoned order t htomb]
    rfl
  guarded _ _ new _ := Cell.run_store order t new
  inserted _ := rfl
  fresh _ := rfl

/-- Loading or storing lets the key keep what it holds, and fills it if it holds nothing. -/
theorem Write.settles_filling (order : Enumeration K) (t : ThreadId) :
    (filling : Write K V _).Settles order t (fun held new => (held.getD new, held.isSome))
      fun held new => held.getD new where
  attempt _ _ new hlive := Cell.run_tryLoadOrStore order t hlive new
  stopped _ _ new htomb := Cell.run_tryLoadOrStore_of_tombstoned order t htomb new
  guarded _ _ new hlive := Cell.run_loadOrStore order t hlive new
  inserted _ := rfl
  fresh _ := rfl

/-- A write settles its key as the request that it carries out. -/
theorem Write.Settles.run_request {w : Write K V α} {order : Enumeration K} {t : ThreadId}
    {answer : Option (Handle V) → Handle V → α} {settled : Option (Handle V) → Handle V → Handle V}
    (hw : w.Settles order t answer settled) {r : Request K V} (hvalue : r.value?.isSome = true)
    (hmisses : ∀ staged, r.misses staged = (w.countsMiss && staged)) {s : Shared K V}
    (h : Tidy .rest s) (hfree : s.holder = none) {key : K} (v : V) :
    (w.program key v).run order t s = some (answer (s.view key) ⟨s.clock, v⟩,
      r.settle order s key (some (settled (s.view key) ⟨s.clock, v⟩))) := by
  rw [Request.settle_write hvalue hmisses h.phase.1]
  exact hw.run_program h hfree v

variable (order : Enumeration K) (t : ThreadId) {s : Shared K V} (h : Tidy .rest s)
  (hfree : s.holder = none) (key : K)

include h hfree

omit h hfree in
/-- The search of a load does the same for the holder of the mutex. -/
private theorem run_locate_hold (hsnap : s.snapshot.find? key = none)
    (ham : s.snapshot.amended = true) : (locate key : Program K V _).run order t (s.hold t) =
      some (s.staging.find? key, s.missed.hold t) := by
  have hrun := run_locate order t (s := s.hold t) hsnap ham
  rwa [missed_hold] at hrun

/-- A load answers what the key holds. -/
theorem run_load : (load key).run order t s =
    some (s.view key, (Request.load key).settle order s key (s.view key)) := by
  have hsettle := Request.settle_seek order (.load key) key id h.phase.1 rfl rfl
    (.inr ⟨rfl, fun _ => rfl, rfl⟩)
  rw [load_eq_seek]
  refine (run_seek order t Cell.load (.done none) id id missed hfree h.phase.1
    (fun s c => by simp [Cell.run_load]) (fun _ => rfl)
    (run_locate_hold order t key) ((holder_missed s).trans hfree) (slot_missed s)).trans ?_
  rw [← hsettle]
  rfl

/-- A deletion answers what the key held, and lets it hold nothing. -/
theorem run_loadAndDelete : (loadAndDelete key).run order t s =
    some (s.view key, (Request.loadAndDelete key).settle order s key none) := by
  have hsettle := Request.settle_seek order (.loadAndDelete key) key (fun _ => none) h.phase.1 rfl
    rfl (.inl ⟨rfl, fun _ => rfl, rfl⟩)
  rw [loadAndDelete_eq_seek, hsettle]
  exact run_seek order t Cell.remove (.done none) id (fun _ => none) (·.erased key) hfree h.phase.1
    (fun s c => Cell.run_remove order t) (fun _ => rfl)
    (fun hsnap ham => run_withdraw order t (s := s.hold t) hsnap ham) hfree fun _ => rfl

/-- A comparison and deletion is decided by what the key holds. -/
theorem run_compareAndDelete [BEq V] (old : V) : (compareAndDelete key old).run order t s =
    some ((s.view key).any (·.value == old), (Request.compareAndDelete key old).settle order s key
      (if (s.view key).any (·.value == old) then none else s.view key)) := by
  have hsettle := Request.settle_seek order (.compareAndDelete key old) key
    (fun held => if held.any (·.value == old) then none else held) h.phase.1 rfl rfl
    (.inr ⟨rfl, fun _ => rfl, rfl⟩)
  rw [compareAndDelete_eq_seek, hsettle]
  exact run_seek order t (fun c => Cell.compareAndDelete c old) (.done false)
    (fun held => held.any (·.value == old))
    (fun held => if held.any (·.value == old) then none else held) missed hfree h.phase.1
    (fun s c => Cell.run_compareAndDelete order t old) (fun _ => rfl)
    (run_locate_hold order t key) ((holder_missed s).trans hfree) (slot_missed s)

/-- A swap answers what the key held before. -/
theorem run_swap (v : V) : (swap key v).run order t s =
    some (s.view key, (Request.swap key v).settle order s key (some ⟨s.clock, v⟩)) :=
  (Write.settles_swapping order t).run_request (r := .swap key v) rfl (fun _ => rfl) h hfree v

/-- A store answers nothing. -/
theorem run_store (v : V) : (store key v).run order t s =
    some ((), (Request.store key v).settle order s key (some ⟨s.clock, v⟩)) :=
  (Write.settles_storing order t).run_request (r := .store key v) rfl (fun _ => rfl) h hfree v

/-- Loading or storing answers the handle that the key holds then, and whether it held one
before. -/
theorem run_loadOrStore (v : V) : (loadOrStore key v).run order t s =
    some (((s.view key).getD ⟨s.clock, v⟩, (s.view key).isSome),
      (Request.loadOrStore key v).settle order s key
        (some ((s.view key).getD ⟨s.clock, v⟩))) :=
  (Write.settles_filling order t).run_request (r := .loadOrStore key v) rfl
    (fun staged => (Bool.true_and staged).symm) h hfree v

end Map

/-! ## All operations -/

variable [BEq V]

/-- What a request answers, and what it leaves behind. -/
def Request.solo (r : Request K V) (order : Enumeration K) (s : Shared K V) :
    Answer V × Shared K V :=
  match r.key? with
  | none => (.finished, s.cleared)
  | some key =>
    let effect := r.effect s.clock (s.view key)
    (effect.1, r.settle order s key effect.2)

/-- What an operation tells, and what it leaves behind. -/
def Operation.solo (order : Enumeration K) (s : Shared K V) :
    (o : Operation K V) → o.Result × Shared K V
  | .request r => r.solo order s
  | .depart => s.completed.walk order s.completed.snapshot.table
  | .reach c => ((s.slot c).handle?, s)

/-- A request about a key answers and settles as the plain map does for what the key holds. -/
theorem Request.solo_of_key {r : Request K V} {key : K} (h : r.key? = some key)
    (order : Enumeration K) (s : Shared K V) :
    r.solo order s = ((r.effect s.clock (s.view key)).1,
      r.settle order s key (r.effect s.clock (s.view key)).2) := by
  simp only [solo, h]

/-- Alone, a request does what `solo` says. -/
theorem Request.run_solo (order : Enumeration K) (t : ThreadId) {s : Shared K V}
    (h : Tidy .rest s) (hfree : s.holder = none) (r : Request K V) :
    r.program.run order t s = some (r.solo order s) := by
  cases r with
  | load key =>
      rw [program, Program.run_bind, Map.run_load order t h hfree]
      rfl
  | store key v =>
      rw [program, Program.run_bind, Map.run_store order t h hfree]
      rfl
  | swap key v =>
      rw [program, Program.run_bind, Map.run_swap order t h hfree]
      rfl
  | loadOrStore key v =>
      rw [program, Program.run_bind, Map.run_loadOrStore order t h hfree]
      simp only [solo, key?, effect]
      cases s.view key <;> rfl
  | loadAndDelete key =>
      rw [program, Program.run_bind, Map.run_loadAndDelete order t h hfree]
      rfl
  | delete key =>
      rw [program, Program.run_bind, Map.delete, Program.run_bind,
        Map.run_loadAndDelete order t h hfree]
      rfl
  | compareAndSwap key old new =>
      rw [program, Program.run_bind, Map.run_compareAndSwap order t h hfree]
      by_cases hold : (s.view key).any (·.value == old) = true
      · simp [solo, key?, effect, hold]
      · simp [solo, key?, effect, hold]
  | compareAndDelete key old =>
      rw [program, Program.run_bind, Map.run_compareAndDelete order t h hfree]
      by_cases hold : (s.view key).any (·.value == old) = true
      · simp [solo, key?, effect, hold]
      · simp [solo, key?, effect, hold]
  | clear =>
      rw [program, Program.run_bind, Map.run_cleared order t hfree]
      rfl

/-- Alone, an operation does what `solo` says. -/
theorem Operation.run_solo (order : Enumeration K) (t : ThreadId) {s : Shared K V}
    (h : Tidy .rest s) (hfree : s.holder = none) (o : Operation K V) :
    o.program.run order t s = some (o.solo order s) := by
  cases o with
  | request r => exact r.run_solo order t h hfree
  | depart =>
      show (Map.itinerary : Program K V _).run order t s = _
      rw [Map.itinerary, Program.run_bind, Map.run_complete order t hfree]
      rfl
  | reach c => rfl

/-- A thread between two operations carries out the next one, and is between two operations
again. -/
theorem Operation.ends_solo [EquivBEq K] (order : Enumeration K) {t : ThreadId} {s : Shared K V}
    (hs : s.Ready t) (o : Operation K V) :
    o.program.Ends order t s fun x s' => (x, s') = o.solo order s ∧ s'.Ready t := by
  have hsolo : o.program.Ends order t s fun x s' => (x, s') = o.solo order s :=
    ⟨_, _, o.run_solo order t hs.tidy hs.free, rfl⟩
  exact hsolo.and (o.ends_ready hs)

/-- The operation was carried out by a thread that has the map for itself. -/
structure Passage.Alone (order : Enumeration K) (p : Passage K V) : Prop where
  before : Tidy .rest p.before
  after : Tidy .rest p.after
  solo : p.after = (p.operation.solo order p.before).2

/-- A thread carries its operations out alone, one after the other. -/
theorem Operation.lawful_alone [EquivBEq K] (order : Enumeration K) (t : ThreadId)
    (o : Operation K V) : o.Lawful order t (Shared.Ready t) (Passage.Alone order) := by
  intro s hs
  have hends : o.program.Ends order t s fun x s' => (x, s') = o.solo order s ∧ s'.Ready t :=
    o.ends_solo order hs
  obtain ⟨x, s', hrun, hsolo, hs'⟩ := hends
  exact ⟨x, s', hrun, hs', hs.tidy, hs'.tidy, congrArg Prod.snd hsolo⟩

/-- A traversal starts from a complete snapshot, and the thread is between two operations. -/
theorem Map.run_itinerary_ready [EquivBEq K] (order : Enumeration K) {t : ThreadId}
    {s : Shared K V} (hs : s.Ready t) :
    (itinerary : Program K V _).run order t s =
        some (order.arrange s.completed.walks s.completed.snapshot.table.entries,
          s.completed.walked) ∧
      s.completed.walked.Ready t := by
  obtain ⟨entries, s₁, hrun, hsolo, hs₁⟩ :=
    (Operation.depart : Operation K V).ends_solo order hs
  obtain ⟨rfl, rfl⟩ : entries = order.arrange s.completed.walks s.completed.snapshot.table.entries ∧
    s₁ = s.completed.walked := Prod.mk.inj hsolo
  exact ⟨hrun, hs₁⟩

end ConcurrentMap
