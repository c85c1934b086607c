import ConcurrentMap.Request
import ConcurrentMap.Proofs.Traversal
import Mathlib.Data.List.Basic

/-!
# A thread alone

`Program.Ends` is about a thread that nobody disturbs: it gets to the end of its program, and
something holds there. There is a rule for each building block. Programs that only work on cells are
`Program.OnCells`, and leave everything else as it is (`Program.OnCells.ends`); the programs that
change the structure leave behind what the definitions beside them say.
-/

namespace ConcurrentMap

variable {K V α β : Type}

/-! ## Programs that work on cells -/

/-- The action concerns a cell or a stamp, and nothing else. -/
def Action.OnCells : Action K V → Prop
  | .drawStamp => True
  | .newCell _ => True
  | .readCell _ => True
  | .exchange _ _ => True
  | .compareExchange _ _ _ => True
  | _ => False

/-- Every action of the program concerns a cell or a stamp. -/
def Program.OnCells : Program K V α → Prop
  | .done _ => True
  | .act a next => a.OnCells ∧ ∀ r, (next r).OnCells
  | .retry _ next => ∀ o, (next o).OnCells

/-- Everything but the cells and the clock is the same. -/
structure Shared.Steady (s s' : Shared K V) : Prop where
  snapshot : s'.snapshot = s.snapshot
  staging : s'.staging = s.staging
  holder : s'.holder = s.holder
  walks : s'.walks = s.walks
  log : s'.log = s.log

namespace Shared.Steady

variable {s s' s'' : Shared K V}

/-- To do nothing keeps everything steady. -/
theorem refl (s : Shared K V) : s.Steady s := ⟨rfl, rfl, rfl, rfl, rfl⟩

/-- What is steady in each of two parts is steady in both. -/
theorem trans (h : s.Steady s') (h' : s'.Steady s'') : s.Steady s'' :=
  ⟨h'.snapshot.trans h.snapshot, h'.staging.trans h.staging, h'.holder.trans h.holder,
    h'.walks.trans h.walks, h'.log.trans h.log⟩

end Shared.Steady

/-- An exchange changes the cells at most. -/
theorem Shared.steady_compareExchange (s : Shared K V) (c : CellId) (seen new : Slot V) :
    s.Steady (s.compareExchange c seen new).2 := by
  unfold compareExchange
  split <;> exact ⟨rfl, rfl, rfl, rfl, rfl⟩

namespace Program.OnCells

/-- A sequence works on cells if its parts do. -/
theorem bind {p : Program K V α} {f : α → Program K V β} (hp : p.OnCells)
    (hf : ∀ x, (f x).OnCells) : (p >>= f).OnCells := by
  induction p with
  | done x => exact hf x
  | act a next ih => exact ⟨hp.1, fun r => ih r (hp.2 r)⟩
  | retry u next ih => exact fun o => ih o (hp o)

/-- An action on a cell is a program on cells. -/
theorem action {a : Action K V} (h : a.OnCells) : a.program.OnCells := ⟨h, fun _ => trivial⟩

/-- A retried exchange works on its cell alone. -/
theorem update (u : Update V) : (u.program : Program K V _).OnCells := by
  unfold Update.program
  split
  · exact fun _ => trivial
  · trivial

end Program.OnCells

namespace Cell

open Program

variable (c : CellId)

/-- A load concerns its cell alone. -/
theorem onCells_load : (load c : Program K V _).OnCells := .bind (.action trivial) fun _ => trivial

/-- A swap without the mutex concerns its cell alone, however often it retries. -/
theorem onCells_trySwap (new : Handle V) : (trySwap c new : Program K V _).OnCells :=
  .bind (.action trivial) fun _ => .bind (.update _) fun o => by cases o <;> trivial

/-- An attempt to load or store concerns its cell alone. -/
theorem onCells_tryLoadOrStore (candidate : Handle V) :
    (tryLoadOrStore c candidate : Program K V _).OnCells :=
  .bind (.action trivial) fun _ => .bind (.update _) fun o => by cases o <;> trivial

/-- To vacate a cell takes a stamp and the cell, and nothing else. -/
theorem onCells_vacate (wanted : Content V → Bool) : (vacate c wanted : Program K V _).OnCells := by
  refine .bind (.action trivial) fun seen => ?_
  split
  · exact .bind (.action trivial) fun _ => .bind (.update _) fun o => by cases o <;> trivial
  · trivial

/-- A removal concerns its cell alone. -/
theorem onCells_remove : (remove c : Program K V _).OnCells :=
  .bind (onCells_vacate c _) fun _ => trivial

/-- A comparison concerns its cell alone. -/
theorem onCells_compareAndSwap [BEq V] (old : V) (new : Handle V) :
    (compareAndSwap c old new : Program K V _).OnCells :=
  .bind (.action trivial) fun _ => .bind (.update _) fun o => by cases o <;> trivial

/-- A comparison that deletes concerns its cell alone. -/
theorem onCells_compareAndDelete [BEq V] (old : V) :
    (compareAndDelete c old : Program K V _).OnCells :=
  .bind (onCells_vacate c _) fun _ => trivial

/-- A swap under the mutex concerns its cell alone. -/
theorem onCells_swap (new : Handle V) : (swap c new : Program K V _).OnCells :=
  .bind (.action trivial) fun _ => trivial

/-- A store under the mutex concerns its cell alone. -/
theorem onCells_store (new : Handle V) : (store c new : Program K V _).OnCells :=
  .bind (.action trivial) fun _ => trivial

/-- Under the mutex too, to load or store concerns the cell alone. -/
theorem onCells_loadOrStore (candidate : Handle V) :
    (loadOrStore c candidate : Program K V _).OnCells := by
  refine .bind (onCells_tryLoadOrStore c candidate) fun answer => ?_
  cases answer with
  | some answer => trivial
  | none => exact .bind (onCells_store c candidate) fun _ => trivial

/-- To lift a tombstone concerns the cell alone; that it is staged is left to the caller. -/
theorem onCells_revive : (revive c : Program K V _).OnCells := by
  refine .bind (.action trivial) fun seen => ?_
  split
  · exact .bind (.action trivial) fun _ => .action trivial
  · trivial

/-- To bury a cell concerns the cell alone; that it is left out is up to the caller. -/
theorem onCells_bury : (bury c : Program K V _).OnCells := by
  refine .bind (.action trivial) fun seen => ?_
  split
  · exact .bind (.action trivial) fun _ => .bind (.update _) fun o => by cases o <;> trivial
  · trivial

end Cell

/-! ## A thread alone -/

variable [BEq K]

namespace Program

/-- Alone, thread `t` gets to the end of the program, and then `Q` holds. -/
def Ends (order : Enumeration K) (t : ThreadId) (p : Program K V α) (s : Shared K V)
    (Q : α → Shared K V → Prop) : Prop :=
  ∃ x s', p.run order t s = some (x, s') ∧ Q x s'

variable {order : Enumeration K} {t : ThreadId} {p : Program K V α} {s : Shared K V}
  {Q Q' : α → Shared K V → Prop}

/-- What holds at the end may be weakened. -/
theorem Ends.mono (h : p.Ends order t s Q) (himp : ∀ x s', Q x s' → Q' x s') :
    p.Ends order t s Q' := by
  obtain ⟨x, s', hrun, hQ⟩ := h
  exact ⟨x, s', hrun, himp x s' hQ⟩

/-- There is only one run of a thread that is alone. -/
theorem Ends.and (h : p.Ends order t s Q) (h' : p.Ends order t s Q') :
    p.Ends order t s fun x s' => Q x s' ∧ Q' x s' := by
  obtain ⟨x, s', hrun, hQ⟩ := h
  obtain ⟨x', s'', hrun', hQ'⟩ := h'
  rw [hrun] at hrun'
  cases hrun'
  exact ⟨x, s', hrun, hQ, hQ'⟩

/-- A program that is done has come to its end. -/
theorem ends_done {x : α} (h : Q x s) : (done x : Program K V α).Ends order t s Q := ⟨x, s, rfl, h⟩

/-- A sequence ends if its first part does, and the rest from there. -/
theorem ends_bind {f : α → Program K V β} {R : β → Shared K V → Prop}
    (h : p.Ends order t s fun x s' => (f x).Ends order t s' R) : (p >>= f).Ends order t s R := by
  obtain ⟨x, s₁, hrun, y, s₂, hrun₂, hR⟩ := h
  exact ⟨y, s₂, by rw [run_bind, hrun, Option.bind_some, hrun₂], hR⟩

/-- An action that is never refused. -/
theorem ends_action {a : Action K V} {f : a.Response → Program K V β} {R : β → Shared K V → Prop}
    {r : a.Response × Shared K V} (hperf : a.perform order t s = some r)
    (h : (f r.1).Ends order t r.2 R) : (a.program >>= f).Ends order t s R :=
  ends_bind ⟨r.1, r.2, by rw [Action.run_program, hperf], h⟩

/-- An action on cells is never refused, and leaves all else alone. -/
theorem exists_perform {a : Action K V} (h : a.OnCells) (order : Enumeration K) (t : ThreadId)
    (s : Shared K V) : ∃ r, a.perform order t s = some r ∧ s.Steady r.2 := by
  cases a with
  | compareExchange c seen new => exact ⟨_, rfl, s.steady_compareExchange c seen new⟩
  | drawStamp => exact ⟨_, rfl, ⟨rfl, rfl, rfl, rfl, rfl⟩⟩
  | newCell slot => exact ⟨_, rfl, ⟨rfl, rfl, rfl, rfl, rfl⟩⟩
  | readCell c => exact ⟨_, rfl, .refl s⟩
  | exchange c new => exact ⟨_, rfl, ⟨rfl, rfl, rfl, rfl, rfl⟩⟩
  | _ => exact h.elim

/-- What works on cells always ends, and leaves all else alone. -/
theorem OnCells.ends (h : p.OnCells) (order : Enumeration K) (t : ThreadId) (s : Shared K V) :
    p.Ends order t s fun _ s' => s.Steady s' := by
  induction p generalizing s with
  | done x => exact ends_done (.refl s)
  | act a next ih =>
      obtain ⟨r, hperf, hr⟩ := exists_perform h.1 order t s
      obtain ⟨x, s', hrun, hs'⟩ := ih r.1 (h.2 r.1) r.2
      exact ⟨x, s', by rw [run_act, hperf, Option.bind_some, hrun], hr.trans hs'⟩
  | retry u next ih =>
      have hset : s.Steady (u.settle s).2 := by
        dsimp only [Update.settle]
        split
        · exact ⟨rfl, rfl, rfl, rfl, rfl⟩
        · split <;> exact ⟨rfl, rfl, rfl, rfl, rfl⟩
      obtain ⟨x, s', hrun, hs'⟩ := ih (u.settle s).1 (h _) (u.settle s).2
      exact ⟨x, s', by rw [run_retry, hrun], hset.trans hs'⟩

/-- Among others, too. -/
theorem OnCells.step (h : p.OnCells) {p' : Program K V α} {s s' : Shared K V}
    (hstep : p.step order t s = some (p', s')) : p'.OnCells ∧ s.Steady s' := by
  cases p with
  | done x => simp [Program.step] at hstep
  | act a next =>
      obtain ⟨r, hperf, hr⟩ := exists_perform h.1 order t s
      obtain ⟨r', hperf', rfl, rfl⟩ := of_step_act hstep
      obtain rfl := Option.some.inj (hperf.symm.trans hperf')
      exact ⟨h.2 r.1, hr⟩
  | retry u next =>
      rcases step_retry_cases hstep with ⟨-, rfl, rfl⟩ | ⟨-, rfl, ⟨-, rfl⟩ | ⟨-, rfl⟩⟩
      · exact ⟨h _, ⟨rfl, rfl, rfl, rfl, rfl⟩⟩
      · exact ⟨h, .refl _⟩
      · exact ⟨h _, .refl _⟩

/-- There is a step until the end. -/
theorem OnCells.exists_step (h : p.OnCells) (order : Enumeration K) (t : ThreadId)
    (s : Shared K V) : (∃ x, p = done x) ∨ ∃ p' s', p.step order t s = some (p', s') := by
  cases p with
  | done x => exact .inl ⟨x, rfl⟩
  | act a next =>
      obtain ⟨r, hperf, -⟩ := exists_perform h.1 order t s
      exact .inr ⟨next r.1, r.2, by simp [Program.step, hperf]⟩
  | retry u next =>
      refine .inr ?_
      simp only [Program.step]
      split <;> exact ⟨_, _, rfl⟩

end Program

open Program

/-! ## Changes of the structure -/

section Structure

variable {order : Enumeration K} {t : ThreadId} {s : Shared K V}

/-- The mutex is taken if it is free, and free again in the end. -/
theorem ends_locked {body : Program K V α} {Q : α → Shared K V → Prop} (hfree : s.holder = none)
    (h : body.Ends order t { s with holder := some t } fun x s' => Q x s'.release) :
    (Map.locked body).Ends order t s Q := by
  have hacq : (Action.acquire : Action K V).perform order t s =
      some ((), { s with holder := some t }) := by
    simp [Action.perform, Shared.acquire, hfree]
  exact ends_action hacq (ends_bind (h.mono fun x s' hQ => ends_action rfl (ends_done hQ)))

/-- The staged table becomes the snapshot. -/
def Shared.promoted (s : Shared K V) (reason : PromotionReason) : Shared K V :=
  let table := s.staging.table.getD .empty
  { s with
    snapshot := .ofTable table
    staging := .empty
    log := .promoted table.size s.staging.misses reason :: s.log }

/-- A promotion answers the snapshot that it published. -/
theorem Map.run_promote (reason : PromotionReason) :
    (Map.promote reason).run order t s =
      some (.ofTable (s.staging.table.getD .empty), s.promoted reason) := rfl

/-- One more lookup had to consult the staged table. -/
def Shared.missed (s : Shared K V) : Shared K V :=
  let s' := s.setMisses (s.staging.misses + 1)
  if s.staging.size ≤ s.staging.misses + 1 then s'.promoted .misses else s'

/-- A miss that pays for a promotion leads to one. -/
theorem Map.run_recordMiss : Map.recordMiss.run order t s = some ((), s.missed) := by
  have hcount : (Action.countMiss : Action K V).program.run order t s =
      some (decide (s.staging.size ≤ s.staging.misses + 1),
        s.setMisses (s.staging.misses + 1)) := rfl
  rw [Map.recordMiss, run_bind, hcount, Option.bind_some]
  unfold Shared.missed
  by_cases h : s.staging.size ≤ s.staging.misses + 1
  · simp only [h, decide_true, if_true]
    rfl
  · simp only [h, decide_false, if_false]
    rfl

/-- Alone, an absent cell is tombstoned and a cell that holds a value is kept. -/
theorem Cell.ends_bury {c : CellId} (hlive : s.tombstoned c = false) :
    (Cell.bury c).Ends order t s fun buried s' => s.Steady s' ∧
      buried = (s.slot c).handle?.isNone ∧ ∀ d, c ≠ d → s'.slot d = s.slot d := by
  refine ends_action rfl ?_
  cases hc : (s.slot c).content with
  | absent =>
      -- nobody else is there, so the tombstone is put in place of the slot that was read
      have hrun : (Update.program ⟨c, s.slot c, ⟨s.clock, .tombstoned⟩, Content.isAbsent⟩ :
          Program K V _).run order t { s with clock := s.clock + 1 } =
          some (.installed (s.slot c),
            { s with clock := s.clock + 1 }.setSlot c ⟨s.clock, .tombstoned⟩) := by
        rw [Update.run_program]
        simp only [hc, Content.isAbsent, if_true, Update.settle]
        exact congrArg some (if_pos rfl)
      simp only [Content.isAbsent, if_true]
      refine ends_action rfl (ends_bind ⟨_, _, hrun, ends_done ⟨?_, ?_, fun d hd => ?_⟩⟩)
      · exact ⟨rfl, rfl, rfl, rfl, rfl⟩
      · simp [Slot.handle?, hc]
      · exact Shared.slot_setSlot_ne hd _
  | tombstoned => simp [Shared.tombstoned, hc, Content.isTombstoned] at hlive
  | present v =>
      refine ends_done ⟨.refl s, ?_, fun d _ => rfl⟩
      simp [Slot.handle?, hc, Content.isTombstoned]

variable [EquivBEq K]

/-- What is copied are the entries that hold a value. -/
theorem Map.ends_copyLive {entries : List (K × CellId)} {copies : Table K} {n : Nat}
    (hnew : copies.Admits entries) (hcells : entries.Pairwise fun a b => a.2 ≠ b.2)
    (hlive : ∀ e ∈ entries, s.tombstoned e.2 = false) :
    (Map.copyLive entries copies n).Ends order t s fun x s' => s.Steady s' ∧
      x.1.size = copies.size + (s.pairsOf entries).length ∧
      x.1.size + x.2 = copies.size + n + entries.length := by
  induction entries generalizing copies n s with
  | nil => exact ends_done ⟨.refl s, rfl, rfl⟩
  | cons e entries ih =>
      obtain ⟨key, c⟩ := e
      obtain ⟨hcell, hcells⟩ := List.pairwise_cons.1 hcells
      refine ends_bind ((Cell.ends_bury (hlive (key, c) List.mem_cons_self)).mono
        fun buried s₁ hbury => ?_)
      obtain ⟨hs₁, hburied, hothers⟩ := hbury
      -- the cells of the other entries are what they were
      have hlive₁ : ∀ e ∈ entries, s₁.tombstoned e.2 = false := fun e he => by
        rw [Shared.tombstoned, hothers e.2 (hcell e he)]
        exact hlive e (List.mem_cons_of_mem _ he)
      have hpairs : s₁.pairsOf entries = s.pairsOf entries := by
        refine List.filterMap_congr fun e he => ?_
        rw [hothers e.2 (hcell e he)]
      cases hheld : (s.slot c).handle? with
      | none =>
          obtain rfl : buried = true := by rw [hburied, hheld]; rfl
          have hcount : s.pairsOf ((key, c) :: entries) = s.pairsOf entries := by
            simp [Shared.pairsOf, hheld]
          refine (ih (n := n + 1) hnew.tail hcells hlive₁).mono fun x s₂ hrest =>
            ⟨hs₁.trans hrest.1, ?_, ?_⟩
          · rw [hrest.2.1, hpairs, hcount]
          · rw [hrest.2.2, List.length_cons]
            omega
      | some held =>
          obtain rfl : buried = false := by rw [hburied, hheld]; rfl
          have hcount : (s.pairsOf ((key, c) :: entries)).length =
              (s.pairsOf entries).length + 1 := by
            simp [Shared.pairsOf, hheld]
          have hinsert : (copies.insert key c).size = copies.size + 1 := hnew.size_insert
          refine (ih hnew.insert hcells hlive₁).mono fun x s₂ hrest =>
            ⟨hs₁.trans hrest.1, ?_, ?_⟩
          · rw [hrest.2.1, hinsert, hpairs, hcount]
            omega
          · rw [hrest.2.2, hinsert, List.length_cons]
            omega

end Structure

end ConcurrentMap
