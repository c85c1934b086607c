import ConcurrentMap.Proofs.Custody.Crowds
import Mathlib.Data.List.Permutation

/-!
# What the code takes for granted

The code has a way out for situations that it does not expect: a key is staged and no table is
there, a write under the mutex meets a tombstone, a tombstone that was just seen cannot be lifted, a
promotion finds nothing to promote, a deletion has no value to hand over. `Crowd.run_expected` says
that no thread ever gets into such a situation, however the steps of all threads interleave.
-/

namespace ConcurrentMap

variable {K V α : Type}

/-- The action that comes next, unless nothing is left to do or an exchange is being retried. -/
def Program.next? : Program K V α → Option (Action K V)
  | .done _ => none
  | .act a _ => some a
  | .retry _ _ => none

/-- The action that comes next in an errand. -/
def Errand.next? : Errand K V → Option (Action K V)
  | call _ p => p.next?
  | tour _ p => p.next?

/-- The exchange that is tried next, if one is being retried. -/
def Program.retried? : Program K V α → Option (Update V)
  | .done _ => none
  | .act _ _ => none
  | .retry u _ => some u

/-- The exchange that a call tries next, with the name of the call, if it is retrying one. -/
def Errand.retried? : Errand K V → Option (CallId × Update V)
  | call id p => p.retried?.map (id, ·)
  | tour _ _ => none

theorem Program.Proper.action {t : ThreadId} {role : Role K V} {σ : Scene K V}
    {p : Program K V α} {a : Action K V} (hp : p.Proper t role σ) (ha : p.next? = some a) :
    a.Proper t role σ := by
  cases p with
  | done x => simp [Program.next?] at ha
  | act b next =>
      obtain rfl := Option.some.inj ha
      exact hp
  | retry u next => simp [Program.next?] at ha

theorem Program.Proper.update {t : ThreadId} {role : Role K V} {σ : Scene K V}
    {p : Program K V α} {u : Update V} (hp : p.Proper t role σ) (hu : p.retried? = some u) :
    u.Proper role := by
  cases p with
  | done x => simp [Program.retried?] at hu
  | act a next => simp [Program.retried?] at hu
  | retry u' next =>
      obtain rfl := Option.some.inj hu
      exact hp

namespace Crowd

variable [BEq K] [BEq V]

/-- The handle is to a value that some cell held after some of the turns. -/
def Handed (order : Enumeration K) (turns : List (Move K V)) (held : Handle V) : Prop :=
  ∃ earlier, earlier <+: turns ∧ ∃ c, (run order earlier).shared.slot c = held.slot

/-- After the turns all is as the code expects. -/
structure AsExpected (order : Enumeration K) (turns : List (Move K V)) : Prop where
  /-- Each action that a thread performs next finds what it takes for granted. -/
  actions : ∀ t x a, (run order turns).running t = some x → x.next? = some a →
    a.Expected (run order turns).shared
  /-- A call of `loadOrStore` never comes to the write that it would do at a tombstone. -/
  direct : ∀ t id p key value, (run order turns).running t = some (.call id p) →
    (run order turns).invoked? id = some (t, .loadOrStore key value) →
      ∀ c new, p.next? ≠ some (.exchange c new)
  /-- A call that deletes hands over the slot that its exchange replaces. Whenever it tries the
  exchange, that slot holds a value. All other handles are to values about to be written, or are
  taken where the slot is looked at, by `Slot.handle?`. -/
  deletions : ∀ t x id u r, (run order turns).running t = some x → x.retried? = some (id, u) →
    (run order turns).invoked? id = some (t, r) → r.removes?.isSome = true →
      u.seen.content.isPresent = true
  /-- All handles that are answered are to values that were in the map, -/
  answered : ∀ id answer held, .call (.answered id answer) ∈ (run order turns).history →
    answer.handle? = some held → Handed order turns held
  /-- and so are those that a visitor was shown, in a traversal that is over -/
  arrived : ∀ id report, .arrived id report ∈ (run order turns).history →
    ∀ p ∈ report.visited, Handed order turns p.2
  /-- or in one that waits for its visitor. -/
  waiting : ∀ id next, (run order turns).stage id = .waiting next →
    ∃ rest visited, (∀ goOn, next goOn = .onward rest ⟨visited, !goOn⟩) ∧
      ∀ p ∈ visited, Handed order turns p.2

variable [EquivBEq K]

/-- Whatever the threads call and wherever they travel, and however their steps interleave, all is
as the code expects. -/
theorem run_expected (order : Enumeration K) (turns : List (Move K V)) :
    AsExpected order turns := by
  have h := run_heeded order turns
  have hproper : ∀ t x, (run order turns).running t = some x →
      x.Proper t (run order turns).invoked? (scene order turns) :=
    fun t x hx => (h.running t x hx).proper h.valid
  refine ⟨fun t x a hx ha => ?_, fun t id p key value hx hcall c new ha => ?_,
    fun t x id u r hx hu hcall hremoves => ?_,
    fun id answer held hmem => h.answered id answer hmem held,
    fun id report hmem => h.arrived id report hmem, fun id next hid => ?_⟩
  · have hx := hproper t x hx
    cases x with
    | call id p => exact (Program.Proper.action hx ha).expected
    | tour id p => exact (Program.Proper.action hx ha).expected
  · have hpermitted := (Program.Proper.action (hproper t _ hx) ha).permitted
    exact hpermitted id key value (by simp [Errand.role, hcall])
  · cases x with
    | tour id' p => simp [Errand.retried?] at hu
    | call id' p =>
        obtain ⟨u', hu', heq⟩ := Option.map_eq_some_iff.1 hu
        obtain ⟨rfl, rfl⟩ := Prod.mk.inj heq
        have hrole : Errand.role (run order turns).invoked? (.call id' p) = some (id', r) := by
          simp [Errand.role, hcall]
        exact (Program.Proper.update (hproper t _ hx) hu').isPresent hrole hremoves
  · obtain ⟨rest, visited, hvisited, hnext⟩ := h.waiting id next hid
    exact ⟨rest, visited, hnext, hvisited⟩

/-- Key 1 has had a tombstone since key 2 was stored. Thread 1 holds the mutex and has just seen the
tombstone, and thread 2 is about to delete key 3, which holds a value. -/
def reviving : List (Move Nat Nat) :=
  let requests : List (Request Nat Nat) :=
    [.store 1 10, .store 3 30, .load 1, .load 3, .delete 1, .store 2 20]
  let before := requests.flatMap fun r => .invoke 0 r :: List.replicate 30 (.step 0)
  before ++ .invoke 1 (.store 1 11) :: List.replicate 7 (.step 1) ++
    .invoke 2 (.delete 3) :: List.replicate 3 (.step 2)

/-- The exchange that lifts the tombstone comes next, and the tombstone is still there. The exchange
that deletes key 3 comes next as well, from a slot that holds a value. -/
theorem run_expected_reviving :
    AsExpected .insertion reviving ∧
      (((run .insertion reviving).running 1).bind Errand.next? =
          some (.compareExchange 0 ⟨5, .tombstoned⟩ ⟨7, .absent⟩) ∧
        ((run .insertion reviving).shared.slot 0).stamp = 5) ∧
      (run .insertion reviving).invoked? 7 = some (2, .delete 3) ∧
      ∃ u, ((run .insertion reviving).running 2).bind Errand.retried? = some (7, u) ∧
        u.seen.content.isPresent = true := by
  have h := run_expected .insertion reviving
  have hnext : ((run .insertion reviving).running 1).bind Errand.next? =
      some (.compareExchange 0 ⟨5, .tombstoned⟩ ⟨7, .absent⟩) := by cbv
  obtain ⟨x, hx, ha⟩ := Option.bind_eq_some_iff.1 hnext
  have hcall : (run .insertion reviving).invoked? 7 = some (2, .delete 3) := by cbv
  have hname : (((run .insertion reviving).running 2).bind Errand.retried?).map Prod.fst =
      some 7 := by cbv
  obtain ⟨⟨id, u⟩, hu, rfl⟩ := Option.map_eq_some_iff.1 hname
  obtain ⟨y, hy, hyu⟩ := Option.bind_eq_some_iff.1 hu
  exact ⟨h, ⟨hnext, h.actions 1 x _ hx ha⟩, hcall, u, hu, h.deletions 2 y _ u _ hy hyu hcall rfl⟩

end Crowd

end ConcurrentMap
