import ConcurrentMap.Proofs.Client
import ConcurrentMap.Proofs.Representation

/-!
# Traversals whose visitor only reads

A traversal fixes what it visits by making the snapshot complete, and then a visitor that only reads
finds everything in place: loads and further traversals change nothing but the number of walks
(`Client.run_reads`). So a traversal shows the pairs of the plain map, each of them once, until the
visitor has had enough (`Client.run_traverse`).
-/

namespace ConcurrentMap

variable {K V ε α σ : Type}

/-- The request changes nothing. -/
def Request.Reads (r : Request K V) : Prop := ∃ key, r = .load key

namespace Shared

/-- The same state, but for the number of walks. -/
def Rewalked (s s' : Shared K V) : Prop := s' = { s with walks := s'.walks }

theorem Rewalked.refl (s : Shared K V) : s.Rewalked s := rfl

theorem Rewalked.trans {s s' s'' : Shared K V} (h : s.Rewalked s') (h' : s'.Rewalked s'') :
    s.Rewalked s'' := by
  rw [Rewalked] at *
  rw [h', h]

/-- Nothing amends the snapshot, and the mutex is free. -/
structure Complete (s : Shared K V) : Prop where
  complete : s.snapshot.amended = false
  free : s.holder = none

/-- Further walks leave a complete snapshot complete. -/
theorem Complete.rewalked {s s' : Shared K V} (h : s.Complete) (hw : s.Rewalked s') :
    s'.Complete := by
  rw [Rewalked] at hw
  exact ⟨by rw [hw]; exact h.complete, by rw [hw]; exact h.free⟩

/-- The entries that hold a value, with their handles. -/
def pairsOf (s : Shared K V) (entries : List (K × CellId)) : List (K × Handle V) :=
  entries.filterMap fun e => (s.slot e.2).handle?.map fun held => (e.1, held)

/-- The number of walks makes no difference to the pairs. -/
theorem Rewalked.pairsOf_eq {s s' : Shared K V} (h : s.Rewalked s') (entries : List (K × CellId)) :
    s'.pairsOf entries = s.pairsOf entries := by
  rw [Rewalked] at h
  rw [h]
  rfl

end Shared

open Shared

variable [BEq K] (order : Enumeration K) (t : ThreadId) {s : Shared K V}

/-! ## Beside a complete snapshot -/

theorem Cell.run_load (c : CellId) (s : Shared K V) :
    (Cell.load c : Program K V _).run order t s = some ((s.slot c).handle?, s) := rfl

/-- Beside a complete snapshot a load changes nothing. -/
theorem Map.run_load_complete (h : s.Complete) (key : K) :
    ∃ held, (Map.load key).run order t s = some (held, s) := by
  have hread : (Action.readSnapshot : Action K V).program.run order t s =
      some (s.snapshot, s) := rfl
  rw [Map.load, Program.run_bind, hread, Option.bind_some]
  cases hfind : s.snapshot.find? key with
  | some c => exact ⟨_, Cell.run_load order t c s⟩
  | none =>
      simp only [h.complete]
      exact ⟨none, rfl⟩

/-- Beside a complete snapshot a traversal is set out from it, and only the walk is counted. -/
theorem Map.run_itinerary_complete (h : s.Complete) :
    Map.itinerary.run order t s =
      some (order.arrange s.walks s.snapshot.table.entries, { s with walks := s.walks + 1 }) := by
  have hread : (Map.complete : Program K V _).run order t s =
      (if s.snapshot.amended then locked completeLocked
        else return s.snapshot : Program K V _).run order t s := rfl
  rw [h.complete] at hread
  rw [Map.itinerary, Program.run_bind, hread]
  rfl

namespace Client

variable [BEq V]

/-- The visits leave the map alone if the visitor does. -/
theorem visits_reads {visit : K → Handle V → σ → Client K V ε (ForInStep σ)}
    (hvisit : ∀ key held state (s : Shared K V) trace, s.Complete → ∃ x s',
      ((visit key held state).program trace).run order t s = some (x, s') ∧ s.Rewalked s')
    (entries : List (K × CellId)) (state : σ) (trace : Trace K V) (h : s.Complete) :
    ∃ x s', (visits visit entries state trace).run order t s = some (x, s') ∧ s.Rewalked s' := by
  induction entries generalizing state trace s with
  | nil => exact ⟨_, s, rfl, .refl s⟩
  | cons e entries ih =>
      obtain ⟨key, c⟩ := e
      rw [visits_cons, Program.run_bind, Cell.run_load, Option.bind_some]
      -- An entry without a value is passed over; after a visit the loop goes on, unless it is to
      -- end.
      cases (s.slot c).handle? with
      | none => exact ih state trace h
      | some held =>
          obtain ⟨x, s₁, hrun, hw⟩ := hvisit key held state s trace h
          simp only [Program.run_bind, hrun, Option.bind_some]
          obtain ⟨(failure | step), trace₁⟩ := x
          · exact ⟨_, s₁, rfl, hw⟩
          · cases step with
            | done state => exact ⟨_, s₁, rfl, hw⟩
            | yield state =>
                obtain ⟨x, s₂, hrun₂, hw₂⟩ := ih state trace₁ (h.rewalked hw)
                exact ⟨x, s₂, hrun₂, hw.trans hw₂⟩

/-- A client that only reads leaves a complete snapshot and the cells alone. -/
theorem run_reads (c : Client K V ε α) (honly : c.Only Request.Reads) (trace : Trace K V)
    (h : s.Complete) :
    ∃ x s', (c.program trace).run order t s = some (x, s') ∧ s.Rewalked s' := by
  -- By induction on the client: a request loads, nothing can be stored, and walks are merely
  -- counted.
  induction c generalizing trace s with
  | done x => exact ⟨_, s, rfl, .refl s⟩
  | fail e => exact ⟨_, s, rfl, .refl s⟩
  | request r next ih =>
      obtain ⟨⟨key, rfl⟩, hnext⟩ := honly
      obtain ⟨held, hload⟩ := Map.run_load_complete order t h key
      have hrun : (Request.load key).program.run order t s = some (.found held, s) := by
        rw [Request.program, Program.run_bind, hload]
        rfl
      rw [program_request, Program.run_bind, hrun]
      exact ih _ (hnext _) _ h
  | extend pairs next ih =>
      obtain ⟨hstore, hnext⟩ := honly
      cases pairs with
      | nil =>
          rw [program_extend]
          exact ih hnext _ h
      | cons p pairs =>
          obtain ⟨key, hkey⟩ := hstore p List.mem_cons_self
          exact absurd hkey (by simp)
  | traverse visit start next ihvisit ih =>
      obtain ⟨hvisit, hnext⟩ := honly
      rw [program_traverse, Program.run_bind, Map.run_itinerary_complete order t h,
        Option.bind_some, Program.run_bind]
      have hwalk : s.Rewalked { s with walks := s.walks + 1 } := rfl
      obtain ⟨x, s₁, hrun, hw⟩ := visits_reads order t
        (fun key held state s trace hs => ihvisit key held state (hvisit key held state) trace hs)
        (order.arrange s.walks s.snapshot.table.entries) start trace (h.rewalked hwalk)
      rw [hrun, Option.bind_some]
      obtain ⟨(failure | state), trace₁⟩ := x
      · exact ⟨_, s₁, rfl, hwalk.trans hw⟩
      · obtain ⟨x, s₂, hrun₂, hw₂⟩ := ih state (hnext state) trace₁ ((h.rewalked hwalk).rewalked hw)
        exact ⟨x, s₂, hrun₂, (hwalk.trans hw).trans hw₂⟩
  | attempt body next ihbody ih =>
      obtain ⟨hbody, hnext⟩ := honly
      obtain ⟨x, s₁, hrun, hw⟩ := ihbody hbody trace h
      rw [program_attempt, Program.run_bind, hrun, Option.bind_some]
      obtain ⟨y, s₂, hrun₂, hw₂⟩ := ih x.1 (hnext x.1) x.2 (h.rewalked hw)
      exact ⟨y, s₂, hrun₂, hw.trans hw₂⟩

/-- The visits are a plain loop over the entries that hold a value. -/
theorem run_visits {visit : K → Handle V → σ → Client K V ε (ForInStep σ)}
    (hvisit : ∀ key held state, (visit key held state).Only Request.Reads)
    (entries : List (K × CellId)) (state : σ) (trace : Trace K V) (h : s.Complete) :
    (visits visit entries state trace).run order t s =
      ((forEach visit (s.pairsOf entries) state).program trace).run order t s := by
  induction entries generalizing state trace s with
  | nil => rfl
  | cons e entries ih =>
      obtain ⟨key, c⟩ := e
      rw [visits_cons, Program.run_bind, Cell.run_load, Option.bind_some]
      cases hheld : (s.slot c).handle? with
      | none =>
          have hpairs : s.pairsOf ((key, c) :: entries) = s.pairsOf entries := by
            simp [pairsOf, hheld]
          rw [hpairs]
          exact ih state trace h
      | some held =>
          have hpairs : s.pairsOf ((key, c) :: entries) = (key, held) :: s.pairsOf entries := by
            simp [pairsOf, hheld]
          -- the visitor only reads, so the other pairs are still what they were
          obtain ⟨x, s₁, hrun, hw⟩ := run_reads order t _ (hvisit key held state) trace h
          rw [hpairs, forEach, program_bind]
          simp only [Program.run_bind, hrun, Option.bind_some]
          obtain ⟨(failure | step), trace₁⟩ := x
          · rfl
          · cases step with
            | done state => rfl
            | yield state =>
                rw [← hw.pairsOf_eq]
                exact ih state trace₁ (h.rewalked hw)

end Client

/-! ## Making the snapshot complete -/

variable [EquivBEq K]

/-- The entries of a complete snapshot show the plain map. -/
theorem Tidy.lists_pairsOf (h : Tidy .rest s) (ham : s.snapshot.amended = false)
    {entries : List (K × CellId)} (hperm : entries.Perm s.snapshot.table.entries) :
    s.view.Lists (s.pairsOf entries) := by
  have hfind : ∀ e ∈ entries, s.find? e.1 = some e.2 := fun e he =>
    find?_of_snapshot (h.keys.find?_of_mem (hperm.mem_iff.1 he))
  have hpair : ∀ p, p ∈ s.pairsOf entries ↔
      ∃ e ∈ entries, e.1 = p.1 ∧ (s.slot e.2).handle? = some p.2 := by
    rintro ⟨key, held⟩
    simp only [pairsOf, List.mem_filterMap, Option.map_eq_some_iff, Prod.mk.injEq]
    constructor
    · rintro ⟨e, he, held', hheld, rfl, rfl⟩
      exact ⟨e, he, rfl, hheld⟩
    · rintro ⟨e, he, rfl, hheld⟩
      exact ⟨e, he, held, hheld, rfl, rfl⟩
  refine ⟨fun p hp => ?_, fun key held hview => ?_, ?_⟩
  · obtain ⟨e, he, hkey, hheld⟩ := (hpair p).1 hp
    rw [← hkey, view_of_find? (hfind e he), hheld]
  -- A key with a value has a cell in the complete snapshot, and so an entry.
  · cases hsnap : s.snapshot.find? key with
    | none =>
        rw [view_of_missing (find?_of_complete hsnap ham)] at hview
        simp at hview
    | some c =>
        rw [view_of_find? (find?_of_snapshot hsnap)] at hview
        obtain ⟨e, he, rfl, hkey⟩ := Table.exists_mem_of_find? hsnap
        exact ⟨(e.1, held), (hpair _).2 ⟨e, hperm.mem_iff.2 he, rfl, hview⟩, hkey⟩
  · have hkeys : entries.Pairwise fun a b => (a.1 == b.1) = false :=
      Table.distinct_of_perm hperm h.keys
    refine List.pairwise_filterMap.2 (hkeys.imp fun {a b} hab p hp q hq => ?_)
    simp only [Option.map_eq_some_iff] at hp hq
    obtain ⟨-, -, rfl⟩ := hp
    obtain ⟨-, -, rfl⟩ := hq
    exact hab

omit [EquivBEq K] in
/-- What a traversal is about to visit, and the complete snapshot beside which it does so. -/
theorem Map.run_itinerary (h : Tidy .rest s) (hfree : s.holder = none) :
    ∃ entries s', Map.itinerary.run order t s = some (entries, s') ∧ s'.Complete ∧ Tidy .rest s' ∧
      entries.Perm s'.snapshot.table.entries ∧ s'.view = s.view := by
  cases ham : s.snapshot.amended with
  | false =>
      refine ⟨_, _, Map.run_itinerary_complete order t ⟨ham, hfree⟩, ⟨ham, hfree⟩, ?_,
        order.perm _ _, rfl⟩
      exact h.congr rfl rfl (Nat.le_refl _) fun _ _ => rfl
  | true =>
      obtain ⟨table, htable⟩ := Option.isSome_iff_exists.1 (h.phase.1.symm.trans ham)
      have hrun : Map.itinerary.run order t s = some
          (order.arrange s.walks table.entries,
            { s with
              snapshot := .ofTable table
              staging := .empty
              walks := s.walks + 1
              log := .promoted table.size s.staging.misses .traversal :: s.log }) := by
        obtain ⟨⟨_, _⟩, ⟨_, _⟩, _, _, _, _, _⟩ := s
        simp only at hfree ham htable
        subst hfree ham htable
        rfl
      have hpromoted := h.promote htable
      have hdropped := hpromoted.dropPromoted
      refine ⟨_, _, hrun, ⟨rfl, hfree⟩, hdropped.congr rfl rfl (Nat.le_refl _) fun _ _ => rfl,
        order.perm _ _, ?_⟩
      -- a key that the promotion drops had no value
      funext key
      have hfind : ∀ {s' : Shared K V}, s'.snapshot = .ofTable table →
          s'.find? key = (s.find? key).bind fun c => if s.tombstoned c then none else some c := by
        intro s' hs'
        rw [← h.find?_promote htable key]
        simp only [find?, Shared.publish, hs', Snapshot.amended_ofTable, Bool.false_eq_true,
          if_false]
      rw [view, hfind rfl]
      cases hc : s.find? key with
      | none => rw [view_of_missing hc]; rfl
      | some c =>
          rw [view_of_find? hc, Option.bind_some]
          split
          · next htomb => rw [handle?_of_tombstoned htomb]; rfl
          · rfl

/-- A traversal whose visitor only reads is a loop over the pairs of the plain map. -/
theorem Client.run_traverse [BEq V] {visit : K → Handle V → σ → Client K V ε (ForInStep σ)}
    (hvisit : ∀ key held state, (visit key held state).Only Request.Reads) (start : σ)
    (trace : Trace K V) (h : Tidy .rest s) (hfree : s.holder = none) :
    ∃ visits s', s.view.Lists visits ∧ s'.view = s.view ∧
      ((traverse visit start .done).program trace).run order t s =
        ((forEach visit visits start).program trace).run order t s' := by
  obtain ⟨entries, s', hrun, hcomplete, htidy, hperm, hview⟩ := Map.run_itinerary order t h hfree
  refine ⟨s'.pairsOf entries, s', hview ▸ htidy.lists_pairsOf hcomplete.complete hperm, hview, ?_⟩
  rw [program_traverse, Program.run_bind, hrun, Option.bind_some, Program.run_bind,
    run_visits order t hvisit entries start trace hcomplete]
  have honward : (onward fun state => (done state : Client K V ε σ).program) = .done := by
    funext x
    obtain ⟨(failure | state), trace⟩ := x <;> rfl
  rw [honward]
  exact Option.bind_fun_some _

end ConcurrentMap
