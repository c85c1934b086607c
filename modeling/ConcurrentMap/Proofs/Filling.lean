import ConcurrentMap.Proofs.Spellings

/-!
# Filling a map

A map is filled with pairs by storing them one after the other. Where keys are equal, the first pair
settles the key object and the last one the value (`firstLast`): the later ones find the key staged
and only replace what it holds. A map that was filled from nothing therefore has an empty snapshot
and one staged entry for each key (`Shared.FilledBy`, which `Passage.Rearranged.filledBy` carries
from one store to the next). On a map that is not new, the values are those of the plain map
(`Plain.after_stores`).
-/

namespace ConcurrentMap

open Shared

variable {K V α : Type} [BEq K]

/-- What a list of pairs comes to for a key: the key object of the first pair that has the key, and
the value of the last one. -/
def firstLast (pairs : List (K × V)) (key : K) : Option (K × V) :=
  (pairs.find? (·.1 == key)).bind fun first =>
    (pairs.reverse.find? (·.1 == key)).map fun last => (first.1, last.2)

/-! ## Values -/

/-- After some stores a key that was listed holds the value that was listed last, and any other key
what it held before. -/
theorem Plain.after_stores [BEq V] {m : Plain K V} {pairs : List (K × V)} {calls : List (Call K V)}
    (h : calls.map Call.entry = Trace.stores pairs) (key : K) :
    match pairs.reverse.find? (·.1 == key) with
    | some last => (m.after calls key).map (·.value) = some last.2
    | none => m.after calls key = m key := by
  -- By induction on the pairs, from the first one: what it stores may be overwritten later.
  induction pairs generalizing m calls with
  | nil =>
      obtain rfl : calls = [] := List.map_eq_nil_iff.1 h
      rfl
  | cons p pairs ih =>
      obtain ⟨c, calls, rfl, hc, hcalls⟩ := List.map_eq_cons_iff.1 h
      have hrequest : c.request = .store p.1 p.2 := congrArg Prod.fst hc
      have hrest := ih (m := (m.apply c.stamp c.request).2) hcalls
      rw [List.reverse_cons, List.find?_append, List.find?_singleton]
      rw [Plain.after]
      cases hlast : pairs.reverse.find? (·.1 == key) with
      | some last =>
          rw [hlast] at hrest
          exact hrest
      | none =>
          rw [hlast] at hrest
          rw [hrest, hrequest]
          show match if p.1 == key then some p else none with
            | some last => (m.set p.1 (some ⟨c.stamp, p.2⟩) key).map (·.value) = some last.2
            | none => m.set p.1 (some ⟨c.stamp, p.2⟩) key = m key
          rw [set_apply]
          cases p.1 == key <;> rfl

/-! ## Keys -/

theorem Staging.find?_eq (g : Staging K) (key : K) :
    g.find? key = (g.table.getD .empty).find? key := by
  unfold Staging.find?
  cases g.table <;> rfl

/-- The state of a map that was filled with the pairs from nothing. -/
structure Shared.FilledBy (s : Shared K V) (pairs : List (K × V)) : Prop where
  snapshot : s.snapshot.table = .empty
  amended : s.snapshot.amended = !pairs.isEmpty
  spellings : ∀ key, (s.staging.table.getD .empty).spelling? key =
    (pairs.find? (·.1 == key)).map Prod.fst

namespace Passage

variable [EquivBEq K] {p : Passage K V} {key : K} {v : V} {pairs : List (K × V)}

/-- One more store. -/
theorem Rearranged.filledBy (h : p.Rearranged) (hop : p.operation = .request (.store key v))
    (hpairs : p.before.FilledBy pairs) : p.after.FilledBy (pairs ++ [(key, v)]) := by
  have hrequest : p.request? = some (.store key v) := by rw [request?, hop]
  have hwrites : p.request?.bind Request.writes? = some key := by rw [hrequest]; rfl
  have hconcat : ∀ query, ((pairs ++ [(key, v)]).find? (·.1 == query)).map Prod.fst =
      ((p.before.staging.table.getD .empty).spelling? query).or
        (if key == query then some key else none) := fun query => by
    rw [hpairs.spellings, List.find?_append, List.find?_singleton]
    cases pairs.find? (·.1 == query) with
    | some first => rfl
    | none => cases key == query <;> rfl
  have hfilled : (!(pairs ++ [(key, v)]).isEmpty) = true := by simp
  -- A store finds its key staged, stages it, or builds the staged table; it does nothing else.
  cases h.rearranges with
  | kept snapshot table log clears written removed =>
      have hfound := written key (by rw [writes_eq hwrites, BEq.rfl])
      have hlacks : p.before.snapshot.find? key = none := by
        rw [Snapshot.find?, hpairs.snapshot]
        rfl
      have ham : p.before.snapshot.amended = true := by
        by_contra ham
        simp [ham, hlacks] at hfound
      rw [if_pos ham] at hfound
      refine ⟨snapshot ▸ hpairs.snapshot, by rw [snapshot, ham, hfilled], fun query => ?_⟩
      rw [table, hconcat]
      -- A key that was staged before keeps its spelling.
      cases hq : key == query with
      | false => simp
      | true =>
          rw [Staging.find?_eq, ← Table.isSome_spelling?, Table.spelling?_congr _ hq] at hfound
          obtain ⟨object, hobject⟩ := Option.isSome_iff_exists.1 hfound
          rw [hobject]
          rfl
  | erased other removes lacks snapshot table log => simp [hrequest, Request.removes?] at removes
  | staged other c table writes absent before lacks snapshot after log =>
      obtain rfl : key = other := Option.some.inj (hwrites.symm.trans writes)
      have ham := h.before.phase.1.trans (congrArg Option.isSome before)
      refine ⟨snapshot ▸ hpairs.snapshot, by rw [snapshot, ham, hfilled]; rfl, fun query => ?_⟩
      rw [hconcat, after, before, Option.getD_some, Option.getD_some,
        Table.spelling?_insert_of_new lacks]
      cases hq : key == query with
      | false => simp
      | true =>
          have hnone : table.spelling? query = none := by
            rw [← table.spelling?_congr hq, Table.spelling?_eq_none_iff, lacks]
          simp [hnone]
  | built other c copies expunged writes absent complete lacks distinct live snapshot after log =>
      obtain rfl : key = other := Option.some.inj (hwrites.symm.trans writes)
      -- The snapshot is empty, so there is nothing to copy.
      have hnone : copies.entries = [] := List.eq_nil_iff_forall_not_mem.2 fun e he => by
        have hmem := ((live e).1 he).1
        rw [hpairs.snapshot] at hmem
        exact List.not_mem_nil hmem
      have hempty : copies = .empty := congrArg Table.mk hnone
      refine ⟨snapshot ▸ hpairs.snapshot, by rw [snapshot, hfilled]; rfl, fun query => ?_⟩
      rw [hconcat, h.before.staging_eq_empty complete, after, hempty, Option.getD_some,
        Table.spelling?_insert_of_new (Table.find?_empty key)]
      rfl
  | promoted table misses reason due before amended snapshot after log =>
      have hrecords : p.records = false := by
        simp [records, hop, Request.key?, Request.misses]
      simp [hrecords, hrequest] at due
  | cleared clears snapshot after log => simp [Passage.clears, hop] at clears

end Passage

/-! ## The programs -/

variable [EquivBEq K] [BEq V] (order : Enumeration K) {t : ThreadId} {s : Shared K V}

/-- The state after the pairs have been stored, one after the other. -/
def Shared.filled (s : Shared K V) (order : Enumeration K) (pairs : List (K × V)) : Shared K V :=
  pairs.foldl (fun s p => ((Request.store p.1 p.2).solo order s).2) s

/-- Storing some pairs one after the other leads to the filled state. -/
theorem Map.run_extend (hs : s.Ready t) (pairs : List (K × V)) :
    (extend pairs).run order t s = some ((), s.filled order pairs) ∧
      (s.filled order pairs).Ready t := by
  induction pairs generalizing s with
  | nil => exact ⟨rfl, hs⟩
  | cons p pairs ih =>
      obtain ⟨key, v⟩ := p
      obtain ⟨_, s₁, -, hsolo, hs₁⟩ := (Operation.request (.store key v)).ends_solo order hs
      obtain rfl : s₁ = ((Request.store key v).solo order s).2 := congrArg Prod.snd hsolo
      obtain ⟨hrun, hready⟩ := ih hs₁
      refine ⟨?_, hready⟩
      rw [extend, Program.run_bind, run_store order t hs.tidy hs.free]
      exact hrun

omit [EquivBEq K] [BEq V] in
/-- Collecting the visits lists the pairs of the entries. -/
theorem Map.run_collect (entries : List (K × CellId)) (seen : List (K × Handle V))
    (s : Shared K V) :
    (visitEach (fun p => p) (fun key held seen => return .yield ((key, held) :: seen)) entries
      seen : Program K V _).run order t s = some ((s.pairsOf entries).reverse ++ seen, s) := by
  induction entries generalizing seen with
  | nil => rfl
  | cons e entries ih =>
      obtain ⟨key, c⟩ := e
      rw [visitEach, Program.run_bind, Cell.run_load, Option.bind_some]
      cases hheld : (s.slot c).handle? with
      | none =>
          have hpairs : s.pairsOf ((key, c) :: entries) = s.pairsOf entries := by
            simp [pairsOf, hheld]
          rw [hpairs]
          exact ih seen
      | some held =>
          have hpairs : s.pairsOf ((key, c) :: entries) = (key, held) :: s.pairsOf entries := by
            simp [pairsOf, hheld]
          rw [hpairs, List.reverse_cons, List.append_assoc]
          exact ih ((key, held) :: seen)

omit [EquivBEq K] [BEq V] in
theorem Shared.filter_pairsOf (s : Shared K V) (entries : List (K × CellId)) (key : K) :
    (s.pairsOf entries).filter (·.1 == key) = s.pairsOf (entries.filter (·.1 == key)) := by
  rw [pairsOf, pairsOf, List.filter_filterMap, List.filterMap_filter]
  congr 1
  funext e
  cases hkey : e.1 == key <;> cases (s.slot e.2).handle? <;> simp [hkey]

/-- What a traversal lists: a key that has a value is listed once, in the spelling that it has. -/
theorem Map.run_contents (hs : s.Ready t) : ∃ shown,
    contents.run order t s = some (shown, s.completed.walked) ∧ ∀ key,
      shown.filter (·.1 == key) = ((s.spelling? key).bind fun object =>
        (s.view key).map fun held => (object, held)).toList := by
  obtain ⟨hrun, hs₁⟩ := run_itinerary_ready order hs
  obtain ⟨_, s₁, hrun', hcomplete, -, -, hview⟩ := run_itinerary order t hs.tidy hs.free
  obtain rfl : s₁ = s.completed.walked :=
    congrArg Prod.snd (Option.some.inj (hrun'.symm.trans hrun))
  have hentry := hs₁.tidy.keys.filter_entries
    (order.perm s.completed.walks s.completed.snapshot.table.entries)
  refine ⟨s.completed.walked.pairsOf
    (order.arrange s.completed.walks s.completed.snapshot.table.entries), ?_, fun key => ?_⟩
  · rw [contents, traverse, Program.run_bind, Program.run_bind, hrun, Option.bind_some, run_collect,
      Option.bind_some, List.append_nil, List.reverse_reverse]
    rfl
  · rw [filter_pairsOf, hentry key, ← hview]
    show s.completed.walked.pairsOf _ =
      (((s.completed.walked.snapshot.table.entries.find? (·.1 == key)).map Prod.fst).bind _).toList
    cases he : s.completed.walked.snapshot.table.entries.find? (·.1 == key) with
    | none => rfl
    | some e =>
        have hfind : s.completed.walked.snapshot.find? key = some e.2 := by
          rw [Snapshot.find?, Table.find?, he]
          rfl
        rw [view_of_find? (find?_of_snapshot hfind)]
        cases hheld : (s.completed.walked.slot e.2).handle? <;> simp [pairsOf, hheld]

/-! ## Maps that are filled from nothing -/

/-- After a map was filled its thread is between two operations. -/
theorem Shared.ready_filled (t : ThreadId) (pairs : List (K × V)) :
    ((initial : Shared K V).filled order pairs).Ready t :=
  (Map.run_extend order (ready_initial t) pairs).2

/-- A map that was filled with the pairs from nothing is in the state that it should be in. -/
theorem Shared.filledBy_filled (pairs : List (K × V)) :
    ((initial : Shared K V).filled order pairs).FilledBy pairs := by
  -- the last pair is stored last
  induction pairs using List.reverseRecOn with
  | nil => exact ⟨rfl, rfl, fun key => rfl⟩
  | append_singleton pairs p ih =>
      have hlast : (initial : Shared K V).filled order (pairs ++ [p]) =
          ((Request.store p.1 p.2).solo order ((initial : Shared K V).filled order pairs)).2 := by
        rw [filled, List.foldl_append]
        rfl
      have hbefore : Tidy .rest ((initial : Shared K V).filled order pairs) :=
        (ready_filled order 0 pairs).tidy
      have hstore : Passage.Rearranges ⟨.request (.store p.1 p.2), _,
          ((Request.store p.1 p.2).solo order _).2⟩ :=
        Operation.rearranges hbefore (.request (.store p.1 p.2))
      have hafter : Tidy .rest ((initial : Shared K V).filled order (pairs ++ [p])) :=
        (ready_filled order 0 (pairs ++ [p])).tidy
      rw [hlast] at hafter ⊢
      exact Passage.Rearranged.filledBy ⟨hbefore, hafter, hstore⟩ rfl ih

omit [EquivBEq K] [BEq V] in
/-- A filled map has each key in the spelling of the first pair. -/
theorem Shared.FilledBy.spelling? {pairs : List (K × V)} (h : s.FilledBy pairs) (key : K) :
    s.spelling? key = (pairs.find? (·.1 == key)).map Prod.fst := by
  rw [spelling?_eq, h.snapshot, h.amended, h.spellings]
  cases pairs <;> rfl

/-- The values after a map has been filled. -/
theorem Map.view_filled (hs : s.Reachable) (order : Enumeration K) (pairs : List (K × V)) (key : K) :
    match pairs.reverse.find? (·.1 == key) with
    | some last => ((s.filled order pairs).view key).map (·.value) = some last.2
    | none => (s.filled order pairs).view key = s.view key := by
  have hextend := (run_extend order (hs.ready 0) pairs).1
  obtain ⟨w, rfl, hrest⟩ := hs.exists_atRest
  obtain ⟨x, trace, w', hrun, -, calls, hcalls, -, hview⟩ :=
    hrest.run order 0 (Client.extend pairs (.done ()) : Client K V Unit Unit)
  rw [Client.program_extend, Program.run_bind, hextend, Option.bind_some] at hrun
  obtain ⟨hx, hstate⟩ := Prod.mk.inj (Option.some.inj hrun)
  have hstate : w.shared.filled order pairs = w'.shared := hstate
  have htrace : Trace.stores pairs = trace := congrArg Prod.snd hx
  rw [hstate, hview]
  exact Plain.after_stores (hcalls.trans htrace.symm) key

/-- Of a map that was filled from nothing, a traversal lists each key once, as the pairs settle
it. -/
theorem Map.run_contents_filled (order order' : Enumeration K) (t : ThreadId) (pairs : List (K × V)) :
    ∃ shown s', contents.run order' t ((initial : Shared K V).filled order pairs) =
        some (shown, s') ∧ ∀ key, (shown.filter (·.1 == key)).map (fun p => (p.1, p.2.value)) =
          (firstLast pairs key).toList := by
  obtain ⟨shown, hrun, hshown⟩ := run_contents order' (ready_filled order t pairs)
  refine ⟨shown, _, hrun, fun key => ?_⟩
  have hvalue : (((initial : Shared K V).filled order pairs).view key).map (·.value) =
      (pairs.reverse.find? (·.1 == key)).map Prod.snd := by
    have hview := view_filled (.initial : (initial : Shared K V).Reachable) order pairs key
    -- A key that was never listed holds nothing, as in a new map.
    cases hlast : pairs.reverse.find? (·.1 == key) with
    | some last =>
        rw [hlast] at hview
        exact hview
    | none =>
        rw [hlast] at hview
        rw [show _ = _ from hview]
        rfl
  have hlast : ∀ object : K,
      (pairs.reverse.find? (·.1 == key)).map (fun last => (object, last.2)) =
        ((((initial : Shared K V).filled order pairs).view key).map (·.value)).map (object, ·) :=
    fun object => by rw [hvalue, Option.map_map]; rfl
  rw [hshown, (filledBy_filled order pairs).spelling?, firstLast]
  cases pairs.find? (·.1 == key) with
  | none => rfl
  | some first =>
      simp only [Option.map_some, Option.bind_some, hlast]
      cases ((initial : Shared K V).filled order pairs).view key <;> rfl

/-- A map that was filled with pairs from nothing lists each key once, with the key object of the
first pair and the value of the last. Its snapshot is empty, and amended if there were any pairs, by
a staged table with one entry for each key. It does not matter whether the pairs are stored at once,
or some of them later by another thread. And on every map that clients have left behind, the keys
that are listed get the value that is listed last, and all others keep their handles. -/
theorem Map.extend_fills (order : Enumeration K) (t t' : ThreadId) :
    (∀ pairs : List (K × V), ∃ s, Shared.ofList order t pairs = some s ∧
      (∀ order', ∃ shown s', contents.run order' t' s = some (shown, s') ∧
        ∀ key, (shown.filter (·.1 == key)).map (fun p => (p.1, p.2.value)) =
          (firstLast pairs key).toList) ∧
      s.snapshot.size = 0 ∧ s.snapshot.amended = !pairs.isEmpty ∧
      s.staging.table.isSome = !pairs.isEmpty ∧
      ∀ key, ((s.staging.table.getD .empty).entries.map Prod.fst).filter (· == key) =
        ((pairs.find? (·.1 == key)).map Prod.fst).toList) ∧
    (∀ pairs pairs' : List (K × V), ∃ s s', Shared.ofList order t pairs = some s ∧
      (extend pairs').run order t' s = some ((), s') ∧
      Shared.ofList order t (pairs ++ pairs') = some s') ∧
    ∀ s : Shared K V, s.Reachable → ∀ pairs, ∃ s',
      (extend pairs).run order t s = some ((), s') ∧ ∀ key,
        match pairs.reverse.find? (·.1 == key) with
        | some last => (s'.view key).map (·.value) = some last.2
        | none => s'.view key = s.view key := by
  have hofList : ∀ pairs : List (K × V),
      Shared.ofList order t pairs = some ((initial : Shared K V).filled order pairs) := fun pairs => by
    rw [Shared.ofList, (run_extend order (ready_initial t) pairs).1]
    rfl
  refine ⟨fun pairs => ?_, fun pairs pairs' => ?_, fun s hs pairs => ?_⟩
  · have hfilled := filledBy_filled order pairs
    have htidy := (ready_filled order t pairs).tidy
    refine ⟨_, hofList pairs, fun order' => run_contents_filled order order' t' pairs,
      congrArg Table.size hfilled.snapshot, hfilled.amended, ?_, fun key => ?_⟩
    · exact htidy.phase.1.symm.trans hfilled.amended
    · have hdistinct : (((initial : Shared K V).filled order pairs).staging.table.getD
          .empty).KeysDistinct := by
        cases htable : ((initial : Shared K V).filled order pairs).staging.table with
        | none => exact Table.keysDistinct_empty
        | some table => exact htidy.stagedKeys table htable
      rw [hdistinct.filter_keys (.refl _), hfilled.spellings]
  · refine ⟨_, _, hofList pairs, (run_extend order (ready_filled order t' pairs) pairs').1, ?_⟩
    rw [hofList, filled, List.foldl_append]
    rfl
  · exact ⟨_, (run_extend order (hs.ready t) pairs).1, view_filled hs order pairs⟩

/-- Two numbers in two spellings each, the second number being filled in later; and two keys, one of
which is listed. -/
theorem Map.extend_fills_numerals :
    (∃ s s' shown s'', Shared.ofList .insertion 0 [((⟨0, 0⟩ : Numeral), 1), (⟨1, 0⟩, 2),
        (⟨0, 1⟩, 3)] = some s ∧ (extend [((⟨1, 1⟩ : Numeral), 4)]).run .insertion 1 s =
        some ((), s') ∧ s'.snapshot.amended = true ∧
      contents.run .insertion 1 s' = some (shown, s'') ∧
      (shown.filter (·.1 == ⟨0, 2⟩)).map (fun p => (p.1, p.2.value)) = [(⟨0, 0⟩, 3)] ∧
      (shown.filter (·.1 == ⟨1, 2⟩)).map (fun p => (p.1, p.2.value)) = [(⟨1, 0⟩, 4)]) ∧
    Machine.storingTwo.shared.Reachable ∧
      ∃ s', (extend [(1, 9)]).run .insertion 0 Machine.storingTwo.shared = some ((), s') ∧
        (s'.view 1).map (·.value) = some 9 ∧ s'.view 0 = Machine.storingTwo.shared.view 0 := by
  constructor
  · obtain ⟨hfills, hparts, -⟩ := extend_fills (K := Numeral) (V := Nat) .insertion 0 1
    obtain ⟨s, s', hofList, hextend, hjoined⟩ :=
      hparts [(⟨0, 0⟩, 1), (⟨1, 0⟩, 2), (⟨0, 1⟩, 3)] [(⟨1, 1⟩, 4)]
    obtain ⟨s₁, hofList₁, hshows, -, ham, -⟩ :=
      hfills ([(⟨0, 0⟩, 1), (⟨1, 0⟩, 2), (⟨0, 1⟩, 3)] ++ [(⟨1, 1⟩, 4)])
    obtain rfl : s' = s₁ := Option.some.inj (hjoined.symm.trans hofList₁)
    obtain ⟨shown, s'', hrun, hshown⟩ := hshows .insertion
    exact ⟨s, s', shown, s'', hofList, hextend, ham, hrun, hshown ⟨0, 2⟩, hshown ⟨1, 2⟩⟩
  · obtain ⟨-, -, hfills⟩ := extend_fills (K := Nat) (V := Nat) .insertion 0 0
    obtain ⟨s', hrun, hview⟩ := hfills _ Machine.reachable_storingTwo [(1, 9)]
    exact ⟨Machine.reachable_storingTwo, s', hrun, hview 1, hview 0⟩

end ConcurrentMap
