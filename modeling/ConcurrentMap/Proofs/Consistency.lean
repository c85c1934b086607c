import ConcurrentMap.Proofs.Interference.Runs

/-!
# The tables whenever the mutex is free

`Shared.Consistent` is what the two tables and the miss counter satisfy while no operation is inside
the mutex. It is what is left of `Tidy` in the phase of rest, said about the entries of the tables.
`Machine.follow_consistent` says that it holds in every state that clients can reach, whatever they
do and however their steps interleave, and at the end of every client that runs alone.
-/

namespace ConcurrentMap

variable {K V : Type} [BEq K]

/-- The two tables fit together, and nothing is under way. -/
structure Shared.Consistent (s : Shared K V) : Prop where
  /-- The snapshot announces a staged table exactly if there is one. -/
  announced : s.snapshot.amended = true ↔ ∃ staged, s.staging.table = some staged
  /-- Without a staged table there are no misses and no tombstones. -/
  complete : s.staging.table = none →
    s.staging.misses = 0 ∧ ∀ e ∈ s.snapshot.table.entries, s.tombstoned e.2 = false
  /-- A key of the snapshot is staged with the same cell, unless the cell is tombstoned. -/
  copied : ∀ staged, s.staging.table = some staged → ∀ e ∈ s.snapshot.table.entries,
    s.tombstoned e.2 = false → staged.find? e.1 = some e.2
  /-- A key whose cell is tombstoned is not staged. -/
  leftOut : ∀ staged, s.staging.table = some staged → ∀ e ∈ s.snapshot.table.entries,
    s.tombstoned e.2 = true → staged.find? e.1 = none
  /-- The staged table leads to no tombstone. -/
  live : ∀ staged, s.staging.table = some staged → ∀ e ∈ staged.entries, s.tombstoned e.2 = false
  keys : s.snapshot.table.KeysDistinct
  stagedKeys : ∀ staged, s.staging.table = some staged → staged.KeysDistinct
  /-- No cell serves two keys, in one table or in both. -/
  oneKey : ∀ e e' : K × CellId,
    (e ∈ s.snapshot.table.entries ∨ ∃ staged, s.staging.table = some staged ∧ e ∈ staged.entries) →
    (e' ∈ s.snapshot.table.entries ∨
      ∃ staged, s.staging.table = some staged ∧ e' ∈ staged.entries) →
    e.2 = e'.2 → (e.1 == e'.1) = true

variable [EquivBEq K]

/-- The representation invariant in the phase of rest, entry by entry. -/
theorem Tidy.consistent {s : Shared K V} (h : Tidy .rest s) : s.Consistent := by
  have hsnap : ∀ e ∈ s.snapshot.table.entries, s.snapshot.find? e.1 = some e.2 :=
    fun e he => h.keys.find?_of_mem he
  have hstag : ∀ staged, s.staging.table = some staged → ∀ e ∈ staged.entries,
      s.staging.find? e.1 = some e.2 := by
    intro staged hs e he
    rw [Staging.find?, hs]
    exact (h.stagedKeys staged hs).find?_of_mem he
  obtain ⟨hflag, hnone, hcovered⟩ := h.phase
  -- what the staged table has of the snapshot's entries
  have hcopy : ∀ staged, s.staging.table = some staged → ∀ e ∈ s.snapshot.table.entries,
      staged.find? e.1 = if s.tombstoned e.2 then none else some e.2 := by
    intro staged hs e he
    have hcov := hcovered (by rw [hs]; rfl) e.1 e.2 (hsnap e he)
    rwa [Staging.find?, hs] at hcov
  refine ⟨?_, fun hs => ⟨(hnone hs).1, fun e he => (hnone hs).2 e.1 e.2 (hsnap e he)⟩,
    fun staged hs e he hlive => ?_, fun staged hs e he htomb => ?_, fun staged hs e he => ?_,
    h.keys, h.stagedKeys, fun e e' he he' heq => ?_⟩
  · rw [hflag, Option.isSome_iff_exists]
  · rw [hcopy staged hs e he, hlive]
    rfl
  · rw [hcopy staged hs e he, htomb]
    rfl
  · exact h.stagedLive e.1 e.2 (hstag staged hs e he)
  · have hlookup : ∀ x : K × CellId, (x ∈ s.snapshot.table.entries ∨
        ∃ staged, s.staging.table = some staged ∧ x ∈ staged.entries) →
          s.snapshot.find? x.1 = some x.2 ∨ s.staging.find? x.1 = some x.2 := by
      rintro x (hx | ⟨staged, hs, hx⟩)
      · exact .inl (hsnap x hx)
      · exact .inr (hstag staged hs x hx)
    exact h.oneKey e.1 e'.1 e.2 (hlookup e he) (heq ▸ hlookup e' he')

variable [BEq V] {ε α : Type}

/-- Clients find the tables consistent whenever the mutex is free, and leave them so. -/
theorem Machine.follow_consistent (order : Enumeration K) (t₀ : ThreadId) (pairs : List (K × V)) :
    ∃ s₀ : Shared K V, Shared.ofList order t₀ pairs = some s₀ ∧
      (∀ (clients : List (Client K V ε α)) (schedule : List ThreadId),
        ((ofClients s₀ clients).follow order schedule).shared.holder = none →
          ((ofClients s₀ clients).follow order schedule).shared.Consistent) ∧
      ∀ (c : Client K V ε α) (t : ThreadId), ∃ x s, (c.program []).run order t s₀ = some (x, s) ∧
        s.holder = none ∧ s.Consistent := by
  obtain ⟨w, hof, hfree, hready⟩ :=
    World.exists_ready (P := fun _ : Request K V => True) order t₀ fun p _ => trivial
  obtain ⟨made, hidle⟩ := hready t₀
  refine ⟨w.shared, hof, fun clients schedule hfree' => ?_, fun c t => ?_⟩
  · have hbacked : (ofClients w.shared clients).Backed order w :=
      backed_ofClients (fun c _ => c.only_true) hidle.sound hready
    obtain ⟨w', hw', -⟩ := hbacked.follow schedule
    rw [← hw'.shared] at hfree' ⊢
    have htidy := hw'.sound.tidy
    rw [hw'.sound.free hfree'] at htidy
    exact htidy.consistent
  · obtain ⟨made, hidle⟩ := hready t
    obtain ⟨x, w', hrun, hfree', hidle', -⟩ := hidle.run hfree c.only_true order
    have htidy := hidle'.sound.tidy
    rw [hidle'.sound.free hfree'] at htidy
    exact ⟨x, w'.shared, hrun, hfree', htidy.consistent⟩

/-- In the middle of a load, and after the store that it runs beside. -/
theorem Machine.follow_consistent_store_load :
    ∃ (s₀ : Shared Nat Nat) (schedule : List ThreadId),
      Shared.ofList .insertion 0 [(1, 10)] = some s₀ ∧
      ((ofClients s₀ [(.request (.store 2 20) .done : Client Nat Nat Unit (Answer Nat)),
        .request (.load 2) .done]).follow .insertion schedule).shared.holder = none ∧
      ((ofClients s₀ [(.request (.store 2 20) .done : Client Nat Nat Unit (Answer Nat)),
        .request (.load 2) .done]).follow .insertion schedule).shared.Consistent := by
  obtain ⟨s₀, hof, hfollow, -⟩ :
      ∃ s₀ : Shared Nat Nat, Shared.ofList .insertion 0 [(1, 10)] = some s₀ ∧
        (∀ (clients : List (Client Nat Nat Unit (Answer Nat))) (schedule : List ThreadId),
          ((ofClients s₀ clients).follow .insertion schedule).shared.holder = none →
            ((ofClients s₀ clients).follow .insertion schedule).shared.Consistent) ∧ _ :=
    Machine.follow_consistent .insertion 0 [(1, 10)]
  have hfree : (Shared.ofList .insertion 0 [(1, 10)]).map (fun s =>
      ((ofClients s [(.request (.store 2 20) .done : Client Nat Nat Unit (Answer Nat)),
        .request (.load 2) .done]).follow .insertion
          (1 :: List.replicate 20 0)).shared.holder) = some none := by
    decide +kernel
  rw [hof] at hfree
  have hfree := Option.some.inj hfree
  exact ⟨s₀, 1 :: List.replicate 20 0, hof, hfree, hfollow _ _ hfree⟩

end ConcurrentMap
