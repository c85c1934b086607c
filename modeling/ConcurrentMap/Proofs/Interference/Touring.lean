import ConcurrentMap.Proofs.Interference.Places
import ConcurrentMap.Proofs.Interference.TableRules
import ConcurrentMap.Map.Whole

/-!
# Traversals among others

A traversal fixes the entries it visits while the snapshot is complete, and reads each cell only
when its key is reached. By then the cell may be retired, and its key may be served by another one.
Neither matters: a cell that served its key after the traversal had begun counts in the current era
or in one that ended since, and what it holds is what its key has at the end of that era
(`World.Touring.shows`). A key that the snapshot lacked had nothing when the snapshot was complete.

`World.Touring` is the invariant of a traversal between two visits. `World.Touring.pass` and
`World.Touring.visit` keep it, and when no entry is left every key is accounted for
(`World.Touring.shows_outcome`).
-/

namespace ConcurrentMap

variable {K V : Type}

/-- What a traversal has shown so far: the pairs that were visited, the first one first, and whether
the visitor has ended it. -/
structure Report (K V : Type) where
  visited : List (K × Handle V)
  stopped : Bool
  deriving DecidableEq

namespace Report

/-- Nothing has been visited. -/
def empty : Report K V := ⟨[], false⟩

/-- One more pair was visited, and the visitor wants to go on or not. -/
def note (report : Report K V) (key : K) (held : Handle V) (goOn : Bool) : Report K V :=
  ⟨report.visited ++ [(key, held)], !goOn⟩

/-- What was visited for a key, if it was. -/
def outcome [BEq K] (report : Report K V) (key : K) : Option (Handle V) :=
  (report.visited.find? (·.1 == key)).map Prod.snd

/-- A key that was visited has an outcome. -/
theorem outcome_isSome [BEq K] (report : Report K V) {key : K} {p : K × Handle V}
    (hp : p ∈ report.visited) (hkey : (p.1 == key) = true) :
    (report.outcome key).isSome = true := by
  rw [outcome, Option.isSome_map, List.find?_isSome]
  exact ⟨p, hp, hkey⟩

/-- A key that has an outcome was visited once, if no two visited keys are equal. -/
theorem countP_of_outcome [BEq K] [EquivBEq K] (report : Report K V)
    (hone : report.visited.Pairwise fun a b => (a.1 == b.1) = false) {key : K}
    (hsome : (report.outcome key).isSome = true) : report.visited.countP (·.1 == key) = 1 := by
  obtain ⟨visited, stopped⟩ := report
  rw [outcome, Option.isSome_map, List.find?_isSome] at hsome
  simp only at hone hsome ⊢
  induction visited with
  | nil => simp at hsome
  | cons p rest ih =>
      obtain ⟨hfirst, hrest⟩ := List.pairwise_cons.1 hone
      cases hkey : p.1 == key with
      | true =>
          -- whatever comes later is not equal to the key, since the first one is
          have hlater : ∀ q ∈ rest, ¬(q.1 == key) = true := by
            intro q hq hqkey
            have heq := PartialEquivBEq.trans hkey (BEq.symm hqkey)
            simp [hfirst q hq] at heq
          rw [List.countP_cons_of_pos (by simpa using hkey), List.countP_eq_zero.2 hlater]
      | false =>
          obtain ⟨q, hq, hqkey⟩ := hsome
          rcases List.mem_cons.1 hq with rfl | hq
          · simp [hkey] at hqkey
          · rw [List.countP_cons_of_neg (by simp [hkey])]
            exact ih hrest ⟨q, hq, hqkey⟩

end Report

variable [BEq K] [BEq V]

namespace World

/-- Between two visits of a traversal that began in world `w₀`: what was visited is what the keys
had since, the entries ahead lead to cells that serve their keys or did so since, and every other
key had nothing at some moment since. -/
structure Touring (w₀ : World K V) (seen : List (K × Handle V)) (rest : List (K × CellId))
    (w : World K V) : Prop where
  since : w₀.Grows w
  shown : ∀ p ∈ seen, w₀.Shows w p.1 (some p.2)
  distinct : (seen.map Prod.fst ++ rest.map Prod.fst).Pairwise fun a b => (a == b) = false
  ahead : ∀ e ∈ rest, ∃ own, (w.standing e.2).key? = some own ∧ (own == e.1) = true ∧
    w₀.era ≤ w.site e.2
  others : ∀ key, (∀ listed ∈ seen.map Prod.fst ++ rest.map Prod.fst, (listed == key) = false) →
    w₀.Shows w key none

/-- The traversal is over, and the visitor ended it or no entry was left. -/
def Reports (w₀ : World K V) (report : Report K V) (w : World K V) : Prop :=
  ∃ rest, w₀.Touring report.visited rest w ∧ (report.stopped = false → rest = [])

variable {w₀ w w' : World K V} {seen : List (K × Handle V)} {rest : List (K × CellId)} {key : K}
  {c : CellId}

/-- The era in which a call on a cell counts does not go back. -/
theorem Grows.site_le (hg : w.Grows w') (hc : (w.standing c).key? ≠ none) :
    w.site c ≤ w'.site c := by
  have hlead := hg.standing c
  rw [site, site]
  cases hs : w.standing c with
  | unused => simp [hs, Standing.key?] at hc
  -- A retired cell counts in its era for good.
  | retired own j fate =>
      rw [hs] at hlead
      have hs' : w'.standing c = .retired own j fate := hlead
      rw [hs']
      exact Nat.le_refl _
  -- A cell in service counts in the current era, and if it retires in one that ends no earlier.
  | serving own p =>
      rw [hs] at hlead
      cases hs' : w'.standing c with
      | unused => simp [hs', Standing.Leads] at hlead
      | serving own' p' => exact hg.era
      | retired own' j fate =>
          rw [hs'] at hlead
          exact hlead.2.1

namespace Touring

/-- What a traversal knows between two visits lasts. -/
theorem grows (h : w₀.Touring seen rest w) (hg : w.Grows w') : w₀.Touring seen rest w' where
  since := h.since.trans hg
  shown p hp := (h.shown p hp).grows hg
  distinct := h.distinct
  ahead e he := by
    obtain ⟨own, hown, heq, hsite⟩ := h.ahead e he
    refine ⟨own, (hg.standing e.2).key? hown, heq, Nat.le_trans hsite (hg.site_le ?_)⟩
    simp [hown]
  others key hkey := (h.others key hkey).grows hg

variable [EquivBEq K]

/-- The cell of the next entry holds what its key has in the era in which the cell counts. -/
theorem shows (h : w₀.Touring seen ((key, c) :: rest) w) (hw : w.Sound) {query : K}
    (hquery : (key == query) = true) : w₀.Shows w query (w.shared.slot c).handle? := by
  obtain ⟨own, hown, heq, hsite⟩ := h.ahead (key, c) List.mem_cons_self
  refine ⟨w.site c, _, h.since.moment hsite (hw.ledger.site_le c), ?_⟩
  have hown' := w.chronicle.respects_state (w.site c) (PartialEquivBEq.trans heq hquery)
  rw [Chronicle.stateAt_length, ← hown', hw.ledger.held c own hown]

/-- The cell of the next entry holds nothing, and the traversal passes it. -/
theorem pass (h : w₀.Touring seen ((key, c) :: rest) w) (hw : w.Sound)
    (hnone : (w.shared.slot c).handle? = none) : w₀.Touring seen rest w where
  since := h.since
  shown := h.shown
  distinct := h.distinct.sublist (List.Sublist.append_left (List.sublist_cons_self _ _) _)
  ahead e he := h.ahead e (List.mem_cons_of_mem _ he)
  others query hquery := by
    cases hkey : key == query with
    | true => exact hnone ▸ h.shows hw hkey
    | false =>
        refine h.others query fun listed hlisted => ?_
        rcases List.mem_append.1 hlisted with hseen | hrest
        · exact hquery listed (List.mem_append_left _ hseen)
        · rcases List.mem_cons.1 hrest with rfl | hrest
          · exact hkey
          · exact hquery listed (List.mem_append_right _ hrest)

/-- The cell of the next entry holds a value, which is visited. -/
theorem visit (h : w₀.Touring seen ((key, c) :: rest) w) (hw : w.Sound) {held : Handle V}
    (hheld : (w.shared.slot c).handle? = some held) :
    w₀.Touring (seen ++ [(key, held)]) rest w := by
  have hkeys : (seen ++ [(key, held)]).map Prod.fst ++ rest.map Prod.fst =
      seen.map Prod.fst ++ ((key, c) :: rest).map Prod.fst := by simp
  refine ⟨h.since, fun p hp => ?_, hkeys ▸ h.distinct,
    fun e he => h.ahead e (List.mem_cons_of_mem _ he), hkeys ▸ h.others⟩
  rcases List.mem_append.1 hp with hp | hp
  · exact h.shown p hp
  · obtain rfl := List.mem_singleton.1 hp
    exact hheld ▸ h.shows hw BEq.rfl

/-- A traversal begins with the entries of a complete snapshot. -/
theorem start {x : Snapshot K} (hcharts : w₀.Charts w x)
    (hperm : rest.Perm x.table.entries) : w₀.Touring [] rest w := by
  obtain ⟨w₁, hg₁, hw₁, rfl, ham, hg⟩ := hcharts
  suffices h : w₀.Touring [] rest w₁ from h.grows hg
  have hkeys := hw₁.tidy.keys
  refine ⟨hg₁, by simp, ?_, fun e he => ?_, fun key hkey => ?_⟩
  -- A table has no two equal keys, and so the walk has none.
  · refine List.pairwise_map.2 ((hperm.pairwise_iff fun {a b} hab => ?_).2 hkeys)
    rw [BEq.comm, hab]
  · have hfind := hkeys.find?_of_mem (hperm.mem_iff.1 he)
    obtain ⟨own, hserves, heq⟩ := (hw₁.roster.published e.1 e.2).1 hfind
    refine ⟨own, by rw [hserves]; rfl, heq, ?_⟩
    rw [site, hserves]
    exact hg₁.era
  -- A key that the complete snapshot lacks has no cell, and so no value at that moment.
  · have hlack : w₁.shared.snapshot.find? key = none := by
      by_contra hfound
      obtain ⟨c, hc⟩ := Option.ne_none_iff_exists'.1 hfound
      obtain ⟨e, he, -, heq⟩ := Table.exists_mem_of_find? hc
      have hfalse := hkey e.1 (List.mem_map_of_mem (hperm.mem_iff.2 he))
      simp [heq] at hfalse
    have hmiss := hw₁.ledger.missing key (Shared.find?_of_complete hlack ham)
    exact ⟨w₁.era, _, hg₁.moment hg₁.era (Nat.le_refl _), by
      rw [Chronicle.stateAt_length, hmiss]⟩

end Touring

/-! ## What a traversal reports -/

namespace Reports

variable {report : Report K V}

/-- No two of the keys that were visited are equal. -/
theorem once (h : w₀.Reports report w) :
    report.visited.Pairwise fun a b => (a.1 == b.1) = false := by
  obtain ⟨rest, h, -⟩ := h
  exact List.pairwise_map.1 (List.pairwise_append.1 h.distinct).1

variable [EquivBEq K]

/-- What was visited for a key, or that it was not visited although the visitor never ended the
traversal, is what the key had at some moment since the traversal had begun. -/
theorem shows_outcome (h : w₀.Reports report w) {key : K}
    (hkey : report.stopped = false ∨ (report.outcome key).isSome = true) :
    w₀.Shows w key (report.outcome key) := by
  obtain ⟨rest, h, hover⟩ := h
  rw [Report.outcome] at hkey ⊢
  cases hfind : report.visited.find? (·.1 == key) with
  | some p =>
      obtain ⟨j, n, hmoment, hheld⟩ := h.shown p (List.mem_of_find?_eq_some hfind)
      refine ⟨j, n, hmoment, ?_⟩
      have hp : (p.1 == key) = true := by simpa using List.find?_some hfind
      rw [← w.chronicle.respects_stateAt j n hp, hheld]
      rfl
  | none =>
      obtain rfl := hover (by simpa [hfind] using hkey)
      refine h.others key fun listed hlisted => ?_
      simp only [List.map_nil, List.append_nil, List.mem_map] at hlisted
      obtain ⟨p, hp, rfl⟩ := hlisted
      simpa using List.find?_eq_none.1 hfind p hp

/-- In any case there is a moment since the traversal had begun. -/
theorem exists_moment (h : w₀.Reports report w) (key : K) :
    ∃ j n, w₀.Moment w j n ∧
      (report.stopped = false ∨ (report.outcome key).isSome = true →
        w.chronicle.stateAt j n key = report.outcome key) := by
  by_cases hkey : report.stopped = false ∨ (report.outcome key).isSome = true
  · obtain ⟨j, n, hmoment, hheld⟩ := h.shows_outcome hkey
    exact ⟨j, n, hmoment, fun _ => hheld⟩
  · obtain ⟨rest, h, -⟩ := h
    exact ⟨w.era, _, h.since.moment h.since.era (Nat.le_refl _), fun hkey' => absurd hkey' hkey⟩

end Reports

end World

end ConcurrentMap
