import ConcurrentMap.Proofs.Renaming
import ConcurrentMap.Proofs.Solo.Copies
import ConcurrentMap.Proofs.Solo.Requests

/-!
# Two runs that walk tables in different orders

`Shared.Aligned ρ` compares two states that have come about by the same operations, but with tables
walked in different orders. The tables have the same entries, the cells hold the same values, and
what is counted is the same; only the order of the entries differs, and the identities, which `ρ`
translates.

A rebuild buries the same cells and copies the same entries in whatever order it walks them
(`Aligned.rebuilt`), so every request leads from aligned states to aligned states
(`Request.aligned_solo`), and `ρ` remains what it was: each request draws as many stamps in one run
as in the other, and a stamp that is drawn in both has the same name in both.
-/

namespace ConcurrentMap

variable {K V : Type}

/-! ## Tables with the same entries -/

/-- The tables have the same entries. -/
def Table.Same (t t' : Table K) : Prop := t.entries.Perm t'.entries

namespace Table.Same

variable {t t' : Table K}

theorem size (h : t.Same t') : t'.size = t.size := h.length_eq.symm

variable [BEq K]

/-- Erasing a key keeps the entries the same. -/
theorem erase (h : t.Same t') (key : K) : (t.erase key).Same (t'.erase key) := h.filter _

/-- Tables with the same entries have the same keys. -/
theorem contains (h : t.Same t') (key : K) : t'.contains key = t.contains key := h.any_eq.symm

/-- Inserting a key keeps the entries the same. -/
theorem insert (h : t.Same t') (key : K) (c : CellId) :
    (t.insert key c).Same (t'.insert key c) := by
  unfold Table.insert
  rw [h.contains]
  split
  · exact h.map _
  · exact h.append_right _

/-- If the keys are distinct, the same entries lead to the same cells. -/
theorem find? [EquivBEq K] (h : t.Same t') (hkeys : t.KeysDistinct) (key : K) :
    t'.find? key = t.find? key := by
  have hkeys' : t'.KeysDistinct := distinct_of_perm h.symm hkeys
  have hfind : ∀ {t t' : Table K} {c : CellId}, t.Same t' → t'.KeysDistinct →
      t.find? key = some c → t'.find? key = some c := fun h hkeys hc => by
    obtain ⟨e, he, rfl, hkey⟩ := exists_mem_of_find? hc
    exact hkeys.find?_of_perm h he hkey
  exact Option.ext fun c => ⟨hfind h.symm hkeys, hfind h hkeys'⟩

end Table.Same

/-! ## Aligned states -/

namespace Shared

/-- The states are the same but for the order of the entries and the names of the identities. -/
structure Aligned (ρ : Renaming) (s s' : Shared K V) : Prop where
  table : s.snapshot.table.Same s'.snapshot.table
  amended : s'.snapshot.amended = s.snapshot.amended
  staged : Option.Rel Table.Same s.staging.table s'.staging.table
  misses : s'.staging.misses = s.staging.misses
  size : s'.cells.size = s.cells.size
  contents : ∀ c, (s'.slot c).handle? = (s.slot c).handle?.map (Handle.rename ρ)
  tombstones : ∀ c, s'.tombstoned c = s.tombstoned c
  clock : s'.clock = s.clock
  log : s'.log = s.log
  /-- What is drawn from now on has one name. -/
  fresh : ∀ x, s.clock ≤ x → ρ x = x

variable {ρ : Renaming} {s s' : Shared K V} {c : CellId}

namespace Aligned

/-- A state is aligned with itself, under the same names. -/
theorem refl (s : Shared K V) : s.Aligned (.refl _) s where
  table := .refl _
  amended := rfl
  staged := by cases s.staging.table <;> constructor; exact .refl _
  misses := rfl
  size := rfl
  contents c := by simp
  tombstones _ := rfl
  clock := rfl
  log := rfl
  fresh _ _ := rfl

/-- Drawing a stamp on both sides keeps the states aligned: it has the same name on both. -/
theorem tick (h : s.Aligned ρ s') : s.tick.Aligned ρ s'.tick :=
  { h with
    clock := congrArg (· + 1) h.clock
    fresh := fun x hx => h.fresh x (Nat.le_of_succ_le hx) }

/-- Drawing for the value of a request keeps the states aligned. -/
theorem drawn (h : s.Aligned ρ s') (r : Request K V) : (s.drawn r).Aligned ρ (s'.drawn r) := by
  unfold Shared.drawn
  split
  · exact h.tick
  · exact h

/-- Exchanging slots that correspond to each other keeps the states aligned. -/
theorem setSlot (h : s.Aligned ρ s') (c : CellId) {x x' : Slot V}
    (hheld : x'.handle? = x.handle?.map (Handle.rename ρ))
    (htomb : x'.content.isTombstoned = x.content.isTombstoned) :
    (s.setSlot c x).Aligned ρ (s'.setSlot c x') :=
  { h with
    size := by rw [size_setSlot, size_setSlot, h.size]
    contents := fun d => by
      rw [slot_setSlot, slot_setSlot, h.size]
      split
      · exact hheld
      · exact h.contents d
    tombstones := fun d => by
      rw [tombstoned, tombstoned, slot_setSlot, slot_setSlot, h.size]
      split
      · exact htomb
      · exact h.tombstones d }

/-- A cell holds a value on one side if it does on the other. -/
theorem isSome_held (h : s.Aligned ρ s') (c : CellId) :
    (s'.slot c).handle?.isSome = (s.slot c).handle?.isSome := by
  rw [h.contents, Option.isSome_map]

/-- A cell is absent on one side if it is on the other. -/
theorem isAbsent (h : s.Aligned ρ s') (c : CellId) :
    (s'.slot c).content.isAbsent = (s.slot c).content.isAbsent := by
  rw [isAbsent_eq, isAbsent_eq, h.contents, Option.isNone_map, h.tombstones]

/-- Serving a cell on both sides keeps the states aligned. -/
theorem serve (h : s.Aligned ρ s') (c : CellId) (held : Option (Handle V)) :
    (s.serve c held).Aligned ρ (s'.serve c (held.map (Handle.rename ρ))) := by
  cases held with
  | some new => exact h.setSlot c rfl rfl
  | none =>
      rw [Option.map_none, serve_none, serve_none, h.isSome_held]
      split
      · exact h.tick.setSlot c rfl rfl
      · exact h

/-- Lifting a tombstone on both sides keeps the states aligned. -/
theorem revived (h : s.Aligned ρ s') (c : CellId) : (s.revived c).Aligned ρ (s'.revived c) :=
  h.tick.setSlot c rfl rfl

/-- Replacing the staged tables by tables with the same entries keeps the states aligned. -/
theorem setStaged (h : s.Aligned ρ s') {table table' : Option (Table K)}
    (hsame : Option.Rel Table.Same table table') :
    (s.setStaged table).Aligned ρ (s'.setStaged table') :=
  { h with staged := hsame }

/-- Adding cells that correspond to each other keeps the states aligned. -/
theorem addCell (h : s.Aligned ρ s') (x x' : Slot V)
    (hheld : x'.handle? = x.handle?.map (Handle.rename ρ))
    (htomb : x'.content.isTombstoned = x.content.isTombstoned) :
    (s.addCell x).2.Aligned ρ (s'.addCell x').2 :=
  { h with
    size := by simp [Shared.addCell, h.size]
    contents := fun d => by
      rw [slot_addCell, slot_addCell, h.size]
      split
      · exact hheld
      · exact h.contents d
    tombstones := fun d => by
      rw [tombstoned, tombstoned, slot_addCell, slot_addCell, h.size]
      split
      · exact htomb
      · exact h.tombstones d }

/-- The staged tables are of the same size. -/
theorem stagedSize (h : s.Aligned ρ s') : s'.staging.size = s.staging.size := by
  have hsame := h.staged
  unfold Staging.size
  generalize s.staging.table = table, s'.staging.table = table' at hsame ⊢
  cases hsame with
  | none => rfl
  | some hsame => exact hsame.size

/-- The staged tables, or empty ones. -/
theorem stagedTable (h : s.Aligned ρ s') :
    (s.staging.table.getD .empty).Same (s'.staging.table.getD .empty) := by
  have hsame := h.staged
  generalize s.staging.table = table, s'.staging.table = table' at hsame ⊢
  cases hsame with
  | none => exact .refl _
  | some hsame => exact hsame

theorem setMisses (h : s.Aligned ρ s') (n : Nat) : (s.setMisses n).Aligned ρ (s'.setMisses n) :=
  { h with misses := rfl }

/-- Promoting on both sides keeps the states aligned, and logs the same. -/
theorem promoted (h : s.Aligned ρ s') (reason : PromotionReason) :
    (s.promoted reason).Aligned ρ (s'.promoted reason) :=
  { h with
    table := h.stagedTable
    amended := rfl
    staged := .none
    misses := rfl
    log := by
      show Event.promoted _ _ _ :: _ = Event.promoted _ _ _ :: _
      rw [h.stagedTable.size, h.misses, h.log] }

/-- A miss is due on one side if it is on the other. -/
theorem missed (h : s.Aligned ρ s') : s.missed.Aligned ρ s'.missed := by
  unfold Shared.missed
  dsimp only
  rw [h.stagedSize, h.misses]
  split
  · exact (h.setMisses _).promoted _
  · exact h.setMisses _

/-- Charging a miss on both sides keeps the states aligned. -/
theorem charged (h : s.Aligned ρ s') (r : Request K V) (staged : Bool) :
    (s.charged r staged).Aligned ρ (s'.charged r staged) := by
  unfold Shared.charged
  rw [h.amended]
  split
  · exact h.missed
  · exact h

/-- Clearing both sides keeps the states aligned. -/
theorem cleared (h : s.Aligned ρ s') : s.cleared.Aligned ρ s'.cleared := by
  unfold Shared.cleared Snapshot.size
  rw [h.table.size, h.amended]
  split
  · exact
      { h with
        table := .refl _
        amended := rfl
        staged := .none
        misses := rfl
        log := congrArg (_ :: ·) h.log }
  · exact h

/-- Completing the snapshots for a traversal keeps the states aligned. -/
theorem completed (h : s.Aligned ρ s') : s.completed.walked.Aligned ρ s'.completed.walked := by
  have hcompleted : s.completed.Aligned ρ s'.completed := by
    unfold Shared.completed
    rw [h.amended]
    split
    · exact h.promoted _
    · exact h
  exact { hcompleted with }

/-! ## Changes of the staged table -/

variable [BEq K]

/-- Staging a key on both sides keeps the states aligned. -/
theorem staged_insert (h : s.Aligned ρ s') (key : K) (c : CellId) :
    (s.staged key c).Aligned ρ (s'.staged key c) :=
  h.setStaged (.some (h.stagedTable.insert key c))

/-- Erasing a key on both sides keeps the states aligned. -/
theorem erased (h : s.Aligned ρ s') (key : K) : (s.erased key).Aligned ρ (s'.erased key) := by
  refine h.setStaged ?_
  have hsame := h.staged
  generalize s.staging.table = table, s'.staging.table = table' at hsame ⊢
  cases hsame with
  | none => exact .none
  | some hsame => exact .some (hsame.erase key)

/-- Readmitting a cell on both sides keeps the states aligned. -/
theorem readmitted (h : s.Aligned ρ s') (key : K) (c : CellId) :
    (s.readmitted key c).Aligned ρ (s'.readmitted key c) := by
  unfold Shared.readmitted
  rw [h.tombstones]
  split
  · exact (h.revived c).staged_insert key c
  · exact h

/-- Rewriting a key of the snapshots keeps the states aligned. -/
theorem rewritten (h : s.Aligned ρ s') (key : K) (c : CellId) (held : Option (Handle V)) :
    (s.rewritten key c held).Aligned ρ (s'.rewritten key c (held.map (Handle.rename ρ))) := by
  cases held with
  | none => exact h.serve c none
  | some new => exact (h.readmitted key c).serve c (some new)

/-! ## Lookups -/

variable [EquivBEq K]

/-- The snapshots lead to the same cells. -/
theorem find?_snapshot (h : s.Aligned ρ s') (htidy : Tidy .rest s) (key : K) :
    s'.snapshot.find? key = s.snapshot.find? key :=
  h.table.find? htidy.keys key

/-- The staged tables lead to the same cells. -/
theorem find?_staging (h : s.Aligned ρ s') (htidy : Tidy .rest s) (key : K) :
    s'.staging.find? key = s.staging.find? key := by
  have hsame := h.staged
  have hkeys := htidy.stagedKeys
  unfold Staging.find?
  generalize s.staging.table = table, s'.staging.table = table' at hsame hkeys ⊢
  cases hsame with
  | none => rfl
  | some hsame => exact hsame.find? (hkeys _ rfl) key

/-- Every key has the same cell on both sides. -/
theorem find? (h : s.Aligned ρ s') (htidy : Tidy .rest s) (key : K) :
    s'.find? key = s.find? key := by
  rw [Shared.find?, Shared.find?, h.find?_snapshot htidy, h.find?_staging htidy, h.amended]

/-- Both sides show the same plain map, but for the names of the identities. -/
theorem view (h : s.Aligned ρ s') (htidy : Tidy .rest s) : s'.view = s.view.rename ρ := by
  funext key
  rw [Plain.rename, Shared.view, Shared.view, h.find? htidy]
  cases s.find? key with
  | none => rfl
  | some c => exact h.contents c

/-! ## Rebuilding -/

variable (order order' : Enumeration K)

/-- A copy has the same entries and leaves the same ones out, in whatever order they are walked. -/
theorem copying (h : s.Aligned ρ s') (htidy : Tidy .rest s) (htidy' : Tidy .rest s') :
    (s.copying order).1.1.Same (s'.copying order').1.1 ∧
      (s'.copying order').1.2 = (s.copying order).1.2 := by
  have hperm : (order.arrange s.walks s.snapshot.table.entries).Perm
      (order'.arrange s'.walks s'.snapshot.table.entries) :=
    (order.perm _ _).trans (h.table.trans (order'.perm _ _).symm)
  rw [copying_eq s order htidy.keys, copying_eq s' order' htidy'.keys]
  have hheld : (fun e : K × CellId => (s'.slot e.2).handle?.isSome) =
      fun e => (s.slot e.2).handle?.isSome := funext fun e => h.isSome_held e.2
  have hmissing : (fun e : K × CellId => (s'.slot e.2).handle?.isNone) =
      fun e => (s.slot e.2).handle?.isNone := funext fun e => by rw [h.contents, Option.isNone_map]
  constructor
  · show List.Perm _ _
    rw [hheld]
    exact hperm.filter _
  · rw [hmissing]
    exact (hperm.countP_eq _).symm

/-- Rebuilding on both sides keeps the states aligned, in whatever orders the snapshots are
walked. -/
theorem rebuilt (h : s.Aligned ρ s') (htidy : Tidy .rest s) (htidy' : Tidy .rest s') :
    (s.rebuilt order).Aligned ρ (s'.rebuilt order') := by
  obtain ⟨hsame, hcount⟩ := h.copying order order' htidy htidy'
  have hsteady := s.steady_copying order
  have hsteady' := s'.steady_copying order'
  have hbound : ∀ e ∈ s.snapshot.table.entries, e.2 < s.cells.size := fun e he =>
    htidy.bounded e.1 e.2 (htidy.keys.find?_of_mem he)
  have hbound' : ∀ e ∈ s'.snapshot.table.entries, e.2 < s'.cells.size := fun e he =>
    htidy'.bounded e.1 e.2 (htidy'.keys.find?_of_mem he)
  -- On either side a stamp is drawn for every cell that is absent, and these are the same cells.
  have hclock : (s'.copying order').2.clock = (s.copying order).2.clock := by
    rw [clock_copying s order htidy.cellsDistinct, clock_copying s' order' htidy'.cellsDistinct,
      h.clock, ← h.table.countP_eq]
    simp only [h.isAbsent]
  refine
    { table := h.table
      amended := rfl
      staged := .some hsame
      misses := ?_
      size := ?_
      contents := fun c => ?_
      tombstones := fun c => ?_
      clock := hclock
      log := ?_
      fresh := fun x hx => h.fresh x (Nat.le_trans ?_ hx) }
  · rw [staging_rebuilt, staging_rebuilt]
    exact h.misses
  · exact (size_copying s' order').trans (h.size.trans (size_copying s order).symm)
  · show ((s'.copying order').2.slot c).handle? = ((s.copying order).2.slot c).handle?.map _
    rw [handle?_copying, handle?_copying, h.contents]
  · show (s'.copying order').2.tombstoned c = (s.copying order).2.tombstoned c
    -- A cell is buried on either side if it was absent and is one of the snapshot's.
    rw [tombstoned_copying s order hbound, tombstoned_copying s' order' hbound', h.contents,
      h.tombstones, Option.isNone_map, h.table.any_eq]
  · rw [log_rebuilt, log_rebuilt, hsame.size, hcount, h.log]
  · show s.clock ≤ (s.copying order).2.clock
    rw [clock_copying s order htidy.cellsDistinct]
    exact Nat.le_add_right _ _

/-- Opening the staged table on both sides keeps the states aligned. -/
theorem opened (h : s.Aligned ρ s') (htidy : Tidy .rest s) (htidy' : Tidy .rest s') :
    (s.opened order).Aligned ρ (s'.opened order') := by
  unfold Shared.opened
  rw [h.amended]
  split
  · exact h
  · exact h.rebuilt order order' htidy htidy'

/-- Staging a new key on both sides keeps the states aligned. -/
theorem inserted (h : s.Aligned ρ s') (htidy : Tidy .rest s) (htidy' : Tidy .rest s') (key : K)
    (new : Handle V) :
    (s.inserted order key new).Aligned ρ (s'.inserted order' key (new.rename ρ)) := by
  have hopened := h.opened order order' htidy htidy'
  unfold Shared.inserted
  rw [hopened.size]
  exact (hopened.addCell new.slot (new.rename ρ).slot rfl rfl).staged_insert key _

end Aligned

end Shared

/-! ## Requests -/

section Requests

variable [BEq K] [EquivBEq K] {ρ : Renaming} {s s' : Shared K V} (order order' : Enumeration K)

open Shared

/-- In aligned states a request does the same. -/
theorem Request.aligned_settle (h : s.Aligned ρ s') (htidy : Tidy .rest s)
    (htidy' : Tidy .rest s') (r : Request K V) (key : K) (held : Option (Handle V)) :
    (r.settle order s key held).Aligned ρ
      (r.settle order' s' key (held.map (Handle.rename ρ))) := by
  have hsnap' := h.find?_snapshot htidy key
  have hstaged' := h.find?_staging htidy key
  have hdrawn := h.drawn r
  -- A deletion draws no stamp but erases the key, on both sides.
  have hready : (if r.removes?.isSome then s.erased key else s.drawn r).Aligned ρ
      (if r.removes?.isSome then s'.erased key else s'.drawn r) := by
    split
    · exact h.erased key
    · exact hdrawn
  -- The key is found in the same table on both sides, or in none.
  cases hsnap : s.snapshot.find? key with
  | some c =>
      rw [settle_of_snapshot hsnap, settle_of_snapshot (hsnap'.trans hsnap)]
      exact hdrawn.rewritten key c held
  | none =>
      cases hstaged : s.staging.find? key with
      | some c =>
          rw [settle_of_staged hsnap hstaged,
            settle_of_staged (hsnap'.trans hsnap) (hstaged'.trans hstaged)]
          exact (hready.serve c held).charged r true
      | none =>
          cases held with
          | some new =>
              rw [settle_of_new hsnap hstaged, Option.map_some,
                settle_of_new (hsnap'.trans hsnap) (hstaged'.trans hstaged)]
              exact hdrawn.inserted order order' (htidy.drawn r) (htidy'.drawn r) key new
          | none =>
              rw [settle_of_missing hsnap hstaged, Option.map_none,
                settle_of_missing (hsnap'.trans hsnap) (hstaged'.trans hstaged)]
              exact hready.charged r false

/-- In aligned states a request gives the same answer and leaves aligned states behind. -/
theorem Request.aligned_solo [BEq V] (h : s.Aligned ρ s') (htidy : Tidy .rest s)
    (htidy' : Tidy .rest s') (r : Request K V) :
    (r.solo order' s').1 = (r.solo order s).1.rename ρ ∧
      (r.solo order s).2.Aligned ρ (r.solo order' s').2 := by
  unfold solo
  cases hkey : r.key? with
  | none => exact ⟨rfl, h.cleared⟩
  | some key =>
      have heffect := r.effect_rename ρ s.clock (s.view key)
      rw [h.fresh s.clock (Nat.le_refl _)] at heffect
      have hview : s'.view key = (s.view key).map (Handle.rename ρ) := congrFun (h.view htidy) key
      dsimp only
      rw [h.clock, hview, heffect]
      exact ⟨rfl, r.aligned_settle order order' h htidy htidy' key _⟩

end Requests

end ConcurrentMap
