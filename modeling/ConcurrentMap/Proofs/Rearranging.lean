import ConcurrentMap.Proofs.Misses
import ConcurrentMap.Proofs.Solo.Copies

/-!
# What operations do to the two tables

An operation of a thread that is alone leaves both tables as they are, or it makes one of a few
changes: it erases or stages one key, it builds the staged table, it promotes or it drops
everything. `Passage.Rearranges` lists them, with the key that is concerned and with what is known
of it before, and `Operation.rearranges` says that there are no others.

The tables are taken as they are, with their key objects. Keys that are equal may be spelled
differently, and `Table.spelling?` is the key object under which a table has a key.
-/

namespace ConcurrentMap

variable {K V : Type}

/-! ## Spellings -/

namespace Table

variable [BEq K]

/-- The key object under which the table has `key`, if it has it. -/
def spelling? (t : Table K) (key : K) : Option K := (t.entries.find? (·.1 == key)).map Prod.fst

/-- A table has a spelling for the keys that it has, and for no others. -/
theorem isSome_spelling? (t : Table K) (key : K) :
    (t.spelling? key).isSome = (t.find? key).isSome := by
  rw [spelling?, find?, Option.isSome_map, Option.isSome_map]

theorem spelling?_eq_none_iff {t : Table K} {key : K} :
    t.spelling? key = none ↔ t.find? key = none := by
  rw [spelling?, find?, Option.map_eq_none_iff, Option.map_eq_none_iff]

/-- The spelling of a key is the key object of an entry. -/
theorem exists_mem_of_spelling? {t : Table K} {key object : K} (h : t.spelling? key = some object) :
    ∃ e ∈ t.entries, e.1 = object ∧ (e.1 == key) = true := by
  obtain ⟨e, he, rfl⟩ := Option.map_eq_some_iff.1 h
  have hkey := List.find?_some he
  exact ⟨e, List.mem_of_find?_eq_some he, rfl, hkey⟩

variable [EquivBEq K]

/-- Equal keys have the same spelling in a table. -/
theorem spelling?_congr (t : Table K) {a b : K} (h : (a == b) = true) :
    t.spelling? a = t.spelling? b := by
  simp only [spelling?, BEq.congr_right h]

/-- In a table without equal keys, the entry found for a key is the one that has it. -/
theorem KeysDistinct.entry_eq_some_iff {t : Table K} (h : t.KeysDistinct) {key : K}
    {e : K × CellId} :
    t.entries.find? (·.1 == key) = some e ↔ e ∈ t.entries ∧ (e.1 == key) = true := by
  constructor
  · intro he
    have hkey := List.find?_some he
    exact ⟨List.mem_of_find?_eq_some he, hkey⟩
  · rintro ⟨hmem, hkey⟩
    simp only [← BEq.congr_right hkey]
    exact h.entry_of_mem hmem

/-- A table that has some of the entries of another one. -/
theorem KeysDistinct.entry_of_subtable {t copies : Table K} (h : t.KeysDistinct)
    (hcopies : copies.KeysDistinct) {keep : K × CellId → Bool}
    (hmem : ∀ e, e ∈ copies.entries ↔ e ∈ t.entries ∧ keep e = true) (key : K) :
    copies.entries.find? (·.1 == key) = (t.entries.find? (·.1 == key)).filter keep := by
  refine Option.ext fun e => ?_
  rw [Option.filter_eq_some_iff, hcopies.entry_eq_some_iff, h.entry_eq_some_iff, hmem]
  exact and_right_comm

/-- A new key is in the table as it is spelled, and the others keep their spelling. -/
theorem spelling?_insert_of_new {t : Table K} {key : K} (h : t.find? key = none) (c : CellId)
    (query : K) : (t.insert key c).spelling? query =
      if key == query then some key else t.spelling? query := by
  have hnew : t.contains key = false := by rw [contains_eq_isSome_find?, h]; rfl
  rw [insert, hnew, if_neg Bool.false_ne_true, spelling?, List.find?_append, List.find?_singleton]
  by_cases hq : (key == query) = true
  · have hnone : t.entries.find? (·.1 == query) = none := by
      rw [find?_congr t hq] at h
      exact Option.map_eq_none_iff.1 h
    simp [hnone, hq]
  · simp [hq, spelling?]

/-- An erased key has no spelling any more, and the others keep theirs. -/
theorem spelling?_erase (t : Table K) (key query : K) :
    (t.erase key).spelling? query = if key == query then none else t.spelling? query := by
  rw [erase, spelling?, List.find?_filter]
  split
  · next hq =>
    rw [Option.map_eq_none_iff, List.find?_eq_none]
    intro e _
    simp [BEq.congr_right hq]
  -- An entry of another key is none of those that were erased.
  · next hq =>
    rw [spelling?]
    congr 2
    funext e
    cases he : e.1 == query with
    | false => simp
    | true =>
        have hne : (e.1 == key) = false := by
          rw [Bool.eq_false_iff]
          exact fun hk => hq (PartialEquivBEq.trans (BEq.symm hk) he)
        simp [hne]

end Table

/-! ## Writing and deleting -/

namespace Request

/-- The key that holds a value after the request, whatever it held before. -/
def writes? : Request K V → Option K
  | .store key _ => some key
  | .swap key _ => some key
  | .loadOrStore key _ => some key
  | .load _ => none
  | .loadAndDelete _ => none
  | .delete _ => none
  | .compareAndSwap _ _ _ => none
  | .compareAndDelete _ _ => none
  | .clear => none

variable {r : Request K V} {key : K}

/-- A request that writes is about the key that it writes. -/
theorem key?_of_writes? (h : r.writes? = some key) : r.key? = some key := by
  cases r <;> simp_all [writes?, key?]

theorem removes?_of_writes? (h : r.writes? = some key) : r.removes? = none := by
  cases r <;> simp_all [writes?, removes?]

theorem writes?_of_removes? (h : r.removes? = some key) : r.writes? = none := by
  cases r <;> simp_all [writes?, removes?]

/-- Where a request writes, there is a value afterwards. -/
theorem effect_of_writes? [BEq V] (h : r.writes? = some key) (stamp : Stamp)
    (held : Option (Handle V)) : (r.effect stamp held).2.isSome = true := by
  cases r <;> cases held <;> simp_all [writes?, effect]

/-- A key without a value gets one from such a request only. -/
theorem writes?_of_effect [BEq V] {stamp : Stamp} (hkey : r.key? = some key)
    (h : (r.effect stamp none).2.isSome = true) : r.writes? = some key := by
  cases r <;> simp_all [writes?, effect, key?]

end Request

namespace Passage

/-- The request that was carried out, if the operation was one. -/
def request? (p : Passage K V) : Option (Request K V) :=
  match p.operation with
  | .request r => some r
  | .depart => none
  | .reach _ => none

/-- Only an operation that is a request has one. -/
theorem operation_of_request? {p : Passage K V} {r : Request K V} (h : p.request? = some r) :
    p.operation = .request r := by
  unfold request? at h
  split at h
  · next hop => rw [hop, Option.some.inj h]
  · simp at h
  · simp at h

variable [BEq K]

/-- The key was written. -/
def writes (key : K) (p : Passage K V) : Bool :=
  (p.request?.bind Request.writes?).any (· == key)

/-- The key was deleted. -/
def removes (key : K) (p : Passage K V) : Bool :=
  (p.request?.bind Request.removes?).any (· == key)

/-- What an operation does to the tables. -/
inductive Rearranges (p : Passage K V) : Prop where
  /-- Nothing. A key that was written is in the table that a traversal would go through, and one
  that was deleted is not staged, if the snapshot lacks it. -/
  | kept (snapshot : p.after.snapshot = p.before.snapshot)
      (table : p.after.staging.table = p.before.staging.table) (log : p.after.log = p.before.log)
      (clears : p.clears = false)
      (written : ∀ key, p.writes key = true → (if p.before.snapshot.amended then
        p.before.staging.find? key else p.before.snapshot.find? key).isSome = true)
      (removed : ∀ key, p.removes key = true → p.before.snapshot.find? key = none →
        p.before.staging.find? key = none)
  /-- A deleted key that the snapshot lacks was erased. -/
  | erased (key : K) (removes : p.request?.bind Request.removes? = some key)
      (lacks : p.before.snapshot.find? key = none)
      (snapshot : p.after.snapshot = p.before.snapshot)
      (table : p.after.staging.table = p.before.staging.table.map (·.erase key))
      (log : p.after.log = p.before.log)
  /-- A written key without a value was staged. -/
  | staged (key : K) (c : CellId) (table : Table K)
      (writes : p.request?.bind Request.writes? = some key) (absent : p.before.view key = none)
      (before : p.before.staging.table = some table) (lacks : table.find? key = none)
      (snapshot : p.after.snapshot = p.before.snapshot)
      (after : p.after.staging.table = some (table.insert key c))
      (log : p.after.log = p.before.log)
  /-- A written key that the snapshot lacks was staged, beside a copy of the entries that hold
  something. -/
  | built (key : K) (c : CellId) (copies : Table K) (expunged : Nat)
      (writes : p.request?.bind Request.writes? = some key) (absent : p.before.view key = none)
      (complete : p.before.snapshot.amended = false) (lacks : p.before.snapshot.find? key = none)
      (distinct : copies.KeysDistinct)
      (live : ∀ e, e ∈ copies.entries ↔
        e ∈ p.before.snapshot.table.entries ∧ (p.before.slot e.2).handle?.isSome = true)
      (snapshot : p.after.snapshot = p.before.snapshot.markAmended)
      (after : p.after.staging.table = some (copies.insert key c))
      (log : p.after.log = .rebuilt copies.size expunged :: p.before.log)
  /-- The staged table was promoted, for the misses or for a traversal. -/
  | promoted (table : Table K) (misses : Nat) (reason : PromotionReason)
      (due : p.records = true ∨ p.request? = none) (before : p.before.staging.table = some table)
      (amended : p.before.snapshot.amended = true)
      (snapshot : p.after.snapshot = .ofTable table) (after : p.after.staging.table = none)
      (log : p.after.log = .promoted table.size misses reason :: p.before.log)
  /-- Everything was dropped. -/
  | cleared (clears : p.clears = true) (snapshot : p.after.snapshot = .empty)
      (after : p.after.staging.table = none)
      (log : p.after.log = p.before.log ∨ p.after.log = .cleared :: p.before.log)

end Passage

open Shared

/-- A copy of the entries that hold something has the entries of the keys that hold a value. -/
theorem Shared.entry_of_live [BEq K] [EquivBEq K] {s : Shared K V} {copies : Table K}
    (hkeys : s.snapshot.table.KeysDistinct) (hdistinct : copies.KeysDistinct)
    (hlive : ∀ e, e ∈ copies.entries ↔
      e ∈ s.snapshot.table.entries ∧ (s.slot e.2).handle?.isSome = true) (key : K) :
    copies.entries.find? (·.1 == key) =
      if (s.view key).isSome then s.snapshot.table.entries.find? (·.1 == key) else none := by
  rw [hkeys.entry_of_subtable hdistinct hlive]
  cases he : s.snapshot.table.entries.find? (·.1 == key) with
  | none => rw [ite_self]; rfl
  | some e =>
      have hfind : s.snapshot.find? key = some e.2 := by rw [Snapshot.find?, Table.find?, he]; rfl
      rw [view_of_find? (find?_of_snapshot hfind)]
      rfl

namespace Request

variable [BEq K] [EquivBEq K] {order : Enumeration K} {s s' s₁ : Shared K V} {r : Request K V}
  {key : K}

/-- A request that leaves the tables alone. -/
private theorem rearranges_kept (hkey : r.key? = some key) (hsnapshot : s'.snapshot = s.snapshot)
    (htable : s'.staging.table = s.staging.table) (hlog : s'.log = s.log)
    (hwritten : r.writes? = some key → (if s.snapshot.amended then s.staging.find? key
      else s.snapshot.find? key).isSome = true)
    (hremoved : r.removes? = some key → s.snapshot.find? key = none →
      s.staging.find? key = none) : Passage.Rearranges ⟨.request r, s, s'⟩ := by
  refine .kept hsnapshot htable hlog (clears_eq hkey) (fun query hquery => ?_)
    fun query hquery hnone => ?_
  · obtain ⟨own, hown, hsame⟩ := (Option.any_eq_true _ _).1 hquery
    obtain rfl := Option.some.inj ((key?_of_writes? hown).symm.trans hkey)
    rw [← s.staging.find?_congr hsame, ← s.snapshot.find?_congr hsame]
    exact hwritten hown
  · obtain ⟨own, hown, hsame⟩ := (Option.any_eq_true _ _).1 hquery
    obtain rfl := Option.some.inj ((key?_of_removes? hown).symm.trans hkey)
    rw [← s.snapshot.find?_congr hsame] at hnone
    rw [← s.staging.find?_congr hsame]
    exact hremoved hown hnone

/-- The last thing that a request does is to count the miss, if it records one. -/
theorem rearranges_charged (h : Tidy .rest s) (hkey : r.key? = some key)
    (hsnap : s.snapshot.find? key = none) (hwrites : r.writes? = some key →
      (s.staging.find? key).isSome = true) (hremoves : r.removes? = none) (hs₁ : s.Steady s₁) :
    Passage.Rearranges ⟨.request r, s, s₁.charged r (s.staging.find? key).isSome⟩ := by
  have hkept : ∀ s' : Shared K V, s'.snapshot = s.snapshot → s'.staging.table = s.staging.table →
      s'.log = s.log → Passage.Rearranges ⟨.request r, s, s'⟩ := fun s' hsnapshot htable hlog =>
    rearranges_kept hkey hsnapshot htable hlog (fun hwritten => by
      obtain ⟨c, hstaged⟩ := Option.isSome_iff_exists.1 (hwrites hwritten)
      rw [if_pos (h.phase.1.trans (Staging.isSome_of_find? hstaged)), hstaged]
      rfl) fun hremoved => by simp [hremoves] at hremoved
  unfold charged
  split
  -- The request records a miss, which may be the one that is due for a promotion.
  · next hmiss =>
    rw [hs₁.snapshot, Bool.and_eq_true] at hmiss
    obtain ⟨ham, hmiss⟩ := hmiss
    obtain ⟨table, htable⟩ := Option.isSome_iff_exists.1 (h.phase.1.symm.trans ham)
    unfold missed
    by_cases hdue : s₁.staging.size ≤ s₁.staging.misses + 1
    · simp only [if_pos hdue]
      refine .promoted table (s.staging.misses + 1) .misses (.inl ?_) htable ham ?_ rfl ?_
      · rw [records_eq hkey, hsnap, hmiss, ham]
        rfl
      · simp [Shared.promoted, setMisses, hs₁.staging, htable]
      · simp [Shared.promoted, setMisses, hs₁.staging, hs₁.log, htable]
    · simp only [if_neg hdue]
      have htable₁ : s₁.staging.table = s.staging.table := congrArg Staging.table hs₁.staging
      exact hkept _ hs₁.snapshot htable₁ hs₁.log
  -- Nothing is recorded.
  · exact hkept _ hs₁.snapshot (congrArg Staging.table hs₁.staging) hs₁.log

/-- A key that the snapshot leads to is staged again if its cell was tombstoned. -/
theorem rearranges_rewritten (h : Tidy .rest s) (hkey : r.key? = some key) {c : CellId}
    (hsnap : s.snapshot.find? key = some c) {held : Option (Handle V)}
    (hwrites : r.writes? = some key → held.isSome = true)
    (hnew : held.isSome = true → s.view key = none → r.writes? = some key) :
    Passage.Rearranges ⟨.request r, s, (s.drawn r).rewritten key c held⟩ := by
  have hdrawn := steady_drawn s r
  have hkept : ∀ s' : Shared K V, s.Steady s' → (r.writes? = some key → s.tombstoned c = false) →
      Passage.Rearranges ⟨.request r, s, s'⟩ := fun s' hs' hlive => by
    refine rearranges_kept hkey hs'.snapshot (congrArg Staging.table hs'.staging) hs'.log
      (fun hwritten => ?_) fun _ hnone => by simp [hsnap] at hnone
    split
    · next ham =>
      rw [h.phase.2.2 (h.phase.1.symm.trans ham) key c hsnap, hlive hwritten]
      rfl
    · rw [hsnap]
      rfl
  cases held with
  | none =>
      exact hkept _ (hdrawn.trans (steady_serve _ c none)) fun hwritten => by
        simpa using hwrites hwritten
  -- The cell is live, or it is tombstoned; then a staged table is there, which lacks the key.
  | some new =>
      cases htomb : s.tombstoned c with
      | false =>
          rw [rewritten_of_live (by rw [tombstoned_drawn, htomb])]
          exact hkept _ (hdrawn.trans (steady_serve _ c _)) fun _ => htomb
      | true =>
          obtain ⟨ham, hst⟩ := h.amended_of_tombstoned hsnap htomb
          obtain ⟨table, htable⟩ := Option.isSome_iff_exists.1 hst
          have hview : s.view key = none :=
            (view_of_find? (find?_of_snapshot hsnap)).trans (handle?_of_tombstoned htomb)
          have hmissing := h.phase.2.2 hst key c hsnap
          rw [htomb, if_pos rfl, Staging.find?, htable] at hmissing
          have htomb' : (s.drawn r).tombstoned c = true := by rw [tombstoned_drawn, htomb]
          rw [rewritten, readmitted, if_pos htomb']
          refine .staged key c table (hnew rfl hview) hview htable hmissing hdrawn.snapshot ?_
            hdrawn.log
          show some (((s.drawn r).staging.table.getD .empty).insert key c) = _
          rw [hdrawn.staging, htable]
          rfl

/-- A key that neither table has is staged, in a table that may have to be built. -/
theorem rearranges_inserted (h : Tidy .rest s) (hwrites : r.writes? = some key)
    (hsnap : s.snapshot.find? key = none) (hstaged : s.staging.find? key = none) (new : Handle V) :
    Passage.Rearranges ⟨.request r, s, (s.drawn r).inserted order key new⟩ := by
  have hdrawn := steady_drawn s r
  have hview : s.view key = none := view_of_missing (by simp [find?, hsnap, hstaged])
  have hafter := congrArg Staging.table (staging_inserted (s.drawn r) order key new)
  have hlog := log_inserted (s.drawn r) order key new
  -- The staged table is there already, or it is built from the complete snapshot.
  cases ham : s.snapshot.amended with
  | true =>
      obtain ⟨table, htable⟩ := Option.isSome_iff_exists.1 (h.phase.1.symm.trans ham)
      have hopened : (s.drawn r).opened order = s.drawn r := by
        rw [opened, hdrawn.snapshot, if_pos ham]
      rw [hopened, hdrawn.staging, htable] at hafter
      rw [hopened, hdrawn.log] at hlog
      rw [Staging.find?, htable] at hstaged
      refine .staged key _ table hwrites hview htable hstaged ?_ hafter hlog
      show ((s.drawn r).opened order).snapshot = _
      rw [hopened, hdrawn.snapshot]
  | false =>
      have hopened : (s.drawn r).opened order = (s.drawn r).rebuilt order := by
        rw [opened, hdrawn.snapshot, if_neg (by simp [ham])]
      have hkeys : (s.drawn r).snapshot.table.KeysDistinct := hdrawn.snapshot ▸ h.keys
      have hperm := order.perm (s.drawn r).walks (s.drawn r).snapshot.table.entries
      rw [hopened, staging_rebuilt] at hafter
      rw [hopened, log_rebuilt, hdrawn.log] at hlog
      refine .built key _ ((s.drawn r).copying order).1.1 _ hwrites hview ham hsnap ?_ (fun e => ?_) ?_
        hafter hlog
      · rw [copying_eq _ _ hkeys]
        exact (Table.distinct_of_perm hperm hkeys).filter _
      · rw [copying_eq _ _ hkeys, List.mem_filter, hperm.mem_iff, slot_drawn, hdrawn.snapshot]
      · show ((s.drawn r).opened order).snapshot = _
        rw [hopened]
        exact congrArg Snapshot.markAmended hdrawn.snapshot

omit [EquivBEq K] in
/-- A deleted key that the snapshot lacks is erased. -/
theorem rearranges_erased (hkey : r.key? = some key) (hremoves : r.removes?.isSome = true)
    (hsnap : s.snapshot.find? key = none) (hs₁ : (s.erased key).Steady s₁) (staged : Bool) :
    Passage.Rearranges ⟨.request r, s, s₁.charged r staged⟩ := by
  obtain ⟨own, hown⟩ := Option.isSome_iff_exists.1 hremoves
  obtain rfl := Option.some.inj ((key?_of_removes? hown).symm.trans hkey)
  have hcharged : s₁.charged r staged = s₁ := by simp [charged, misses_of_removes? hremoves]
  rw [hcharged]
  exact .erased own hown hsnap hs₁.snapshot (congrArg Staging.table hs₁.staging) hs₁.log

/-- Whatever a request settles on one key, it makes one of the changes to the tables. -/
theorem rearranges_settle (h : Tidy .rest s) (hkey : r.key? = some key) {held : Option (Handle V)}
    (hwrites : r.writes? = some key → held.isSome = true)
    (hnew : held.isSome = true → s.view key = none → r.writes? = some key) :
    Passage.Rearranges ⟨.request r, s, r.settle order s key held⟩ := by
  have hdrawn := steady_drawn s r
  -- The key is in the snapshot, in the staged table only, or in neither.
  cases hsnap : s.snapshot.find? key with
  | some c =>
      rw [settle_of_snapshot hsnap]
      exact rearranges_rewritten h hkey hsnap hwrites hnew
  | none =>
      have hnone : r.removes?.isSome ≠ true → r.removes? = none := fun hne => by simpa using hne
      cases hstaged : s.staging.find? key with
      | some c =>
          rw [settle_of_staged hsnap hstaged]
          by_cases hremoves : r.removes?.isSome = true
          · rw [if_pos hremoves]
            exact rearranges_erased hkey hremoves hsnap (steady_serve _ _ _) true
          · rw [if_neg hremoves]
            have hcharged := rearranges_charged h hkey hsnap (fun _ => by rw [hstaged]; rfl)
              (hnone hremoves) (hdrawn.trans (steady_serve (s.drawn r) c held))
            rwa [hstaged] at hcharged
      | none =>
          cases held with
          | some new =>
              rw [settle_of_new hsnap hstaged]
              have hview : s.view key = none := view_of_missing (by simp [find?, hsnap, hstaged])
              exact rearranges_inserted h (hnew rfl hview) hsnap hstaged new
          | none =>
              rw [settle_of_missing hsnap hstaged]
              by_cases hremoves : r.removes?.isSome = true
              · rw [if_pos hremoves]
                exact rearranges_erased hkey hremoves hsnap (.refl _) false
              · rw [if_neg hremoves]
                have hcharged := rearranges_charged h hkey hsnap
                  (fun hwritten => by simpa using hwrites hwritten) (hnone hremoves) hdrawn
                rwa [hstaged] at hcharged

end Request

/-- What an operation does to the tables when its thread is alone. -/
theorem Operation.rearranges [BEq K] [EquivBEq K] [BEq V] {order : Enumeration K} {s : Shared K V}
    (h : Tidy .rest s) (o : Operation K V) :
    Passage.Rearranges ⟨o, s, (o.solo order s).2⟩ := by
  cases o with
  | request r =>
      cases hkey : r.key? with
      -- Only a clearing is about no key.
      | none =>
          obtain rfl := Request.eq_clear_of_key? hkey
          have hsolo : ((Operation.request (.clear : Request K V)).solo order s).2 = s.cleared := rfl
          rw [hsolo, Shared.cleared]
          split
          · exact .cleared rfl rfl rfl (.inr rfl)
          · next hblank =>
            have ham : s.snapshot.amended = false := by simpa using (not_or.1 hblank).2
            exact .cleared rfl (Snapshot.eq_empty hblank)
              (congrArg Staging.table (h.staging_eq_empty ham)) (.inl rfl)
      | some key =>
          rw [solo, Request.solo_of_key hkey]
          refine Request.rearranges_settle h hkey
            (fun hwrites => Request.effect_of_writes? hwrites _ _) fun hsome hview => ?_
          exact Request.writes?_of_effect hkey (hview ▸ hsome)
  | depart =>
      have hsolo : ((Operation.depart : Operation K V).solo order s).2 = s.completed.walked := rfl
      rw [hsolo, Shared.completed]
      split
      · next ham =>
        obtain ⟨table, htable⟩ := Option.isSome_iff_exists.1 (h.phase.1.symm.trans ham)
        refine .promoted table s.staging.misses .traversal (.inr rfl) htable ham ?_ rfl ?_
        · simp [walked, Shared.promoted, htable]
        · simp [walked, Shared.promoted, htable]
      · exact .kept rfl rfl rfl rfl
          (fun _ hwrites => by simp [Passage.writes, Passage.request?] at hwrites)
          fun _ hremoves => by simp [Passage.removes, Passage.request?] at hremoves
  | reach c =>
      exact .kept rfl rfl rfl rfl
        (fun _ hwrites => by simp [Passage.writes, Passage.request?] at hwrites)
        fun _ hremoves => by simp [Passage.removes, Passage.request?] at hremoves

namespace Passage

variable [BEq K] [EquivBEq K]

/-- The operation was carried out between two states at rest, and has done one of these things to
the tables. -/
structure Rearranged (p : Passage K V) : Prop where
  before : Tidy .rest p.before
  after : Tidy .rest p.after
  rearranges : p.Rearranges

/-- An operation that a thread carries out alone leaves the map at rest, and the tables in one of
these ways. -/
theorem Alone.rearranged [BEq V] {order : Enumeration K} {p : Passage K V} (h : p.Alone order) :
    p.Rearranged := by
  obtain ⟨o, s, s'⟩ := p
  obtain rfl : s' = (o.solo order s).2 := h.solo
  exact ⟨h.before, h.after, o.rearranges h.before⟩

variable {p : Passage K V} {key : K}

omit [EquivBEq K] in
/-- A request writes the keys that are equal to its own. -/
theorem writes_eq (h : p.request?.bind Request.writes? = some key) (query : K) :
    p.writes query = (key == query) := by
  rw [writes, h, Option.any_some]

omit [EquivBEq K] in
/-- A request deletes the keys that are equal to its own. -/
theorem removes_eq (h : p.request?.bind Request.removes? = some key) (query : K) :
    p.removes query = (key == query) := by
  rw [removes, h, Option.any_some]

omit [EquivBEq K] in
/-- An operation that writes deletes nothing. -/
theorem removes_of_writes? (h : p.request?.bind Request.writes? = some key) (query : K) :
    p.removes query = false := by
  obtain ⟨r, hr, hwrites⟩ := Option.bind_eq_some_iff.1 h
  rw [removes, hr, Option.bind_some, Request.removes?_of_writes? hwrites, Option.any_none]

omit [EquivBEq K] in
/-- An operation that deletes writes nothing. -/
theorem writes_of_removes? (h : p.request?.bind Request.removes? = some key) (query : K) :
    p.writes query = false := by
  obtain ⟨r, hr, hremoves⟩ := Option.bind_eq_some_iff.1 h
  rw [writes, hr, Option.bind_some, Request.writes?_of_removes? hremoves, Option.any_none]

end Passage

end ConcurrentMap
