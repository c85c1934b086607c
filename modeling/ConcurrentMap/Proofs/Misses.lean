import ConcurrentMap.Proofs.Solo.Requests

/-!
# Misses and the promotions they lead to

A lookup that has to consult the staged table records a miss, and the staged table is promoted once
there are as many misses as it has keys. Which operations record one is decided by the state before
them (`Passage.records`). The journal of a client tells the miss counter exactly: it is the number
of such operations since the last promotion or reset (`Passage.unpaid`).

The threshold moves. New keys raise it, and deleting a key that only the staged table has lowers it,
below the counter even. But the counter never gets to the largest size that the staged table has had
(`Passage.peak`), and while nothing is added to the table there is a deadline for its promotion,
which is the last statement of `Client.follow_misses`.
-/

namespace ConcurrentMap

variable {K V ε α : Type}

/-! ## Reading a journal -/

/-- The event is a promotion. -/
def Event.isPromotion : Event → Bool
  | .promoted _ _ _ => true
  | .rebuilt _ _ => false
  | .cleared => false

namespace Passage

/-- The events that were logged meanwhile. -/
def logged (p : Passage K V) : List Event :=
  p.after.log.take (p.after.log.length - p.before.log.length)

/-- The staged table was promoted. -/
def promotes (p : Passage K V) : Bool := p.logged.any Event.isPromotion

/-- The map was cleared. -/
def clears (p : Passage K V) : Bool :=
  match p.operation with
  | .request .clear => true
  | _ => false

/-- What clears the map is the request to do so. -/
theorem operation_of_clears {p : Passage K V} (h : p.clears = true) :
    p.operation = .request .clear := by
  unfold clears at h
  split at h
  · assumption
  · simp at h

/-- The counter starts anew. -/
def resets (p : Passage K V) : Bool := p.promotes || p.clears

/-- The counter went up by one, whether or not that made it start anew. -/
def CountsMiss (p : Passage K V) : Prop :=
  p.after.staging.misses = p.before.staging.misses + 1 ∨
    ∃ entries, p.after.log =
      .promoted entries (p.before.staging.misses + 1) .misses :: p.before.log

/-- The largest size that the staged table has had since it was built. -/
def peak (journal : List (Passage K V)) : Nat :=
  ((journal.reverse.takeWhile fun p => p.after.staging.table.isSome).map
    fun p => p.after.staging.size).foldr max 0

variable [BEq K]

/-- A miss is recorded: the snapshot is amended and lacks the key, and the request is one that
counts a miss then. -/
def records (p : Passage K V) : Bool :=
  match p.operation with
  | .request r =>
    match r.key? with
    | some key => p.before.snapshot.amended && (p.before.snapshot.find? key).isNone &&
        r.misses (p.before.staging.find? key).isSome
    | none => false
  | .depart => false
  | .reach _ => false

/-- The number of misses since the counter last started anew. -/
def unpaid (journal : List (Passage K V)) : Nat :=
  (journal.reverse.takeWhile fun p => !p.resets).countP records

/-- A key was added to the staged table. -/
def Inserts (p : Passage K V) : Prop :=
  ∃ key, p.before.staging.find? key = none ∧ (p.after.staging.find? key).isSome = true

/-- Nothing is added to a staged table that stays as it is or is dropped. -/
theorem not_inserts {p : Passage K V} (h : p.after.staging.table = none ∨
    p.after.staging.table = p.before.staging.table) : ¬p.Inserts := by
  rintro ⟨key, hbefore, hafter⟩
  unfold Staging.find? at hbefore hafter
  rcases h with hnone | hsame
  · simp [hnone] at hafter
  · simp [hsame, hbefore] at hafter

/-! ## One more operation -/

/-- One more operation resets the number of unpaid misses, or adds to it if it records one. -/
theorem unpaid_concat (journal : List (Passage K V)) (p : Passage K V) :
    unpaid (journal ++ [p]) =
      if p.resets then 0 else unpaid journal + if p.records then 1 else 0 := by
  unfold unpaid
  rw [List.reverse_append, List.reverse_singleton, List.singleton_append, List.takeWhile_cons]
  cases p.resets with
  | true => rfl
  | false => exact List.countP_cons

omit [BEq K] in
/-- One more operation raises the peak to the size that it leaves, or ends the staged table. -/
theorem peak_concat (journal : List (Passage K V)) (p : Passage K V) :
    peak (journal ++ [p]) =
      if p.after.staging.table.isSome then max p.after.staging.size (peak journal) else 0 := by
  unfold peak
  rw [List.reverse_append, List.reverse_singleton, List.singleton_append, List.takeWhile_cons]
  split <;> rfl

omit [BEq K] in
/-- An operation that logs nothing does not promote. -/
theorem promotes_of_log_eq {p : Passage K V} (h : p.after.log = p.before.log) :
    p.promotes = false := by
  simp [promotes, logged, h]

omit [BEq K] in
/-- An operation that logs one event promotes exactly if the event is a promotion. -/
theorem promotes_of_log_cons {p : Passage K V} {e : Event} (h : p.after.log = e :: p.before.log) :
    p.promotes = e.isPromotion := by
  simp [promotes, logged, h]

/-- What an operation does to the staging area. -/
inductive Accounts (p : Passage K V) : Prop where
  /-- Nothing. -/
  | kept (records : p.records = false) (clears : p.clears = false)
      (log : p.after.log = p.before.log) (staging : p.after.staging = p.before.staging)
  /-- A key was erased. -/
  | erased (records : p.records = false) (clears : p.clears = false)
      (log : p.after.log = p.before.log) (key : K)
      (staging : p.after.staging =
        ⟨p.before.staging.table.map (·.erase key), p.before.staging.misses⟩)
  /-- A key was added. -/
  | staged (records : p.records = false) (clears : p.clears = false)
      (log : p.after.log = p.before.log) (amended : p.before.snapshot.amended = true)
      (inserts : p.Inserts) (table : Table K)
      (staging : p.after.staging = ⟨some table, p.before.staging.misses⟩)
  /-- The staged table was built. -/
  | built (records : p.records = false) (clears : p.clears = false)
      (amended : p.before.snapshot.amended = false) (copied expunged : Nat)
      (log : p.after.log = .rebuilt copied expunged :: p.before.log) (table : Table K)
      (staging : p.after.staging = ⟨some table, 0⟩)
  /-- A miss was counted. -/
  | counted (records : p.records = true) (clears : p.clears = false)
      (log : p.after.log = p.before.log) (amended : p.before.snapshot.amended = true)
      (unpaid : p.before.staging.misses + 1 < p.before.staging.size)
      (staging : p.after.staging = ⟨p.before.staging.table, p.before.staging.misses + 1⟩)
  /-- A miss was counted, and the staged table was promoted. -/
  | paid (records : p.records = true) (clears : p.clears = false) (entries : Nat)
      (log : p.after.log =
        .promoted entries (p.before.staging.misses + 1) .misses :: p.before.log)
      (staging : p.after.staging = .empty)
  /-- The staged table was promoted for a traversal. -/
  | completed (records : p.records = false) (clears : p.clears = false) (entries misses : Nat)
      (log : p.after.log = .promoted entries misses .traversal :: p.before.log)
      (staging : p.after.staging = .empty)
  /-- Everything was dropped. -/
  | cleared (records : p.records = false) (clears : p.clears = true)
      (log : p.after.log = p.before.log ∨ p.after.log = .cleared :: p.before.log)
      (staging : p.after.staging = .empty)

end Passage

open Shared

/-! ## What operations record -/

namespace Shared

variable {s : Shared K V}

/-- A miss that is not yet due is counted, and nothing is logged. -/
theorem staging_missed_of_lt (h : s.staging.misses + 1 < s.staging.size) :
    s.missed.staging = ⟨s.staging.table, s.staging.misses + 1⟩ ∧ s.missed.log = s.log := by
  rw [missed, if_neg (Nat.not_le.2 h)]
  exact ⟨rfl, rfl⟩

/-- A miss that is due promotes the staged table, and the promotion is logged with the counter. -/
theorem staging_missed_of_le (h : s.staging.size ≤ s.staging.misses + 1) :
    s.missed.staging = .empty ∧ ∃ entries, s.missed.log =
      .promoted entries (s.staging.misses + 1) .misses :: s.log := by
  rw [missed, if_pos h]
  exact ⟨rfl, _, rfl⟩

end Shared

namespace Request

variable {r : Request K V} {key : K}

/-- A request about a key does not clear the map. -/
theorem clears_eq {s s' : Shared K V} (hkey : r.key? = some key) :
    Passage.clears ⟨.request r, s, s'⟩ = false := by
  cases r <;> first | rfl | simp [key?] at hkey

/-- A request that deletes counts no miss. -/
theorem misses_of_removes? (h : r.removes?.isSome = true) (staged : Bool) :
    r.misses staged = false := by
  cases r <;> first | rfl | simp [removes?] at h

/-- A request that lets a key hold a value that had none counts no miss if the key is not staged. -/
theorem misses_of_effect [BEq V] {stamp : Stamp} {new : Handle V}
    (h : (r.effect stamp none).2 = some new) : r.misses false = false := by
  cases r <;> simp_all [effect, misses]

variable [BEq K] {order : Enumeration K} {s : Shared K V}

/-- What a request records is decided by the tables before it. -/
theorem records_eq {s' : Shared K V} (hkey : r.key? = some key) :
    Passage.records ⟨.request r, s, s'⟩ = (s.snapshot.amended && (s.snapshot.find? key).isNone &&
      r.misses (s.staging.find? key).isSome) := by
  simp [Passage.records, hkey]

/-- The last thing that a request does is to count the miss, if it records one. -/
theorem accounts_charged {s₁ : Shared K V} {staged : Bool} (hkey : r.key? = some key)
    (hsnap : s.snapshot.find? key = none) (hstaged : (s.staging.find? key).isSome = staged)
    (hsnapshot : s₁.snapshot = s.snapshot) (hstaging : s₁.staging = s.staging)
    (hlog : s₁.log = s.log) : Passage.Accounts ⟨.request r, s, s₁.charged r staged⟩ := by
  have hrecords : ∀ s', Passage.records ⟨.request r, s, s'⟩ =
      (s₁.snapshot.amended && r.misses staged) := fun s' => by
    rw [records_eq hkey, hsnap, hstaged, hsnapshot, Option.isNone_none, Bool.and_true]
  have hclears : ∀ s', Passage.clears ⟨.request r, s, s'⟩ = false := fun s' => clears_eq hkey
  unfold charged
  cases hmiss : (s₁.snapshot.amended && r.misses staged) with
  | false => exact .kept (hmiss ▸ hrecords _) (hclears _) hlog hstaging
  | true =>
      have ham : s.snapshot.amended = true := hsnapshot ▸ (Bool.and_eq_true_iff.1 hmiss).1
      rw [if_pos rfl]
      -- The counter stays below the size of the staged table, or the miss is the one that is due.
      by_cases hlt : s₁.staging.misses + 1 < s₁.staging.size
      · obtain ⟨hstaging', hlog'⟩ := staging_missed_of_lt hlt
        rw [hstaging] at hlt hstaging'
        exact .counted (hmiss ▸ hrecords _) (hclears _) (hlog'.trans hlog) ham hlt hstaging'
      · obtain ⟨hstaging', entries, hlog'⟩ := staging_missed_of_le (Nat.not_lt.1 hlt)
        rw [hstaging, hlog] at hlog'
        exact .paid (hmiss ▸ hrecords _) (hclears _) entries hlog' hstaging'

/-- A key that the snapshot leads to is written without a miss. A tombstoned cell is staged
again. -/
theorem accounts_rewritten [EquivBEq K] (h : Tidy .rest s) (hkey : r.key? = some key) {c : CellId}
    (hsnap : s.snapshot.find? key = some c) (held : Option (Handle V)) :
    Passage.Accounts ⟨.request r, s, (s.drawn r).rewritten key c held⟩ := by
  have hrecords : ∀ s', Passage.records ⟨.request r, s, s'⟩ = false := fun s' => by
    rw [records_eq hkey, hsnap, Option.isNone_some, Bool.and_false, Bool.false_and]
  have hdrawn := steady_drawn s r
  have hkept : ∀ s', s.Steady s' → Passage.Accounts ⟨.request r, s, s'⟩ := fun s' hs' =>
    .kept (hrecords s') (clears_eq hkey) hs'.log hs'.staging
  cases held with
  | none => exact hkept _ (hdrawn.trans (steady_serve (s.drawn r) c none))
  | some new =>
      cases htomb : s.tombstoned c with
      | false =>
          have hlive : (s.drawn r).tombstoned c = false := by rw [tombstoned_drawn, htomb]
          rw [rewritten_of_live hlive]
          exact hkept _ (hdrawn.trans (steady_serve _ _ _))
      | true =>
          -- A tombstoned cell means that there is a staged table, and that it lacks the key.
          obtain ⟨ham, hst⟩ := h.amended_of_tombstoned hsnap htomb
          have hmissing := h.phase.2.2 hst key c hsnap
          rw [htomb, if_pos rfl] at hmissing
          have htomb' : (s.drawn r).tombstoned c = true := by rw [tombstoned_drawn, htomb]
          rw [rewritten, readmitted, if_pos htomb']
          have hstaging : (((s.drawn r).revived c).staged key c).staging =
              ⟨some ((s.staging.table.getD .empty).insert key c), s.staging.misses⟩ := by
            show (⟨some (((s.drawn r).staging.table.getD .empty).insert key c),
              (s.drawn r).staging.misses⟩ : Staging K) = _
            rw [hdrawn.staging]
          refine .staged (hrecords _) (clears_eq hkey) hdrawn.log ham ⟨key, hmissing, ?_⟩ _ hstaging
          show ((((s.drawn r).revived c).staged key c).staging.find? key).isSome = true
          rw [hstaging, Staging.find?_insert, if_pos BEq.rfl]
          rfl

/-- A key that neither table has is staged without a miss, in a table that may have to be built. -/
theorem accounts_inserted [EquivBEq K] (h : Tidy .rest s) (hkey : r.key? = some key)
    (hstaged : s.staging.find? key = none) (hnew : r.misses false = false) (new : Handle V) :
    Passage.Accounts ⟨.request r, s, (s.drawn r).inserted order key new⟩ := by
  have hrecords : ∀ s', Passage.records ⟨.request r, s, s'⟩ = false := fun s' => by
    rw [records_eq hkey, hstaged, Option.isSome_none, hnew, Bool.and_false]
  have hdrawn := steady_drawn s r
  cases ham : s.snapshot.amended with
  | true =>
      have hopened : (s.drawn r).opened order = s.drawn r := by
        rw [opened, hdrawn.snapshot, if_pos ham]
      have hstaging := staging_inserted (s.drawn r) order key new
      rw [hopened, hdrawn.staging] at hstaging
      refine .staged (hrecords _) (clears_eq hkey) ?_ ham ⟨key, hstaged, ?_⟩ _ hstaging
      · rw [log_inserted, hopened]
        exact hdrawn.log
      · show (((s.drawn r).inserted order key new).staging.find? key).isSome = true
        rw [hstaging, Staging.find?_insert, if_pos BEq.rfl]
        rfl
  -- The staged table is built, and nothing was counted before there was one.
  | false =>
      have hopened : (s.drawn r).opened order = (s.drawn r).rebuilt order := by
        rw [opened, hdrawn.snapshot, if_neg (by simp [ham])]
      have hstaging := staging_inserted (s.drawn r) order key new
      rw [hopened, staging_rebuilt, hdrawn.staging, h.staging_eq_empty ham] at hstaging
      have hlog := log_inserted (s.drawn r) order key new
      rw [hopened, log_rebuilt, hdrawn.log] at hlog
      exact .built (hrecords _) (clears_eq hkey) ham _ _ hlog _ hstaging

/-- A deleted key is erased from the staged table without a miss. -/
theorem accounts_erased {s₁ : Shared K V} (hkey : r.key? = some key)
    (hremoves : r.removes?.isSome = true) (hs₁ : (s.erased key).Steady s₁) (staged : Bool) :
    Passage.Accounts ⟨.request r, s, s₁.charged r staged⟩ := by
  have hmisses := misses_of_removes? hremoves
  have hcharged : s₁.charged r staged = s₁ := by simp [charged, hmisses]
  rw [hcharged]
  refine .erased ?_ (clears_eq hkey) hs₁.log key hs₁.staging
  rw [records_eq hkey, hmisses, Bool.and_false]

/-- Whatever a request settles on one key, it does one of these things to the staging area. -/
theorem accounts_settle [EquivBEq K] (h : Tidy .rest s) (hkey : r.key? = some key)
    {held : Option (Handle V)}
    (hnew : held.isSome = true → s.view key = none → r.misses false = false) :
    Passage.Accounts ⟨.request r, s, r.settle order s key held⟩ := by
  have hdrawn := steady_drawn s r
  -- The key is in the snapshot, in the staged table only, or in neither.
  cases hsnap : s.snapshot.find? key with
  | some c =>
      rw [settle_of_snapshot hsnap]
      exact accounts_rewritten h hkey hsnap held
  | none =>
      cases hstaged : s.staging.find? key with
      | some c =>
          rw [settle_of_staged hsnap hstaged]
          by_cases hremoves : r.removes?.isSome = true
          · rw [if_pos hremoves]
            exact accounts_erased hkey hremoves (steady_serve _ _ _) true
          · rw [if_neg hremoves]
            have hserved := hdrawn.trans (steady_serve (s.drawn r) c held)
            exact accounts_charged hkey hsnap (by rw [hstaged]; rfl) hserved.snapshot
              hserved.staging hserved.log
      | none =>
          cases held with
          | some new =>
              rw [settle_of_new hsnap hstaged]
              have hfind : s.find? key = none := by simp [find?, hsnap, hstaged]
              exact accounts_inserted h hkey hstaged (hnew rfl (view_of_missing hfind)) new
          | none =>
              rw [settle_of_missing hsnap hstaged]
              by_cases hremoves : r.removes?.isSome = true
              · rw [if_pos hremoves]
                exact accounts_erased hkey hremoves (.refl _) false
              · rw [if_neg hremoves]
                exact accounts_charged hkey hsnap (by rw [hstaged]; rfl) hdrawn.snapshot
                  hdrawn.staging hdrawn.log

end Request

/-- What an operation does to the staging area when its thread is alone. -/
theorem Operation.accounts [BEq K] [EquivBEq K] [BEq V] {order : Enumeration K} {s : Shared K V}
    (h : Tidy .rest s) (o : Operation K V) : Passage.Accounts ⟨o, s, (o.solo order s).2⟩ := by
  cases o with
  -- Only a clearing is about no key.
  | request r =>
      cases hkey : r.key? with
      | none =>
          obtain rfl := Request.eq_clear_of_key? hkey
          have hsolo : ((Operation.request (.clear : Request K V)).solo order s).2 = s.cleared := rfl
          rw [hsolo, Shared.cleared]
          split
          · exact .cleared rfl rfl (.inr rfl) rfl
          · next hblank =>
            have ham : s.snapshot.amended = false := by simpa using (not_or.1 hblank).2
            exact .cleared rfl rfl (.inl rfl) (h.staging_eq_empty ham)
      | some key =>
          rw [solo, Request.solo_of_key hkey]
          refine Request.accounts_settle h hkey fun hsome hview => ?_
          rw [hview] at hsome
          obtain ⟨new, hnew⟩ := Option.isSome_iff_exists.1 hsome
          exact Request.misses_of_effect hnew
  | depart =>
      have hsolo : ((Operation.depart : Operation K V).solo order s).2 = s.completed.walked := rfl
      rw [hsolo, Shared.completed]
      split
      · exact .completed rfl rfl _ _ rfl rfl
      · exact .kept rfl rfl rfl rfl
  | reach c => exact .kept rfl rfl rfl rfl

/-! ## The account of a journal -/

namespace Passage

variable [BEq K]

/-- The operation was carried out between two states at rest, and has kept to the account. -/
structure Accounted (p : Passage K V) : Prop where
  before : Tidy .rest p.before
  after : Tidy .rest p.after
  accounts : p.Accounts

variable {p : Passage K V}

/-- What the counter is after an operation. -/
theorem Accounted.misses_after (h : p.Accounted) : p.after.staging.misses =
    if p.resets then 0 else p.before.staging.misses + if p.records then 1 else 0 := by
  -- In each case the account says whether the counter goes on, goes up or starts anew.
  cases h.accounts with
  | kept records clears log staging =>
      simp [resets, promotes_of_log_eq log, clears, records, staging]
  | erased records clears log key staging =>
      simp [resets, promotes_of_log_eq log, clears, records, staging]
  | staged records clears log amended inserts table staging =>
      simp [resets, promotes_of_log_eq log, clears, records, staging]
  | built records clears amended copied expunged log table staging =>
      -- Nothing was staged before, so nothing was counted.
      have hempty := h.before.staging_eq_empty amended
      simp [resets, promotes_of_log_cons log, Event.isPromotion, clears, records, staging, hempty,
        Staging.empty]
  | counted records clears log amended unpaid staging =>
      simp [resets, promotes_of_log_eq log, clears, records, staging]
  | paid records clears entries log staging =>
      simp [resets, promotes_of_log_cons log, Event.isPromotion, staging, Staging.empty]
  | completed records clears entries misses log staging =>
      simp [resets, promotes_of_log_cons log, Event.isPromotion, staging, Staging.empty]
  | cleared records clears log staging => simp [resets, clears, staging, Staging.empty]

/-- An operation records a miss exactly if the counter goes up. -/
theorem Accounted.records_iff (h : p.Accounted) : p.records = true ↔ p.CountsMiss := by
  unfold CountsMiss
  cases h.accounts with
  | kept records clears log staging => simp [records, log, staging]
  | erased records clears log key staging => simp [records, log, staging]
  | staged records clears log amended inserts table staging => simp [records, log, staging]
  | built records clears amended copied expunged log table staging =>
      simp [records, log, staging]
  | counted records clears log amended unpaid staging => simp [records, staging]
  | paid records clears entries log staging => simp [records, log]
  | completed records clears entries misses log staging =>
      simp [records, log, staging, Staging.empty]
  | cleared records clears log staging =>
      rcases log with log | log <;> simp [records, log, staging, Staging.empty]

/-- While a table is staged, the counter is below its size when it goes up. -/
theorem Accounted.bounded (h : p.Accounted) : p.after.staging.misses = 0 ∨
    p.after.staging.table.isSome = true ∧ (p.after.staging.misses < p.after.staging.size ∨
      p.after.staging.misses = p.before.staging.misses) := by
  cases htable : p.after.staging.table with
  | none => exact .inl (h.after.phase.2.1 htable).1
  | some table =>
      cases h.accounts with
      | kept records clears log staging => exact .inr ⟨rfl, .inr (by rw [staging])⟩
      | erased records clears log key staging => exact .inr ⟨rfl, .inr (by rw [staging])⟩
      | staged records clears log amended inserts table staging =>
          exact .inr ⟨rfl, .inr (by rw [staging])⟩
      | built records clears amended copied expunged log table staging =>
          exact .inl (by rw [staging])
      | counted records clears log amended unpaid staging =>
          exact .inr ⟨rfl, .inl (by rw [staging]; exact unpaid)⟩
      | paid records clears entries log staging => exact .inl (by rw [staging]; rfl)
      | completed records clears entries misses log staging => exact .inl (by rw [staging]; rfl)
      | cleared records clears log staging => exact .inl (by rw [staging]; rfl)

/-- The counter and the size of the staged table, while no key is added and the table is neither
promoted nor dropped. -/
structure Lasts (p : Passage K V) : Prop where
  amended : p.after.snapshot.amended = true
  misses : p.after.staging.misses = p.before.staging.misses + if p.records then 1 else 0
  size : p.after.staging.size ≤ p.before.staging.size
  unpaid : p.records = true → p.before.staging.misses + 1 < p.before.staging.size

/-- While the table is neither promoted nor dropped and no key is added, the counter goes up and the
size does not. -/
theorem Accounted.lasts (h : p.Accounted) (ham : p.before.snapshot.amended = true)
    (hclears : p.clears = false) (hinserts : ¬p.Inserts) (hpromotes : p.promotes = false) :
    p.Lasts := by
  have hmisses := h.misses_after
  rw [resets, hclears, hpromotes, Bool.or_false, if_neg Bool.false_ne_true] at hmisses
  have hst := h.before.phase.1.symm.trans ham
  have hquiet : p.before.staging.table.isSome = p.after.staging.table.isSome →
      p.after.snapshot.amended = true := fun hsame => h.after.phase.1.trans (hsame ▸ hst)
  cases h.accounts with
  | kept records clears log staging =>
      exact ⟨hquiet (by rw [staging]), hmisses, Nat.le_of_eq (by rw [staging]), by simp [records]⟩
  | erased records clears log key staging =>
      -- Erasing a key leaves a smaller table, or one of the same size.
      refine ⟨hquiet (by rw [staging, Option.isSome_map]), hmisses, ?_, by simp [records]⟩
      rw [staging]
      cases htable : p.before.staging.table with
      | none => simp [htable] at hst
      | some table =>
          simp only [Staging.size, htable, Option.map_some, Option.getD_some]
          exact List.length_filter_le _ _
  | staged records clears log amended inserts table staging => exact absurd inserts hinserts
  | built records clears amended copied expunged log table staging => simp [ham] at amended
  | counted records clears log amended unpaid staging =>
      exact ⟨hquiet (by rw [staging]), hmisses, Nat.le_of_eq (by rw [staging]; rfl), fun _ => unpaid⟩
  | paid records clears entries log staging =>
      simp [promotes_of_log_cons log, Event.isPromotion] at hpromotes
  | completed records clears entries misses log staging =>
      simp [promotes_of_log_cons log, Event.isPromotion] at hpromotes
  | cleared records clears log staging => simp [hclears] at clears

/-- After operations that each have kept to the account, the counter is what the journal says. -/
theorem misses_of_linked {journal : List (Passage K V)} {s : Shared K V}
    (hlink : Linked .initial journal s) (hall : ∀ p ∈ journal, p.Accounted) :
    s.staging.misses = unpaid journal ∧
      (s.staging.misses = 0 ∨ s.staging.misses < peak journal) := by
  refine hlink.concat_induction hall ⟨rfl, .inl rfl⟩ fun journal p hp ⟨hcount, hpeak⟩ => ?_
  refine ⟨by rw [hp.misses_after, unpaid_concat, hcount], ?_⟩
  rcases hp.bounded with hzero | ⟨htable, hlt | hsame⟩
  · exact .inl hzero
  · refine .inr ?_
    rw [peak_concat, if_pos htable]
    exact Nat.lt_of_lt_of_le hlt (Nat.le_max_left _ _)
  · rw [hsame]
    refine hpeak.imp id fun hlt => ?_
    rw [peak_concat, if_pos htable]
    exact Nat.lt_of_lt_of_le hlt (Nat.le_max_right _ _)

omit [BEq K] in
/-- A bound on the sizes after the operations is one on the peak. -/
theorem peak_le {journal : List (Passage K V)} {bound : Nat}
    (h : ∀ p ∈ journal, p.after.staging.size ≤ bound) : peak journal ≤ bound := by
  induction journal using List.reverseRecOn with
  | nil => exact Nat.zero_le _
  | append_singleton journal p ih =>
      rw [peak_concat]
      split
      · exact Nat.max_le.2 ⟨h p (List.mem_append_right _ List.mem_cons_self),
          ih fun q hq => h q (List.mem_append_left _ hq)⟩
      · exact Nat.zero_le _

/-- While no key is added and nothing is dropped, the misses stay below the size that the staged
table had in the beginning. -/
theorem misses_of_lasting {stretch : List (Passage K V)} {s s' : Shared K V}
    (hlink : Linked s stretch s') (hall : ∀ p ∈ stretch, p.Accounted)
    (ham : s.snapshot.amended = true) (hquiet : ∀ p ∈ stretch, p.clears = false ∧ ¬p.Inserts)
    (hpromotes : ∀ p ∈ stretch, p.promotes = false) :
    0 < stretch.countP records → s.staging.misses + stretch.countP records < s.staging.size := by
  -- By induction on the stretch, from its first operation.
  induction stretch generalizing s with
  | nil => simp
  | cons p stretch ih =>
      obtain ⟨rfl, hlink⟩ := hlink
      have hlasts := (hall p List.mem_cons_self).lasts ham (hquiet p List.mem_cons_self).1
        (hquiet p List.mem_cons_self).2 (hpromotes p List.mem_cons_self)
      have hrest := ih hlink (fun q hq => hall q (List.mem_cons_of_mem p hq)) hlasts.amended
        (fun q hq => hquiet q (List.mem_cons_of_mem p hq))
        fun q hq => hpromotes q (List.mem_cons_of_mem p hq)
      have hmisses := hlasts.misses
      have hsize := hlasts.size
      intro hpos
      rw [List.countP_cons] at hpos ⊢
      -- If the first operation records a miss, the rest stays below the size by what is left.
      by_cases hrecords : p.records = true
      · have hunpaid := hlasts.unpaid hrecords
        rw [if_pos hrecords] at hmisses ⊢
        rcases Nat.eq_zero_or_pos (stretch.countP records) with hnone | hsome
        · omega
        · have hlt := hrest hsome
          omega
      · rw [if_neg hrecords] at hmisses hpos ⊢
        have hlt := hrest hpos
        omega

end Passage

variable [BEq K] [EquivBEq K] [BEq V]

theorem Passage.Alone.accounted {order : Enumeration K} {p : Passage K V} (h : p.Alone order) :
    p.Accounted := by
  obtain ⟨o, s, s'⟩ := p
  obtain rfl : s' = (o.solo order s).2 := h.solo
  exact ⟨h.before, h.after, o.accounts h.before⟩

/-- Between any two operations of a client, inside its visitors as well, the miss counter is the
number of misses recorded since the last promotion or reset. It is zero or below the largest size
that the staged table has had, so counting up does not lead beyond that. And from then on, while the
map is not cleared and no key is added to the staged table, that table is promoted with the last of
as many misses as it has keys more than misses were counted, but at least one. -/
theorem Client.follow_misses (order : Enumeration K) (t : ThreadId) (c : Client K V ε α) :
    ∃ x trace s journal,
      (c.program []).run order t .initial = some ((x, trace), s) ∧
      (c.follow order t).run.run (.initial, []) = some (x, s, journal) ∧
      (∀ p ∈ journal, p.records = true ↔ p.CountsMiss) ∧
      ∀ earlier later, journal = earlier ++ later → ∃ s₁, Linked .initial earlier s₁ ∧
        Linked s₁ later s ∧ s₁.staging.misses = Passage.unpaid earlier ∧
        (s₁.staging.misses = 0 ∨ s₁.staging.misses < Passage.peak earlier) ∧
        (∀ bound, 1 ≤ bound → (∀ p ∈ earlier, p.after.staging.size ≤ bound) →
          s₁.staging.misses + 1 ≤ bound) ∧
        ∀ stretch rest, later = stretch ++ rest → s₁.snapshot.amended = true →
          (∀ p ∈ stretch, p.clears = false ∧ ¬p.Inserts) →
          max 1 (s₁.staging.size - s₁.staging.misses) ≤ stretch.countP Passage.records →
          ∃ p ∈ stretch, p.promotes = true := by
  obtain ⟨x, trace, s, journal, hrun, hfollow, -, hlink, halone⟩ :=
    c.follow_tracks (Operation.lawful_alone order t) [] .initial [] (Shared.ready_initial t)
  have hall : ∀ p ∈ journal, p.Accounted := fun p hp => (halone p hp).accounted
  refine ⟨x, trace, s, journal, hrun, hfollow, fun p hp => (hall p hp).records_iff, ?_⟩
  rintro earlier later rfl
  obtain ⟨s₁, hearlier, hlater⟩ := hlink.split
  obtain ⟨hcount, hpeak⟩ := Passage.misses_of_linked hearlier
    fun p hp => hall p (List.mem_append_left _ hp)
  refine ⟨s₁, hearlier, hlater, hcount, hpeak, fun bound hbound hsizes => ?_, ?_⟩
  -- The counter is zero, or below the peak and so below the bound.
  · have hle := Passage.peak_le hsizes
    omega
  · rintro stretch rest rfl ham hquiet hdue
    obtain ⟨s₂, hstretch, -⟩ := hlater.split
    -- Without a promotion the counter would get to the size of the table, which it does not.
    by_contra hnone
    have hlt := Passage.misses_of_lasting hstretch
      (fun p hp => hall p (List.mem_append_right _ (List.mem_append_left _ hp))) ham hquiet
      (fun p hp => by
        by_contra hpromotes
        exact hnone ⟨p, hp, by simpa using hpromotes⟩) (by omega)
    omega

/-- Two keys are staged, one of them is read, and then a key that is missing. -/
def Client.lookups : Client Nat Nat Unit Unit :=
  request (.store 1 10) fun _ => request (.store 2 20) fun _ => request (.load 1) fun _ =>
    request (.load 3) fun _ => done ()

/-- The second miss pays for the two keys. -/
theorem Client.follow_misses_lookups :
    ∃ x trace s journal,
      (lookups.program []).run .insertion 0 .initial = some ((x, trace), s) ∧
      (lookups.follow .insertion 0).run.run (.initial, []) = some (x, s, journal) ∧
      journal.map Passage.records = [false, false, true, true] ∧
      (journal.map fun p => p.after.staging.misses) = [0, 0, 1, 0] ∧
      s.log = [.promoted 2 2 .misses, .rebuilt 0 0] ∧ s.staging.misses = Passage.unpaid journal ∧
      ∃ p ∈ journal.drop 2, p.promotes = true := by
  obtain ⟨x, trace, s, journal, hrun, hfollow, -, hmisses⟩ :=
    Client.follow_misses .insertion 0 lookups
  have hseen : ((lookups.follow .insertion 0).run.run (.initial, [])).map (fun r =>
      (r.2.1.log, r.2.2.map Passage.records, r.2.2.map fun p => p.after.staging.misses)) =
      some ([.promoted 2 2 .misses, .rebuilt 0 0], [false, false, true, true], [0, 0, 1, 0]) := by
    decide +kernel
  have hdrop : ((lookups.follow .insertion 0).run.run (.initial, [])).map (fun r =>
      ((r.2.2.drop 2).head?.map fun p => (p.before.snapshot.amended, p.before.staging.size),
        (r.2.2.drop 2).countP Passage.records, (r.2.2.drop 2).all fun p => !p.clears &&
          decide (p.after.staging.table = none ∨ p.after.staging.table = p.before.staging.table))) =
      some (some (true, 2), 2, true) := by
    decide +kernel
  simp only [hfollow, Option.map_some, Option.some.injEq, Prod.mk.injEq] at hseen hdrop
  obtain ⟨hlog, hrecords, hcounts⟩ := hseen
  obtain ⟨hfirst, hdue, hquiet⟩ := hdrop
  obtain ⟨s₂, -, hend, hunpaid, -⟩ := hmisses journal [] (List.append_nil _).symm
  obtain rfl : s = s₂ := hend
  refine ⟨x, trace, s, _, hrun, hfollow, hrecords, hcounts, hlog, hunpaid, ?_⟩
  obtain ⟨s₁, -, hlinked, -, -, -, hpaid⟩ :=
    hmisses (journal.take 2) (journal.drop 2) (List.take_append_drop 2 journal).symm
  obtain ⟨p, hhead, hp⟩ := Option.map_eq_some_iff.1 hfirst
  obtain ⟨ham, hsize⟩ := Prod.mk.inj hp
  obtain ⟨rest, hrest⟩ := List.head?_eq_some_iff.1 hhead
  obtain rfl : p.before = s₁ := by
    rw [hrest] at hlinked
    exact hlinked.1
  refine hpaid _ [] (List.append_nil _).symm ham (fun q hq => ?_) (by omega)
  have hq := List.all_eq_true.1 hquiet q hq
  rw [Bool.and_eq_true, Bool.not_eq_true', decide_eq_true_eq] at hq
  exact ⟨hq.1, Passage.not_inserts hq.2⟩

end ConcurrentMap
