import ConcurrentMap.Proofs.Rearranging

/-!
# Which keys are staged, and which are reclaimed

A deleted key does not vanish from the snapshot. It is left out when the staged table is built, and
is gone with the next promotion unless it was written in between. `Passage.Keeps` says which keys
the staged table has, given the operation that built it and those that came after it: it is read off
the journal and off the state before the table was built alone. `Client.follow_staged` shows that
these are its keys at every moment, and those of the snapshot that it becomes.
-/

namespace ConcurrentMap

open Shared

variable {K V ε α : Type}

/-- The event is a rebuild. -/
def Event.isRebuild : Event → Bool
  | .promoted _ _ _ => false
  | .rebuilt _ _ => true
  | .cleared => false

/-- The request has a key, and leaves it where it is in the tables: it reads the key, or it replaces
or deletes a value if it is the expected one. -/
def Request.leaves : Request K V → Bool
  | .load _ => true
  | .compareAndSwap _ _ _ => true
  | .compareAndDelete _ _ => true
  | .store _ _ => false
  | .swap _ _ => false
  | .loadOrStore _ _ => false
  | .loadAndDelete _ => false
  | .delete _ => false
  | .clear => false

namespace Passage

/-- The staged table was built. -/
def rebuilds (p : Passage K V) : Bool := p.logged.any Event.isRebuild

theorem rebuilds_of_log_eq {p : Passage K V} (h : p.after.log = p.before.log) :
    p.rebuilds = false := by
  simp [rebuilds, logged, h]

theorem rebuilds_of_log_cons {p : Passage K V} {e : Event} (h : p.after.log = e :: p.before.log) :
    p.rebuilds = e.isRebuild := by
  simp [rebuilds, logged, h]

theorem request?_of_clears {p : Passage K V} (h : p.clears = true) : p.request? = some .clear := by
  rw [request?, operation_of_clears h]

variable [BEq K]

/-- The key was written or deleted. -/
def moves (key : K) (p : Passage K V) : Bool := p.writes key || p.removes key

/-- The key is kept by the table that `p` built, after the operations `since`. -/
inductive Keeps (p : Passage K V) (since : List (Passage K V)) (key : K) : Prop where
  /-- It was copied: the snapshot had it, and it held a value just before the table was built. -/
  | copied (known : (p.before.snapshot.find? key).isSome = true)
      (held : (p.before.view key).isSome = true)
  /-- The snapshot had it, and it has been written since. -/
  | written (known : (p.before.snapshot.find? key).isSome = true) (q : Passage K V)
      (mem : q ∈ p :: since) (writes : q.writes key = true)
  /-- The snapshot lacks it, and of the operations since that wrote or deleted it the last one wrote
  it. -/
  | added (lacks : p.before.snapshot.find? key = none) (q : Passage K V)
      (last : (p :: since).reverse.find? (·.moves key) = some q) (writes : q.writes key = true)

/-- The staged table has become the snapshot, with exactly these keys. -/
structure Publishes (q : Passage K V) (has : K → Prop) : Prop where
  distinct : q.after.snapshot.table.KeysDistinct
  keys : ∀ key, (q.after.snapshot.find? key).isSome = true ↔ has key
  amended : q.after.snapshot.amended = false
  staging : q.after.staging.table = none
  event : ∃ misses reason,
    q.after.log = .promoted q.after.snapshot.table.size misses reason :: q.before.log

/-- No key has come or gone: the tables are the same, or the staged one has become the snapshot. -/
def Idle (q : Passage K V) : Prop :=
  (q.after.snapshot = q.before.snapshot ∧ q.after.staging.table = q.before.staging.table) ∨
    ∃ table, q.before.staging.table = some table ∧ q.after.snapshot = .ofTable table ∧
      q.after.staging.table = none

/-! ## One more operation -/

variable {p : Passage K V} {since : List (Passage K V)} {key : K}

/-- The keys right after the table was built. -/
theorem keeps_nil (hview : p.before.snapshot.find? key = none → p.before.view key = none) :
    p.Keeps [] key ↔ (p.before.view key).isSome = true ∨ p.writes key = true := by
  constructor
  · rintro (⟨-, held⟩ | ⟨-, q, mem, writes⟩ | ⟨-, q, last, writes⟩)
    · exact .inl held
    · exact .inr (List.mem_singleton.1 mem ▸ writes)
    · exact .inr (List.mem_singleton.1 (List.mem_of_find?_eq_some last) ▸ writes)
  · intro h
    cases hsnap : p.before.snapshot.find? key with
    | some c =>
        have hknown : (p.before.snapshot.find? key).isSome = true := by rw [hsnap]; rfl
        exact h.elim (.copied hknown) (.written hknown p List.mem_cons_self)
    | none =>
        have hwrites : p.writes key = true := h.resolve_left (by simp [hview hsnap])
        exact .added hsnap p (by simp [moves, hwrites]) hwrites

/-- The keys after one more operation. -/
theorem keeps_concat (q : Passage K V) : p.Keeps (since ++ [q]) key ↔
    q.writes key = true ∨ p.Keeps since key ∧
      ((p.before.snapshot.find? key).isSome = true ∨ q.removes key = false) := by
  have hlast : (p :: (since ++ [q])).reverse.find? (·.moves key) =
      if q.moves key then some q else (p :: since).reverse.find? (·.moves key) := by
    rw [← List.cons_append, List.reverse_append, List.reverse_singleton, List.singleton_append,
      List.find?_cons]
    cases q.moves key <;> rfl
  have hmem : ∀ r, r ∈ p :: (since ++ [q]) ↔ r ∈ p :: since ∨ r = q := fun r => by
    rw [← List.cons_append, List.mem_append, List.mem_singleton]
  constructor
  · rintro (⟨known, held⟩ | ⟨known, r, mem, writes⟩ | ⟨lacks, r, last, writes⟩)
    · exact .inr ⟨.copied known held, .inl known⟩
    · rcases (hmem r).1 mem with mem | rfl
      · exact .inr ⟨.written known r mem writes, .inl known⟩
      · exact .inl writes
    · rw [hlast] at last
      split at last
      · exact .inl (Option.some.inj last ▸ writes)
      · next hmoves =>
        rw [moves, Bool.or_eq_true, not_or, Bool.not_eq_true, Bool.not_eq_true] at hmoves
        exact .inr ⟨.added lacks r last writes, .inr hmoves.2⟩
  · rintro (hwrites | ⟨hkeeps, hstays⟩)
    · cases hsnap : p.before.snapshot.find? key with
      | some c => exact .written (by rw [hsnap]; rfl) q ((hmem q).2 (.inr rfl)) hwrites
      | none =>
          have hmoves : q.moves key = true := by rw [moves, hwrites, Bool.true_or]
          exact .added hsnap q (by rw [hlast, if_pos hmoves]) hwrites
    · rcases hkeeps with ⟨known, held⟩ | ⟨known, r, mem, writes⟩ | ⟨lacks, r, last, writes⟩
      · exact .copied known held
      · exact .written known r ((hmem r).2 (.inl mem)) writes
      · have hremoves : q.removes key = false := hstays.resolve_left (by simp [lacks])
        by_cases hwrites : q.writes key = true
        · exact .added lacks q (by rw [hlast, if_pos (by simp [moves, hwrites])]) hwrites
        · exact .added lacks r (by rw [hlast, if_neg (by simp [moves, hwrites, hremoves]), last])
            writes

/-- A key of the snapshot that held no value, and has not been written since, is not kept. -/
theorem not_keeps (hknown : (p.before.snapshot.find? key).isSome = true)
    (hnone : p.before.view key = none) (hunwritten : ∀ q ∈ p :: since, q.writes key = false) :
    ¬p.Keeps since key := by
  rintro (⟨-, held⟩ | ⟨-, q, mem, writes⟩ | ⟨lacks, -⟩)
  · simp [hnone] at held
  · simp [hunwritten q mem] at writes
  · simp [lacks] at hknown

/-! ## What resets, promotions and reads do -/

/-- A snapshot that was promoted or dropped is complete. -/
theorem Rearranged.amended_of_resets (h : p.Rearranged) (hresets : p.resets = true) :
    p.after.snapshot.amended = false := by
  have hclears : p.promotes = false → p.request? = some .clear := fun hpromotes =>
    request?_of_clears (by simpa [resets, hpromotes] using hresets)
  cases h.rearranges with
  | kept snapshot table log clears => simp [resets, promotes_of_log_eq log, clears] at hresets
  | erased key removes lacks snapshot table log =>
      simp [hclears (promotes_of_log_eq log), Request.removes?] at removes
  | staged key c table writes absent before lacks snapshot after log =>
      simp [hclears (promotes_of_log_eq log), Request.writes?] at writes
  | built key c copies expunged writes absent complete lacks distinct live snapshot after log =>
      simp [hclears (promotes_of_log_cons log), Request.writes?] at writes
  | promoted table misses reason due before amended snapshot after log => rw [snapshot]; rfl
  | cleared clears snapshot after log => rw [snapshot]; rfl

/-- After an operation that does not reset it, the snapshot is amended only if it was so before, or
if the operation has built the staged table. -/
theorem Rearranged.amended_after (h : p.Rearranged) (hresets : p.resets = false)
    (ham : p.after.snapshot.amended = true) :
    p.rebuilds = true ∨ p.before.snapshot.amended = true := by
  cases h.rearranges with
  | kept snapshot table log clears => exact .inr (snapshot ▸ ham)
  | erased key removes lacks snapshot table log => exact .inr (snapshot ▸ ham)
  | staged key c table writes absent before lacks snapshot after log =>
      exact .inr (snapshot ▸ ham)
  | built key c copies expunged writes absent complete lacks distinct live snapshot after log =>
      exact .inl (rebuilds_of_log_cons log)
  | promoted table misses reason due before amended snapshot after log => exact .inr amended
  | cleared clears snapshot after log => simp [resets, clears] at hresets

/-- A promotion publishes the staged table. -/
theorem Rearranged.promoted (h : p.Rearranged) (hpromotes : p.promotes = true) :
    ∃ table misses reason, p.before.staging.table = some table ∧
      p.after.snapshot = .ofTable table ∧ p.after.staging.table = none ∧
      p.after.log = .promoted table.size misses reason :: p.before.log := by
  cases h.rearranges with
  | kept snapshot table log clears => simp [promotes_of_log_eq log] at hpromotes
  | erased key removes lacks snapshot table log => simp [promotes_of_log_eq log] at hpromotes
  | staged key c table writes absent before lacks snapshot after log =>
      simp [promotes_of_log_eq log] at hpromotes
  | built key c copies expunged writes absent complete lacks distinct live snapshot after log =>
      simp [promotes_of_log_cons log, Event.isPromotion] at hpromotes
  | promoted table misses reason due before amended snapshot after log =>
      exact ⟨table, misses, reason, before, snapshot, after, log⟩
  | cleared clears snapshot after log =>
      rcases log with log | log
      · simp [promotes_of_log_eq log] at hpromotes
      · simp [promotes_of_log_cons log, Event.isPromotion] at hpromotes

/-- So the keys that were staged are published. -/
theorem Rearranged.publishes (h : p.Rearranged) (hpromotes : p.promotes = true) {has : K → Prop}
    (hstaged : ∀ key, (p.before.staging.find? key).isSome = true ↔ has key) : p.Publishes has := by
  obtain ⟨table, misses, reason, hbefore, hsnapshot, hstaging, hlog⟩ := h.promoted hpromotes
  refine ⟨?_, fun key => ?_, by rw [hsnapshot]; rfl, hstaging, misses, reason, ?_⟩
  · rw [hsnapshot]
    exact h.before.stagedKeys table hbefore
  · rw [← hstaged, hsnapshot, Staging.find?, hbefore]
    rfl
  · rw [hsnapshot]
    exact hlog

/-- A request that leaves its key where it is moves no other key either. -/
theorem Rearranged.idle (h : p.Rearranged) {r : Request K V} (hr : p.request? = some r)
    (hleaves : r.leaves = true) : p.Idle := by
  cases h.rearranges with
  | kept snapshot table log clears => exact .inl ⟨snapshot, table⟩
  | erased key removes lacks snapshot table log =>
      cases r <;> simp_all [Request.leaves, Request.removes?]
  | staged key c table writes absent before lacks snapshot after log =>
      cases r <;> simp_all [Request.leaves, Request.writes?]
  | built key c copies expunged writes absent complete lacks distinct live snapshot after log =>
      cases r <;> simp_all [Request.leaves, Request.writes?]
  | promoted table misses reason due before amended snapshot after log =>
      exact .inr ⟨table, before, snapshot, after⟩
  | cleared clears snapshot after log =>
      cases r <;> simp_all [Request.leaves, request?_of_clears clears]

/-! ## The staged keys of a journal -/

/-- An amended snapshot has been so since a table was built for it. -/
theorem exists_rebuild {journal : List (Passage K V)} {s : Shared K V}
    (hlink : Linked .initial journal s) (hall : ∀ p ∈ journal, p.Rearranged)
    (ham : s.snapshot.amended = true) : ∃ start p since, journal = start ++ p :: since ∧
      p.rebuilds = true ∧ ∀ q ∈ since, q.resets = false := by
  revert ham
  refine hlink.concat_induction hall (fun ham => absurd ham Bool.false_ne_true)
    fun journal p hp ih ham => ?_
  have hresets : p.resets = false := by
    by_contra hresets
    rw [hp.amended_of_resets (by simpa using hresets)] at ham
    exact absurd ham Bool.false_ne_true
  rcases hp.amended_after hresets ham with hrebuilds | ham
  · exact ⟨journal, p, [], rfl, hrebuilds, fun q hq => absurd hq List.not_mem_nil⟩
  · obtain ⟨start, q, since, rfl, hrebuilds, hsince⟩ := ih ham
    refine ⟨start, q, since ++ [p], by simp, hrebuilds, fun r hr => ?_⟩
    rcases List.mem_append.1 hr with hr | hr
    · exact hsince r hr
    · exact List.mem_singleton.1 hr ▸ hresets

variable [EquivBEq K]

/-- What an operation makes of the staged keys that neither builds nor resets the table. -/
theorem Rearranged.staged_after (h : p.Rearranged) (ham : p.before.snapshot.amended = true)
    (hresets : p.resets = false) :
    p.after.snapshot = p.before.snapshot ∧ ∀ key, (p.after.staging.find? key).isSome = true ↔
      p.writes key = true ∨ (p.before.staging.find? key).isSome = true ∧
        ((p.before.snapshot.find? key).isSome = true ∨ p.removes key = false) := by
  cases h.rearranges with
  | kept snapshot table log clears written removed =>
      refine ⟨snapshot, fun key => ?_⟩
      have hsame : p.after.staging.find? key = p.before.staging.find? key := by
        rw [Staging.find?, Staging.find?, table]
      rw [hsame]
      have hwritten : p.writes key = true → (p.before.staging.find? key).isSome = true := by
        simpa only [ham, if_true] using written key
      refine ⟨fun hstaged => .inr ⟨hstaged, ?_⟩, fun h => h.elim hwritten And.left⟩
      by_contra hgone
      rw [not_or, Bool.not_eq_true, Option.isSome_eq_false_iff, Option.isNone_iff_eq_none,
        Bool.not_eq_false] at hgone
      simp [removed key hgone.2 hgone.1] at hstaged
  | erased key removes lacks snapshot table log =>
      refine ⟨snapshot, fun query => ?_⟩
      have hafter : p.after.staging.find? query =
          if key == query then none else p.before.staging.find? query := by
        rw [Staging.find?, table]
        exact Staging.find?_erase p.before.staging key query 0
      rw [hafter, writes_of_removes? removes, removes_eq removes]
      cases hq : key == query with
      | true => simp [← p.before.snapshot.find?_congr hq, lacks]
      | false => simp
  | staged key c table writes absent before lacks snapshot after log =>
      refine ⟨snapshot, fun query => ?_⟩
      have hafter : p.after.staging.find? query =
          if key == query then some c else p.before.staging.find? query := by
        rw [Staging.find?, after, Option.bind_some, Table.find?_insert, Staging.find?, before]
        rfl
      rw [hafter, writes_eq writes, removes_of_writes? writes]
      cases hq : key == query <;> simp
  | built key c copies expunged writes absent complete => simp [ham] at complete
  | promoted table misses reason due before amended snapshot after log =>
      simp [resets, promotes_of_log_cons log, Event.isPromotion] at hresets
  | cleared clears => simp [resets, clears] at hresets

/-- The operation that builds the table copies the keys that hold a value, and adds the one that it
writes. -/
theorem Rearranged.staged_built (h : p.Rearranged) (hrebuilds : p.rebuilds = true) :
    p.before.snapshot.amended = false ∧ p.after.snapshot = p.before.snapshot.markAmended ∧
      ∀ key, (p.after.staging.find? key).isSome = true ↔
        (p.before.view key).isSome = true ∨ p.writes key = true := by
  cases h.rearranges with
  | kept snapshot table log => simp [rebuilds_of_log_eq log] at hrebuilds
  | erased key removes lacks snapshot table log => simp [rebuilds_of_log_eq log] at hrebuilds
  | staged key c table writes absent before lacks snapshot after log =>
      simp [rebuilds_of_log_eq log] at hrebuilds
  | promoted table misses reason due before amended snapshot after log =>
      simp [rebuilds_of_log_cons log, Event.isRebuild] at hrebuilds
  | cleared clears snapshot after log =>
      rcases log with log | log
      · simp [rebuilds_of_log_eq log] at hrebuilds
      · simp [rebuilds_of_log_cons log, Event.isRebuild] at hrebuilds
  | built key c copies expunged writes absent complete lacks distinct live snapshot after log =>
      refine ⟨complete, snapshot, fun query => ?_⟩
      have hafter : p.after.staging.find? query =
          if key == query then some c else copies.find? query := by
        rw [Staging.find?, after, Option.bind_some, Table.find?_insert]
      have hcopied : (copies.find? query).isSome = (p.before.view query).isSome := by
        rw [Table.find?, entry_of_live h.before.keys distinct live]
        cases hview : (p.before.view query).isSome with
        | false => rfl
        | true =>
            cases hsnap : p.before.snapshot.find? query with
            | none => simp [view_of_missing (find?_of_complete hsnap complete)] at hview
            | some d => exact congrArg Option.isSome hsnap
      rw [hafter, writes_eq writes]
      cases hq : key == query <;> simp [hcopied]

/-- While the staged table is neither promoted nor dropped, its keys are those that it keeps. -/
theorem keeps_of_linked {s : Shared K V} (hp : p.Rearranged) (hrebuilds : p.rebuilds = true)
    (hlink : Linked p.after since s)
    (hsince : ∀ q ∈ since, q.Rearranged ∧ q.resets = false) :
    s.snapshot = p.before.snapshot.markAmended ∧
      ∀ key, (s.staging.find? key).isSome = true ↔ p.Keeps since key := by
  obtain ⟨hcomplete, hbuilt, hkeys⟩ := hp.staged_built hrebuilds
  refine hlink.concat_induction hsince ⟨hbuilt, fun key => ?_⟩
    fun since q ⟨hq, hresets⟩ ⟨hsnap, hstaged⟩ => ?_
  · refine (hkeys key).trans (keeps_nil fun hnone => ?_).symm
    exact view_of_missing (find?_of_complete hnone hcomplete)
  · have ham : q.before.snapshot.amended = true := by rw [hsnap]; rfl
    obtain ⟨hsnapshot, hafter⟩ := hq.staged_after ham hresets
    refine ⟨hsnapshot.trans hsnap, fun key => ?_⟩
    rw [hafter, keeps_concat, hstaged, hsnap]
    rfl

end Passage

variable [BEq K] [EquivBEq K] [BEq V]

/-- Requests that read a key, or that replace or delete an expected value, move no key. And between
any two operations of a client, inside its visitors as well: if a table is staged, it was built by
some operation, and has been neither promoted nor dropped since. Its keys are those that it keeps,
and so are those of the snapshot if the next operation promotes it. A key that the snapshot had,
without a value when the table was built, and that was not written since is gone then. -/
theorem Client.follow_staged (order : Enumeration K) (t : ThreadId) (c : Client K V ε α) :
    ∃ x trace s journal,
      (c.program []).run order t .initial = some ((x, trace), s) ∧
      (c.follow order t).run.run (.initial, []) = some (x, s, journal) ∧
      (∀ q ∈ journal, ∀ r, q.request? = some r → r.leaves = true → q.Idle) ∧
      ∀ earlier later, journal = earlier ++ later → ∃ s₁, Linked .initial earlier s₁ ∧
        Linked s₁ later s ∧
        (s₁.staging.table.isSome = true → ∃ start p since, earlier = start ++ p :: since ∧
          p.rebuilds = true ∧ ∀ q ∈ since, q.resets = false) ∧
        ∀ start p since, earlier = start ++ p :: since → p.rebuilds = true →
          (∀ q ∈ since, q.resets = false) →
          s₁.snapshot.table = p.before.snapshot.table ∧
          (∃ table, s₁.staging.table = some table ∧ table.KeysDistinct ∧
            ∀ key, (table.find? key).isSome = true ↔ p.Keeps since key) ∧
          ∀ q rest, later = q :: rest → q.promotes = true → q.Publishes (p.Keeps since) ∧
            ∀ key, (p.before.snapshot.find? key).isSome = true → p.before.view key = none →
              (∀ r ∈ p :: since, r.writes key = false) → q.after.snapshot.find? key = none := by
  obtain ⟨x, trace, s, journal, hrun, hfollow, -, hlink, halone⟩ :=
    c.follow_tracks (Operation.lawful_alone order t) [] .initial [] (Shared.ready_initial t)
  have hall : ∀ p ∈ journal, p.Rearranged := fun p hp => (halone p hp).rearranged
  refine ⟨x, trace, s, journal, hrun, hfollow,
    fun q hq r hr hleaves => (hall q hq).idle hr hleaves, ?_⟩
  rintro earlier later rfl
  obtain ⟨s₁, hearlier, hlater⟩ := hlink.split
  have hall₁ : ∀ p ∈ earlier, p.Rearranged := fun p hp => hall p (List.mem_append_left _ hp)
  have htidy : Tidy .rest s₁ := hearlier.last .initial fun p hp => (hall₁ p hp).after
  refine ⟨s₁, hearlier, hlater, fun hst =>
    Passage.exists_rebuild hearlier hall₁ (htidy.phase.1.trans hst), ?_⟩
  rintro start p since rfl hrebuilds hsince
  obtain ⟨s₂, -, hp, hrest⟩ := hearlier.split
  obtain ⟨hsnap, hkeys⟩ := Passage.keeps_of_linked (hall₁ p (by simp)) hrebuilds hrest
    fun q hq => ⟨hall₁ q (by simp [hq]), hsince q hq⟩
  obtain ⟨table, htable⟩ := Option.isSome_iff_exists.1
    (htidy.phase.1.symm.trans (congrArg Snapshot.amended hsnap))
  have hkeeps : ∀ key, (table.find? key).isSome = true ↔ p.Keeps since key := fun key => by
    rw [← hkeys, Staging.find?, htable, Option.bind_some]
  refine ⟨by rw [hsnap]; rfl, ⟨table, htable, htidy.stagedKeys table htable, hkeeps⟩, ?_⟩
  rintro q rest rfl hpromotes
  obtain ⟨rfl, -⟩ := hlater
  have hpublishes := (hall q (by simp)).publishes hpromotes hkeys
  refine ⟨hpublishes, fun key hknown hnone hunwritten => ?_⟩
  by_contra hfound
  exact Passage.not_keeps hknown hnone hunwritten
    ((hpublishes.keys key).1 (Option.isSome_iff_ne_none.2 hfound))

/-- Two keys are stored and promoted, and deleted afterwards. Then a third one is stored, one of the
first two again, and a fourth one, which is deleted at once. The keys are visited in the end. -/
def Client.turnover : Client Nat Nat Unit Unit :=
  let visitAll (next : Client Nat Nat Unit Unit) : Client Nat Nat Unit Unit :=
    traverse (fun _ _ _ => done (.yield ())) () fun _ => next
  request (.store 1 10) fun _ => request (.store 2 20) fun _ => visitAll <|
    request (.delete 1) fun _ => request (.delete 2) fun _ => request (.store 3 30) fun _ =>
    request (.store 2 21) fun _ => request (.store 4 40) fun _ => request (.delete 4) fun _ =>
    visitAll (done ())

/-- The second promotion publishes the third key, and the one that was stored again. The other one
of the deleted keys is gone. -/
theorem Client.follow_staged_turnover :
    ∃ x trace s start p since q rest,
      (turnover.program []).run .insertion 0 .initial = some ((x, trace), s) ∧
      (turnover.follow .insertion 0).run.run (.initial, []) =
        some (x, s, (start ++ p :: since) ++ q :: rest) ∧
      p.rebuilds = true ∧ (∀ r ∈ since, r.resets = false) ∧ q.promotes = true ∧
      q.Publishes (p.Keeps since) ∧ q.after.snapshot.table.keys = [3, 2] ∧
      (∃ r ∈ start, r.removes 1 = true) ∧ (p.before.snapshot.find? 1).isSome = true ∧
      p.before.view 1 = none ∧ (∀ r ∈ p :: since, r.writes 1 = false) ∧
      q.after.snapshot.find? 1 = none := by
  obtain ⟨x, trace, s, journal, hrun, hfollow, -, hstaged⟩ :=
    Client.follow_staged .insertion 0 turnover
  have hbuilt : ((turnover.follow .insertion 0).run.run (.initial, [])).map (fun r =>
      (((r.2.2.take 11).drop 7).head?.map fun p =>
        (p.rebuilds, (p.before.snapshot.find? 1).isSome, (p.before.view 1).isNone),
        ((r.2.2.take 11).drop 7).all fun q => !q.writes 1,
        ((r.2.2.take 11).drop 7).tail.all fun q => !q.resets,
        ((r.2.2.take 11).take 7).any (·.removes 1))) =
      some (some (true, true, true), true, true, true) := by
    decide +kernel
  have hpublished : ((turnover.follow .insertion 0).run.run (.initial, [])).map (fun r =>
      (r.2.2.drop 11).head?.map fun q => (q.promotes, q.after.snapshot.table.keys)) =
      some (some (true, [3, 2])) := by
    decide +kernel
  simp only [hfollow, Option.map_some, Option.some.injEq, Prod.mk.injEq] at hbuilt hpublished
  obtain ⟨hbuilt, hunwritten, hquiet, hdeleted⟩ := hbuilt
  obtain ⟨p, hp, hbuilt⟩ := Option.map_eq_some_iff.1 hbuilt
  obtain ⟨since, hsince⟩ := List.head?_eq_some_iff.1 hp
  obtain ⟨q, hq, hpublished⟩ := Option.map_eq_some_iff.1 hpublished
  obtain ⟨rest, hrest⟩ := List.head?_eq_some_iff.1 hq
  simp only [Prod.mk.injEq, Option.isNone_iff_eq_none] at hbuilt hpublished
  obtain ⟨hrebuilds, hknown, hnone⟩ := hbuilt
  obtain ⟨hpromotes, hkeys⟩ := hpublished
  simp only [hsince, List.tail_cons, List.all_eq_true, Bool.not_eq_true'] at hunwritten hquiet
  have hearlier : journal.take 11 = (journal.take 11).take 7 ++ p :: since := by
    rw [← hsince, List.take_append_drop]
  have hjournal : journal = ((journal.take 11).take 7 ++ p :: since) ++ q :: rest := by
    rw [← hearlier, ← hrest, List.take_append_drop]
  obtain ⟨s₁, -, -, -, hbetween⟩ := hstaged _ _ hjournal
  obtain ⟨-, -, hnext⟩ := hbetween _ p since rfl hrebuilds hquiet
  obtain ⟨hpublishes, hgone⟩ := hnext q rest rfl hpromotes
  exact ⟨x, trace, s, _, p, since, q, rest, hrun, hfollow.trans (by rw [← hjournal]), hrebuilds,
    hquiet, hpromotes, hpublishes, hkeys, List.any_eq_true.1 hdeleted, hknown, hnone, hunwritten,
    hgone 1 hknown hnone hunwritten⟩

end ConcurrentMap
