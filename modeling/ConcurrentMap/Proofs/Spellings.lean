import ConcurrentMap.Proofs.Arrivals
import ConcurrentMap.Proofs.Rearranging

/-!
# The spelling in which a key is shown

Equal keys need not be identical. When a key is deleted and stored again, its two tables may have it
in two spellings, the snapshot in the old one and the staged table in the new one. A traversal shows
the spelling of the staged table if there is one, since it promotes that table first
(`Shared.spelling?`).

While a key has a value, whatever else is done to it or to other keys, its spelling stays the same
(`Passage.Rearranged.spelling?_of_held`), and it is one in which the key was written when it had
none (`Passage.exists_origin`). So that is what `Client.follow_spelled` says of all traversals.
-/

namespace ConcurrentMap

open Shared

variable {K V ε α σ : Type}

namespace Shared

variable [BEq K] {s : Shared K V} {key object : K}

/-- The key object under which a traversal that starts now comes to the key. -/
def spelling? (s : Shared K V) (key : K) : Option K := s.completed.snapshot.table.spelling? key

theorem spelling?_eq (s : Shared K V) (key : K) : s.spelling? key =
    if s.snapshot.amended then (s.staging.table.getD .empty).spelling? key
    else s.snapshot.table.spelling? key := by
  rw [spelling?, completed]
  split <;> rfl

/-- The key object is in one of the tables. -/
def Names (s : Shared K V) (object : K) : Prop :=
  object ∈ s.snapshot.table.keys ∨ object ∈ (s.staging.table.getD .empty).keys

theorem names_of_spelling? (h : s.spelling? key = some object) :
    s.Names object ∧ (object == key) = true := by
  rw [spelling?_eq] at h
  split at h
  · obtain ⟨e, he, rfl, hkey⟩ := Table.exists_mem_of_spelling? h
    exact ⟨.inr (List.mem_map.2 ⟨e, he, rfl⟩), hkey⟩
  · obtain ⟨e, he, rfl, hkey⟩ := Table.exists_mem_of_spelling? h
    exact ⟨.inl (List.mem_map.2 ⟨e, he, rfl⟩), hkey⟩

/-- Every key that has a value has a spelling. -/
theorem isSome_spelling? (h : Tidy .rest s) (hheld : (s.view key).isSome = true) :
    (s.spelling? key).isSome = true := by
  obtain ⟨c, hc⟩ := Option.isSome_iff_exists.1 (Option.isSome_of_isSome_bind hheld)
  rw [view_of_find? hc] at hheld
  rw [spelling?_eq]
  by_cases ham : s.snapshot.amended = true
  · obtain ⟨table, htable⟩ := Option.isSome_iff_exists.1 (h.phase.1.symm.trans ham)
    have hstaged : s.staging.find? key = some c := by
      cases hsnap : s.snapshot.find? key with
      | none => rw [← find?_of_staging hsnap ham, hc]
      | some d =>
          obtain rfl : d = c := Option.some.inj ((find?_of_snapshot hsnap).symm.trans hc)
          rw [h.phase.2.2 (h.phase.1.symm.trans ham) key d hsnap, if_neg fun htomb => ?_]
          simp [handle?_of_tombstoned htomb] at hheld
    rw [Staging.find?, htable, Option.bind_some] at hstaged
    rw [if_pos ham, htable, Option.getD_some, Table.isSome_spelling?, hstaged]
    rfl
  · have hsnap : s.snapshot.find? key = some c := by
      cases hsnap : s.snapshot.find? key with
      | none => simp [find?_of_complete hsnap (by simpa using ham)] at hc
      | some d => exact (find?_of_snapshot hsnap).symm.trans hc
    rw [if_neg ham, Table.isSome_spelling?]
    exact congrArg Option.isSome hsnap

end Shared

namespace Table

variable [BEq K] {t : Table K} {key object : K}

theorem mem_keys_insert {c : CellId} (h : object ∈ (t.insert key c).keys) :
    object ∈ t.keys ∨ object = key := by
  rw [keys_insert] at h
  split at h
  · exact .inl h
  · simpa using h

theorem mem_keys_erase (h : object ∈ (t.erase key).keys) : object ∈ t.keys := by
  obtain ⟨e, he, rfl⟩ := List.mem_map.1 h
  exact List.mem_map.2 ⟨e, (List.mem_filter.1 he).1, rfl⟩

end Table

namespace Passage

variable [BEq K] {p : Passage K V} {key object : K}

/-! ## Where spellings come from -/

/-- Whatever key object is in the tables after an operation was there before, or the operation has
written it, and the key had no value. -/
theorem Rearranged.origin (h : p.Rearranged) (hnames : p.after.Names object) :
    p.before.Names object ∨
      p.request?.bind Request.writes? = some object ∧ p.before.view object = none := by
  unfold Names at hnames ⊢
  cases h.rearranges with
  | kept snapshot table log clears =>
      rw [snapshot, table] at hnames
      exact .inl hnames
  | erased other removes lacks snapshot table log =>
      rw [snapshot, table] at hnames
      refine .inl (hnames.imp id fun hmem => ?_)
      cases hbefore : p.before.staging.table with
      | none => rwa [hbefore] at hmem
      | some table =>
          rw [hbefore] at hmem
          exact Table.mem_keys_erase hmem
  | staged other c table writes absent before lacks snapshot after log =>
      rw [snapshot, after] at hnames
      rw [before]
      rcases hnames with hmem | hmem
      · exact .inl (.inl hmem)
      · refine (Table.mem_keys_insert hmem).imp .inr fun hobject => ?_
        rw [hobject]
        exact ⟨writes, absent⟩
  | built other c copies expunged writes absent complete lacks distinct live snapshot after log =>
      rw [snapshot, after] at hnames
      rcases hnames with hmem | hmem
      · exact .inl (.inl hmem)
      · rcases Table.mem_keys_insert hmem with hmem | hobject
        · obtain ⟨e, he, rfl⟩ := List.mem_map.1 hmem
          exact .inl (.inl (List.mem_map.2 ⟨e, ((live e).1 he).1, rfl⟩))
        · rw [hobject]
          exact .inr ⟨writes, absent⟩
  | promoted table misses reason due before amended snapshot after log =>
      rw [snapshot, after] at hnames
      rw [before]
      exact .inl (.inr (hnames.resolve_right List.not_mem_nil))
  | cleared clears snapshot after log =>
      rw [snapshot, after] at hnames
      exact absurd hnames (not_or.2 ⟨List.not_mem_nil, List.not_mem_nil⟩)

/-- Every key object that a journal has led to was written by one of its operations, when its key
had no value. -/
theorem exists_origin {journal : List (Passage K V)} {s : Shared K V}
    (hlink : Linked .initial journal s) (hall : ∀ p ∈ journal, p.Rearranged)
    (hnames : s.Names object) : ∃ p ∈ journal,
      p.request?.bind Request.writes? = some object ∧ p.before.view object = none := by
  revert hnames
  refine hlink.concat_induction hall (fun hnames => ?_) fun journal p hp ih hnames => ?_
  · exact absurd hnames (not_or.2 ⟨List.not_mem_nil, List.not_mem_nil⟩)
  · rcases hp.origin hnames with hnames | horigin
    · obtain ⟨q, hq, horigin⟩ := ih hnames
      exact ⟨q, List.mem_append_left _ hq, horigin⟩
    · exact ⟨p, List.mem_append_right _ List.mem_cons_self, horigin⟩

variable [EquivBEq K]

/-! ## How long they stay -/

/-- A key that has a value before and after an operation keeps its spelling. -/
theorem Rearranged.spelling?_of_held (h : p.Rearranged) (hbefore : (p.before.view key).isSome = true)
    (hafter : (p.after.view key).isSome = true) :
    p.after.spelling? key = p.before.spelling? key := by
  rw [spelling?_eq, spelling?_eq]
  have hother : ∀ {other : K}, p.before.view other = none → (other == key) = false := by
    intro other hnone
    by_contra hsame
    rw [Bool.not_eq_false] at hsame
    rw [view, ← find?_congr p.before hsame] at hbefore
    simp [show (p.before.find? other).bind _ = none from hnone] at hbefore
  cases h.rearranges with
  | kept snapshot table log clears => rw [snapshot, table]
  | erased other removes lacks snapshot table log =>
      have hne : (other == key) = false := by
        by_contra hsame
        rw [Bool.not_eq_false] at hsame
        have hgone : p.after.staging.find? key = none := by
          rw [Staging.find?, table]
          exact (Staging.find?_erase p.before.staging other key 0).trans (if_pos hsame)
        have hlacks : p.after.snapshot.find? key = none := by
          rw [snapshot, ← p.before.snapshot.find?_congr hsame, lacks]
        rw [view_of_missing (by simp [find?, hlacks, hgone])] at hafter
        exact absurd hafter Bool.false_ne_true
      rw [snapshot, table]
      cases hstaged : p.before.staging.table with
      | none => rfl
      | some table =>
          simp only [Option.map_some, Option.getD_some, Table.spelling?_erase, hne,
            Bool.false_eq_true, if_false]
  | staged other c table writes absent before lacks snapshot after log =>
      rw [snapshot, after, before, Option.getD_some, Option.getD_some,
        Table.spelling?_insert_of_new lacks, hother absent, if_neg Bool.false_ne_true]
  | built other c copies expunged writes absent complete lacks distinct live snapshot after log =>
      have hentry := entry_of_live h.before.keys distinct live
      have hnew : copies.find? other = none := by
        rw [Table.find?, hentry, absent]
        rfl
      rw [snapshot, after, complete, Option.getD_some, Table.spelling?_insert_of_new hnew,
        hother absent, Table.spelling?, hentry, if_pos hbefore]
      rfl
  | promoted table misses reason due before amended snapshot after log =>
      rw [snapshot, amended, before]
      rfl
  | cleared clears snapshot after log =>
      rw [view_of_missing (find?_of_complete (by rw [snapshot]; rfl) (by rw [snapshot]; rfl))]
        at hafter
      exact absurd hafter Bool.false_ne_true

/-- A key that has a value all the time keeps its spelling. -/
theorem spelling?_of_linked {period : List (Passage K V)} {s s' : Shared K V}
    (hlink : Linked s period s') (hall : ∀ p ∈ period, p.Rearranged)
    (hheld : (s.view key).isSome = true)
    (hperiod : ∀ p ∈ period, (p.after.view key).isSome = true) :
    s'.spelling? key = s.spelling? key := by
  induction period generalizing s with
  | nil => rw [show s' = s from hlink]
  | cons p period ih =>
      obtain ⟨rfl, hrest⟩ := hlink
      have hafter := hperiod p List.mem_cons_self
      exact (ih hrest (fun q hq => hall q (List.mem_cons_of_mem p hq)) hafter
        fun q hq => hperiod q (List.mem_cons_of_mem p hq)).trans
        ((hall p List.mem_cons_self).spelling?_of_held hheld hafter)

end Passage

/-! ## Traversals -/

section Traverse

variable [BEq K] [EquivBEq K] {key object : K}

/-- However the entries of a table are arranged, one of them at most has the key: the one that is
found under it. -/
theorem Table.KeysDistinct.filter_entries {t : Table K} (h : t.KeysDistinct)
    {entries : List (K × CellId)} (hperm : entries.Perm t.entries) (key : K) :
    entries.filter (·.1 == key) = (t.entries.find? (·.1 == key)).toList := by
  have hfilter := hperm.filter (·.1 == key)
  cases he : t.entries.find? (·.1 == key) with
  | none =>
      have hnone : t.entries.filter (·.1 == key) = [] :=
        List.filter_eq_nil_iff.2 (List.find?_eq_none.1 he)
      rw [hnone] at hfilter
      exact hfilter.eq_nil
  | some e =>
      obtain ⟨hmem, hkey⟩ := h.entry_eq_some_iff.1 he
      have hone : (entries.filter (·.1 == key)).length = 1 := by
        rw [hfilter.length_eq, ← List.countP_eq_length_filter]
        exact h.countP_key (List.any_eq_true.2 ⟨e, hmem, hkey⟩)
      obtain ⟨d, hd⟩ := List.length_eq_one_iff.1 hone
      have hin : e ∈ entries.filter (·.1 == key) :=
        List.mem_filter.2 ⟨hperm.mem_iff.2 hmem, hkey⟩
      rw [hd] at hin ⊢
      rw [List.mem_singleton.1 hin]
      rfl

/-- So the key is there once at most, in the spelling that the table has it. -/
theorem Table.KeysDistinct.filter_keys {t : Table K} (h : t.KeysDistinct)
    {entries : List (K × CellId)} (hperm : entries.Perm t.entries) (key : K) :
    (entries.map Prod.fst).filter (· == key) = (t.spelling? key).toList := by
  rw [List.filter_map, spelling?]
  refine (congrArg (List.map Prod.fst) (h.filter_entries hperm key)).trans ?_
  cases t.entries.find? (·.1 == key) <;> rfl

variable [BEq V] {order : Enumeration K} {t : ThreadId}

/-- A key that has a value all the time is visited, in the spelling of its entry, if the traversal
always goes on. -/
theorem Attended.visited_of_held {entries : List (K × CellId)} {s s' : Shared K V}
    {arrivals : List (Arrival K V)} (h : Attended order t entries s arrivals s')
    (hentries : ∀ e ∈ entries, (e.1 == key) = true → s.snapshot.find? key = some e.2)
    (honward : ∀ a ∈ arrivals, a.onward = true) (hheld : (s.view key).isSome = true)
    (hall : ∀ p ∈ Arrival.stays arrivals, (p.after.view key).isSome = true) :
    ((Arrival.visited arrivals).map (·.key)).filter (· == key) =
      (entries.map Prod.fst).filter (· == key) := by
  have hvisited := h.isSome_of_held hentries hheld hall
  rw [← h.keys_of_onward honward, List.filter_map, List.filter_map, Arrival.visited,
    List.filter_filter]
  refine congrArg _ (List.filter_congr fun a ha => ?_)
  cases hkey : a.key == key with
  | false => simp [hkey]
  | true => simp [hkey, hvisited a ha hkey]

/-- A traversal that starts in this state comes to `key` as `object`, whatever its visitor is and
does. If it always goes on, and the key has a value all the time, it visits the key once. -/
def Shared.ShowsAs (ε : Type) (order : Enumeration K) (t : ThreadId) (s : Shared K V)
    (key object : K) : Prop :=
  ∀ (σ : Type) (visit : K → Handle V → σ → Client K V ε (ForInStep σ)) (start : σ),
    ∃ entries s₁ arrivals x trace s',
      Map.itinerary.run order t s = some (entries, s₁) ∧
      Client.attend order t visit entries start s₁ = some (arrivals, x, s') ∧
      ((Client.traverse visit start .done).program []).run order t s = some ((x, trace), s') ∧
      (∀ a ∈ arrivals, (a.key == key) = true → a.key = object) ∧
      ((∀ a ∈ arrivals, a.onward = true) → (s.view key).isSome = true →
        (∀ p ∈ Arrival.stays arrivals, (p.after.view key).isSome = true) →
        ((Arrival.visited arrivals).map (·.key)).filter (· == key) = [object])

/-- Traversals show the spelling that the key has when they start. -/
theorem Shared.Ready.showsAs {s : Shared K V} (hs : s.Ready t)
    (hspelling : s.spelling? key = some object) : s.ShowsAs ε order t key object := by
  intro σ visit start
  obtain ⟨entries, arrivals, x, trace, s', hrun, hattend, hprogram, hattended, -, htidy, hcomplete,
    hview, hperm⟩ := Client.exists_attended_of_ready order hs visit start
  have hfilter : (entries.map Prod.fst).filter (· == key) = [object] :=
    (htidy.keys.filter_keys hperm key).trans (congrArg Option.toList hspelling)
  refine ⟨entries, _, arrivals, x, trace, s', hrun, hattend, hprogram, fun a ha hkey => ?_, ?_⟩
  · have hmem : a.key ∈ (entries.map Prod.fst).filter (· == key) :=
      List.mem_filter.2 ⟨hattended.keys.subset (List.mem_map.2 ⟨a, ha, rfl⟩), hkey⟩
    exact List.mem_singleton.1 (hfilter ▸ hmem)
  · intro honward hheld hall
    have hentries : ∀ e ∈ entries, (e.1 == key) = true →
        s.completed.walked.snapshot.find? key = some e.2 := fun e he hkey =>
      htidy.keys.find?_of_perm hperm he hkey
    rw [hattended.visited_of_held hentries honward (hview ▸ hheld) hall, hfilter]

end Traverse

/-- While a key has a value, all traversals show it as the same key object, whatever else is done to
it or to other keys, inside their visitors as well. That object was written before, when the key had
no value. -/
theorem Client.follow_spelled [BEq K] [EquivBEq K] [BEq V] (order : Enumeration K) (t : ThreadId)
    (c : Client K V ε α) :
    ∃ x trace s journal,
      (c.program []).run order t .initial = some ((x, trace), s) ∧
      (c.follow order t).run.run (.initial, []) = some (x, s, journal) ∧
      ∀ earlier period later, journal = earlier ++ (period ++ later) →
        ∃ s₁, Linked .initial earlier s₁ ∧ Linked s₁ (period ++ later) s ∧
          ∀ key, (s₁.view key).isSome = true →
            (∀ p ∈ period, (p.after.view key).isSome = true) →
            ∃ object, (object == key) = true ∧
              (∃ p ∈ earlier, p.request?.bind Request.writes? = some object ∧
                p.before.view object = none) ∧
              ∀ stretch rest, period = stretch ++ rest → ∃ s₂, Linked s₁ stretch s₂ ∧
                Linked s₂ (rest ++ later) s ∧ s₂.ShowsAs ε order t key object := by
  obtain ⟨x, trace, s, journal, hrun, hfollow, -, hlink, hjournal⟩ := c.follow_tracks
    (fun o => (o.lawful_alone order t).bracketed) [] .initial [] (Shared.ready_initial t)
  refine ⟨x, trace, s, journal, hrun, hfollow, ?_⟩
  rintro earlier period later rfl
  obtain ⟨s₁, hearlier, hlater⟩ := hlink.split
  have hmem : ∀ p ∈ earlier, p ∈ earlier ++ (period ++ later) := fun p hp =>
    List.mem_append_left _ hp
  have hs₁ : s₁.Ready t :=
    hearlier.last (Shared.ready_initial t) fun p hp => (hjournal p (hmem p hp)).2.2
  refine ⟨s₁, hearlier, hlater, fun key hheld hperiod => ?_⟩
  obtain ⟨object, hobject⟩ := Option.isSome_iff_exists.1 (Shared.isSome_spelling? hs₁.tidy hheld)
  obtain ⟨hnames, hsame⟩ := Shared.names_of_spelling? hobject
  refine ⟨object, hsame, Passage.exists_origin hearlier
    (fun p hp => (hjournal p (hmem p hp)).1.rearranged) hnames, ?_⟩
  rintro stretch rest rfl
  obtain ⟨s₂, hstretch, hrest⟩ := (List.append_assoc stretch rest later ▸ hlater).split
  have hmem' : ∀ p ∈ stretch, p ∈ earlier ++ (stretch ++ rest ++ later) := fun p hp => by simp [hp]
  have hs₂ : s₂.Ready t := hstretch.last hs₁ fun p hp => (hjournal p (hmem' p hp)).2.2
  have hkept := Passage.spelling?_of_linked hstretch
    (fun p hp => (hjournal p (hmem' p hp)).1.rearranged) hheld
    fun p hp => hperiod p (List.mem_append_left _ hp)
  exact ⟨s₂, hstretch, hrest, hs₂.showsAs (hkept.trans hobject)⟩

/-- A number, in one of several spellings. -/
structure Numeral where
  number : Nat
  spelling : Nat
  deriving DecidableEq

namespace Numeral

/-- Numerals are equal if they stand for the same number. -/
instance : BEq Numeral := ⟨fun a b => a.number == b.number⟩

instance : EquivBEq Numeral where
  rfl := beq_self_eq_true (α := Nat) _
  symm h := BEq.symm (α := Nat) h
  trans h k := PartialEquivBEq.trans (α := Nat) h k

end Numeral

/-- A key is stored, promoted and deleted, tombstoned when another one comes, stored again in a
second spelling, and overwritten in a third one. -/
def Client.respelled : Client Numeral Nat Unit Unit :=
  request (.store ⟨0, 0⟩ 1) fun _ => traverse (fun _ _ _ => done (.yield ())) () fun _ =>
    request (.delete ⟨0, 1⟩) fun _ => request (.store ⟨1, 0⟩ 2) fun _ =>
    request (.store ⟨0, 1⟩ 3) fun _ => request (.swap ⟨0, 2⟩ 4) fun _ =>
    request (.store ⟨2, 0⟩ 5) fun _ => done ()

/-- It is shown in the second spelling, from the moment at which it was stored again. -/
theorem Client.follow_spelled_respelled :
    ∃ x trace s earlier period s₁,
      (respelled.program []).run .insertion 0 .initial = some ((x, trace), s) ∧
      (respelled.follow .insertion 0).run.run (.initial, []) =
        some (x, s, earlier ++ (period ++ [])) ∧
      (period.map fun p => p.request?.bind Request.writes?) = [some ⟨0, 2⟩, some ⟨2, 0⟩] ∧
      Linked .initial earlier s₁ ∧ (s₁.view ⟨0, 2⟩).isSome = true ∧
      (∀ p ∈ period, (p.after.view ⟨0, 2⟩).isSome = true) ∧
      (∃ p ∈ earlier, p.request?.bind Request.writes? = some ⟨0, 1⟩ ∧
        p.before.view ⟨0, 1⟩ = none) ∧
      s₁.ShowsAs Unit .insertion 0 ⟨0, 2⟩ ⟨0, 1⟩ ∧ s.ShowsAs Unit .insertion 0 ⟨0, 2⟩ ⟨0, 1⟩ := by
  obtain ⟨x, trace, s, journal, hrun, hfollow, hspelled⟩ := follow_spelled .insertion 0 respelled
  have hperiod : ((respelled.follow .insertion 0).run.run (.initial, [])).map (fun r =>
      ((r.2.2.drop 6).map fun p => p.request?.bind Request.writes?,
        (r.2.2.drop 6).all fun p => (p.after.view ⟨0, 2⟩).isSome,
        (r.2.2.drop 6).head?.map fun p => (p.before.view ⟨0, 2⟩).isSome)) =
      some ([some ⟨0, 2⟩, some ⟨2, 0⟩], true, some true) := by
    decide +kernel
  have hshown : ((respelled.follow .insertion 0).run.run (.initial, [])).bind (fun r =>
      (Map.itinerary.run .insertion 0 r.2.1).bind fun y =>
        (attend .insertion 0 (fun _ _ () => (done (.yield ()) : Client Numeral Nat Unit _)) y.1 ()
          y.2).map fun z => z.1.map (·.key)) = some [⟨1, 0⟩, ⟨0, 1⟩, ⟨2, 0⟩] := by
    decide +kernel
  simp only [hfollow, Option.map_some, Option.bind_some, Option.some.injEq, Prod.mk.injEq,
    List.all_eq_true] at hperiod hshown
  obtain ⟨hwrites, hheld, hfirst⟩ := hperiod
  have hjournal : journal = journal.take 6 ++ (journal.drop 6 ++ []) := by
    rw [List.append_nil, List.take_append_drop]
  obtain ⟨s₁, hearlier, hlater, hkey⟩ := hspelled _ _ _ hjournal
  have hview : (s₁.view ⟨0, 2⟩).isSome = true := by
    obtain ⟨p, hp, hview⟩ := Option.map_eq_some_iff.1 hfirst
    obtain ⟨rest, hrest⟩ := List.head?_eq_some_iff.1 hp
    rw [hrest] at hlater
    rwa [← hlater.1]
  obtain ⟨object, -, horigin, hshows⟩ := hkey ⟨0, 2⟩ hview hheld
  obtain ⟨s₂, hs₂, -, hfirst⟩ := hshows [] _ rfl
  obtain rfl : s₂ = s₁ := hs₂
  obtain ⟨s₃, -, hs₃, hlast⟩ := hshows _ [] (List.append_nil _).symm
  obtain rfl : s = s₃ := hs₃
  -- the traversal in the end tells which of the spellings it is
  obtain ⟨entries, s', arrivals, y, trace', s'', hdepart, hattend, -, hobject, -⟩ :=
    hlast Unit (fun _ _ () => done (.yield ())) ()
  rw [hdepart, Option.bind_some, hattend] at hshown
  have hkeys : arrivals.map (·.key) = [⟨1, 0⟩, ⟨0, 1⟩, ⟨2, 0⟩] := Option.some.inj hshown
  obtain ⟨a, ha, hakey⟩ : ∃ a ∈ arrivals, a.key = ⟨0, 1⟩ :=
    List.mem_map.1 (by simp [hkeys])
  obtain rfl : (⟨0, 1⟩ : Numeral) = object := hakey ▸ hobject a ha (by rw [hakey]; rfl)
  exact ⟨x, trace, s, _, _, _, hrun, hfollow.trans (by rw [← hjournal]), hwrites, hearlier, hview,
    hheld, horigin, hfirst, hlast⟩

end ConcurrentMap
