import ConcurrentMap.Proofs.Acquisitions
import ConcurrentMap.Proofs.Reentrance

/-!
# Operations that do without the mutex

An operation that does not acquire the mutex leaves the structure of the map as it is: what it does,
it does to the cell that the snapshot leads its key to (`Passage.Beside`). Since the staged table
leads there as well, its effect is seen through both tables. So operations that do without the mutex
go on doing without it (`Passage.still_of_linked`), however many of them there are.
-/

namespace ConcurrentMap

open Shared

variable {K V ε α : Type}

/-- Everything but the cells, the clock and the number of walks is the same, and the same cells are
tombstoned. -/
structure Shared.Still (s s' : Shared K V) : Prop where
  snapshot : s'.snapshot = s.snapshot
  staging : s'.staging = s.staging
  log : s'.log = s.log
  tombstoned : ∀ c, s'.tombstoned c = s.tombstoned c

namespace Shared.Still

variable {s s' s'' : Shared K V}

theorem refl (s : Shared K V) : s.Still s := ⟨rfl, rfl, rfl, fun _ => rfl⟩

theorem trans (h : s.Still s') (h' : s'.Still s'') : s.Still s'' :=
  ⟨h'.snapshot.trans h.snapshot, h'.staging.trans h.staging, h'.log.trans h.log,
    fun c => (h'.tombstoned c).trans (h.tombstoned c)⟩

/-- Whether an operation acquires the mutex does not depend on anything else. -/
theorem needsMutex [BEq K] (h : s.Still s') (o : Operation K V) :
    o.needsMutex s' = o.needsMutex s := by
  have htombs : s'.tombstoned = s.tombstoned := funext h.tombstoned
  cases o with
  | request r => simp only [Operation.needsMutex, Request.needsMutex, h.snapshot, htombs]
  | depart => simp only [Operation.needsMutex, h.snapshot]
  | reach c => rfl

end Shared.Still

/-- A request for `key` was carried out beside the mutex. Only the cell that the snapshot leads to
was written, and both tables show what the key holds now. -/
structure Passage.Beside [BEq K] [BEq V] (p : Passage K V) (r : Request K V) (key : K) :
    Prop where
  still : p.before.Still p.after
  size : p.after.cells.size = p.before.cells.size
  slots : ∀ c, p.before.snapshot.find? key ≠ some c → p.after.slot c = p.before.slot c
  published : ((p.after.snapshot.find? key).bind fun c => (p.after.slot c).handle?) =
    (r.effect p.before.clock (p.before.view key)).2
  staged : p.after.staging.table.isSome = true →
    ((p.after.staging.find? key).bind fun c => (p.after.slot c).handle?) =
      (r.effect p.before.clock (p.before.view key)).2

/-- A cell is served between values and absence, so one that is tombstoned only with nothing. -/
theorem Shared.tombstoned_serve_of {s : Shared K V} {c : CellId} {held : Option (Handle V)}
    (h : s.tombstoned c = false ∨ held = none) (d : CellId) :
    (s.serve c held).tombstoned d = s.tombstoned d := by
  cases htomb : s.tombstoned c with
  | false => exact tombstoned_serve htomb held d
  | true =>
      have hnone : held = none := h.resolve_left (by simp [htomb])
      rw [hnone, serve_none, handle?_of_tombstoned htomb, Option.isSome_none,
        if_neg Bool.false_ne_true]

namespace Request

variable [BEq K] [BEq V] {order : Enumeration K} {s : Shared K V} {r : Request K V} {key : K}

/-- If the snapshot leads a request to a tombstoned cell and it does without the mutex, the key has
no value afterwards. -/
theorem live_of_fast (hkey : r.key? = some key) (hfast : r.needsMutex s = false) {c : CellId}
    (hsnap : s.snapshot.find? key = some c) :
    s.tombstoned c = false ∨ (r.effect s.clock (s.view key)).2 = none := by
  rw [or_iff_not_imp_left, Bool.not_eq_false]
  intro htomb
  have hview : s.view key = none := by
    rw [view_of_find? (find?_of_snapshot hsnap), handle?_of_tombstoned htomb]
  rw [hview, ← Option.not_isSome_iff_eq_none]
  intro hsome
  simp [needsMutex, hkey, writes?_of_effect hkey hsome, hsnap, htomb] at hfast

/-- If the snapshot leads a request to a cell and it does without the mutex, it serves the cell. -/
theorem settle_of_fast (hkey : r.key? = some key) (hfast : r.needsMutex s = false) {c : CellId}
    (hsnap : s.snapshot.find? key = some c) :
    r.settle order s key (r.effect s.clock (s.view key)).2 =
      (s.drawn r).serve c (r.effect s.clock (s.view key)).2 := by
  rw [settle_of_snapshot hsnap]
  rcases live_of_fast hkey hfast hsnap with hlive | hnone
  · exact rewritten_of_live ((tombstoned_drawn s r c).trans hlive) _
  · rw [hnone, rewritten]

/-- If the snapshot lacks the key, a request that does without the mutex has nothing to do. -/
theorem settle_of_idle (order : Enumeration K) (h : Tidy .rest s) (hkey : r.key? = some key)
    (hfast : r.needsMutex s = false) (hsnap : s.snapshot.find? key = none) :
    s.staging = .empty ∧ (r.effect s.clock (s.view key)).2 = none ∧
      r.settle order s key (r.effect s.clock (s.view key)).2 = s.drawn r := by
  have hnowrite : r.writes? = none := by
    rw [← Option.not_isSome_iff_eq_none]
    intro hwrites
    simp [needsMutex, hkey, hwrites, hsnap] at hfast
  have ham : s.snapshot.amended = false := by
    simpa [needsMutex, hkey, hnowrite, hsnap] using hfast
  have hempty := h.staging_eq_empty ham
  have hstaged : s.staging.find? key = none := by rw [hempty]; rfl
  have hview : s.view key = none := view_of_missing (find?_of_complete hsnap ham)
  have hheld : (r.effect s.clock (s.view key)).2 = none := by
    rw [hview, ← Option.not_isSome_iff_eq_none]
    intro hsome
    simp [writes?_of_effect hkey hsome] at hnowrite
  refine ⟨hempty, hheld, ?_⟩
  rw [hheld, settle_of_missing hsnap hstaged]
  cases hremoves : r.removes? with
  | none => simp [charged, (steady_drawn s r).snapshot, ham]
  | some own =>
      have hsame : s.erased key = s := by
        rw [erased, setStaged, hempty]
        exact congrArg (fun g : Staging K => { s with staging := g }) hempty.symm
      simp [hsame, charged, ham, drawn, value?_of_removes? hremoves]

theorem beside_settle (h : Tidy .rest s) (hkey : r.key? = some key)
    (hfast : r.needsMutex s = false) :
    Passage.Beside ⟨.request r, s,
      r.settle order s key (r.effect s.clock (s.view key)).2⟩ r key := by
  have hdrawn := steady_drawn s r
  have hsize : (s.drawn r).cells.size = s.cells.size := by
    unfold drawn
    split <;> rfl
  cases hsnap : s.snapshot.find? key with
  | none =>
      obtain ⟨hempty, hheld, hsettle⟩ := settle_of_idle order h hkey hfast hsnap
      rw [hsettle]
      refine ⟨⟨hdrawn.snapshot, hdrawn.staging, hdrawn.log, tombstoned_drawn s r⟩, hsize,
        fun c _ => slot_drawn s r c, ?_, fun hst => ?_⟩
      · rw [hheld, hdrawn.snapshot, hsnap]
        rfl
      · rw [hdrawn.staging, hempty] at hst
        exact absurd hst Bool.false_ne_true
  | some c =>
      have hview := view_of_find? (find?_of_snapshot hsnap)
      have hserved := hdrawn.trans (steady_serve (s.drawn r) c (r.effect s.clock (s.view key)).2)
      have hlt : c < (s.drawn r).cells.size := hsize ▸ h.bounded key c hsnap
      have hshown := handle?_serve hlt (r.effect s.clock (s.view key)).2
      rw [settle_of_fast hkey hfast hsnap]
      refine ⟨⟨hserved.snapshot, hserved.staging, hserved.log, fun d => ?_⟩,
        (size_serve _ _ _).trans hsize, fun d hd => ?_, ?_, fun hst => ?_⟩
      · refine Eq.trans ?_ (tombstoned_drawn s r d)
        refine tombstoned_serve_of ((live_of_fast hkey hfast hsnap).imp_left fun hlive => ?_) d
        exact (tombstoned_drawn s r c).trans hlive
      · have hne : c ≠ d := fun heq => hd (heq ▸ hsnap)
        exact (slot_serve_ne hne _).trans (slot_drawn s r d)
      · rw [hserved.snapshot, hsnap]
        exact hshown
      · have hst' : s.staging.table.isSome = true := hserved.staging ▸ hst
        rw [hserved.staging, h.phase.2.2 hst' key c hsnap]
        cases htomb : s.tombstoned c with
        | false => exact hshown
        | true => exact ((live_of_fast hkey hfast hsnap).resolve_left (by simp [htomb])).symm

end Request

namespace Passage

variable [BEq K] [BEq V] {order : Enumeration K} {p : Passage K V}

/-- A request for a key that does without the mutex is carried out beside it. -/
theorem Alone.beside (h : p.Alone order) {r : Request K V} {key : K}
    (hop : p.operation = .request r) (hkey : r.key? = some key)
    (hfast : r.needsMutex p.before = false) : p.Beside r key := by
  obtain ⟨o, s, s'⟩ := p
  obtain rfl : o = .request r := hop
  rw [show s' = _ from h.solo, Operation.solo, Request.solo_of_key hkey]
  exact Request.beside_settle h.before hkey hfast

/-- What does without the mutex leaves the structure as it is. -/
theorem Alone.still (h : p.Alone order) (hfast : p.operation.needsMutex p.before = false) :
    p.before.Still p.after := by
  cases hop : p.operation with
  | request r =>
      rw [hop] at hfast
      cases hkey : r.key? with
      | some key => exact (h.beside hop hkey hfast).still
      | none =>
          obtain rfl := Request.eq_clear_of_key? hkey
          have hblank : ¬(0 < p.before.snapshot.size ∨ p.before.snapshot.amended = true) := by
            simpa [Operation.needsMutex, Request.needsMutex, hkey] using hfast
          have hafter : p.after = p.before := by
            rw [h.solo, hop]
            exact if_neg hblank
          rw [hafter]
          exact .refl _
  | depart =>
      rw [hop] at hfast
      have ham : p.before.snapshot.amended = false := hfast
      have hafter : p.after = p.before.walked := by
        rw [h.solo, hop]
        show p.before.completed.walked = _
        rw [completed, ham, if_neg Bool.false_ne_true]
      rw [hafter]
      exact ⟨rfl, rfl, rfl, fun _ => rfl⟩
  | reach c =>
      have hafter : p.after = p.before := by
        rw [h.solo, hop]
        rfl
      rw [hafter]
      exact .refl _

/-- Operations that can do without the mutex in the beginning do without it, however many there are,
and leave the structure as it is. -/
theorem still_of_linked {stretch : List (Passage K V)} {s s' : Shared K V}
    (hlink : Linked s stretch s') (halone : ∀ p ∈ stretch, p.Alone order)
    (hfast : ∀ p ∈ stretch, p.operation.needsMutex s = false) :
    s.Still s' ∧ ∀ p ∈ stretch, p.operation.needsMutex p.before = false := by
  induction stretch generalizing s with
  | nil => exact ⟨(show s' = s from hlink) ▸ .refl s, fun p hp => absurd hp List.not_mem_nil⟩
  | cons p stretch ih =>
      obtain ⟨rfl, hrest⟩ := hlink
      have hp := hfast p List.mem_cons_self
      have hstill := (halone p List.mem_cons_self).still hp
      obtain ⟨hstill', hfast'⟩ := ih hrest (fun q hq => halone q (List.mem_cons_of_mem p hq))
        fun q hq => (hstill.needsMutex q.operation).trans (hfast q (List.mem_cons_of_mem p hq))
      exact ⟨hstill.trans hstill', fun q hq => (List.mem_cons.1 hq).elim (fun h => h ▸ hp) (hfast' q)⟩

end Passage

/-- Whatever a client does on a map that clients have left behind, inside its visitors as well: each
operation acquires the mutex once, or not at all, as the state before it decides. A request for a
key that does without it changes no more than the cell that the snapshot leads the key to, and its
effect is seen through both tables. And operations that can do without it in the beginning, however
many there are, never acquire it, and leave the snapshot, the staged table, the miss counter and the
log as they are. -/
theorem Client.follow_fast [BEq K] [EquivBEq K] [BEq V] {s : Shared K V} (hs : s.Reachable)
    (order : Enumeration K) (t : ThreadId) (c : Client K V ε α) :
    ∃ x trace s' journal,
      (c.program []).run order t s = some ((x, trace), s') ∧
      (c.follow order t).run.run (s, []) = some (x, s', journal) ∧
      (∀ p ∈ journal, p.operation.program.acquisitions order t p.before =
        (p.operation.needsMutex p.before).toNat) ∧
      (∀ p ∈ journal, ∀ r key, p.operation = .request r → r.key? = some key →
        r.needsMutex p.before = false → p.Beside r key) ∧
      ∀ earlier stretch later, journal = earlier ++ (stretch ++ later) → ∃ s₁ s₂,
        Linked s earlier s₁ ∧ Linked s₁ stretch s₂ ∧ Linked s₂ later s' ∧
        ((∀ p ∈ stretch, p.operation.needsMutex s₁ = false) → s₁.Still s₂ ∧
          ∀ p ∈ stretch, p.operation.program.acquisitions order t p.before = 0) := by
  obtain ⟨x, trace, s', journal, hrun, hfollow, -, hlink, hjournal⟩ :=
    c.follow_tracks (fun o => (o.lawful_alone order t).bracketed) [] s [] (hs.ready t)
  have hcount : ∀ p ∈ journal, p.operation.program.acquisitions order t p.before =
      (p.operation.needsMutex p.before).toNat := fun p hp =>
    p.operation.acquisitions_eq order t (hjournal p hp).2.1.free
  refine ⟨x, trace, s', journal, hrun, hfollow, hcount,
    fun p hp r key hop hkey hfast => (hjournal p hp).1.beside hop hkey hfast, ?_⟩
  rintro earlier stretch later rfl
  obtain ⟨s₁, hearlier, hrest⟩ := hlink.split
  obtain ⟨s₂, hstretch, hlater⟩ := hrest.split
  have hmem : ∀ p ∈ stretch, p ∈ earlier ++ (stretch ++ later) := fun p hp => by simp [hp]
  refine ⟨s₁, s₂, hearlier, hstretch, hlater, fun hfast => ?_⟩
  obtain ⟨hstill, hfast'⟩ :=
    Passage.still_of_linked hstretch (fun p hp => (hjournal p (hmem p hp)).1) hfast
  exact ⟨hstill, fun p hp => by rw [hcount p (hmem p hp), hfast' p hp]; rfl⟩

/-- The keys are visited, a third one is stored, and then the first two are overwritten, read,
deleted and stored again. -/
def Client.overwrites : Client Nat Nat Unit Unit :=
  traverse (fun _ _ _ => done (.yield ())) () fun _ => request (.store 2 9) fun _ =>
    request (.store 0 10) fun _ => request (.load 1) fun _ => request (.delete 1) fun _ =>
    request (.loadOrStore 1 11) fun _ => done ()

/-- The mutex is acquired to visit the keys and to store the third one, but not by what comes then.
The first of those writes is seen through both tables. -/
theorem Client.follow_fast_overwrites :
    ∃ x trace s' earlier p stretch s₂,
      (overwrites.program []).run .insertion 0 Machine.storingTwo.shared =
        some ((x, trace), s') ∧
      (overwrites.follow .insertion 0).run.run (Machine.storingTwo.shared, []) =
        some (x, s', earlier ++ (p :: stretch ++ [])) ∧
      ((earlier ++ (p :: stretch ++ [])).map fun q : Passage Nat Nat =>
        q.operation.program.acquisitions .insertion 0 q.before) = [1, 0, 0, 1, 0, 0, 0, 0] ∧
      (∀ q ∈ p :: stretch, q.operation.needsMutex p.before = false) ∧ p.before.Still s₂ ∧
      Linked p.before (p :: stretch) s₂ ∧ p.before.snapshot.amended = true ∧
      p.Beside (.store 0 10) 0 ∧
      ((p.after.staging.find? 0).bind fun c => (p.after.slot c).handle?).map (·.value) = some 10 := by
  obtain ⟨x, trace, s', journal, hrun, hfollow, -, hbeside, hstill⟩ :=
    Client.follow_fast Machine.reachable_storingTwo .insertion 0 overwrites
  have hcounts : ((overwrites.follow .insertion 0).run.run (Machine.storingTwo.shared, [])).map
      (fun r => r.2.2.map fun q => q.operation.program.acquisitions .insertion 0 q.before) =
      some [1, 0, 0, 1, 0, 0, 0, 0] := by
    decide +kernel
  have hfirst : ((overwrites.follow .insertion 0).run.run (Machine.storingTwo.shared, [])).map
      (fun r => (r.2.2.drop 4).head?.map fun p => (p.request?, p.before.snapshot.amended,
        p.after.staging.table.isSome, (r.2.2.drop 4).all fun q => !q.operation.needsMutex p.before)) =
      some (some (some (.store 0 10), true, true, true)) := by
    decide +kernel
  simp only [hfollow, Option.map_some, Option.some.injEq] at hcounts hfirst
  obtain ⟨p, hp, hfirst⟩ := Option.map_eq_some_iff.1 hfirst
  obtain ⟨stretch, hstretch⟩ := List.head?_eq_some_iff.1 hp
  simp only [Prod.mk.injEq, hstretch, List.all_eq_true, Bool.not_eq_true'] at hfirst
  obtain ⟨hrequest, ham, hst, hfast⟩ := hfirst
  have hjournal : journal = journal.take 4 ++ (p :: stretch ++ []) := by
    rw [List.append_nil, ← hstretch, List.take_append_drop]
  obtain ⟨s₁, s₂, -, hlink, -, hleaves⟩ := hstill _ _ _ hjournal
  obtain rfl : p.before = s₁ := hlink.1
  have hp := hbeside p (by rw [hjournal]; simp) _ 0 (Passage.operation_of_request? hrequest) rfl (by
    have hfast := hfast p List.mem_cons_self
    rwa [Passage.operation_of_request? hrequest] at hfast)
  refine ⟨x, trace, s', journal.take 4, p, stretch, s₂, hrun, hfollow.trans (by rw [← hjournal]),
    by rw [← hjournal]; exact hcounts, hfast, (hleaves hfast).1, hlink, ham, hp, ?_⟩
  rw [hp.staged hst]
  rfl

end ConcurrentMap
