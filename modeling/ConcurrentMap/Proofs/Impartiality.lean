import ConcurrentMap.Proofs.Agendas
import ConcurrentMap.Proofs.Reentrance

/-!
# The order in which tables are walked

Nothing is known about the order in which a table is walked but that each entry is met once. It does
not matter, either: two runs of an agenda from one state, with any two orders for all the walks,
tell the same of every step, log the same events and leave the same contents behind, if the
identities that are drawn in them are matched with each other (`Agenda.run_impartial`).

The runs are compared step by step. Requests lead from aligned states to aligned states
(`Request.aligned_solo`). In a traversal the runs visit the same keys in different orders, and the
identities drawn for the visits are matched anew (`Visitor.round_perm`). What either run knew by
then keeps its match, so whatever was decided upon it is the same in both.
-/

namespace ConcurrentMap

variable {K V : Type}

open Shared

/-! ## What is known at a time -/

theorem Shared.Aligned.outline {ρ : Renaming} {s s' : Shared K V} (h : s.Aligned ρ s') :
    s'.outline = s.outline := by
  rw [Shared.outline, Shared.outline, h.amended, Snapshot.size, h.table.size]
  rfl

section Known

variable [BEq K] [BEq V] {order : Enumeration K} {t : ThreadId} {s : Shared K V}

/-- Everything that is held was drawn before. -/
theorem Shared.Ready.below (hs : s.Ready t) {c : CellId} {h : Handle V}
    (hheld : s.held c = some h) : h.Below s.clock := by
  obtain ⟨-, w, made, rfl, hidle⟩ := hs
  have hslot := Slot.handle?_eq_some_iff.1 hheld
  have hgenuine := (hidle.sound.minted c).1
  rwa [hslot] at hgenuine

/-- What a request answers was drawn before, or is drawn by it. -/
theorem Request.below_solo (order : Enumeration K) (hs : s.Ready t) (r : Request K V) :
    (r.solo order s).1.Below (r.solo order s).2.clock ∧ s.clock ≤ (r.solo order s).2.clock := by
  unfold solo
  cases hkey : r.key? with
  | none =>
      refine ⟨fun h hh => by simp [Answer.handle?] at hh, ?_⟩
      show s.clock ≤ s.cleared.clock
      unfold cleared
      split <;> exact Nat.le_refl _
  | some key =>
      have hsettle := r.clock_le_settle order s key (r.effect s.clock (s.view key)).2
      have hdrawn : s.clock ≤ (s.drawn r).clock := by
        unfold drawn
        split
        · exact Nat.le_succ _
        · exact Nat.le_refl _
      refine ⟨fun h hh => ?_, Nat.le_trans hdrawn hsettle⟩
      rcases Request.origin_effect (.inl hh) with hheld | ⟨hvalue, hstamp⟩
      · obtain ⟨c, -, hc⟩ := Option.bind_eq_some_iff.1 hheld
        exact (hs.below hc).mono (Nat.le_trans hdrawn hsettle)
      · refine Nat.lt_of_lt_of_le ?_ hsettle
        rw [← hstamp, drawn, hvalue, Option.isSome_some, if_pos rfl]
        exact Nat.lt_succ_self _

end Known

/-! ## Two runs -/

/-- Aligned states stay aligned if their cells come to hold the same under another renaming. -/
theorem Shared.Aligned.leads {ρ σ : Renaming} {s s' s₁ s₁' : Shared K V}
    {contents contents' : CellId → Option (Handle V)} {n : Nat} (h : s.Aligned ρ s')
    (hleads : s.Leads contents n s₁) (hleads' : s'.Leads contents' n s₁')
    (hcontents : contents' = Option.map (Handle.rename σ) ∘ contents)
    (hfresh : ∀ x, s₁.clock ≤ x → σ x = x) : s₁.Aligned σ s₁' where
  table := by
    rw [hleads.steady.snapshot, hleads'.steady.snapshot]
    exact h.table
  amended := by rw [hleads.steady.snapshot, hleads'.steady.snapshot, h.amended]
  staged := by
    rw [hleads.steady.staging, hleads'.steady.staging]
    exact h.staged
  misses := by rw [hleads.steady.staging, hleads'.steady.staging, h.misses]
  size := by rw [hleads.size, hleads'.size, h.size]
  contents c := by
    show s₁'.held c = (s₁.held c).map _
    rw [hleads.contents, hleads'.contents, hcontents]
    rfl
  tombstones c := by rw [hleads.tombstones, hleads'.tombstones, h.tombstones]
  clock := by rw [hleads.clock, hleads'.clock, h.clock]
  log := by rw [hleads.steady.log, hleads'.steady.log, h.log]
  fresh := hfresh

section Runs

variable [BEq K] [BEq V] [EquivBEq K] {order order' : Enumeration K} {t : ThreadId}
  {ρ : Renaming} {s s' : Shared K V}

/-- Storing values leads from aligned states to aligned states. -/
theorem Map.aligned_extend (order order' : Enumeration K) (pairs : List (K × V))
    (h : s.Aligned ρ s') (hs : s.Ready t) (hs' : s'.Ready t) :
    ∃ s₁ s₁', (Map.extend pairs).run order t s = some ((), s₁) ∧
      (Map.extend pairs).run order' t s' = some ((), s₁') ∧
      s₁.Aligned ρ s₁' ∧ s₁.Ready t ∧ s₁'.Ready t ∧ s.clock ≤ s₁.clock := by
  induction pairs generalizing s s' with
  | nil => exact ⟨s, s', rfl, rfl, h, hs, hs', Nat.le_refl _⟩
  | cons p pairs ih =>
      obtain ⟨key, v⟩ := p
      have haligned := (Request.aligned_solo order order' h hs.tidy hs'.tidy
        (.store key v)).2
      have hclock := (Request.below_solo order hs (.store key v)).2
      have hready := (Request.store key v).ready_solo order hs
      have hready' := (Request.store key v).ready_solo order' hs'
      obtain ⟨s₁, s₁', hrun, hrun', haligned', hs₁, hs₁', hclock'⟩ := ih haligned hready hready'
      refine ⟨s₁, s₁', ?_, ?_, haligned', hs₁, hs₁', Nat.le_trans hclock hclock'⟩
      · rw [Map.extend, Program.run_bind, Map.run_store order t hs.tidy hs.free]
        exact hrun
      · rw [Map.extend, Program.run_bind, Map.run_store order' t hs'.tidy hs'.free]
        exact hrun'

/-- Visits in different orders lead from aligned states to aligned states, under a renaming that
translates what was drawn before as the one at the start did. -/
theorem Visitor.aligned_visits {visit : Visitor K V} (order order' : Enumeration K)
    (hkeeps : ∀ key held, (visit key held).KeepsTo key) (hknows : visit.Knows s.clock)
    (h : s.Aligned ρ s') (hs : s.Ready t) (hs' : s'.Ready t) (ham : s.snapshot.amended = false)
    {entries entries' : List (K × CellId)} (hperm : entries.Perm s.snapshot.table.entries)
    (hperm' : entries'.Perm s'.snapshot.table.entries) :
    ∃ stops s₁ stops' s₁' ρ',
      (visit.visits entries []).run order t s = some (stops, s₁) ∧
      ((visit.rename ρ).visits entries' []).run order' t s' = some (stops', s₁') ∧
      (∀ x < s.clock, ρ' x = ρ x) ∧ stops'.Perm (stops.map (Stop.rename ρ')) ∧
      (∀ stop ∈ stops, stop.Below s₁.clock) ∧ s.clock ≤ s₁.clock ∧
      s₁.Aligned ρ' s₁' ∧ s₁.Ready t ∧ s₁'.Ready t := by
  obtain ⟨s₁, hrun, hs₁, hleads⟩ := run_visits order hkeeps entries [] hs ham
    fun e he => hs.tidy.keys.find?_of_mem (hperm.mem_iff.1 he)
  have hkeeps' : ∀ key held, (visit.rename ρ key held).KeepsTo key := fun key _ =>
    (hkeeps key _).rename ρ
  obtain ⟨s₁', hrun', hs₁', hleads'⟩ := run_visits order' hkeeps' entries' [] hs'
    (h.amended.trans ham)
    fun e he => hs'.tidy.keys.find?_of_mem (hperm'.mem_iff.1 he)
  -- the second run makes the same visits under other names, but in another order
  have hheld' : s'.held = Option.map (Handle.rename ρ) ∘ s.held := funext h.contents
  have hround := visit.round_rename s.outline s.held s.clock s.clock entries' fun i _ =>
    h.fresh _ (Nat.le_add_right _ i)
  rw [h.outline, hheld', h.clock, hround] at hrun' hleads'
  have hcells : (entries.map Prod.snd).Nodup :=
    List.pairwise_map.2 ((hperm.pairwise_iff Ne.symm).2 hs.tidy.cellsDistinct)
  have hbelow : ∀ c held, s.held c = some held → held.Below s.clock := fun _ _ => hs.below
  obtain ⟨τ, hkept, hlate, hstops, hcontents, hdrawn⟩ := visit.round_perm s.outline
    (hperm.trans (h.table.trans hperm'.symm)) hcells hknows hbelow
  refine ⟨_, s₁, _, s₁', τ.trans ρ, hrun, hrun', fun x hx => ?_, ?_, ?_, ?_, ?_, hs₁, hs₁'⟩
  · rw [Equiv.trans_apply, hkept x hx]
  · have hrenamed := hstops.map (Stop.rename ρ)
    rwa [List.map_map, Stop.rename_comp] at hrenamed
  · rw [hleads.clock]
    exact visit.below_round s.outline hbelow entries
  · rw [hleads.clock]
    exact Nat.le_add_right _ _
  · refine h.leads hleads (hdrawn ▸ hleads') ?_ fun x hx => ?_
    · rw [Round.rename, hcontents, ← Function.comp_assoc, Option.map_comp_map, Handle.rename_comp]
    · rw [hleads.clock] at hx
      rw [Equiv.trans_apply, hlate x hx, h.fresh x (Nat.le_trans (Nat.le_add_right _ _) hx)]

/-- From these states on, the two runs of the agenda tell the same and end in aligned states, under
a renaming that goes on from `ρ`. -/
def Agenda.Agrees (order order' : Enumeration K) (t : ThreadId) (ρ : Renaming) (s s' : Shared K V)
    (agenda : Agenda K V) : Prop :=
  ∃ notices s₁ notices' s₁' ρ', agenda.program.run order t s = some (notices, s₁) ∧
    (agenda.rename ρ).program.run order' t s' = some (notices', s₁') ∧
    (∀ x < s.clock, ρ' x = ρ x) ∧ notices' = notices.map (Notice.rename ρ') ∧
    s₁.Aligned ρ' s₁' ∧ s₁.Ready t ∧ s₁'.Ready t

namespace Agenda.Agrees

variable {s₁ s₁' : Shared K V}

omit [EquivBEq K] in
/-- A request that is answered alike, and then the rest. -/
theorem request {r : Request K V} {next : Note V → Agenda K V} {answer : Answer V}
    (hrun : r.program.run order t s = some (answer, s₁))
    (hrun' : r.program.run order' t s' = some (answer.rename ρ, s₁')) (h : s₁.Aligned ρ s₁')
    (hbelow : answer.Below s₁.clock) (hclock : s.clock ≤ s₁.clock)
    (hmore : (next ⟨answer, s₁.outline⟩).Agrees order order' t ρ s₁ s₁') :
    (Agenda.request r next).Agrees order order' t ρ s s' := by
  obtain ⟨rest, s₂, rest', s₂', ρ', hmore, hmore', hagree, hrest, hends⟩ := hmore
  have hnote : (⟨answer.rename ρ, s₁.outline⟩ : Note V) = Note.rename ρ ⟨answer, s₁.outline⟩ := rfl
  refine ⟨.answered ⟨answer, s₁.outline⟩ :: rest, s₂,
    .answered ⟨answer.rename ρ, s₁.outline⟩ :: rest', s₂', ρ', ?_, ?_,
    fun x hx => hagree x (Nat.lt_of_lt_of_le hx hclock), ?_, hends⟩
  · rw [program, Program.run_bind, hrun, Option.bind_some, Program.run_bind, Map.run_outline,
      Option.bind_some, Program.run_bind, hmore]
    rfl
  · rw [rename, program, Program.run_bind, hrun', Option.bind_some, Program.run_bind,
      Map.run_outline, Option.bind_some, Program.run_bind, h.outline, hnote, Note.rename_symm,
      hmore']
    rfl
  · rw [hrest, List.map_cons, Notice.rename, Note.rename, hbelow.rename_eq hagree]

omit [EquivBEq K] in
/-- Values that are stored, and then the rest. -/
theorem extend {pairs : List (K × V)} {next : Outline → Agenda K V}
    (hrun : (Map.extend pairs).run order t s = some ((), s₁))
    (hrun' : (Map.extend pairs).run order' t s' = some ((), s₁')) (h : s₁.Aligned ρ s₁')
    (hclock : s.clock ≤ s₁.clock) (hmore : (next s₁.outline).Agrees order order' t ρ s₁ s₁') :
    (Agenda.extend pairs next).Agrees order order' t ρ s s' := by
  obtain ⟨rest, s₂, rest', s₂', ρ', hmore, hmore', hagree, hrest, hends⟩ := hmore
  refine ⟨.extended s₁.outline :: rest, s₂, .extended s₁.outline :: rest', s₂', ρ', ?_, ?_,
    fun x hx => hagree x (Nat.lt_of_lt_of_le hx hclock), ?_, hends⟩
  · rw [program, Program.run_bind, hrun, Option.bind_some, Program.run_bind, Map.run_outline,
      Option.bind_some, Program.run_bind, hmore]
    rfl
  · rw [rename, program, Program.run_bind, hrun', Option.bind_some, Program.run_bind,
      Map.run_outline, Option.bind_some, Program.run_bind, h.outline, hmore']
    rfl
  · rw [hrest, List.map_cons, Notice.rename]

omit [EquivBEq K] in
/-- Visits that find the same at each key, whatever their order, and then the rest. The visits may
change the renaming. -/
theorem traverse {visit : Visitor K V} {next : Multiset (Stop K V) → Outline → Agenda K V}
    {entries entries' : List (K × CellId)} {stops stops' : List (Stop K V)} {σ : Renaming}
    {start start' : Shared K V} (hknows : (Agenda.traverse visit next).Knows s.clock)
    (hstart : (Map.itinerary : Program K V _).run order t s = some (entries, start))
    (hstart' : (Map.itinerary : Program K V _).run order' t s' = some (entries', start'))
    (hrun : (visit.visits entries []).run order t start = some (stops, s₁))
    (hrun' : ((visit.rename ρ).visits entries' []).run order' t start' = some (stops', s₁'))
    (hkeeps : ∀ x < s.clock, σ x = ρ x) (hstops : stops'.Perm (stops.map (Stop.rename σ)))
    (hbelow : ∀ stop ∈ stops, stop.Below s₁.clock) (hclock : s.clock ≤ s₁.clock)
    (h : s₁.Aligned σ s₁') (hmore : (next stops s₁.outline).Agrees order order' t σ s₁ s₁') :
    (Agenda.traverse visit next).Agrees order order' t ρ s s' := by
  obtain ⟨rest, s₂, rest', s₂', ρ', hmore, hmore', hagree, hrest, hends⟩ := hmore
  have hsame : (stops' : Multiset (Stop K V)) = Multiset.map (Stop.rename σ) stops :=
    Multiset.coe_eq_coe.2 hstops
  refine ⟨.traversed stops s₁.outline :: rest, s₂, .traversed stops' s₁.outline :: rest', s₂', ρ',
    ?_, ?_, fun x hx => ?_, ?_, hends⟩
  · rw [program_traverse, Program.run_bind, hstart, Option.bind_some, Program.run_bind, hrun,
      Option.bind_some, Program.run_bind, Map.run_outline, Option.bind_some, Program.run_bind,
      hmore]
    rfl
  · -- what the second run does next has been decided upon under the names of the beginning
    have hnext : ∀ outline, (next (Multiset.map (Stop.rename ρ.symm) stops') outline).rename ρ =
        (next stops outline).rename σ := fun outline => by
      have hnames := hknows.rename_eq (ρ := ρ) (σ := σ) fun x hx => (hkeeps x hx).symm
      refine (congrFun (congrFun (Agenda.traverse.inj hnames).2 stops') outline).trans ?_
      rw [hsame, Multiset.map_map, Stop.rename_symm_comp, Multiset.map_id]
    rw [rename, program_traverse, Program.run_bind, hstart', Option.bind_some, Program.run_bind,
      hrun', Option.bind_some, Program.run_bind, Map.run_outline, Option.bind_some,
      Program.run_bind, h.outline, hnext, hmore']
    rfl
  · rw [hagree x (Nat.lt_of_lt_of_le hx hclock), hkeeps x hx]
  · have hkept : Multiset.map (Stop.rename σ) stops = Multiset.map (Stop.rename ρ') stops :=
      Multiset.map_congr rfl fun stop hstop =>
        (hbelow stop hstop).rename_eq fun x hx => (hagree x hx).symm
    rw [hrest, hsame, List.map_cons, Notice.rename, hkept]

end Agenda.Agrees

/-- Two runs of an agenda from aligned states agree. -/
theorem Agenda.aligned_run (order order' : Enumeration K) (agenda : Agenda K V)
    (hlocal : agenda.Local) (hknows : agenda.Knows s.clock) (h : s.Aligned ρ s') (hs : s.Ready t)
    (hs' : s'.Ready t) : agenda.Agrees order order' t ρ s s' := by
  induction agenda generalizing ρ s s' with
  | stop => exact ⟨[], s, [], s', ρ, rfl, rfl, fun _ _ => rfl, rfl, h, hs, hs'⟩
  | request r next ih =>
      obtain ⟨hanswer, haligned⟩ := r.aligned_solo order order' h hs.tidy hs'.tidy
      obtain ⟨hbelow, hclock⟩ := r.below_solo order hs
      have hrun' := r.run_solo order' t hs'.tidy hs'.free
      rw [← Prod.mk.eta (p := r.solo order' s'), hanswer] at hrun'
      exact .request (r.run_solo order t hs.tidy hs.free) hrun' haligned hbelow hclock
        (ih _ (hlocal _) (hknows.request hbelow hclock) haligned (r.ready_solo order hs)
          (r.ready_solo order' hs'))
  | extend pairs next ih =>
      obtain ⟨s₁, s₁', hrun, hrun', haligned, hready, hready', hclock⟩ :=
        Map.aligned_extend order order' pairs h hs hs'
      exact .extend hrun hrun' haligned hclock
        (ih _ (hlocal _) ((hknows.extend _).mono hclock) haligned hready hready')
  | traverse visit next ih =>
      obtain ⟨hstart, hready⟩ := Map.run_itinerary_ready order hs
      obtain ⟨hstart', hready'⟩ := Map.run_itinerary_ready order' hs'
      have hclock : s.completed.walked.clock = s.clock := s.clock_completed
      obtain ⟨stops, s₁, stops', s₁', σ, hvisits, hvisits', hagree, hstops, hbelow, hlater,
          haligned, hs₁, hs₁'⟩ :=
        Visitor.aligned_visits order order' hlocal.1 (hclock ▸ hknows.visit) h.completed hready
          hready' s.amended_completed
          (order.perm s.completed.walks s.completed.snapshot.table.entries)
          (order'.perm s'.completed.walks s'.completed.snapshot.table.entries)
      rw [hclock] at hagree hlater
      exact .traverse hknows hstart hstart' hvisits hvisits' hagree hstops hbelow hlater haligned
        (ih stops _ (hlocal.2 _ _) (hknows.traverse hbelow hlater _) haligned hs₁ hs₁')

/-- The order in which tables are walked does not matter. Two runs of an agenda whose visitors keep
to their keys, from a state that clients have left behind, tell the same of every step, log the same
events and leave the same contents behind, up to the names of the identities that are drawn in
them. -/
theorem Agenda.run_impartial {s : Shared K V} (hs : s.Reachable) (order order' : Enumeration K)
    (t : ThreadId) (agenda : Agenda K V) (hlocal : agenda.Local) (hknows : agenda.Knows s.clock) :
    ∃ notices s₁ notices' s₁', ∃ ρ : Renaming,
      agenda.program.run order t s = some (notices, s₁) ∧
      agenda.program.run order' t s = some (notices', s₁') ∧
      (∀ x < s.clock, ρ x = x) ∧ notices' = notices.map (Notice.rename ρ) ∧
      s₁'.log = s₁.log ∧ s₁'.outline = s₁.outline ∧ s₁'.view = s₁.view.rename ρ := by
  obtain ⟨w, rfl, hrest⟩ := hs.exists_atRest
  obtain ⟨made, hidle⟩ := hrest t
  have hready : w.shared.Ready t := ⟨hrest.free, w, made, rfl, hidle⟩
  obtain ⟨notices, s₁, notices', s₁', ρ, hrun, hrun', hkeeps, hnotices, haligned, hs₁, -⟩ :=
    agenda.aligned_run order order' hlocal hknows (.refl _) hready hready
  rw [rename_refl] at hrun'
  exact ⟨notices, s₁, notices', s₁', ρ, hrun, hrun', hkeeps, hnotices, haligned.log,
    haligned.outline, haligned.view hs₁.tidy⟩

end Runs

/-- Tables are walked backwards. -/
def Enumeration.backward : Enumeration K := ⟨fun _ es => es.reverse, fun _ es => es.reverse_perm⟩

/-- Every value is replaced, and then another key is stored, which takes a rebuild. -/
def Agenda.revising : Agenda Nat Nat :=
  .traverse (fun key held => .request (.swap key (held.value + 10)) fun _ => .leave) fun _ _ =>
    .extend [(2, 9)] fun _ => .request (.load 1) fun _ => .stop

/-- The identities are drawn the other way round if the keys are visited the other way round. -/
theorem Agenda.run_impartial_revising : ∃ notices s₁ notices' s₁', ∃ ρ : Renaming,
    revising.program.run .insertion 0 Machine.storingTwo.shared = some (notices, s₁) ∧
    revising.program.run .backward 0 Machine.storingTwo.shared = some (notices', s₁') ∧
    notices' = notices.map (Notice.rename ρ) ∧ s₁'.log = s₁.log ∧
    s₁.view 0 = some ⟨3, 17⟩ ∧ s₁.view 1 = some ⟨4, 18⟩ ∧
    s₁'.view 0 = some ⟨4, 17⟩ ∧ s₁'.view 1 = some ⟨3, 18⟩ ∧ ρ 3 = 4 ∧ ρ 4 = 3 := by
  have hlocal : revising.Local := by
    simp [revising, Local, Stay.KeepsTo, Request.key?]
  obtain ⟨notices, s₁, notices', s₁', ρ, hrun, hrun', -, hnotices, hlog, -, hview⟩ :=
    run_impartial Machine.reachable_storingTwo .insertion .backward 0 revising hlocal fun _ _ => rfl
  have hforward : (revising.program.run .insertion 0 Machine.storingTwo.shared).map
      (fun r => (r.2.view 0, r.2.view 1)) = some (some ⟨3, 17⟩, some ⟨4, 18⟩) := by
    decide +kernel
  have hbackward : (revising.program.run .backward 0 Machine.storingTwo.shared).map
      (fun r => (r.2.view 0, r.2.view 1)) = some (some ⟨4, 17⟩, some ⟨3, 18⟩) := by
    decide +kernel
  rw [hrun] at hforward
  rw [hrun'] at hbackward
  obtain ⟨hzero, hone⟩ := Prod.mk.inj (Option.some.inj hforward)
  obtain ⟨hzero', hone'⟩ := Prod.mk.inj (Option.some.inj hbackward)
  have hmatch : ∀ {key held held'}, s₁.view key = some held → s₁'.view key = some held' →
      held.rename ρ = held' := fun hheld hheld' => by
    rw [hview, Plain.rename, hheld] at hheld'
    exact Option.some.inj hheld'
  exact ⟨notices, s₁, notices', s₁', ρ, hrun, hrun', hnotices, hlog, hzero, hone, hzero', hone',
    congrArg Handle.stamp (hmatch hzero hzero'), congrArg Handle.stamp (hmatch hone hone')⟩

end ConcurrentMap
