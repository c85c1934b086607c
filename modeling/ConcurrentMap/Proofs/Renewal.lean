import ConcurrentMap.Proofs.Mirrors
import ConcurrentMap.Proofs.Reentrance

/-!
# Clearing makes a map as good as new

After `Map.clear` nothing can be found and nothing is staged, whether or not there was anything to
clear. So the state is a new one above itself, and whatever clients do from then on they do as on a
new map, step by step: they get the same answers but for the stamps, and the map changes its
structure and logs the same events at the same times (`Shared.Reachable.clear_renews`).

The order in which a table is walked is anybody's choice. So the orders of the two maps have to
correspond, and for any order of the one map there is a corresponding order of the other one.
-/

namespace ConcurrentMap

variable {K V ε α α' : Type}

/-! ## Orders -/

namespace Enumeration

variable (base : Shared K V)

/-- Where an entry above `base` comes from. -/
def lower (e : K × CellId) : K × CellId := (e.1, e.2 - base.cells.size)

theorem lower_entry (e : K × CellId) : lower base (base.relocation.entry e) = e :=
  Prod.ext rfl (Nat.add_sub_cancel_left _ _)

theorem entry_lower {e : K × CellId} (h : base.cells.size ≤ e.2) :
    base.relocation.entry (lower base e) = e :=
  Prod.ext rfl (Nat.add_sub_cancel' h)

/-- Whatever the order above `base` is, there is such an order in a map of its own. -/
theorem exists_follows (order : Enumeration K) : ∃ order', order.Follows base order' := by
  refine ⟨⟨fun n entries => (order.arrange (base.walks + n)
    (entries.map base.relocation.entry)).map (lower base), fun n entries => ?_⟩, fun n entries => ?_⟩
  · have hperm := (order.perm (base.walks + n) (entries.map base.relocation.entry)).map (lower base)
    simpa [lower_entry, Function.comp_def] using hperm
  · have hback : ∀ e ∈ order.arrange (base.walks + n) (entries.map base.relocation.entry),
        base.relocation.entry (lower base e) = e := by
      intro e he
      obtain ⟨e', -, rfl⟩ := List.mem_map.1 ((order.perm _ _).mem_iff.1 he)
      rw [lower_entry]
    simp only [List.map_map]
    exact (List.map_id _).symm.trans (List.map_congr_left fun e he => (hback e he).symm)

/-- And the other way round. -/
theorem exists_followed (order' : Enumeration K) : ∃ order : Enumeration K,
    order.Follows base order' := by
  -- Entries that are above `base` are put where the other order has them; no others will be asked
  -- for.
  refine ⟨⟨fun n entries =>
    if ∀ e ∈ entries, base.cells.size ≤ e.2 then
      (order'.arrange (n - base.walks) (entries.map (lower base))).map base.relocation.entry
    else
      entries, fun n entries => ?_⟩, fun n entries => ?_⟩
  · split
    · next habove =>
      refine ((order'.perm _ _).map base.relocation.entry).trans (List.Perm.of_eq ?_)
      rw [List.map_map]
      exact (List.map_congr_left fun e he => entry_lower base (habove e he)).trans (List.map_id _)
    · exact .refl entries
  · have habove : ∀ e ∈ entries.map base.relocation.entry, base.cells.size ≤ e.2 := by
      intro e he
      obtain ⟨e', -, rfl⟩ := List.mem_map.1 he
      exact Nat.le_add_right _ _
    simp only [if_pos habove, List.map_map, Nat.add_sub_cancel_left, Function.comp_def,
      lower_entry, List.map_id']

end Enumeration

/-! ## Clearing -/

namespace Shared

/-- Nothing can be found, nothing is staged and no miss is on record. -/
structure Blank (s : Shared K V) : Prop where
  snapshot : s.snapshot = .empty
  staging : s.staging = .empty
  free : s.holder = none

/-- In a blank map no key has a cell. -/
theorem Blank.find?_eq_none [BEq K] {s : Shared K V} (h : s.Blank) (key : K) :
    s.find? key = none := by
  simp [Shared.find?, h.snapshot, h.staging, Staging.empty, Staging.find?]

end Shared

variable {order order' : Enumeration K} {t : ThreadId} {s base : Shared K V}

/-- Clearing leaves nothing behind. A map that shows nothing has nothing to hide, either. -/
theorem Map.run_clear [BEq K] (htidy : Tidy .rest s) (hfree : s.holder = none) :
    ∃ s', (Map.clear : Program K V Unit).run order t s = some ((), s') ∧ s'.Blank ∧
      s'.clock = s.clock ∧
      (s.snapshot.size = 0 → s.snapshot.amended = false → s' = s) := by
  have hends : (Map.clear : Program K V Unit).Ends order t s fun _ s' => s'.Blank ∧
      s'.clock = s.clock ∧ (s.snapshot.size = 0 → s.snapshot.amended = false → s' = s) := by
    refine Program.ends_action rfl ?_
    -- Something can be found or is staged, so everything is dropped under the mutex.
    split
    · next hfilled =>
      refine ends_locked hfree (Program.ends_action rfl ?_)
      simp only [hfilled, if_true]
      refine Program.ends_action rfl (Program.ends_action rfl (Program.ends_action rfl
        (Program.ends_done ⟨⟨rfl, rfl, rfl⟩, rfl, fun hsize ham => ?_⟩)))
      simp [hsize, ham] at hfilled
    -- Nothing can be found or is staged, and the map is left as it is.
    · next hempty =>
      have hsnap : s.snapshot = .empty := Snapshot.eq_empty (by simpa using hempty)
      have ham : s.snapshot.amended = false := by rw [hsnap]; rfl
      exact Program.ends_done ⟨⟨hsnap, htidy.staging_eq_empty ham, hfree⟩, rfl, fun _ _ => rfl⟩
  obtain ⟨x, s', hrun, h⟩ := hends
  exact ⟨s', hrun, h⟩

/-! ## The same structure -/

/-- Both states show the same, but for the stamps, and the second one has logged the same events
after those of `before`. -/
structure Shared.Alike [BEq K] (ρ : Relocation) (before : List Event) (s s' : Shared K V) : Prop where
  size : s'.snapshot.size = s.snapshot.size
  amended : s'.snapshot.amended = s.snapshot.amended
  staged : s'.staging.size = s.staging.size
  misses : s'.staging.misses = s.staging.misses
  log : s'.log = s.log ++ before
  view : ∀ key, s'.view key = (s.view key).map ρ.handle

/-- A state above another one shows the same, and its log comes after that one's. -/
theorem Shared.alike_above [BEq K] (s base : Shared K V) :
    s.Alike base.relocation base.log (s.above base) where
  size := base.relocation.size_table s.snapshot.table
  amended := rfl
  staged := base.relocation.size_staging s.staging
  misses := rfl
  log := rfl
  view key := by
    have hfind : (s.above base).find? key = (s.find? key).map base.relocation.cell := by
      simp only [Shared.find?, above, Relocation.find?_snapshot, Relocation.find?_staging]
      cases s.snapshot.find? key with
      | some c => rfl
      | none =>
          show (if s.snapshot.amended then _ else none) =
            Option.map _ (if s.snapshot.amended then _ else none)
          split <;> rfl
    rw [view, view, hfind]
    cases s.find? key with
    | none => rfl
    | some c =>
        show ((s.above base).slot (base.relocation.cell c)).handle? = _
        rw [slot_above, Relocation.handle?_slot]
        rfl

/-! ## Machines -/

namespace Machine

/-- The second machine goes above `base` as far as the first one has come. -/
structure Above (base : Shared K V) (F : α → α') (m : Machine K V α) (m' : Machine K V α') :
    Prop where
  clock : 0 < m.shared.clock
  shared : m'.shared = m.shared.above base
  size : m'.threads.size = m.threads.size
  threads : ∀ (t : ThreadId) p q, m.threads[t]? = some p → m'.threads[t]? = some q →
    Program.Mirrors base.relocation F p q

variable {F : α → α'} {m : Machine K V α} {m' : Machine K V α'}

/-- Both machines have the same threads. -/
theorem Above.thread (h : m.Above base F m') (t : ThreadId) :
    (m.threads[t]? = none ∧ m'.threads[t]? = none) ∨ ∃ p q, m.threads[t]? = some p ∧
      m'.threads[t]? = some q ∧ Program.Mirrors base.relocation F p q := by
  cases hp : m.threads[t]? with
  | none =>
      refine .inl ⟨rfl, ?_⟩
      rw [Array.getElem?_eq_none_iff, h.size]
      exact Array.getElem?_eq_none_iff.1 hp
  | some p =>
      have hlt : t < m'.threads.size := h.size ▸ (Array.getElem?_eq_some_iff.1 hp).1
      have hq : m'.threads[t]? = some m'.threads[t] := Array.getElem?_eq_getElem hlt
      exact .inr ⟨p, _, rfl, hq, h.threads t p _ hp hq⟩

/-- Corresponding threads take corresponding steps. -/
theorem Above.step [BEq K] (h : m.Above base F m') (hbase : 0 < base.clock)
    (horder : order.Follows base order') (t : ThreadId) :
    (m.step order' t).Above base F (m'.step order t) := by
  unfold Machine.step
  -- Either machine has the thread, or neither does.
  obtain ⟨hp, hq⟩ | ⟨p, q, hp, hq, hmirrors⟩ := h.thread t
  · simpa only [hp, hq] using h
  have hstep := hmirrors.step (t := t) h.clock hbase horder
  simp only [hp, hq, h.shared]
  cases hpstep : p.step order' t m.shared with
  | none =>
      simp only [hpstep] at hstep
      simpa only [hstep] using h
  | some r =>
      simp only [hpstep] at hstep
      obtain ⟨hclock, q', hqstep, hmirrors'⟩ := hstep
      simp only [hqstep]
      refine ⟨Nat.lt_of_lt_of_le h.clock hclock, rfl, by simpa using h.size, ?_⟩
      intro u p₁ q₁ hp₁ hq₁
      rw [Array.getElem?_setIfInBounds] at hp₁ hq₁
      -- The thread that took the step goes on in both machines, and the others are where they were.
      by_cases hu : t = u
      · subst hu
        rw [if_pos rfl, if_pos (Array.getElem?_eq_some_iff.1 hp).1] at hp₁
        rw [if_pos rfl, if_pos (Array.getElem?_eq_some_iff.1 hq).1] at hq₁
        obtain rfl := Option.some.inj hp₁
        obtain rfl := Option.some.inj hq₁
        exact hmirrors'
      · rw [if_neg hu] at hp₁ hq₁
        exact h.threads u p₁ q₁ hp₁ hq₁

/-- However long the schedule, the second machine has come as far as the first one. -/
theorem Above.follow [BEq K] (h : m.Above base F m') (hbase : 0 < base.clock)
    (horder : order.Follows base order') (schedule : List ThreadId) :
    (m.follow order' schedule).Above base F (m'.follow order schedule) := by
  induction schedule generalizing m m' with
  | nil => exact h
  | cons t schedule ih => exact ih (h.step hbase horder t)

/-- The threads that are done have corresponding results. -/
theorem Above.results (h : m.Above base F m') : m'.threads.toList.map Program.result? =
    (m.threads.toList.map Program.result?).map (Option.map F) := by
  refine List.ext_getElem? fun t => ?_
  simp only [List.getElem?_map, Array.getElem?_toList]
  obtain ⟨hp, hq⟩ | ⟨p, q, hp, hq, hmirrors⟩ := h.thread t
  · rw [hp, hq]
    rfl
  · rw [hp, hq]
    cases hmirrors <;> rfl

end Machine

/-! ## As good as new -/

variable [BEq K] [BEq V]

/-- Clients do on the map `s₀` what they do on a new one, where they see the stamps that they would
see on `s₀`, and tables are walked in corresponding orders. -/
structure Shared.Renewed (ρ : Relocation) (order order' : Enumeration K) (s₀ : Shared K V) :
    Prop where
  /-- Whatever a client does, it ends in the same way, and leaves the same behind. -/
  alone : ∀ {ε α : Type} (t : ThreadId) (c : Client K V ε α), ∃ x trace s s',
    ((ρ.client c).program []).run order' t .initial = some ((x, trace), s) ∧
      (c.program []).run order t s₀ = some ((x, ρ.trace trace), s') ∧
        s.Alike ρ s₀.log s'
  /-- Whatever clients do together, the same is true after each step. -/
  together : ∀ {ε α : Type} (clients : List (Client K V ε α)) (schedule : List ThreadId),
    let m := (Machine.ofClients .initial (clients.map ρ.client)).follow order' schedule
    let m' := (Machine.ofClients s₀ clients).follow order schedule
    m.shared.Alike ρ s₀.log m'.shared ∧
      m'.threads.toList.map Program.result? =
        (m.threads.toList.map Program.result?).map (Option.map (Client.ending ρ))

variable [EquivBEq K]

/-- A map without entries is as good as new, if tables are walked in corresponding orders. -/
theorem Shared.Blank.renewed {s₀ : Shared K V} (h : s₀.Blank) (hclock : 0 < s₀.clock)
    (horder : order.Follows s₀ order') : s₀.Renewed s₀.relocation order order' where
  alone t c := by
    obtain ⟨w, hw, hrest⟩ := (Reachable.initial : (initial : Shared K V).Reachable).exists_atRest
    obtain ⟨x, trace, w', hrun, -⟩ := hrest.run order' t (s₀.relocation.client c)
    rw [hw] at hrun
    have hmirrored := (c.mirrors []).run (t := t) (s := initial) Nat.one_pos hclock horder
    rw [hrun, initial_above h.snapshot h.staging h.free] at hmirrored
    exact ⟨x, trace, w'.shared, _, hrun, hmirrored, alike_above _ _⟩
  together clients schedule := by
    have hstart : (Machine.ofClients initial (clients.map s₀.relocation.client)).Above s₀
        (Client.ending s₀.relocation) (Machine.ofClients s₀ clients) := by
      refine ⟨Nat.one_pos, (initial_above h.snapshot h.staging h.free).symm,
        by simp [Machine.ofClients], fun u p q hp hq => ?_⟩
      simp only [Machine.ofClients, List.getElem?_toArray, List.getElem?_map] at hp hq
      cases hc : clients[u]? with
      | none => simp [hc] at hp
      | some c =>
          simp only [hc, Option.map_some, Option.some.injEq] at hp hq
          subst hp hq
          exact c.mirrors []
    have hrun := hstart.follow hclock horder schedule
    exact ⟨hrun.shared ▸ alike_above _ _, hrun.results⟩

/-- Clearing a map that clients have left behind makes it as good as new: no key leads to a cell any
more, let alone to a tombstoned one, nothing is staged, and no miss is on record. The map is left as
it is if its snapshot is empty and nothing amends it, and then it was as good as new before. -/
theorem Shared.Reachable.clear_renews (hs : s.Reachable) (order₀ : Enumeration K) (t : ThreadId) :
    ∃ s₀, (Map.clear : Program K V Unit).run order₀ t s = some ((), s₀) ∧
      s₀.Blank ∧ (∀ key, s₀.find? key = none) ∧
      (s.snapshot.size = 0 → s.snapshot.amended = false → s₀ = s) ∧
      ∃ ρ : Relocation, Function.Injective ρ.stamp ∧
        (∀ order, ∃ order', s₀.Renewed ρ order order') ∧
        ∀ order', ∃ order, s₀.Renewed ρ order order' := by
  obtain ⟨w, rfl, hrest⟩ := hs.exists_atRest
  obtain ⟨s₀, hrun, hblank, hclock, hearly⟩ := Map.run_clear hrest.tidy hrest.free
  have hpos : 0 < s₀.clock := by
    rw [hclock]
    exact Nat.zero_lt_of_lt (hrest.sound.minted 0).1
  refine ⟨s₀, hrun, hblank, hblank.find?_eq_none, hearly, s₀.relocation, stamp_injective hpos,
    fun order => ?_, fun order' => ?_⟩
  · obtain ⟨order', hfollows⟩ := order.exists_follows s₀
    exact ⟨order', hblank.renewed hpos hfollows⟩
  · obtain ⟨order, hfollows⟩ := order'.exists_followed s₀
    exact ⟨order, hblank.renewed hpos hfollows⟩

/-- A map in which a key is staged is cleared. -/
theorem Shared.Reachable.clear_renews_storing : ∃ s₀ : Shared Nat Nat,
    (Map.clear : Program Nat Nat Unit).run .insertion 0 Machine.storing.shared = some ((), s₀) ∧
      s₀.log = [.cleared, .rebuilt 0 0] ∧ s₀.Blank ∧
      ∃ ρ : Relocation, ∃ order' : Enumeration Nat, s₀.Renewed ρ .insertion order' := by
  obtain ⟨s₀, hrun, hblank, -, -, ρ, -, horders, -⟩ :=
    Machine.reachable_storing.clear_renews .insertion 0
  obtain ⟨order', hrenewed⟩ := horders .insertion
  have hlog : ((Map.clear : Program Nat Nat Unit).run .insertion 0 Machine.storing.shared).map
      (fun r => r.2.log) = some [.cleared, .rebuilt 0 0] := by
    decide +kernel
  rw [hrun] at hlog
  exact ⟨s₀, hrun, Option.some.inj hlog, hblank, ρ, order', hrenewed⟩

end ConcurrentMap
