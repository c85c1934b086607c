import ConcurrentMap.Proofs.Consistency
import ConcurrentMap.Proofs.Log
import ConcurrentMap.Proofs.Separation

/-!
# Visitors that use the map and visitors that fail

No operation waits for a mutex that its own thread holds, and none keeps the mutex. So a visitor may
use the map as it likes, in traversals within traversals: the mutex is free whenever it is called
(`Client.run_reentrant`). If it fails, the operations that were completed by then have taken effect
and nothing else has. The journal of the client lists these operations, each with the states before
and after it, and whatever is done next is answered as by the plain map after them.

What one thread adds to the line of the calls is what its trace says (`World.Succeeds.tags_sequel`),
since all calls before have been answered and the others make none.
-/

namespace ConcurrentMap

variable {K V ε α σ : Type} [BEq K] [BEq V]

/-! ## What one thread adds -/

/-- A list in the order of its numbers begins with the small ones. -/
private theorem filter_append_filter {β : Type} {f : β → Nat} {l : List β}
    (h : l.Pairwise fun x y => f x < f y) (n : Nat) :
    (l.filter fun x => f x < n) ++ (l.filter fun x => n ≤ f x) = l := by
  -- By induction on the list: once a number is too large, so are all that follow.
  induction l with
  | nil => rfl
  | cons x l ih =>
      obtain ⟨hx, hl⟩ := List.pairwise_cons.1 h
      by_cases hlt : f x < n
      · simp [hlt, ih hl]
      · have hnone : l.filter (fun y => f y < n) = [] := by
          refine List.filter_eq_nil_iff.2 fun y hy => ?_
          have hxy := hx y hy
          simp only [decide_eq_true_eq]
          omega
        have hall : l.filter (fun y => n ≤ f y) = l := by
          refine List.filter_eq_self.2 fun y hy => ?_
          have hxy := hx y hy
          simp only [decide_eq_true_eq]
          omega
        simp [hlt, Nat.le_of_not_lt hlt, hnone, hall]

/-- The numbers of the elements that were filtered by their number. -/
private theorem mem_map_filter {β : Type} {f : β → Nat} {l : List β} (p : Nat → Prop)
    [DecidablePred p] {n : Nat} : n ∈ (l.filter fun x => p (f x)).map f ↔ n ∈ l.map f ∧ p n := by
  have hmap : (l.filter fun x => p (f x)).map f = (l.map f).filter fun n => p n :=
    (List.filter_map (p := fun n => decide (p n))).symm
  rw [hmap, List.mem_filter, decide_eq_true_eq]

namespace World

variable {w w' : World K V} {t u : ThreadId} {P : Request K V → Prop} {made trace : Trace K V}

/-- From world `w`, in which all calls had been answered, to world `w'` only thread `t` has made
calls. -/
structure Succeeds (t : ThreadId) (w w' : World K V) : Prop where
  settled : w.Settled
  grows : w.Grows w'
  sound : w'.Sound
  others : ∀ u, u ≠ t → w'.tickets u = w.tickets u

namespace Succeeds

/-- The other threads have the calls that they had. -/
theorem callsOf_of_ne (h : w.Succeeds t w') (hu : u ≠ t) : w'.callsOf u = w.callsOf u := by
  rw [callsOf, callsOf, h.others u hu]

/-- The old calls of the thread are those with an old name. -/
theorem mem_callsOf_iff (h : w.Succeeds t w') {id : CallId} :
    id ∈ w'.callsOf t ∧ id < w.chronicle.issued ↔ id ∈ w.callsOf t := by
  constructor
  · rintro ⟨hid, hlt⟩
    obtain ⟨u, hu⟩ := h.settled.sound.docket.lt_issued_iff.1 hlt
    by_cases hut : u = t
    · exact hut ▸ hu
    · have hu' : id ∈ w'.callsOf u := h.callsOf_of_ne hut ▸ hu
      exact absurd (h.sound.docket.thread_eq hu' hid) hut
  · intro hid
    have hlt := h.settled.sound.docket.lt_of_mem_callsOf hid
    refine ⟨?_, hlt⟩
    obtain ⟨u, hu⟩ := h.sound.docket.lt_issued_iff.1 (Nat.lt_of_lt_of_le hlt h.grows.issued)
    by_cases hut : u = t
    · exact hut ▸ hu
    · have hu' : id ∈ w.callsOf u := h.callsOf_of_ne hut ▸ hu
      exact absurd (h.settled.sound.docket.thread_eq hu' hid) hut

/-- The thread remembers its new calls, and they are what has come to its trace. -/
theorem exists_new (h : w.Succeeds t w') (hidle : w.Idle t P made)
    (hidle' : w'.Idle t P (made ++ trace)) :
    ∃ new : List (Deed K V), w'.Remembers new ∧ new.map (fun d => (d.request, d.answer)) = trace ∧
      ∀ id, id ∈ new.map (·.id) ↔ id ∈ w'.callsOf t ∧ w.chronicle.issued ≤ id := by
  obtain ⟨log, hlog, hids, hmade⟩ := hidle.told
  obtain ⟨log', hlog', hids', hmade'⟩ := hidle'.told
  have hordered : log'.Pairwise fun x y => x.id < y.id := hlog'.ordered.imp fun hxy => hxy.1
  have hsplit := filter_append_filter hordered w.chronicle.issued
  generalize hold : log'.filter (fun d => d.id < w.chronicle.issued) = old at hsplit
  generalize hnew : log'.filter (fun d => w.chronicle.issued ≤ d.id) = new at hsplit
  -- there are as many old calls as the thread had made before
  have hsame : old.map (·.id) = log.map (·.id) := by
    refine (List.pairwise_map.2 ?_).eq_of_mem_iff
      (List.pairwise_map.2 (hlog.ordered.imp fun hxy => hxy.1)) fun id => ?_
    · rw [← hold]
      exact hordered.sublist List.filter_sublist
    · rw [hids, ← h.mem_callsOf_iff, ← hids', ← hold]
      exact mem_map_filter (fun id => id < w.chronicle.issued)
  refine ⟨new, ⟨fun d hd => hlog'.made d ?_, fun d hd => hlog'.recorded d ?_, ?_⟩, ?_, fun id => ?_⟩
  · exact List.mem_of_mem_filter (hnew ▸ hd)
  · exact List.mem_of_mem_filter (hnew ▸ hd)
  · rw [← hnew]
    exact hlog'.ordered.sublist List.filter_sublist
  · rw [← hsplit, List.map_append] at hmade'
    have hlength : (old.map fun d => (d.request, d.answer)).length = made.length := by
      have hlen := congrArg List.length hsame
      simpa [← hmade] using hlen
    exact (List.append_inj hmade' hlength).2
  · rw [← hids', ← hnew]
    exact mem_map_filter (fun id => w.chronicle.issued ≤ id)

/-- What comes later in the line is what has come to the trace. -/
theorem map_sequel (h : w.Succeeds t w') (hidle : w.Idle t P made)
    (hidle' : w'.Idle t P (made ++ trace)) :
    ((w.sequel w').map Deed.toCall).map Call.entry = trace := by
  obtain ⟨new, hnew, htrace, hids⟩ := h.exists_new hidle hidle'
  have htags : (w.sequel w').map Deed.tag = new.map Deed.tag := by
    refine h.sound.tags_eq hnew (w.sequel_sublist w') fun id => ?_
    rw [hids]
    -- A call that came later is the thread's own, since the others made none.
    constructor
    · intro hid
      obtain ⟨d, hd, rfl⟩ := List.mem_map.1 hid
      obtain ⟨hline, hlater⟩ := (h.settled.mem_sequel_iff h.grows h.sound).1 hd
      obtain ⟨u, hu⟩ := h.sound.exists_caller hline
      by_cases hut : u = t
      · exact ⟨hut ▸ hu, hlater⟩
      · have hold := h.settled.sound.docket.lt_of_mem_callsOf (h.callsOf_of_ne hut ▸ hu)
        exact absurd hold (Nat.not_lt.2 hlater)
    -- A call that the thread remembers stands in the line, behind the old ones.
    · intro hid
      obtain ⟨d, hd, rfl⟩ := List.mem_map.1 ((hids id).2 hid)
      obtain ⟨e, he, hid'⟩ := h.sound.exists_mem_line hnew hd
      refine List.mem_map.2 ⟨e, ?_, hid'⟩
      exact (h.settled.mem_sequel_iff h.grows h.sound).2 ⟨he, hid' ▸ hid.2⟩
  have hentries := congrArg (List.map Prod.snd) htags
  rw [List.map_map, List.map_map] at hentries
  rw [List.map_map, ← htrace]
  exact hentries

end Succeeds

variable [EquivBEq K]

/-- A client that starts while every thread is between two calls runs to its end, and then every
thread is between two calls again. The client has found the map as the plain map that it was. -/
theorem AtRest.run (h : w.AtRest) (order : Enumeration K) (t : ThreadId) (c : Client K V ε α) :
    ∃ x trace, ∃ w' : World K V,
      (c.program []).run order t w.shared = some ((x, trace), w'.shared) ∧ w'.AtRest ∧
      ∃ calls : List (Call K V), calls.map Call.entry = trace ∧ w.shared.view.Explains calls ∧
        w'.shared.view = w.shared.view.after calls := by
  have hrest := h
  choose made hidle using h
  have hstart : w.Idle t (fun _ => True) (made t ++ []) := by
    rw [List.append_nil]
    exact hidle t
  have hwp : (c.program []).wp order t
      (fun x w' => w'.Idle t (fun _ => True) (made t ++ x.2)) w :=
    Program.wp_client hstart c.only_true
  obtain ⟨⟨x, trace⟩, w', hrun, hw', ⟨-, hg, hidle'⟩, -, hrely⟩ :=
    Program.wp_run (Program.wp_upshot hwp hrest.sound) hrest.sound (.inl hrest.free)
  -- The others took no step, so they are where they were.
  have hsucceeds : w.Succeeds t w' := ⟨hrest.settled, hg, hw', fun u hu => (hrely u hu).ticket⟩
  refine ⟨x, trace, w', hrun, fun u => ?_, (w.sequel w').map Deed.toCall,
    hsucceeds.map_sequel (hidle t) hidle', hrest.settled.explains_sequel hg hw',
    (hrest.settled.after_sequel hg hw').symm⟩
  by_cases hu : u = t
  · subst hu
    exact ⟨_, hidle'⟩
  · exact ⟨made u, (hidle u).rely (hrely u hu) hw'⟩

end World

/-- On a map that clients have left behind every thread is between two operations. -/
theorem Shared.Reachable.ready [EquivBEq K] {s : Shared K V} (h : s.Reachable) (t : ThreadId) :
    s.Ready t := by
  obtain ⟨w, rfl, hrest⟩ := h.exists_atRest
  obtain ⟨made, hidle⟩ := hrest t
  exact ⟨hrest.free, w, made, rfl, hidle⟩

/-! ## The mutex -/

/-- Thread `t` is about to take a mutex that it holds itself, and would wait for ever. -/
def Program.Deadlocked (t : ThreadId) (p : Program K V α) (s : Shared K V) : Prop :=
  s.holder = some t ∧ ∃ next, p = .act .acquire next

/-- No thread waits for itself, and those that are done have let the mutex go. -/
structure Machine.Disciplined (m : Machine K V α) : Prop where
  waiting : ∀ t (p : Program K V α), m.threads[t]? = some p → ¬p.Deadlocked t m.shared
  finished : ∀ t x, m.threads[t]? = some (.done x) → m.shared.holder ≠ some t

/-- A thread that is carried out properly never waits for a mutex of its own. -/
theorem Machine.Backed.disciplined {order : Enumeration K} {m : Machine K V α} {w : World K V}
    (h : m.Backed order w) : m.Disciplined where
  waiting t p hp := by
    rintro ⟨hheld, next, rfl⟩
    exact (h.threads t _ hp w (.refl t w) h.sound).1 rfl (h.shared ▸ hheld)
  finished t x hx := h.shared ▸ h.threads t _ hx

/-- The operation was carried out from beginning to end, from a state in which the mutex is free to
another one. The visitor of a traversal is called in the latter. -/
structure Passage.Whole (order : Enumeration K) (t : ThreadId) (p : Passage K V) : Prop where
  carried : ∃ x, p.operation.program.run order t p.before = some (x, p.after)
  before : p.before.holder = none
  after : p.after.holder = none
  consistent : p.after.Consistent

variable [EquivBEq K]

/-- Between two operations of a thread the mutex is free and the map consistent. -/
theorem Operation.lawful_whole (order : Enumeration K) (t : ThreadId) (o : Operation K V) :
    o.Lawful order t (Shared.Ready t) (Passage.Whole order t) := by
  intro s hs
  have hends : o.program.Ends order t s fun _ s' => s'.Ready t := o.ends_ready hs
  obtain ⟨x, s', hrun, hs'⟩ := hends
  exact ⟨x, s', hrun, hs', ⟨x, hrun⟩, hs.free, hs'.free, hs'.tidy.consistent⟩

/-! ## After a failure -/

/-- Whatever a client does next, and in whichever thread, it is answered as by the plain map `m`. -/
structure Shared.AnswersAs (s : Shared K V) (m : Plain K V) : Prop where
  calls : ∀ {ε α : Type} (order : Enumeration K) (t : ThreadId) (c : Client K V ε α),
    ∃ x trace s', (c.program []).run order t s = some ((x, trace), s') ∧ s'.holder = none ∧
      ∃ calls : List (Call K V), calls.map Call.entry = trace ∧ m.Explains calls ∧
        s'.view = m.after calls
  /-- A traversal shows the pairs of the plain map to a visitor that only reads. -/
  traversals : ∀ {ε σ : Type} (order : Enumeration K) (t : ThreadId)
    (visit : K → Handle V → σ → Client K V ε (ForInStep σ)) (start : σ),
    (∀ key held state, (visit key held state).Only Request.Reads) →
      ∃ visits s', m.Lists visits ∧ s'.view = m ∧
        ((Client.traverse visit start .done).program []).run order t s =
          ((Client.forEach visit visits start).program []).run order t s'

omit [EquivBEq K] in
/-- While every thread is between two calls, the map is at rest. -/
theorem World.AtRest.tidy {w : World K V} (h : w.AtRest) : Tidy .rest w.shared :=
  h.sound.free h.free ▸ h.sound.tidy

/-- A map at rest answers everybody as the plain map that it shows. -/
theorem World.AtRest.answersAs {w : World K V} (h : w.AtRest) :
    w.shared.AnswersAs w.shared.view where
  calls order t c := by
    obtain ⟨x, trace, w', hrun, hrest, hcalls⟩ := h.run order t c
    exact ⟨x, trace, w'.shared, hrun, hrest.free, hcalls⟩
  traversals order t visit start hvisit :=
    Client.run_traverse order t hvisit start [] h.tidy h.free

/-- A client gets to its end or to its failure, operation by operation, whatever its visitors do
with the map: the mutex is free before and after each of them, so whenever a visitor is called, and
in the end. What it leaves is the plain map after the operations that were completed, for everybody
who comes after. Among other clients, no thread ever waits for itself or keeps the mutex, either. -/
theorem Client.run_reentrant {s : Shared K V} (hs : s.Reachable) (order : Enumeration K) :
    (∀ (t : ThreadId) (c : Client K V ε α), ∃ x trace s' journal,
      (c.program []).run order t s = some ((x, trace), s') ∧
      (c.follow order t).run.run (s, []) = some (x, s', journal) ∧
      Linked s journal s' ∧ (∀ p ∈ journal, p.Whole order t) ∧
      s'.holder = none ∧ s'.Consistent ∧
      ∃ calls : List (Call K V), calls.map Call.entry = trace ∧ s.view.Explains calls ∧
        s'.view = s.view.after calls ∧ s'.AnswersAs (s.view.after calls)) ∧
    ∀ (clients : List (Client K V ε α)) (schedule : List ThreadId),
      ((Machine.ofClients s clients).follow order schedule).Disciplined := by
  obtain ⟨w, rfl, hrest⟩ := hs.exists_atRest
  refine ⟨fun t c => ?_, fun clients schedule => ?_⟩
  · obtain ⟨made, hidle⟩ := hrest t
    obtain ⟨x, trace, w', hrun, hrest', calls, hcalls, hexplains, hview⟩ := hrest.run order t c
    obtain ⟨x', trace', s', journal, hrun', hfollow, -, hlink, hwhole⟩ :=
      c.follow_tracks (Operation.lawful_whole order t) [] w.shared [] ⟨hrest.free, w, made, rfl, hidle⟩
    obtain ⟨⟨rfl, rfl⟩, rfl⟩ : (x = x' ∧ trace = trace') ∧ w'.shared = s' := by
      simpa [hrun] using hrun'
    exact ⟨x, trace, w'.shared, journal, hrun, hfollow, hlink, hwhole, hrest'.free,
      hrest'.tidy.consistent, calls, hcalls, hexplains, hview, hview ▸ hrest'.answersAs⟩
  · have hback : (Machine.ofClients w.shared clients).Backed order w :=
      Machine.backed_ofClients (fun c _ => c.only_true) hrest.sound hrest
    obtain ⟨w', hw', -⟩ := hback.follow schedule
    exact hw'.disciplined

/-- What the storing client leaves behind is reachable. -/
theorem Machine.reachable_storing : storing.shared.Reachable := by
  have hstored : storing.Finished [(.ok (), [(.store 0 7, .finished)])] := by
    unfold Machine.Finished
    decide +kernel
  exact .run .initial .insertion _ _ hstored

/-- A client stores 7 under 0 and 8 under 1. -/
def Machine.storingTwo : Machine Nat Nat (Except Unit Unit × Trace Nat Nat) :=
  (ofClients .initial [.extend [(0, 7), (1, 8)] (.done ())]).follow .insertion
    (List.replicate 40 0)

/-- What two stores leave behind is reachable. -/
theorem Machine.reachable_storingTwo : storingTwo.shared.Reachable := by
  have hstored : storingTwo.Finished [(.ok (), .stores [(0, 7), (1, 8)])] := by
    unfold Machine.Finished
    decide +kernel
  exact .run .initial .insertion _ _ hstored

/-- A visitor stores a value and traverses the map again, and the visitor of the inner traversal
deletes a key and fails. -/
def Client.breakDown : Client Nat Nat String Unit :=
  traverse (fun key held () => request (.store (key + 1) held.value) fun _ =>
    traverse (fun key _ () => request (.loadAndDelete key) fun _ => fail "broken") () fun _ =>
      done (.yield ())) () fun _ => done ()

/-- What was done before the failure has been done. -/
theorem Client.run_reentrant_breakDown :
    ∃ s' journal, (breakDown.program []).run .insertion 0 Machine.storing.shared =
        some ((.error "broken",
          [(.store 1 7, .finished), (.loadAndDelete 0, .found (some ⟨1, 7⟩))]), s') ∧
      Linked Machine.storing.shared journal s' ∧ (∀ p ∈ journal, p.Whole .insertion 0) ∧
      s'.holder = none ∧ ∃ calls : List (Call Nat Nat), calls.map Call.entry =
          [(.store 1 7, .finished), (.loadAndDelete 0, .found (some ⟨1, 7⟩))] ∧
        s'.AnswersAs (Machine.storing.shared.view.after calls) := by
  obtain ⟨hruns, -⟩ := Client.run_reentrant Machine.reachable_storing .insertion
  obtain ⟨x, trace, s', journal, hrun, -, hlink, hwhole, hfree, -, calls, hcalls, -, -, hanswers⟩ :=
    hruns 0 breakDown
  -- What the client did is evaluated; the rest is what the theorem says of any client.
  have hfailed : ((breakDown.program []).run .insertion 0 Machine.storing.shared).map (fun r =>
      (match r.1.1 with
        | .ok _ => none
        | .error e => some e, r.1.2)) =
      some (some "broken",
        [(.store 1 7, .finished), (.loadAndDelete 0, .found (some ⟨1, 7⟩))]) := by
    decide +kernel
  rw [hrun] at hfailed
  obtain ⟨hx, rfl⟩ := Prod.mk.inj (Option.some.inj hfailed)
  cases x with
  | ok x => simp at hx
  | error e =>
      obtain rfl := Option.some.inj hx
      exact ⟨s', journal, hrun, hlink, hwhole, hfree, calls, hcalls, hanswers⟩

end ConcurrentMap
