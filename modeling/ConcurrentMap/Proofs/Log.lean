import ConcurrentMap.Proofs.Journal
import ConcurrentMap.Proofs.Reshaping

/-!
# The log tells the visible structure

What a map shows of its structure is the size of the snapshot and whether it is amended.
`Event.replay` follows both through the events of a log, and knows nothing else.
`Client.follow_logged` says that it is right after every operation of a thread that has the map for
itself, and what each event says of the circumstances in which it was logged.
-/

namespace ConcurrentMap

variable {K V ε α : Type}

/-! ## Reading a log -/

/-- What an event makes of the size of the snapshot and of the flag. -/
def Event.replay : Event → Nat × Bool → Nat × Bool
  | .rebuilt _ _, (size, _) => (size, true)
  | .promoted entries _ _, _ => (entries, false)
  | .cleared, _ => (0, false)

/-- The size of the snapshot and the flag after the events of a log, the newest event first. -/
def Event.replayAll (log : List Event) : Nat × Bool := log.foldr Event.replay (0, false)

theorem Event.replayAll_cons (e : Event) (log : List Event) :
    replayAll (e :: log) = e.replay (replayAll log) := rfl

/-- The log tells the size of the snapshot and whether it is amended. -/
def Shared.Told (s : Shared K V) : Prop :=
  Event.replayAll s.log = (s.snapshot.size, s.snapshot.amended)

variable [BEq K]

/-- The event is one that the state before the operation calls for. -/
def Event.Fits (s : Shared K V) : Event → Prop
  | .rebuilt copied expunged => s.snapshot.amended = false ∧ copied + expunged = s.snapshot.size ∧
      ∃ pairs, s.view.Lists pairs ∧ pairs.length = copied
  | .promoted entries misses reason => s.snapshot.amended = true ∧
      (reason = .misses → max 1 entries ≤ misses)
  | .cleared => 0 < s.snapshot.size ∨ s.snapshot.amended = true

/-- The operation was carried out, it has logged one event at most, and the log was right before it
and is right after it. -/
structure Passage.Logged [BEq V] (order : Enumeration K) (t : ThreadId) (p : Passage K V) :
    Prop where
  carried : ∃ x, p.operation.program.run order t p.before = some (x, p.after)
  before : p.before.Told
  after : p.after.Told
  event : p.after.log = p.before.log ∨ ∃ e, p.after.log = e :: p.before.log ∧ e.Fits p.before

/-- A change of the structure is told by the event that is logged. -/
theorem Shared.Reshapes.told {s s' : Shared K V} (h : s.Reshapes s') (hs : s.Told) :
    s'.Told ∧ (s'.log = s.log ∨ ∃ e, s'.log = e :: s.log ∧ e.Fits s) := by
  unfold Told at hs ⊢
  cases h with
  | kept snapshot log => exact ⟨by rw [log, snapshot, hs], .inl log⟩
  | rebuilt copied expunged complete size live snapshot log =>
      refine ⟨?_, .inr ⟨_, log, complete, size, live⟩⟩
      rw [log, snapshot, Event.replayAll_cons, hs]
      rfl
  | promoted table misses reason amended paid snapshot log =>
      refine ⟨?_, .inr ⟨_, log, amended, paid⟩⟩
      rw [log, snapshot]
      rfl
  | cleared filled snapshot log =>
      refine ⟨?_, .inr ⟨_, log, filled⟩⟩
      rw [log, snapshot]
      rfl

/-! ## Between two operations -/

variable [BEq V]

/-- Thread `t` is between two operations, and so far everybody has kept the rules. -/
structure Shared.Ready (t : ThreadId) (s : Shared K V) : Prop where
  free : s.holder = none
  backed : ∃ (w : World K V) (made : Trace K V), w.shared = s ∧ w.Idle t (fun _ => True) made

/-- On a new map every thread is between two operations. -/
theorem Shared.ready_initial (t : ThreadId) : (initial : Shared K V).Ready t :=
  ⟨rfl, .start _, [], rfl, World.idle_start t _⟩

variable {order : Enumeration K} {t : ThreadId} {s : Shared K V}

/-- Between two operations the map is at rest. -/
theorem Shared.Ready.tidy (h : s.Ready t) : Tidy .rest s := by
  obtain ⟨hfree, w, made, rfl, hidle⟩ := h
  exact hidle.sound.free hfree ▸ hidle.sound.tidy

/-- What the rules for programs among others say of a thread that is ready and alone. -/
theorem Program.ends_ready {p : Program K V α} (hs : s.Ready t)
    (h : ∀ (w : World K V) (made : Trace K V), w.Idle t (fun _ => True) made →
      p.wp order t (fun _ w' => ∃ made, w'.Idle t (fun _ => True) made) w) :
    p.Ends order t s fun _ s' => s'.Ready t := by
  obtain ⟨hfree, w, made, rfl, hidle⟩ := hs
  obtain ⟨x, w', hrun, -, ⟨made', hidle'⟩, hheld, -⟩ :=
    Program.wp_run (h w made hidle) hidle.sound (.inl hfree)
  exact ⟨x, w'.shared, hrun, hheld.resolve_right hidle'.holder, w', made', rfl, hidle'⟩

variable [EquivBEq K]

/-- Every operation ends with the thread between two operations again. -/
theorem Operation.ends_ready (hs : s.Ready t) (o : Operation K V) :
    o.program.Ends order t s fun _ s' => s'.Ready t := by
  refine Program.ends_ready hs fun w made hidle => ?_
  cases o with
  | request r =>
      exact Program.wp_ask (Program.bind_done _).symm hidle trivial fun _ _ h => ⟨_, h⟩
  | depart =>
      refine Program.wp_mono (Program.wp_upshot
        (Program.wp_itinerary hidle.outside fun _ _ _ hout _ _ => hout) hidle.sound) ?_
      exact fun _ w' ⟨hs', hg, hout⟩ => ⟨made, hidle.grows hg hs' hout⟩
  | reach c =>
      refine Program.wp_mono (Program.wp_upshot (Program.wp_peek fun _ _ hr => hr) hidle.sound) ?_
      exact fun _ w' ⟨hs', _, hr⟩ => ⟨made, hidle.rely hr hs'⟩

/-- An operation changes the structure in one way at most, and lets go of the mutex. -/
theorem Operation.ends_leaves (hs : s.Ready t) (o : Operation K V) :
    o.program.Ends order t s fun _ s' => s.Leaves s' := by
  cases o with
  | request r => exact r.ends_leaves hs.tidy hs.free
  | depart => exact Map.ends_itinerary hs.free
  | reach c =>
      exact ((Cell.onCells_load c).ends order t s).mono fun _ _ hs' => hs'.leaves hs.free

/-- An operation keeps the log right. -/
theorem Operation.lawful_logged (o : Operation K V) :
    o.Lawful order t (fun s => s.Ready t ∧ s.Told) (Passage.Logged order t) := by
  rintro s ⟨hs, htold⟩
  obtain ⟨x, s', hrun, hready, hleaves⟩ :=
    (o.ends_ready hs).and (o.ends_leaves hs)
  obtain ⟨htold', hevent⟩ := hleaves.reshapes.told htold
  exact ⟨x, s', hrun, ⟨hready, htold'⟩, ⟨x, hrun⟩, htold, htold', hevent⟩

/-- The events that a client causes tell what it sees of the structure, after each of its operations
and inside its visitors as well. -/
theorem Client.follow_logged (order : Enumeration K) (t : ThreadId) (c : Client K V ε α) :
    ∃ x trace s journal,
      (c.program []).run order t .initial = some ((x, trace), s) ∧
      (c.follow order t).run.run (.initial, []) = some (x, s, journal) ∧
      Linked .initial journal s ∧ ∀ p ∈ journal, p.Logged order t := by
  obtain ⟨x, trace, s, journal, hrun, hfollow, -, hlink, hlogged⟩ :=
    c.follow_tracks Operation.lawful_logged [] .initial []
      ⟨Shared.ready_initial t, rfl⟩
  exact ⟨x, trace, s, journal, hrun, hfollow, hlink, hlogged⟩

/-- A client that meets every kind of event, one of them inside a visitor. -/
def Client.restructure : Client Nat Nat Unit Unit :=
  request (.store 1 10) fun _ =>
    traverse (fun key _ () => request (.store (key + 1) 11) fun _ => done (.yield ())) () fun _ =>
      request (.delete 1) fun _ => request (.load 2) fun _ => request (.load 2) fun _ =>
        request (.store 3 12) fun _ => request .clear fun _ => done ()

/-- The client's log has the six events, and the map shows what they tell. -/
theorem Client.follow_logged_restructure :
    ∃ x trace s journal,
      (restructure.program []).run .insertion 0 .initial = some ((x, trace), s) ∧
      (restructure.follow .insertion 0).run.run (.initial, []) = some (x, s, journal) ∧
      s.log = [.cleared, .rebuilt 1 1, .promoted 2 2 .misses, .rebuilt 1 0,
        .promoted 1 0 .traversal, .rebuilt 0 0] ∧
      Linked .initial journal s ∧ ∀ p ∈ journal, p.Logged .insertion 0 := by
  obtain ⟨x, trace, s, journal, hrun, hfollow, hlogged⟩ :=
    Client.follow_logged .insertion 0 restructure
  have hlog : ((restructure.program []).run .insertion 0 .initial).map (fun r => r.2.log) =
      some [.cleared, .rebuilt 1 1, .promoted 2 2 .misses, .rebuilt 1 0,
        .promoted 1 0 .traversal, .rebuilt 0 0] := by
    decide +kernel
  rw [hrun] at hlog
  exact ⟨x, trace, s, journal, hrun, hfollow, Option.some.inj hlog, hlogged⟩

end ConcurrentMap
