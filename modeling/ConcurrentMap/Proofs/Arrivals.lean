import ConcurrentMap.Proofs.Reentrance
import ConcurrentMap.Proofs.Retirement

/-!
# What a traversal shows while its visitor uses the map

A traversal fixes its entries before the first visit and goes through them whatever the visitor does
with the map. `Client.attend` follows it from key to key: an `Arrival` is what is found there, and
what the visitor does before the traversal goes on.

Which keys are visited is settled by the snapshot that the traversal starts from
(`Client.traverse_visits`): none of them twice, no others, and none is missed that holds a value all
the time. For what they are visited with, it matters whether a visitor has cleared the map
(`Client.traverse_shows`). As long as none has, an entry's cell is the one that serves the key, or
it is a tombstoned one that a promotion has retired; so a visit shows what a load would find. But
clearing retires the cells with what they hold, and from then on the traversal shows what the keys
held before (`Client.traverse_after_clear`).
-/

namespace ConcurrentMap

variable {K V ε α σ : Type}

/-- A traversal comes to a key. -/
structure Arrival (K V : Type) where
  key : K
  /-- The state in which the key is reached. -/
  before : Shared K V
  /-- What the cell of the entry holds. If it is something, the visitor is called with it. -/
  held : Option (Handle V)
  /-- What the visitor does with the map. -/
  stay : List (Passage K V)
  /-- The traversal goes on. -/
  onward : Bool

namespace Arrival

/-- The arrivals at which the visitor is called. -/
def visited (arrivals : List (Arrival K V)) : List (Arrival K V) :=
  arrivals.filter (·.held.isSome)

/-- All that the visitor does with the map. -/
def stays (arrivals : List (Arrival K V)) : List (Passage K V) := arrivals.flatMap (·.stay)

end Arrival

section Attend

variable [BEq K] [BEq V] (order : Enumeration K) (t : ThreadId)

/-- The visits to some entries: the arrivals, how the last of them ended and the state after it. -/
def Client.attend (visit : K → Handle V → σ → Client K V ε (ForInStep σ)) :
    List (K × CellId) → σ → Shared K V → Option (List (Arrival K V) × Except ε σ × Shared K V)
  | [], state, s => some ([], .ok state, s)
  | (key, c) :: rest, state, s =>
    match (s.slot c).handle? with
    | none => (attend visit rest state s).map fun x => (⟨key, s, none, [], true⟩ :: x.1, x.2)
    | some held =>
      (((visit key held state).follow order t).run.run (s, [])).bind fun
        | (.ok (.yield state), s', stay) => (attend visit rest state s').map fun x =>
          (⟨key, s, some held, stay, true⟩ :: x.1, x.2)
        | (.ok (.done state), s', stay) => some ([⟨key, s, some held, stay, false⟩], .ok state, s')
        | (.error e, s', stay) => some ([⟨key, s, some held, stay, false⟩], .error e, s')

end Attend

/-! ## From arrival to arrival -/

section Attended

variable [BEq K] [BEq V] {order : Enumeration K} {t : ThreadId}

/-- How a traversal gets from arrival to arrival, whoever its visitor is. -/
inductive Attended (order : Enumeration K) (t : ThreadId) :
    List (K × CellId) → Shared K V → List (Arrival K V) → Shared K V → Prop where
  | nil (s : Shared K V) : Attended order t [] s [] s
  /-- Nothing is held. -/
  | passed {key : K} {c : CellId} {rest : List (K × CellId)} {s s' : Shared K V}
      {arrivals : List (Arrival K V)} (held : (s.slot c).handle? = none)
      (more : Attended order t rest s arrivals s') :
      Attended order t ((key, c) :: rest) s (⟨key, s, none, [], true⟩ :: arrivals) s'
  /-- The visitor wants to see more. -/
  | visited {key : K} {c : CellId} {rest : List (K × CellId)} {s s₁ s' : Shared K V}
      {arrivals : List (Arrival K V)} {h : Handle V} {stay : List (Passage K V)}
      (ready : s.Ready t) (held : (s.slot c).handle? = some h) (linked : Linked s stay s₁)
      (alone : ∀ p ∈ stay, p.Alone order) (more : Attended order t rest s₁ arrivals s') :
      Attended order t ((key, c) :: rest) s (⟨key, s, some h, stay, true⟩ :: arrivals) s'
  /-- The visitor stops or fails. -/
  | ended {key : K} {c : CellId} {rest : List (K × CellId)} {s s' : Shared K V} {h : Handle V}
      {stay : List (Passage K V)} (ready : s.Ready t) (held : (s.slot c).handle? = some h)
      (linked : Linked s stay s') (alone : ∀ p ∈ stay, p.Alone order) :
      Attended order t ((key, c) :: rest) s [⟨key, s, some h, stay, false⟩] s'

/-- The arrivals are those of the program of the visits. -/
theorem Client.attend_spec [EquivBEq K] (order : Enumeration K)
    (visit : K → Handle V → σ → Client K V ε (ForInStep σ)) (entries : List (K × CellId))
    (state : σ) (trace : Trace K V) {s : Shared K V} (hs : s.Ready t) :
    ∃ arrivals x trace' s', attend order t visit entries state s = some (arrivals, x, s') ∧
      (visits visit entries state trace).run order t s = some ((x, trace'), s') ∧ s'.Ready t ∧
      Attended order t entries s arrivals s' := by
  induction entries generalizing state trace s with
  | nil => exact ⟨[], .ok state, trace, s, rfl, rfl, hs, .nil s⟩
  | cons e entries ih =>
      obtain ⟨key, c⟩ := e
      rw [attend, visits_cons, Program.run_bind, Cell.run_load, Option.bind_some]
      cases hheld : (s.slot c).handle? with
      | none =>
          obtain ⟨arrivals, x, trace', s', hattend, hrun, hs', hattended⟩ := ih state trace hs
          exact ⟨_, x, trace', s', by rw [hattend]; rfl, hrun, hs', .passed hheld hattended⟩
      | some held =>
          obtain ⟨x, trace₁, s₁, stay, hrun, hfollow, hs₁, hlink, halone⟩ :=
            (visit key held state).follow_tracks (Operation.lawful_alone order t) trace s [] hs
          dsimp only
          rw [hfollow, Program.run_bind, hrun]
          obtain e | (state | state) := x
          · exact ⟨_, .error e, trace₁, s₁, rfl, rfl, hs₁, .ended hs hheld hlink halone⟩
          · exact ⟨_, .ok state, trace₁, s₁, rfl, rfl, hs₁, .ended hs hheld hlink halone⟩
          · obtain ⟨arrivals, x, trace', s', hattend, hrun', hs', hattended⟩ := ih state trace₁ hs₁
            refine ⟨_, x, trace', s', ?_, hrun', hs', .visited hs hheld hlink halone hattended⟩
            simp only [Option.bind_some, hattend]
            rfl

end Attended

/-! ## Which keys are visited -/

namespace Attended

variable [BEq K] {order : Enumeration K} {t : ThreadId} {entries : List (K × CellId)}
  {s s' : Shared K V} {arrivals : List (Arrival K V)}

section Keys

variable [BEq V]

/-- The traversal comes to the keys of its entries one after the other. -/
theorem keys (h : Attended order t entries s arrivals s') :
    arrivals.map (·.key) <+: entries.map Prod.fst := by
  induction h with
  | nil s => exact List.nil_prefix
  | passed held more ih => exact List.cons_prefix_cons.2 ⟨rfl, ih⟩
  | visited ready held linked alone more ih => exact List.cons_prefix_cons.2 ⟨rfl, ih⟩
  | ended ready held linked alone => exact List.cons_prefix_cons.2 ⟨rfl, List.nil_prefix⟩

/-- It comes to all of them if it always goes on. -/
theorem keys_of_onward (h : Attended order t entries s arrivals s')
    (honward : ∀ a ∈ arrivals, a.onward = true) :
    arrivals.map (·.key) = entries.map Prod.fst := by
  induction h with
  | nil s => rfl
  | passed held more ih =>
      exact congrArg _ (ih fun a ha => honward a (List.mem_cons_of_mem _ ha))
  | visited ready held linked alone more ih =>
      exact congrArg _ (ih fun a ha => honward a (List.mem_cons_of_mem _ ha))
  | ended ready held linked alone => exact absurd (honward _ List.mem_cons_self) Bool.false_ne_true

end Keys

end Attended

/-- One entry of a table has a key that the table has. -/
theorem Table.KeysDistinct.countP_key [BEq K] [EquivBEq K] {t : Table K} (h : t.KeysDistinct)
    {key : K} (hkey : t.contains key = true) : t.entries.countP (·.1 == key) = 1 := by
  obtain ⟨entries⟩ := t
  simp only [contains] at hkey ⊢
  induction entries with
  | nil => simp at hkey
  | cons e entries ih =>
      obtain ⟨hhead, htail⟩ := List.pairwise_cons.1 h
      rw [List.countP_cons]
      by_cases he : (e.1 == key) = true
      · have hnone : entries.countP (·.1 == key) = 0 := by
          refine List.countP_eq_zero.2 fun e' he' hkey' => ?_
          have hne := hhead e' he'
          rw [BEq.congr_left he, BEq.symm hkey'] at hne
          exact Bool.false_ne_true hne.symm
        rw [if_pos he, hnone]
      · rw [if_neg he, ih htail (by simpa [he] using hkey)]

namespace Shared

variable [BEq K]

/-- After a clearing no key has a value. -/
theorem view_cleared (s : Shared K V) (key : K) : s.cleared.view key = none := by
  refine view_of_missing ?_
  unfold cleared
  split
  · rfl
  · next hblank =>
    have ham : s.snapshot.amended = false := by simpa using (not_or.1 hblank).2
    refine find?_of_complete ?_ ham
    rw [Snapshot.eq_empty hblank]
    rfl

end Shared

section Alone

variable [BEq K] [BEq V] {order : Enumeration K} {t : ThreadId} {p : Passage K V}

/-- While a key of the snapshot has a value, the snapshot goes on leading it to the same cell. -/
theorem Passage.Alone.find?_of_held [EquivBEq K] (h : p.Alone order) {key : K} {c : CellId}
    (hc : p.before.snapshot.find? key = some c) (hbefore : (p.before.view key).isSome = true)
    (hafter : (p.after.view key).isSome = true) : p.after.snapshot.find? key = some c := by
  cases hclears : p.clears with
  | true =>
      have hcleared : p.after = p.before.cleared := by
        rw [h.solo, operation_of_clears hclears]
        rfl
      rw [hcleared, Shared.view_cleared] at hafter
      simp at hafter
  | false =>
      have hretires := p.operation.retires order h.before fun _ => hclears
      rw [← h.solo] at hretires
      refine (hretires.served key c hc).resolve_right fun ⟨_, _, htomb⟩ => ?_
      rw [Shared.view_of_find? (Shared.find?_of_snapshot hc),
        Shared.handle?_of_tombstoned htomb] at hbefore
      simp at hbefore

/-- The same, for many operations. -/
theorem Linked.find?_of_held [EquivBEq K] {stay : List (Passage K V)} {s s' : Shared K V}
    (h : Linked s stay s') (halone : ∀ p ∈ stay, p.Alone order) {key : K} {c : CellId}
    (hc : s.snapshot.find? key = some c) (hheld : (s.view key).isSome = true)
    (hall : ∀ p ∈ stay, (p.after.view key).isSome = true) :
    s'.snapshot.find? key = some c := by
  induction stay generalizing s with
  | nil => exact (show s' = s from h) ▸ hc
  | cons p stay ih =>
      obtain ⟨rfl, hrest⟩ := h
      have hafter := hall p List.mem_cons_self
      exact ih hrest (fun q hq => halone q (List.mem_cons_of_mem p hq))
        ((halone p List.mem_cons_self).find?_of_held hc hheld hafter) hafter
        fun q hq => hall q (List.mem_cons_of_mem p hq)

/-- A key that has a value all the time is visited when the traversal comes to it. -/
theorem Attended.isSome_of_held [EquivBEq K] {entries : List (K × CellId)} {s s' : Shared K V}
    {arrivals : List (Arrival K V)} (h : Attended order t entries s arrivals s') {key : K}
    (hentries : ∀ e ∈ entries, (e.1 == key) = true → s.snapshot.find? key = some e.2)
    (hheld : (s.view key).isSome = true)
    (hall : ∀ p ∈ Arrival.stays arrivals, (p.after.view key).isSome = true) :
    ∀ a ∈ arrivals, (a.key == key) = true → a.held.isSome = true := by
  induction h with
  | nil s => simp
  | @passed other c rest s s' arrivals held more ih =>
      have hrest := ih (fun e he => hentries e (List.mem_cons_of_mem _ he)) hheld hall
      refine fun a ha hkey => (List.mem_cons.1 ha).elim (fun heq => ?_) fun ha => hrest a ha hkey
      -- the cell holds nothing, but the key has a value
      subst heq
      have hfind := Shared.find?_of_snapshot (hentries (other, c) List.mem_cons_self hkey)
      rw [Shared.view_of_find? hfind, held] at hheld
      simp at hheld
  | @visited other c rest s s₁ s' arrivals h stay ready held linked alone more ih =>
      have hstay : ∀ p ∈ stay, (p.after.view key).isSome = true := fun p hp =>
        hall p (List.mem_append_left _ hp)
      have hlast := linked.last (I := fun s => (s.view key).isSome = true) hheld hstay
      have hrest := ih (fun e he hkey => (linked.find?_of_held alone
          (hentries e (List.mem_cons_of_mem _ he) hkey) hheld hstay)) hlast
        fun p hp => hall p (List.mem_append_right _ hp)
      exact fun a ha hkey => (List.mem_cons.1 ha).elim (fun heq => by rw [heq]; rfl)
        fun ha => hrest a ha hkey
  | ended ready held linked alone =>
      intro a ha _
      rw [List.mem_singleton.1 ha]
      rfl

end Alone

/-! ## What they are visited with -/

section Tells

variable [BEq K] {order : Enumeration K} {t : ThreadId} {made : List (Passage K V)}
  {s s' : Shared K V} {e : K × CellId}

/-- What the cell of an entry has to do with its key when the visitor has done `made`. -/
def Shared.Tells (s : Shared K V) (made : List (Passage K V)) (e : K × CellId) : Prop :=
  match made.find? Passage.clears with
  | none => s.snapshot.find? e.1 = some e.2 ∨ s.Retired e.2 ∧ s.tombstoned e.2 = true
  | some p => s.Retired e.2 ∧ ∀ held, (s.slot e.2).handle? = some held →
      p.before.view e.1 = some held

/-- Before the first clearing, what the cell of an entry holds is what the key holds. -/
theorem Shared.Tells.view (h : s.Tells made e) (hclears : made.find? Passage.clears = none)
    {held : Handle V} (hheld : (s.slot e.2).handle? = some held) : s.view e.1 = some held := by
  rw [Tells, hclears] at h
  rcases h with hfind | ⟨-, htomb⟩
  · exact (view_of_find? (find?_of_snapshot hfind)).trans hheld
  · rw [handle?_of_tombstoned htomb] at hheld
    simp at hheld

variable [BEq V]

/-- The visitor does one thing more. -/
theorem Shared.Tells.step [EquivBEq K] {p : Passage K V} (h : p.before.Tells made e)
    (hp : p.Alone order) : p.after.Tells (made ++ [p]) e := by
  have hlast : (made ++ [p]).find? Passage.clears =
      (made.find? Passage.clears).or (if p.clears then some p else none) := by
    rw [List.find?_append, List.find?_singleton]
  -- Without a clearing, a cell of the snapshot stays one or is retired with its tombstone.
  cases hclears : p.clears with
  | false =>
      rw [hclears, if_neg Bool.false_ne_true, Option.or_none] at hlast
      have hretires := p.operation.retires order hp.before fun _ => hclears
      rw [← hp.solo] at hretires
      rw [Tells] at h ⊢
      rw [hlast]
      cases hfind : made.find? Passage.clears with
      | none =>
          rw [hfind] at h
          rcases h with hsnap | ⟨hretired, htomb⟩
          · refine (hretires.served _ _ hsnap).imp id fun ⟨hretired, hslot, htomb⟩ => ?_
            exact ⟨hretired, by rwa [tombstoned, hslot]⟩
          · obtain ⟨hretired', hslot⟩ := hretires.retired _ hretired
            exact .inr ⟨hretired', by rwa [tombstoned, hslot]⟩
      | some q =>
          rw [hfind] at h
          obtain ⟨hretired, hslot⟩ := hretires.retired _ h.1
          exact ⟨hretired, fun held hheld => h.2 held (hslot ▸ hheld)⟩
  -- This is the first clearing, or a later one: the cell is retired with what it holds.
  | true =>
      have hshown : made.find? Passage.clears = none → ∀ held,
          (p.before.slot e.2).handle? = some held → p.before.view e.1 = some held :=
        fun hfind _ => h.view hfind
      have hclear := fun hc => Operation.retires_clear order hp.before (c := e.2) hc
      rw [← p.operation_of_clears hclears, ← hp.solo] at hclear
      rw [hclears, if_pos rfl] at hlast
      rw [Tells] at h ⊢
      rw [hlast]
      cases hfind : made.find? Passage.clears with
      | none =>
          rw [hfind] at h
          obtain ⟨hretired, hslot⟩ := hclear (h.symm.imp And.left fun hsnap => ⟨e.1, hsnap⟩)
          exact ⟨hretired, fun held hheld => hshown hfind held (hslot ▸ hheld)⟩
      | some q =>
          rw [hfind] at h
          obtain ⟨hretired, hslot⟩ := hclear (.inl h.1)
          exact ⟨hretired, fun held hheld => h.2 held (hslot ▸ hheld)⟩

/-- The visitor does many things more. -/
theorem Shared.Tells.run [EquivBEq K] {stay : List (Passage K V)} (h : s.Tells made e)
    (hlinked : Linked s stay s') (halone : ∀ p ∈ stay, p.Alone order) :
    s'.Tells (made ++ stay) e := by
  induction stay generalizing s made with
  | nil => rwa [show s' = s from hlinked, List.append_nil]
  | cons p stay ih =>
      obtain ⟨rfl, hrest⟩ := hlinked
      rw [List.append_cons]
      exact ih (h.step (halone p List.mem_cons_self)) hrest
        fun q hq => halone q (List.mem_cons_of_mem p hq)

/-- Whenever the visitor is called, the entry tells of its key, and with the handle in its cell. -/
theorem Attended.tells [EquivBEq K] {entries : List (K × CellId)} {arrivals : List (Arrival K V)}
    (h : Attended order t entries s arrivals s') (hentries : ∀ e ∈ entries, s.Tells made e)
    {earlier later : List (Arrival K V)} {a : Arrival K V} {held : Handle V}
    (hsplit : arrivals = earlier ++ a :: later) (hheld : a.held = some held) :
    a.before.Ready t ∧ ∃ c, (a.before.slot c).handle? = some held ∧
      a.before.Tells (made ++ Arrival.stays earlier) (a.key, c) := by
  -- By induction on the way of the traversal: the arrival in question is the first one, or a later
  -- one.
  induction h generalizing made earlier with
  | nil s => simp at hsplit
  | @passed key c rest s s' arrivals held more ih =>
      cases earlier with
      | nil =>
          obtain ⟨rfl, rfl⟩ := List.cons.inj hsplit
          simp at hheld
      | cons b earlier =>
          obtain ⟨rfl, hrest⟩ := List.cons.inj hsplit
          rw [Arrival.stays, List.flatMap_cons, List.nil_append]
          exact ih (fun e he => hentries e (List.mem_cons_of_mem _ he)) hrest
  | @visited key c rest s s₁ s' arrivals h stay ready found linked alone more ih =>
      cases earlier with
      | nil =>
          obtain ⟨rfl, rfl⟩ := List.cons.inj hsplit
          obtain rfl := Option.some.inj hheld
          rw [Arrival.stays, List.flatMap_nil, List.append_nil]
          exact ⟨ready, c, found, hentries _ List.mem_cons_self⟩
      | cons b earlier =>
          obtain ⟨rfl, hrest⟩ := List.cons.inj hsplit
          rw [Arrival.stays, List.flatMap_cons, ← List.append_assoc]
          exact ih (fun e he => (hentries e (List.mem_cons_of_mem _ he)).run linked alone) hrest
  | @ended key c rest s s' h stay ready found linked alone =>
      cases earlier with
      | nil =>
          obtain ⟨rfl, rfl⟩ := List.cons.inj hsplit
          obtain rfl := Option.some.inj hheld
          rw [Arrival.stays, List.flatMap_nil, List.append_nil]
          exact ⟨ready, c, found, hentries _ List.mem_cons_self⟩
      | cons b earlier => simp at hsplit

end Tells

/-! ## The traversal -/

section Traverse

variable [BEq K] [BEq V] [EquivBEq K]

/-- What a traversal consists of. -/
theorem Client.exists_attended_of_ready (order : Enumeration K) {t : ThreadId} {s : Shared K V}
    (hs : s.Ready t) (visit : K → Handle V → σ → Client K V ε (ForInStep σ)) (start : σ) :
    ∃ entries arrivals x trace s',
      Map.itinerary.run order t s = some (entries, s.completed.walked) ∧
      attend order t visit entries start s.completed.walked = some (arrivals, x, s') ∧
      ((traverse visit start .done).program []).run order t s = some ((x, trace), s') ∧
      Attended order t entries s.completed.walked arrivals s' ∧
      Tidy .rest s ∧ Tidy .rest s.completed.walked ∧ s.completed.walked.Complete ∧
      s.completed.walked.view = s.view ∧ entries.Perm s.completed.snapshot.table.entries := by
  obtain ⟨hrun, hs₁⟩ := Map.run_itinerary_ready order hs
  obtain ⟨_, s₁, hrun', hcomplete, -, -, hview⟩ := Map.run_itinerary order t hs.tidy hs.free
  obtain rfl : s₁ = s.completed.walked :=
    congrArg Prod.snd (Option.some.inj (hrun'.symm.trans hrun))
  obtain ⟨arrivals, x, trace, s', hattend, hvisits, -, hattended⟩ :=
    attend_spec order visit _ start [] hs₁
  refine ⟨_, arrivals, x, trace, s', hrun, hattend, ?_, hattended, hs.tidy, hs₁.tidy, hcomplete,
    hview, order.perm _ _⟩
  rw [program_traverse, Program.run_bind, hrun, Option.bind_some, Program.run_bind, hvisits]
  obtain e | state := x <;> rfl

/-- What a traversal on a map that clients have left behind consists of. -/
theorem Client.exists_attended {s : Shared K V} (hs : s.Reachable) (order : Enumeration K)
    (t : ThreadId) (visit : K → Handle V → σ → Client K V ε (ForInStep σ)) (start : σ) :
    ∃ entries arrivals x trace s',
      Map.itinerary.run order t s = some (entries, s.completed.walked) ∧
      attend order t visit entries start s.completed.walked = some (arrivals, x, s') ∧
      ((traverse visit start .done).program []).run order t s = some ((x, trace), s') ∧
      Attended order t entries s.completed.walked arrivals s' ∧
      Tidy .rest s ∧ Tidy .rest s.completed.walked ∧ s.completed.walked.Complete ∧
      s.completed.walked.view = s.view ∧ entries.Perm s.completed.snapshot.table.entries :=
  exists_attended_of_ready order (hs.ready t) visit start

omit [BEq V] in
/-- A key of the snapshot that a traversal starts from was in one of the tables. -/
theorem Shared.isSome_of_mem_completed {s : Shared K V} (h : Tidy .rest s) {e : K × CellId}
    (he : e ∈ s.completed.snapshot.table.entries) :
    (s.snapshot.find? e.1).isSome = true ∨ (s.staging.find? e.1).isSome = true := by
  unfold completed at he
  split at he
  · refine .inr ?_
    cases htable : s.staging.table with
    | none => simp [promoted, Snapshot.ofTable, htable, Table.empty] at he
    | some table =>
        have hmem : e ∈ table.entries := by simpa [promoted, Snapshot.ofTable, htable] using he
        rw [Staging.find?, htable, Option.bind_some, (h.stagedKeys table htable).find?_of_mem hmem]
        rfl
  · rw [Snapshot.find?, h.keys.find?_of_mem he]
    exact .inl rfl

/-- Whatever its visitor does with the map, a traversal visits no two equal keys and only keys of
the snapshot that it starts from, so none that neither table had, and not more of them than there
are. If the visitor never stops or fails, every key that has a value all the time is visited
once. -/
theorem Client.traverse_visits {s : Shared K V} (hs : s.Reachable) (order : Enumeration K)
    (t : ThreadId) (visit : K → Handle V → σ → Client K V ε (ForInStep σ)) (start : σ) :
    ∃ entries s₁ arrivals x trace s',
      Map.itinerary.run order t s = some (entries, s₁) ∧
      attend order t visit entries start s₁ = some (arrivals, x, s') ∧
      ((traverse visit start .done).program []).run order t s = some ((x, trace), s') ∧
      (Arrival.visited arrivals).Pairwise (fun a b => (a.key == b.key) = false) ∧
      (∀ a ∈ Arrival.visited arrivals, a.key ∈ s₁.snapshot.table.keys ∧
        ((s.snapshot.find? a.key).isSome = true ∨ (s.staging.find? a.key).isSome = true)) ∧
      (Arrival.visited arrivals).length ≤ s₁.snapshot.size ∧
      ((∀ a ∈ arrivals, a.onward = true) → ∀ key, (s.view key).isSome = true →
        (∀ p ∈ Arrival.stays arrivals, (p.after.view key).isSome = true) →
        (Arrival.visited arrivals).countP (·.key == key) = 1) := by
  obtain ⟨entries, arrivals, x, trace, s', hrun, hattend, hprogram, hattended, htidy, htidy₁,
    hcomplete, hview, hperm⟩ := exists_attended hs order t visit start
  have hkeys : (entries.map Prod.fst).Pairwise fun a b => (a == b) = false :=
    List.pairwise_map.2 (Table.distinct_of_perm hperm htidy₁.keys)
  have hinitial := hattended.keys
  have hmem : ∀ a ∈ arrivals, ∃ e ∈ s.completed.snapshot.table.entries, e.1 = a.key := fun a ha => by
    obtain ⟨e, he, hkey⟩ := List.mem_map.1 (hinitial.subset (List.mem_map.2 ⟨a, ha, rfl⟩))
    exact ⟨e, hperm.mem_iff.1 he, hkey⟩
  refine ⟨entries, s.completed.walked, arrivals, x, trace, s', hrun, hattend, hprogram, ?_, ?_, ?_,
    ?_⟩
  · exact List.Pairwise.filter _ (List.pairwise_map.1 (hkeys.sublist hinitial.sublist))
  · intro a ha
    obtain ⟨e, he, hkey⟩ := hmem a (List.mem_filter.1 ha).1
    exact ⟨List.mem_map.2 ⟨e, he, hkey⟩, hkey ▸ Shared.isSome_of_mem_completed htidy he⟩
  · refine (List.length_filter_le _ _).trans ?_
    have hlength := hinitial.length_le
    rw [List.length_map, List.length_map, hperm.length_eq] at hlength
    exact hlength
  -- The key has an entry, the visitor comes to it, and then the key has a value.
  · intro honward key hheld hall
    rw [← hview] at hheld
    have hc : (s.completed.walked.snapshot.find? key).isSome = true := by
      rw [Option.isSome_iff_ne_none]
      intro hnone
      rw [Shared.view_of_missing (Shared.find?_of_complete hnone hcomplete.complete)] at hheld
      simp at hheld
    have hentries : ∀ e ∈ entries, (e.1 == key) = true →
        s.completed.walked.snapshot.find? key = some e.2 := fun e he hkey =>
      htidy₁.keys.find?_of_perm hperm he hkey
    have hvisited := hattended.isSome_of_held hentries hheld hall
    have hcount : (Arrival.visited arrivals).countP (·.key == key) =
        arrivals.countP (·.key == key) := by
      rw [Arrival.visited, List.countP_filter]
      exact List.countP_congr fun a ha => by simpa using hvisited a ha
    calc (Arrival.visited arrivals).countP (·.key == key)
        = (arrivals.map (·.key)).countP (· == key) := by rw [hcount, List.countP_map]; rfl
      _ = (entries.map Prod.fst).countP (· == key) := by rw [hattended.keys_of_onward honward]
      _ = s.completed.snapshot.table.entries.countP (·.1 == key) := by
          rw [List.countP_map]
          exact hperm.countP_eq _
      _ = 1 := htidy₁.keys.countP_key ((Table.contains_eq_isSome_find? _ _).trans hc)

end Traverse

/-- The visitor stores a value under a new key, deletes key 1 and traverses the map itself. -/
def Client.growing (key : Nat) (held : Handle Nat) (_ : Unit) :
    Client Nat Nat Unit (ForInStep Unit) :=
  request (.store (key + 2) held.value) fun _ => request (.delete 1) fun _ =>
    traverse (fun key _ () => request (.load key) fun _ => done (.yield ())) () fun _ =>
      done (.yield ())

/-- Key 0 is visited once. Key 1 is gone by then, and the new key has come too late. -/
theorem Client.traverse_visits_growing : ∃ entries s₁ arrivals x trace s',
    Map.itinerary.run .insertion 0 Machine.storingTwo.shared = some (entries, s₁) ∧
    attend .insertion 0 growing entries () s₁ = some (arrivals, x, s') ∧
    ((traverse growing () .done).program []).run .insertion 0 Machine.storingTwo.shared =
      some ((x, trace), s') ∧
    (Arrival.visited arrivals).length ≤ s₁.snapshot.size ∧
    (Arrival.visited arrivals).countP (·.key == 0) = 1 ∧
    (Arrival.visited arrivals).map (·.key) = [0] := by
  obtain ⟨entries, s₁, arrivals, x, trace, s', hrun, hattend, hprogram, -, -, hlength, hcount⟩ :=
    traverse_visits Machine.reachable_storingTwo .insertion 0 growing ()
  have hfound : (Map.itinerary.run .insertion 0 Machine.storingTwo.shared).bind (fun r =>
      (attend .insertion 0 growing r.1 () r.2).map fun y => (y.1.all (·.onward),
        (Arrival.stays y.1).all fun p => (p.after.view 0).isSome,
        (Arrival.visited y.1).map (·.key))) = some (true, true, [0]) := by
    decide +kernel
  rw [hrun, Option.bind_some, hattend] at hfound
  simp only [Option.map_some, Option.some.injEq, Prod.mk.injEq, List.all_eq_true] at hfound
  obtain ⟨honward, hheld, hkeys⟩ := hfound
  exact ⟨entries, s₁, arrivals, x, trace, s', hrun, hattend, hprogram, hlength,
    hcount honward 0 (by decide +kernel) hheld, hkeys⟩

section Traverse

variable [BEq K] [BEq V] [EquivBEq K]

/-- As long as its visitor has not cleared the map, a traversal visits a key with what a load would
find there, so it does not visit it if that is nothing. Once the visitor has cleared the map, it
visits a key with what the key held when that was done for the first time. -/
theorem Client.traverse_shows {s : Shared K V} (hs : s.Reachable) (order : Enumeration K)
    (t : ThreadId) (visit : K → Handle V → σ → Client K V ε (ForInStep σ)) (start : σ) :
    ∃ entries s₁ arrivals x trace s',
      Map.itinerary.run order t s = some (entries, s₁) ∧
      attend order t visit entries start s₁ = some (arrivals, x, s') ∧
      ((traverse visit start .done).program []).run order t s = some ((x, trace), s') ∧
      ∀ earlier a later held, arrivals = earlier ++ a :: later → a.held = some held →
        match (Arrival.stays earlier).find? Passage.clears with
        | none => a.before.view a.key = some held ∧
            ∃ s₂, (Map.load a.key).run order t a.before = some (some held, s₂)
        | some p => p.before.view a.key = some held := by
  obtain ⟨entries, arrivals, x, trace, s', hrun, hattend, hprogram, hattended, -, htidy₁, -, -,
    hperm⟩ := exists_attended hs order t visit start
  refine ⟨entries, _, arrivals, x, trace, s', hrun, hattend, hprogram, ?_⟩
  intro earlier a later held hsplit hheld
  have hentries : ∀ e ∈ entries, s.completed.walked.Tells [] e := fun e he =>
    .inl (htidy₁.keys.find?_of_mem (hperm.mem_iff.1 he))
  obtain ⟨hready, c, hslot, htells⟩ := hattended.tells hentries hsplit hheld
  rw [List.nil_append] at htells
  cases hfind : (Arrival.stays earlier).find? Passage.clears with
  | none =>
      have hview := htells.view hfind hslot
      have hload := Map.run_load order t hready.tidy hready.free a.key
      rw [hview] at hload
      exact ⟨hview, _, hload⟩
  | some p =>
      rw [Shared.Tells, hfind] at htells
      exact htells.2 held hslot

end Traverse

/-- The visitor clears the map. -/
def Client.clearing (_ : Nat) (_ : Handle Nat) (_ : Unit) : Client Nat Nat Unit (ForInStep Unit) :=
  request .clear fun _ => done (.yield ())

/-- Key 0 is visited with what a load finds there, and then key 1 with what it held before. -/
theorem Client.traverse_shows_clearing : ∃ a b held held' s₂,
    ((Map.itinerary.run .insertion 0 Machine.storingTwo.shared).bind fun r =>
      (attend .insertion 0 clearing r.1 () r.2).map Prod.fst) = some [a, b] ∧
    a.held = some held ∧ a.before.view a.key = some held ∧
    (Map.load a.key).run .insertion 0 a.before = some (some held, s₂) ∧
    b.held = some held' ∧ ∃ p ∈ a.stay, p.before.view b.key = some held' := by
  obtain ⟨entries, s₁, arrivals, x, trace, s', hrun, hattend, -, hshows⟩ :=
    traverse_shows Machine.reachable_storingTwo .insertion 0 clearing ()
  have hfound : (Map.itinerary.run .insertion 0 Machine.storingTwo.shared).bind (fun r =>
      (attend .insertion 0 clearing r.1 () r.2).map fun y =>
        y.1.map fun a => (a.held.map (·.value), a.stay.map Passage.clears)) =
      some [(some 7, [true]), (some 8, [true])] := by
    decide +kernel
  rw [hrun, Option.bind_some, hattend] at hfound ⊢
  obtain ⟨a, _, rfl, ha, htail⟩ := List.map_eq_cons_iff.1 (Option.some.inj hfound)
  obtain ⟨b, _, rfl, hb, hnil⟩ := List.map_eq_cons_iff.1 htail
  obtain rfl := List.map_eq_nil_iff.1 hnil
  obtain ⟨held, hheld, -⟩ := Option.map_eq_some_iff.1 (Prod.mk.inj ha).1
  obtain ⟨held', hheld', -⟩ := Option.map_eq_some_iff.1 (Prod.mk.inj hb).1
  obtain ⟨p, _, hstay, hclears, hrest⟩ := List.map_eq_cons_iff.1 (Prod.mk.inj ha).2
  obtain ⟨hview, s₂, hload⟩ := hshows [] a [b] held rfl hheld
  have hshown := hshows [a] b [] held' rfl hheld'
  have hfirst : (Arrival.stays [a]).find? Passage.clears = some p := by
    simp [Arrival.stays, hstay, hclears]
  rw [hfirst] at hshown
  exact ⟨a, b, held, held', s₂, rfl, hheld, hview, hload, hheld', p, by simp [hstay], hshown⟩

/-- A key is visited with a value that it does not hold any more. -/
theorem Client.traverse_after_clear : Machine.storingTwo.shared.Reachable ∧
    ∃ entries s₁ arrivals x s',
      Map.itinerary.run .insertion 0 Machine.storingTwo.shared = some (entries, s₁) ∧
      attend .insertion 0 clearing entries () s₁ = some (arrivals, x, s') ∧
      ∃ a ∈ arrivals, a.held.isSome = true ∧ a.before.view a.key = none ∧
        ∃ s₂, (Map.load a.key).run .insertion 0 a.before = some (none, s₂) := by
  refine ⟨Machine.reachable_storingTwo, ?_⟩
  have hfound : (Map.itinerary.run .insertion 0 Machine.storingTwo.shared).bind (fun r =>
      (attend .insertion 0 clearing r.1 () r.2).map fun y =>
        y.1.any fun a => a.held.isSome && (a.before.view a.key).isNone &&
          ((Map.load a.key).run .insertion 0 a.before).any (·.1.isNone)) = some true := by
    decide +kernel
  obtain ⟨⟨entries, s₁⟩, hrun, hfound⟩ := Option.bind_eq_some_iff.1 hfound
  obtain ⟨⟨arrivals, x, s'⟩, hattend, hfound⟩ := Option.map_eq_some_iff.1 hfound
  obtain ⟨a, ha, hstale⟩ := List.any_eq_true.1 hfound
  simp only [Bool.and_eq_true, Option.isNone_iff_eq_none, Option.any_eq_true] at hstale
  obtain ⟨⟨hheld, hview⟩, ⟨_, s₂⟩, hload, rfl⟩ := hstale
  exact ⟨entries, s₁, arrivals, x, s', hrun, hattend, a, ha, hheld, hview, s₂, hload⟩

end ConcurrentMap
