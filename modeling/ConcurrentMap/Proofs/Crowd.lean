import ConcurrentMap.Proofs.Linearizability
import ConcurrentMap.Proofs.Tours
import Mathlib.Data.List.Pairwise

/-!
# Traversals under concurrency

A `Crowd` is a map that any number of threads share, some to call operations and some to traverse
it. As in a `System`, an observer chooses the turns and sees when an operation was called and when
it was answered, and also when a traversal departed and with what report it arrived. While a
traversal waits for its visitor no thread is busy with it, so the visitor may call operations or
depart on traversals of its own.

`Crowd.run_traversed` says that the calls have a linearization in which every traversal has a place
for every key, between its departure and its arrival, such that a load of the key at that place
answers what the traversal reports.
-/

namespace ConcurrentMap

variable {K V : Type}

/-- The name of a traversal. -/
abbrev TourId := Nat

/-- What an observer sees. -/
inductive Sighting (K V : Type) where
  /-- An operation is called or answered. -/
  | call (o : Occurrence K V)
  /-- A traversal begins. -/
  | departed (id : TourId)
  /-- The traversal ends, and this is what its visitor was shown. -/
  | arrived (id : TourId) (report : Report K V)
  deriving DecidableEq

/-- What the observer of the calls alone sees. -/
def Sighting.call? : Sighting K V → Option (Occurrence K V)
  | call o => some o
  | departed _ => none
  | arrived _ _ => none

/-- The sightings are not two arrivals of one traversal. -/
def Sighting.Apart (x y : Sighting K V) : Prop :=
  ∀ id report report', x = .arrived id report → y ≠ .arrived id report'

/-- What a thread is busy with. -/
inductive Errand (K V : Type) where
  /-- A call, and what is left to do for it. -/
  | call (id : CallId) (p : Program K V (Answer V))
  /-- A traversal, and what is left of the leg. -/
  | tour (id : TourId) (p : Program K V (Leg K V))

/-- What has become of a traversal. -/
inductive Stage (K V : Type) where
  | unknown
  /-- A thread is on its way to the next visit. -/
  | travelling (t : ThreadId)
  /-- The visitor has not said yet whether it wants more. -/
  | waiting (next : Bool → Tour K V (Report K V))
  | arrived (report : Report K V)

/-- What can happen next. -/
inductive Move (K V : Type) where
  /-- Thread `t` makes a call, unless it is busy. -/
  | invoke (t : ThreadId) (r : Request K V)
  /-- Thread `t` begins a traversal, unless it is busy. -/
  | depart (t : ThreadId)
  /-- The visitor of a traversal that waits for it says whether it wants more, and thread `t` goes
  on with the traversal, unless it is busy. -/
  | resume (t : ThreadId) (id : TourId) (goOn : Bool)
  /-- Thread `t` takes its next atomic step, if it has one. -/
  | step (t : ThreadId)

/-- Threads that share a map. -/
structure Crowd (K V : Type) where
  shared : Shared K V
  running : ThreadId → Option (Errand K V)
  /-- The number of calls made so far, which is the name of the next one. -/
  made : CallId
  /-- The number of traversals begun so far, which is the name of the next one. -/
  begun : TourId
  stage : TourId → Stage K V
  /-- What the observer has seen, the first sighting first. -/
  history : List (Sighting K V)

/-- One atomic step towards the end of an errand. -/
def Errand.step [BEq K] (order : Enumeration K) (t : ThreadId) (s : Shared K V) :
    Errand K V → Option (Errand K V × Shared K V)
  | call id p => (p.step order t s).map fun r => (call id r.1, r.2)
  | tour id p => (p.step order t s).map fun r => (tour id r.1, r.2)

namespace Crowd

/-- Nothing was called and nobody has departed. -/
def start : Crowd K V := ⟨.initial, fun _ => none, 0, 0, fun _ => .unknown, []⟩

/-- Thread `t` is busy with an errand, or with none. -/
def assign (S : Crowd K V) (t : ThreadId) (e : Option (Errand K V)) : Crowd K V :=
  { S with running := Function.update S.running t e }

/-- A traversal has come to another stage. -/
def setStage (S : Crowd K V) (id : TourId) (x : Stage K V) : Crowd K V :=
  { S with stage := Function.update S.stage id x }

/-- The observer sees something. -/
def see (S : Crowd K V) (x : Sighting K V) : Crowd K V := { S with history := S.history ++ [x] }

/-- Thread `t` goes on with an errand, or is free again if nothing of it is left. -/
def proceed (S : Crowd K V) (t : ThreadId) : Errand K V → Crowd K V
  | .call id p =>
    match p.result? with
    | none => S.assign t (some (.call id p))
    | some answer => (S.assign t none).see (.call (.answered id answer))
  | .tour id p =>
    match p.result? with
    | none => S.assign t (some (.tour id p))
    | some (.reached _ _ next) => (S.assign t none).setStage id (.waiting next)
    | some (.arrived report) =>
        ((S.assign t none).setStage id (.arrived report)).see (.arrived id report)

variable [BEq K] [BEq V] (order : Enumeration K)

def turn (S : Crowd K V) : Move K V → Crowd K V
  | .invoke t r =>
    match S.running t with
    | some _ => S
    | none =>
      ({ S with made := S.made + 1 }.see (.call (.invoked S.made t r))).proceed t
        (.call S.made r.program)
  | .depart t =>
    match S.running t with
    | some _ => S
    | none =>
      (({ S with begun := S.begun + 1 }.setStage S.begun (.travelling t)).see
        (.departed S.begun)).proceed t (.tour S.begun Tour.traversal.leg)
  | .resume t id goOn =>
    match S.running t, S.stage id with
    | none, .waiting next =>
      (S.setStage id (.travelling t)).proceed t (.tour id (next goOn).leg)
    | _, _ => S
  | .step t =>
    match S.running t with
    | none => S
    | some e =>
      match e.step order t S.shared with
      | none => S
      | some (e', s') => { S with shared := s' }.proceed t e'

/-- All turns, one after the other. -/
def run (turns : List (Move K V)) : Crowd K V := turns.foldl (turn order) start

end Crowd

/-! ## What traversals report -/

section Traversed

variable [BEq K] [BEq V]

/-- What the plain map has at a place of the line. -/
def stateAt (line : List (CallId × Call K V)) (n : Nat) : Plain K V :=
  Plain.empty.after ((line.take n).map Prod.snd)

/-- The place lies between the departure and the arrival of the traversal: whatever was answered
before the departure comes before the place, and whatever was called after the arrival does not. -/
structure During (history : List (Sighting K V)) (line : List (CallId × Call K V)) (id : TourId)
    (n : Nat) : Prop where
  le : n ≤ line.length
  answered : ∀ c answer, [.call (.answered c answer), .departed id].Sublist history →
    ∃ x ∈ line.take n, x.1 = c
  invoked : ∀ report c t r, [.arrived id report, .call (.invoked c t r)].Sublist history →
    ∀ x ∈ line.take n, x.1 ≠ c

/-- What every traversal reports for a key is what a load of the key answers at its place in the
line. -/
structure Traversed (history : List (Sighting K V)) (line : List (CallId × Call K V))
    (place : TourId → K → Nat) : Prop where
  /-- A traversal arrives once. -/
  single : ∀ id report report', .arrived id report ∈ history → .arrived id report' ∈ history →
    report = report'
  during : ∀ id report key, .arrived id report ∈ history → During history line id (place id key)
  /-- For a key that was not visited, only if the visitor did not end the traversal. -/
  found : ∀ id report key, .arrived id report ∈ history →
    report.stopped = false ∨ (report.outcome key).isSome = true →
      stateAt line (place id key) key = report.outcome key
  /-- The places agree with the order of traversals that follow each other. -/
  ordered : ∀ id id' report report' key key', [.arrived id report, .departed id'].Sublist history →
    .arrived id' report' ∈ history → place id key ≤ place id' key'
  /-- No key is visited twice. -/
  once : ∀ id report, .arrived id report ∈ history →
    report.visited.Pairwise fun a b => (a.1 == b.1) = false
  /-- A key that has a value throughout is visited, unless the visitor ends the traversal. -/
  present : ∀ id report key, .arrived id report ∈ history → report.stopped = false →
    (∀ n, During history line id n → (stateAt line n key).isSome = true) →
      report.visited.countP (·.1 == key) = 1
  /-- A key that has none throughout is not visited. -/
  absent : ∀ id report key, .arrived id report ∈ history →
    (∀ n, During history line id n → stateAt line n key = none) →
      ∀ p ∈ report.visited, (p.1 == key) = false

end Traversed

variable [BEq K] [BEq V]

/-! ## Sightings on record -/

namespace World

/-- What a sighting says of the world in which it was made. The traversals began in the worlds
`start`. -/
def Told (start : TourId → World K V) (w : World K V) : Sighting K V → Prop
  | .call (.invoked id _ _) => w.chronicle.issued = id
  | .call (.answered id answer) => ∃ horizon, w.chronicle.Recorded id answer horizon
  | .departed id => w = start id
  | .arrived id report => (start id).Reports report w

/-- The sightings so far, with the worlds in which they were made. -/
structure Logged (start : TourId → World K V) (log : List (Sighting K V × World K V))
    (w : World K V) : Prop where
  ordered : log.Pairwise fun x y => x.2.Grows y.2
  past : ∀ x ∈ log, x.2.Sound ∧ x.2.Grows w
  told : ∀ x ∈ log, x.2.Told start x.1

variable {start : TourId → World K V} {log : List (Sighting K V × World K V)} {w w' : World K V}

namespace Logged

/-- What was seen stays on record in every later world. -/
theorem grows (h : Logged start log w) (hg : w.Grows w') : Logged start log w' :=
  ⟨h.ordered, fun x hx => ⟨(h.past x hx).1, (h.past x hx).2.trans hg⟩, h.told⟩

/-- What is told of the world of now may be added to the record. -/
theorem concat (h : Logged start log w) (hw : w.Sound) {x : Sighting K V} (hx : w.Told start x) :
    Logged start (log ++ [(x, w)]) w where
  ordered := by
    refine List.pairwise_append.2 ⟨h.ordered, List.pairwise_singleton _ _, fun y hy z hz => ?_⟩
    obtain rfl := List.mem_singleton.1 hz
    exact (h.past y hy).2
  past y hy := by
    rcases List.mem_append.1 hy with hy | hy
    · exact h.past y hy
    · obtain rfl := List.mem_singleton.1 hy
      exact ⟨hw, .refl w⟩
  told y hy := by
    rcases List.mem_append.1 hy with hy | hy
    · exact h.told y hy
    · obtain rfl := List.mem_singleton.1 hy
      exact hx

/-- A traversal that was not seen so far may begin in any world. -/
theorem depart (h : Logged start log w) {id : TourId}
    (hid : ∀ x ∈ log, x.1 ≠ .departed id ∧ ∀ report, x.1 ≠ .arrived id report) (w₀ : World K V) :
    Logged (Function.update start id w₀) log w := by
  refine ⟨h.ordered, h.past, fun x hx => ?_⟩
  have hold := h.told x hx
  obtain ⟨hdep, harr⟩ := hid x hx
  obtain ⟨(o | other | ⟨other, report⟩), w₁⟩ := x
  · cases o <;> exact hold
  · have hne : other ≠ id := fun heq => hdep (by rw [heq])
    simp only [Told, Function.update_of_ne hne]
    exact hold
  · have hne : other ≠ id := fun heq => harr report (by rw [heq])
    simp only [Told, Function.update_of_ne hne]
    exact hold

/-- Of two sightings in a row, the worlds come in the same order. -/
theorem exists_of_sublist (h : Logged start log w) {x y : Sighting K V}
    (hxy : [x, y].Sublist (log.map Prod.fst)) :
    ∃ w₁ w₂, (x, w₁) ∈ log ∧ (y, w₂) ∈ log ∧ w₁.Grows w₂ := by
  obtain ⟨pair, hpair, heq⟩ := List.sublist_map_iff.1 hxy
  obtain ⟨a, rest, rfl, rfl, hrest⟩ := List.map_eq_cons_iff.1 heq.symm
  obtain ⟨b, last, rfl, rfl, hlast⟩ := List.map_eq_cons_iff.1 hrest
  obtain rfl := List.map_eq_nil_iff.1 hlast
  have hgrows := List.pairwise_iff_forall_sublist.1 h.ordered hpair
  exact ⟨a.2, b.2, hpair.subset (by simp), hpair.subset (by simp), hgrows⟩

end Logged

end World

namespace Crowd

open World

/-- What has to hold of a thread and its errand. -/
def Carried (order : Enumeration K) (start : TourId → World K V) (stage : TourId → Stage K V)
    (t : ThreadId) (w : World K V) : Option (Errand K V) → Prop
  | none => w.shared.holder ≠ some t
  | some (.call id p) => p.wp order t
      (fun answer w' => ∃ k : Ticket K V, k.id = id ∧ w'.Outside t (some (k.closed answer))) w
  | some (.tour id p) => stage id = .travelling t ∧ p.wp order t ((start id).Travels t) w

/-- A sound world has the crowd's shared state, and what the observer has seen is on record. -/
structure Documented (S : Crowd K V) (start : TourId → World K V)
    (log : List (Sighting K V × World K V)) (w : World K V) : Prop where
  shared : w.shared = S.shared
  sound : w.Sound
  rules : w.rules = ⟨fun _ => True, True⟩
  made : w.chronicle.issued = S.made
  attests : w.Attests (S.history.filterMap Sighting.call?)
  history : log.map Prod.fst = S.history
  logged : Logged start log w
  fresh : ∀ id, S.begun ≤ id → S.stage id = .unknown
  departed : ∀ id, .departed id ∈ S.history → S.stage id ≠ .unknown
  arrived : ∀ id report, .arrived id report ∈ S.history → S.stage id = .arrived report
  apart : S.history.Pairwise Sighting.Apart
  waiting : ∀ id next, S.stage id = .waiting next → (start id).Waiting next w

/-- Moreover, each thread is carried on properly. -/
def Backed (order : Enumeration K) (S : Crowd K V) (w : World K V) : Prop :=
  ∃ start log, S.Documented start log w ∧ ∀ t, Carried order start S.stage t w (S.running t)

variable {order : Enumeration K} {S : Crowd K V} {start : TourId → World K V}
  {log : List (Sighting K V × World K V)} {stage stage' : TourId → Stage K V} {w w' : World K V}
  {t u : ThreadId} {e : Option (Errand K V)} {id : TourId}

/-! ### Threads -/

/-- A thread is carried on as before after the steps of the others. -/
theorem Carried.rely (h : Carried order start stage t w e) (hr : w.Rely t w') :
    Carried order start stage t w' e := by
  match e with
  | none => exact fun hheld => h (hr.along.holder.1 hheld)
  | some (.call id p) =>
      refine Program.wp_rely h hr ?_
      rintro answer w₁ w₂ ⟨k, hk, hout⟩ hr
      exact ⟨k, hk, hout.rely hr⟩
  | some (.tour id p) =>
      exact ⟨h.1, Program.wp_rely h.2 hr fun l w₁ w₂ htravels hr => htravels.rely hr⟩

/-- Only the stage and the beginning of its own traversal matter to a thread. -/
theorem Carried.congr (h : Carried order start stage t w e) {start' : TourId → World K V}
    (hown : ∀ id, stage id = .travelling t → stage' id = stage id ∧ start' id = start id) :
    Carried order start' stage' t w e := by
  match e with
  | none => exact h
  | some (.call id p) => exact h
  | some (.tour id p) =>
      obtain ⟨hstage, hstart⟩ := hown id h.1
      exact ⟨hstage.trans h.1, hstart ▸ h.2⟩

/-- A step of the errand is one that its thread may take, and the thread is carried on from
there. -/
theorem Carried.step {x x' : Errand K V} {s' : Shared K V}
    (h : Carried order start stage t w (some x)) (hw : w.Sound)
    (hstep : x.step order t w.shared = some (x', s')) :
    w.Reaches t s' fun w' => Carried order start stage t w' (some x') := by
  cases x with
  | call id p =>
      simp only [Errand.step, Option.map_eq_some_iff, Prod.mk.injEq] at hstep
      obtain ⟨r, hstep, rfl, rfl⟩ := hstep
      exact Program.wp_step h hw hstep
  | tour id p =>
      simp only [Errand.step, Option.map_eq_some_iff, Prod.mk.injEq] at hstep
      obtain ⟨r, hstep, rfl, rfl⟩ := hstep
      exact (Program.wp_step h.2 hw hstep).mono fun w' hp' => ⟨h.1, hp'⟩

/-- The others are carried on as before, whatever a thread is assigned. -/
theorem carried_assign (hothers : ∀ u, u ≠ t → Carried order start stage u w (S.running u))
    (he : Carried order start stage t w e) (u : ThreadId) :
    Carried order start stage u w ((S.assign t e).running u) := by
  by_cases hu : u = t
  · subst hu
    simpa only [assign, Function.update_self] using he
  · simpa only [assign, Function.update_of_ne hu] using hothers u hu

/-- A thread on its way has a traversal to itself, which comes to another stage at its hands. -/
theorem Carried.setStage (h : Carried order start stage u w e) (hu : u ≠ t)
    (hid : stage id = .travelling t) (x : Stage K V) :
    Carried order start (Function.update stage id x) u w e := by
  refine h.congr fun other hother => ⟨Function.update_of_ne ?_ _ _, rfl⟩
  rintro rfl
  exact hu (Stage.travelling.inj (hother.symm.trans hid))

/-! ### The record -/

namespace Documented

/-- What the observer has seen does not depend on what a thread is busy with. -/
theorem assign (h : S.Documented start log w) (t : ThreadId) (e : Option (Errand K V)) :
    (S.assign t e).Documented start log w :=
  { h with }

/-- A step by which no call is made. -/
theorem grows (h : S.Documented start log w) (hg : w.Grows w') (hw' : w'.Sound)
    (hissued : w'.chronicle.issued = w.chronicle.issued) :
    ({ S with shared := w'.shared } : Crowd K V).Documented start log w' :=
  { h with
    shared := rfl
    sound := hw'
    rules := hg.rules.trans h.rules
    made := hissued.trans h.made
    attests := h.attests.grows hg hissued
    logged := h.logged.grows hg
    waiting := fun id next hid => (h.waiting id next hid).grows hg }

/-- A traversal that has not arrived comes to another stage. -/
theorem setStage (h : S.Documented start log w) (x : Stage K V)
    (hid : ∀ report, S.stage id ≠ .arrived report) (hlt : id < S.begun) (hx : x ≠ .unknown)
    (hwaiting : ∀ next, x = .waiting next → (start id).Waiting next w) :
    (S.setStage id x).Documented start log w := by
  have hself : (S.setStage id x).stage id = x := Function.update_self _ _ _
  have hother : ∀ other, other ≠ id → (S.setStage id x).stage other = S.stage other :=
    fun other hne => Function.update_of_ne hne _ _
  refine { h with fresh := ?_, departed := ?_, arrived := ?_, waiting := ?_ }
  · intro other hle
    have hne : other ≠ id := fun heq => Nat.not_le.2 hlt (heq ▸ hle)
    exact (hother other hne).trans (h.fresh other hle)
  · intro other hdep
    -- What was seen of this traversal is borne out by its new stage, and the others are at their
    -- old ones.
    by_cases heq : other = id
    · subst heq
      rwa [hself]
    · rw [hother other heq]
      exact h.departed other hdep
  · intro other report harr
    have hover := h.arrived other report harr
    have hne : other ≠ id := fun heq => hid report (heq ▸ hover)
    exact (hother other hne).trans hover
  · intro other next hstage
    by_cases heq : other = id
    · subst heq
      exact hwaiting next (hself.symm.trans hstage)
    · exact h.waiting other next ((hother other heq).symm.trans hstage)

/-- A traversal that is under way or waits has begun. -/
theorem lt_begun (h : S.Documented start log w) (hid : S.stage id ≠ .unknown) : id < S.begun := by
  by_contra hle
  exact hid (h.fresh id (Nat.le_of_not_lt hle))

/-- The observer sees what the record bears out. -/
theorem see (h : S.Documented start log w) {x : Sighting K V}
    (hattests : w.Attests ((S.history ++ [x]).filterMap Sighting.call?)) (htold : w.Told start x)
    (hdeparted : ∀ id, x = .departed id → S.stage id ≠ .unknown)
    (harrived : ∀ id report, x = .arrived id report → S.stage id = .arrived report)
    (hapart : ∀ y ∈ S.history, y.Apart x) :
    (S.see x).Documented start (log ++ [(x, w)]) w := by
  refine { h with
    attests := hattests, history := ?_, logged := h.logged.concat h.sound htold
    departed := ?_, arrived := ?_
    apart := List.pairwise_append.2 ⟨h.apart, List.pairwise_singleton _ _, by simpa using hapart⟩ }
  · rw [List.map_append, h.history]
    rfl
  · intro id hid
    rcases List.mem_append.1 hid with hid | hid
    · exact h.departed id hid
    · exact hdeparted id (List.mem_singleton.1 hid).symm
  · intro id report hid
    rcases List.mem_append.1 hid with hid | hid
    · exact h.arrived id report hid
    · exact harrived id report (List.mem_singleton.1 hid).symm

/-- An answer that a call has got may be seen. -/
theorem answer (h : S.Documented start log w) {k : Ticket K V} {answer : Answer V}
    (hout : w.Outside t (some (k.closed answer))) :
    (S.see (.call (.answered k.id answer))).Documented start
      (log ++ [(Sighting.call (.answered k.id answer), w)]) w := by
  refine h.see ?_ ?_ (by simp) (by simp) (by simp [Sighting.Apart])
  · have hattests := h.attests.answer (.refl w) rfl h.sound hout
    rwa [List.filterMap_append]
  · obtain ⟨horizon, -, hrec⟩ := (h.sound.docket.tickets t _ hout.ticket).2.2
    exact ⟨horizon, hrec⟩

/-- A traversal that is over may be seen to arrive, once. -/
theorem arrive (h : S.Documented start log w) {report : Report K V}
    (hid : S.stage id = .travelling t) (hreports : (start id).Reports report w) :
    ((S.setStage id (.arrived report)).see (.arrived id report)).Documented start
      (log ++ [(Sighting.arrived id report, w)]) w := by
  have hlt : id < S.begun := h.lt_begun (by simp [hid])
  refine (h.setStage (.arrived report) (by simp [hid]) hlt (by simp) (by simp)).see ?_ hreports
    (by simp) ?_ ?_
  · rw [List.filterMap_append]
    exact (List.append_nil _).symm ▸ h.attests
  · intro other report' heq
    obtain ⟨rfl, rfl⟩ := Sighting.arrived.inj heq
    exact Function.update_self _ _ _
  · rintro y hy other r r' rfl heq
    obtain ⟨rfl, rfl⟩ := Sighting.arrived.inj heq
    have hover := h.arrived id r hy
    simp [hid] at hover

/-- A call may be seen to be made. -/
theorem invoke (h : S.Documented start log w) (t : ThreadId) (r : Request K V) :
    ({ S with made := S.made + 1 }.see (.call (.invoked S.made t r))).Documented start
      (log ++ [(Sighting.call (.invoked S.made t r), w)]) (w.issue t r) := by
  have hg := h.sound.grows_issue t r
  -- the sighting is made while the call has no name yet
  have hlogged := (h.logged.concat h.sound (x := .call (.invoked S.made t r)) h.made).grows hg
  refine ⟨h.shared, h.sound.issue t (by rw [h.rules]; trivial), h.rules, ?_, ?_, ?_, hlogged,
    h.fresh, fun id hid => h.departed id ?_, fun id report hid => h.arrived id report ?_, ?_,
    fun id next hid => (h.waiting id next hid).grows hg⟩
  · show (w.issue t r).chronicle.issued = S.made + 1
    rw [← h.made]
    exact w.chronicle.issued_issue r
  · have hattests := h.attests.invoke h.sound t r
    rw [h.made] at hattests
    show (w.issue t r).Attests ((S.history ++ [_]).filterMap _)
    rwa [List.filterMap_append]
  · rw [List.map_append, h.history]
    rfl
  · simpa [Crowd.see] using hid
  · simpa [Crowd.see] using hid
  · exact List.pairwise_append.2 ⟨h.apart, List.pairwise_singleton _ _, by simp [Sighting.Apart]⟩

/-- A traversal may be seen to depart, under a name that was not used before. -/
theorem depart (h : S.Documented start log w) (t : ThreadId) :
    (({ S with begun := S.begun + 1 }.setStage S.begun (.travelling t)).see
        (.departed S.begun)).Documented (Function.update start S.begun w)
      (log ++ [(Sighting.departed S.begun, w)]) w := by
  have hfresh : S.stage S.begun = .unknown := h.fresh S.begun (Nat.le_refl _)
  have hunseen : ∀ x ∈ log, x.1 ≠ .departed S.begun ∧ ∀ report, x.1 ≠ .arrived S.begun report := by
    intro x hx
    have hmem : x.1 ∈ S.history := h.history ▸ List.mem_map_of_mem hx
    refine ⟨fun heq => h.departed S.begun (heq ▸ hmem) hfresh, fun report heq => ?_⟩
    have hover := h.arrived S.begun report (heq ▸ hmem)
    simp [hfresh] at hover
  -- The name is new, so nothing on record depends on where its traversal begins.
  have hbegun : ({ S with begun := S.begun + 1 } : Crowd K V).Documented
      (Function.update start S.begun w) log w := by
    refine { h with
      logged := h.logged.depart hunseen w
      fresh := fun id hid => h.fresh id (Nat.le_of_succ_le hid)
      waiting := fun id next hid => ?_ }
    have hne : id ≠ S.begun := by
      rintro rfl
      simp [hfresh] at hid
    rw [Function.update_of_ne hne]
    exact h.waiting id next hid
  refine (hbegun.setStage (.travelling t) (by simp [hfresh]) (Nat.lt_succ_self _) (by simp)
    (by simp)).see ?_ ?_ ?_ (by simp) (by simp [Sighting.Apart])
  · rw [List.filterMap_append]
    exact (List.append_nil _).symm ▸ h.attests
  · show w = Function.update start S.begun w S.begun
    rw [Function.update_self]
  · intro id heq
    obtain rfl := Sighting.departed.inj heq
    simp [Crowd.setStage]

/-- A thread that is carried on properly goes on with its errand. -/
theorem proceed (h : S.Documented start log w)
    (hothers : ∀ u, u ≠ t → Carried order start S.stage u w (S.running u)) {x : Errand K V}
    (hx : Carried order start S.stage t w (some x)) : (S.proceed t x).Backed order w := by
  cases x with
  | call id p =>
      simp only [Crowd.proceed]
      split
      · exact ⟨start, log, h.assign t _, carried_assign hothers hx⟩
      -- The call is answered, and the answer is seen.
      · next answer hres =>
        obtain rfl := Program.eq_done_of_result? hres
        obtain ⟨k, rfl, hout⟩ := hx
        exact ⟨start, _, (h.assign t none).answer hout, carried_assign hothers hout.holder⟩
  | tour id p =>
      have hstage := hx.1
      have hstaged : ∀ x u, u ≠ t →
          Carried order start (Function.update S.stage id x) u w (S.running u) :=
        fun x u hu => (hothers u hu).setStage hu hstage x
      simp only [Crowd.proceed]
      split
      · exact ⟨start, log, h.assign t _, carried_assign hothers hx⟩
      -- The traversal has come to a visit, and waits for its visitor.
      · next key held next hres =>
        obtain rfl := Program.eq_done_of_result? hres
        obtain ⟨-, hout, hwaiting⟩ := hx
        have hlt : id < S.begun := h.lt_begun (by simp [hstage])
        refine ⟨start, log, (h.assign t none).setStage (.waiting next)
          (by simp [Crowd.assign, hstage]) hlt (by simp) fun next' heq => ?_,
          carried_assign (hstaged _) hout⟩
        exact Stage.waiting.inj heq ▸ hwaiting
      -- The traversal is over, and its report is seen.
      · next report hres =>
        obtain rfl := Program.eq_done_of_result? hres
        obtain ⟨-, hout, hreports⟩ := hx
        exact ⟨start, _, (h.assign t none).arrive hstage hreports,
          carried_assign (hstaged _) hout⟩

end Documented

/-! ### Turns -/

variable [EquivBEq K]

/-- An idle thread may make a call. -/
theorem Backed.invoke (h : S.Backed order w) (r : Request K V) (ht : S.running t = none) :
    ∃ w', (S.turn order (.invoke t r)).Backed order w' := by
  obtain ⟨start, log, h, hthreads⟩ := h
  simp only [turn, ht]
  refine ⟨w.issue t r, (h.invoke t r).proceed (fun u hu => ?_) ?_⟩
  · exact (hthreads u).rely (h.sound.rely_issue hu r)
  · have hfree := hthreads t
    rw [ht] at hfree
    exact Program.wp_request ⟨issue_tickets_self w t r, hfree⟩ rfl fun answer w' hout =>
      ⟨_, h.made, hout⟩

/-- An idle thread may depart on a traversal. -/
theorem Backed.depart (h : S.Backed order w) (ht : S.running t = none) :
    (S.turn order (.depart t)).Backed order w := by
  obtain ⟨start, log, h, hthreads⟩ := h
  simp only [turn, ht]
  refine (h.depart t).proceed (fun u hu => ?_) ⟨Function.update_self _ _ _, ?_⟩
  · refine (hthreads u).congr fun id hid => ?_
    have hne : id ≠ S.begun := Nat.ne_of_lt (h.lt_begun (by simp [hid]))
    exact ⟨Function.update_of_ne hne _ _, Function.update_of_ne hne _ _⟩
  · have hfree := hthreads t
    rw [ht] at hfree
    rw [Function.update_self]
    exact Program.wp_traversal hfree

/-- An idle thread may go on with a traversal that waits for its visitor. -/
theorem Backed.resume (h : S.Backed order w) {next : Bool → Tour K V (Report K V)}
    (ht : S.running t = none) (hid : S.stage id = .waiting next) (goOn : Bool) :
    (S.turn order (.resume t id goOn)).Backed order w := by
  obtain ⟨start, log, h, hthreads⟩ := h
  simp only [turn, ht, hid]
  have hlt : id < S.begun := h.lt_begun (by simp [hid])
  refine (h.setStage (.travelling t) (by simp [hid]) hlt (by simp) (by simp)).proceed
    (fun u _ => ?_) ⟨Function.update_self _ _ _, ?_⟩
  · refine (hthreads u).congr fun other hother => ⟨Function.update_of_ne ?_ _ _, rfl⟩
    rintro rfl
    simp [hid] at hother
  · have hfree := hthreads t
    rw [ht] at hfree
    exact Program.wp_onward (h.waiting id next hid) goOn hfree

omit [EquivBEq K] in
/-- A thread may take its next step. -/
theorem Backed.step (h : S.Backed order w) (t : ThreadId) :
    ∃ w', (S.turn order (.step t)).Backed order w' := by
  have hback := h
  obtain ⟨start, log, h, hthreads⟩ := h
  simp only [turn]
  split
  · exact ⟨w, hback⟩
  · next x hx =>
    split
    · exact ⟨w, hback⟩
    · next x' s' hstep =>
      rw [← h.shared] at hstep
      have hcarried := hthreads t
      rw [hx] at hcarried
      obtain ⟨w', rfl, hw', hg, hcarried'⟩ := hcarried.step h.sound hstep
      have hissued := hg.calls (by rw [h.rules]; trivial)
      exact ⟨w', (h.grows hg.grows hw' hissued).proceed
        (fun u hu => (hthreads u).rely (hg.rely hu)) hcarried'⟩

/-- Every turn keeps a crowd backed. -/
theorem Backed.turn (h : S.Backed order w) (x : Move K V) :
    ∃ w', (S.turn order x).Backed order w' := by
  cases x with
  | step t => exact h.step t
  -- A turn of a thread that is busy changes nothing, nor does one for a traversal that does not
  -- wait.
  | invoke t r =>
      cases ht : S.running t with
      | none => exact h.invoke r ht
      | some e => exact ⟨w, by simpa only [Crowd.turn, ht] using h⟩
  | depart t =>
      cases ht : S.running t with
      | none => exact ⟨w, h.depart ht⟩
      | some e => exact ⟨w, by simpa only [Crowd.turn, ht] using h⟩
  | resume t id goOn =>
      cases ht : S.running t with
      | some e => exact ⟨w, by simpa only [Crowd.turn, ht] using h⟩
      | none =>
          cases hid : S.stage id with
          | waiting next => exact ⟨w, h.resume ht hid goOn⟩
          | unknown => exact ⟨w, by simpa only [Crowd.turn, ht, hid] using h⟩
          | travelling u => exact ⟨w, by simpa only [Crowd.turn, ht, hid] using h⟩
          | arrived report => exact ⟨w, by simpa only [Crowd.turn, ht, hid] using h⟩

omit [EquivBEq K] in
/-- A crowd begins with a map that was never written. -/
theorem backed_start (order : Enumeration K) :
    (Crowd.start : Crowd K V).Backed order (.start ⟨fun _ => True, True⟩) := by
  refine ⟨fun _ => .start ⟨fun _ => True, True⟩, [], ?_, fun t => ?_⟩
  · exact ⟨rfl, sound_start _, rfl, rfl, attests_start _, rfl, ⟨.nil, by simp, by simp⟩,
      fun _ _ => rfl, by simp [Crowd.start], by simp [Crowd.start], .nil, by simp [Crowd.start]⟩
  · simp [Carried, Crowd.start, World.start, Shared.initial]

/-- Whatever the turns are, a sound world backs the crowd. -/
theorem exists_backed_run (order : Enumeration K) (turns : List (Move K V)) :
    ∃ w, (run order turns).Backed order w := by
  suffices hfold : ∀ (S : Crowd K V) (w : World K V), S.Backed order w →
      ∃ w', (turns.foldl (Crowd.turn order) S).Backed order w' from hfold _ _ (backed_start order)
  induction turns with
  | nil => exact fun S w h => ⟨w, h⟩
  | cons x turns ih =>
      intro S w h
      obtain ⟨w', h'⟩ := h.turn x
      exact ih _ w' h'

/-! ### Places -/

omit [EquivBEq K] in
/-- An arrival is in the log once. -/
theorem Documented.arrival_eq (h : S.Documented start log w) {report report' : Report K V}
    {w₁ w₂ : World K V} (h₁ : (.arrived id report, w₁) ∈ log)
    (h₂ : (.arrived id report', w₂) ∈ log) : report = report' ∧ w₁ = w₂ := by
  by_contra hne
  have hapart : log.Pairwise fun x y => x.1.Apart y.1 :=
    List.pairwise_map.1 (h.history ▸ h.apart)
  have : Std.Symm fun x y : Sighting K V × World K V => x.1.Apart y.1 :=
    ⟨fun x y hxy other r r' hy hx => hxy other r' r hx hy⟩
  refine hapart.forall h₁ h₂ (fun heq => hne ?_) id report report' rfl rfl
  obtain ⟨hfst, hsnd⟩ := Prod.mk.inj heq
  exact ⟨(Sighting.arrived.inj hfst).2, hsnd⟩

/-- The line with the names of the calls. -/
def lineOf (w : World K V) : List (CallId × Call K V) :=
  w.chronicle.line.map fun d => (d.id, d.toCall)

/-- Between worlds `w₀` and `w₁` there is a moment at place `p` of the line, at which the key has
what is reported. -/
def Placed (w₀ w₁ w : World K V) (report : Report K V) (key : K) (p : Nat) : Prop :=
  ∃ j n, w₀.Moment w₁ j n ∧ w.chronicle.place j n = p ∧
    (report.stopped = false ∨ (report.outcome key).isSome = true →
      w₁.chronicle.stateAt j n key = report.outcome key)

/-- Every arrival has a place in the line for each key. -/
theorem Documented.exists_place (h : S.Documented start log w) : ∃ place : TourId → K → Nat,
    ∀ id report w₁, (.arrived id report, w₁) ∈ log → ∀ key,
      Placed (start id) w₁ w report key (place id key) := by
  have hplace : ∀ (id : TourId) (key : K), ∃ p, ∀ report w₁, (.arrived id report, w₁) ∈ log →
      Placed (start id) w₁ w report key p := by
    intro id key
    by_cases harr : ∃ report w₁, (.arrived id report, w₁) ∈ log
    · obtain ⟨report, w₁, hmem⟩ := harr
      have hreports : (start id).Reports report w₁ := h.logged.told _ hmem
      obtain ⟨j, n, hmoment, hheld⟩ := hreports.exists_moment key
      refine ⟨w.chronicle.place j n, fun report' w₁' hmem' => ?_⟩
      obtain ⟨rfl, rfl⟩ := h.arrival_eq hmem hmem'
      exact ⟨j, n, hmoment, rfl, hheld⟩
    · exact ⟨0, fun report w₁ hmem => absurd ⟨report, w₁, hmem⟩ harr⟩
  choose place hplace using hplace
  exact ⟨place, fun id report w₁ hmem key => hplace id key report w₁ hmem⟩

omit [EquivBEq K] in
/-- Whatever was seen is on record with the world in which it was seen. -/
theorem Documented.exists_mem_log (h : S.Documented start log w) {x : Sighting K V}
    (hx : x ∈ S.history) : ∃ w₁, (x, w₁) ∈ log := by
  rw [← h.history] at hx
  obtain ⟨⟨y, w₁⟩, hy, rfl⟩ := List.mem_map.1 hx
  exact ⟨w₁, hy⟩

omit [EquivBEq K] in
/-- What comes before the departure and after the arrival. -/
theorem Documented.during (h : S.Documented start log w) {report : Report K V} {w₁ : World K V}
    (hmem : (.arrived id report, w₁) ∈ log) {j n : Nat} (hm : (start id).Moment w₁ j n) :
    During S.history (lineOf w) id (w.chronicle.place j n) := by
  obtain ⟨hw₁, hg⟩ := h.logged.past _ hmem
  obtain ⟨rest, htouring, -⟩ : (start id).Reports report w₁ := h.logged.told _ hmem
  refine ⟨?_, fun c answer hbefore => ?_, fun report' c t r hafter x hx => ?_⟩
  · rw [lineOf, List.length_map]
    exact hm.place_le_length hg
  -- An answer that was seen before the departure is on record in the world where the traversal
  -- began.
  · rw [← h.history] at hbefore
    obtain ⟨wa, wd, ha, hd, hga⟩ := h.logged.exists_of_sublist hbefore
    obtain ⟨horizon, hrec⟩ := h.logged.told _ ha
    obtain rfl : wd = start id := h.logged.told _ hd
    have hrec' := hga.recorded c answer horizon hrec
    obtain ⟨d, hd', hid⟩ :=
      hm.exists_before htouring.since hg (h.logged.past _ hd).1 hrec'
    refine ⟨(d.id, d.toCall), ?_, hid⟩
    rw [lineOf, ← List.map_take]
    exact List.mem_map_of_mem hd'
  -- A call that was seen after the arrival was made in a later world than the one of the arrival.
  · rw [← h.history] at hafter
    obtain ⟨wa, wi, ha, hi, hgi⟩ := h.logged.exists_of_sublist hafter
    obtain rfl := (h.arrival_eq hmem ha).2
    obtain rfl : wi.chronicle.issued = c := h.logged.told _ hi
    rw [lineOf, ← List.map_take] at hx
    obtain ⟨d, hd, rfl⟩ := List.mem_map.1 hx
    exact Nat.ne_of_lt (Nat.lt_of_lt_of_le (hm.lt_issued hg hw₁ h.sound hd) hgi.issued)

/-- Places that come from the record have all that is asked of them. -/
theorem Documented.traversed (h : S.Documented start log w) {place : TourId → K → Nat}
    (hplace : ∀ id report w₁, (.arrived id report, w₁) ∈ log → ∀ key,
      Placed (start id) w₁ w report key (place id key)) :
    Traversed S.history (lineOf w) place := by
  have hduring : ∀ id report key, .arrived id report ∈ S.history →
      During S.history (lineOf w) id (place id key) := by
    intro id report key harr
    obtain ⟨w₁, hmem⟩ := h.exists_mem_log harr
    obtain ⟨j, n, hm, hp, -⟩ := hplace id report w₁ hmem key
    exact hp ▸ h.during hmem hm
  have hfound : ∀ id report key, .arrived id report ∈ S.history →
      report.stopped = false ∨ (report.outcome key).isSome = true →
        stateAt (lineOf w) (place id key) key = report.outcome key := by
    intro id report key harr hkey
    obtain ⟨w₁, hmem⟩ := h.exists_mem_log harr
    obtain ⟨j, n, hm, hp, hheld⟩ := hplace id report w₁ hmem key
    have hg := (h.logged.past _ hmem).2
    rw [← hheld hkey, ← hp, stateAt, lineOf, ← List.map_take, List.map_map]
    exact congrFun (hm.after_take hg h.sound) key
  have honce : ∀ id report, .arrived id report ∈ S.history →
      report.visited.Pairwise fun a b => (a.1 == b.1) = false := by
    intro id report harr
    obtain ⟨w₁, hmem⟩ := h.exists_mem_log harr
    have hreports : (start id).Reports report w₁ := h.logged.told _ hmem
    exact hreports.once
  refine ⟨fun id report report' harr harr' => ?_, hduring, hfound, ?_, honce, ?_, ?_⟩
  -- A traversal has one arrival.
  · obtain ⟨w₁, hmem⟩ := h.exists_mem_log harr
    obtain ⟨w₂, hmem'⟩ := h.exists_mem_log harr'
    exact (h.arrival_eq hmem hmem').1
  -- One traversal arrived before the other departed, and so did the moments of their keys.
  · intro id id' report report' key key' hseq harr'
    rw [← h.history] at hseq
    obtain ⟨w₁, w₂, harr, hdep, hg⟩ := h.logged.exists_of_sublist hseq
    obtain ⟨w₃, hmem'⟩ := h.exists_mem_log harr'
    obtain rfl : w₂ = start id' := h.logged.told _ hdep
    obtain ⟨j, n, hm, hp, -⟩ := hplace id report w₁ harr key
    obtain ⟨j', n', hm', hp', -⟩ := hplace id' report' w₃ hmem' key'
    rw [← hp, ← hp']
    exact hm.place_le hg hm' (h.logged.past _ harr).2
  -- Visited at least once, as the key has a value at its place, and at most once anyhow.
  · intro id report key harr hgoes hsome
    refine (honce id report harr |> report.countP_of_outcome) ?_
    rw [← hfound id report key harr (.inl hgoes)]
    exact hsome _ (hduring id report key harr)
  -- A visited key has a value at its place.
  · intro id report key harr hnone p hp
    by_contra hkey
    have hsome := report.outcome_isSome hp (by simpa using hkey)
    have hheld := hfound id report key harr (.inr hsome)
    rw [hnone _ (hduring id report key harr)] at hheld
    simp [← hheld] at hsome

/-- Whatever the threads call and wherever they travel, and however their steps interleave: the
calls have a linearization in which each traversal reads each key at one place between its departure
and its arrival. -/
theorem run_traversed (order : Enumeration K) (turns : List (Move K V)) :
    ∃ line, Linearization ((run order turns).history.filterMap Sighting.call?) line ∧
      ∃ place, Traversed (run order turns).history line place := by
  obtain ⟨w, start, log, h, -⟩ := exists_backed_run order turns
  obtain ⟨place, hplace⟩ := h.exists_place
  exact ⟨lineOf w, h.attests.linearization h.sound, place, h.traversed hplace⟩

/-- The map is cleared and written again while a visitor is at work: the traversal goes on with the
cell that the map has dropped. -/
theorem run_traversed_clear :
    ∃ turns : List (Move Nat Nat), (run .insertion turns).history =
        [.call (.invoked 0 0 (.store 1 10)), .call (.answered 0 .finished),
          .call (.invoked 1 0 (.store 2 20)), .call (.answered 1 .finished), .departed 0,
          .call (.invoked 2 1 .clear), .call (.answered 2 .finished),
          .call (.invoked 3 1 (.store 2 21)), .call (.answered 3 .finished),
          .arrived 0 ⟨[(1, ⟨1, 10⟩), (2, ⟨2, 20⟩)], false⟩] ∧
      ∃ line, Linearization ((run .insertion turns).history.filterMap Sighting.call?) line ∧
        ∃ place, Traversed (run .insertion turns).history line place := by
  refine ⟨.invoke 0 (.store 1 10) :: List.replicate 14 (.step 0) ++
    .invoke 0 (.store 2 20) :: List.replicate 14 (.step 0) ++
    .depart 0 :: List.replicate 11 (.step 0) ++
    .invoke 1 .clear :: List.replicate 7 (.step 1) ++
    .invoke 1 (.store 2 21) :: List.replicate 14 (.step 1) ++
    .resume 0 0 true :: .step 0 :: [.resume 0 0 true], ?_, run_traversed .insertion _⟩
  decide +kernel

end Crowd

end ConcurrentMap
