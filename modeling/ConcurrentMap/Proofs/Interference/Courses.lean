import ConcurrentMap.Proofs.Interference.Accounts
import ConcurrentMap.Proofs.Interference.Touring
import ConcurrentMap.Proofs.Routines

/-!
# Routines among others

What a thread that carries a routine out knows in the end is the list of its calls, and what its
surveys showed. `World.Course` is this record: it follows the routine, call by call, and for each
survey it keeps the worlds between which the survey was made, because only the whole line tells what
the survey saw. `Program.wp_routine` says that the program of a routine leaves such a record behind,
whatever the others do.
-/

namespace ConcurrentMap

variable {K V : Type} [BEq K] [BEq V]

omit [BEq K] [BEq V] in
/-- What was visited. -/
def Visit.pair (v : Visit K V) : K × Handle V := (v.key, v.held)

namespace World

/-! ## Between two calls -/

/-- The thread is between two calls, and since the calls `past` it has made those of `log`. -/
structure Keeping (t : ThreadId) (past : List CallId) (log : List (Deed K V)) (w : World K V) :
    Prop where
  sound : w.Sound
  holder : w.shared.holder ≠ some t
  rules : w.rules = ⟨fun _ => True, False⟩
  remembers : w.Remembers log
  calls : w.callsOf t = past ++ log.map (·.id)

variable {w₀ w₁ w₂ w w' : World K V} {t : ThreadId} {past : List CallId} {log : List (Deed K V)}

namespace Keeping

/-- Between two calls the thread is outside the mutex. -/
theorem outside (h : w.Keeping t past log) : w.Outside t (w.tickets t) := ⟨rfl, h.holder⟩

/-- The record lasts as long as the thread's calls stay the same. -/
theorem grows (h : w.Keeping t past log) (hg : w.Grows w') (hw' : w'.Sound)
    (hout : w'.Outside t (w.tickets t)) : w'.Keeping t past log where
  sound := hw'
  holder := hout.holder
  rules := hg.rules.trans h.rules
  remembers := h.remembers.grows hg
  calls := by rw [callsOf, hout.ticket]; exact h.calls

/-- The record lasts while the others take steps. -/
theorem rely (h : w.Keeping t past log) (hr : w.Rely t w') (hw' : w'.Sound) :
    w'.Keeping t past log :=
  h.grows hr.grows hw' (h.outside.rely hr)

/-- A call that was answered is the next one of the log. -/
theorem answered (h : w.Keeping t past log) {r : Request K V} {answer : Answer V}
    (hg : (w.issue t r).Grows w') (hw' : w'.Sound)
    (hout : w'.Outside t (some ⟨w.chronicle.issued, r, .answered answer, w.callsOf t⟩)) :
    ∃ d : Deed K V, d.tag = (w.chronicle.issued, r, answer) ∧ w'.Keeping t past (log ++ [d]) := by
  obtain ⟨horizon, hhor, hrec⟩ := (hw'.docket.tickets t _ hout.ticket).2.2
  refine ⟨⟨⟨r, 0, answer⟩, w.chronicle.issued, 0, horizon⟩, rfl, hw', hout.holder,
    hg.rules.trans h.rules, h.remembers.concat h.sound hg rfl hhor hrec, ?_⟩
  have hcalls : w'.callsOf t = w.callsOf t ++ [w.chronicle.issued] := by
    rw [callsOf, hout.ticket]
    rfl
  rw [hcalls, h.calls, List.map_append, List.append_assoc]
  rfl

end Keeping

/-! ## The record of a routine -/

/-- A survey was made between the worlds `w₁` and `w₂`. The calls `before` had been answered by
then, those in `later` were made afterwards, as was every call from `fin` on, and those of its
visitor, which are `inner`, only read. -/
structure Survey (w₀ w₁ w₂ w : World K V) (before inner later : List (Tag K V)) (fin : CallId)
    (visits : List (Visit K V)) : Prop where
  since : w₀.Grows w₁
  grows : w₁.Grows w₂
  onward : w₂.Grows w
  first : w₁.Sound
  last : w₂.Sound
  reports : w₁.Reports ⟨visits.map Visit.pair, false⟩ w₂
  answered : ∀ x ∈ before, ∃ horizon, w₁.chronicle.Recorded x.1 x.2.2 horizon
  reads : ∀ x ∈ inner, x.2.1.Reads
  later : ∀ x ∈ later, w₂.chronicle.issued ≤ x.1
  fin : w₂.chronicle.issued ≤ fin

omit [BEq K] [BEq V] in
/-- Of the calls `inner` the visitor made those of `made` in one visit, after those of `before`.
What it called in later visits has names from `fin` on. -/
structure InVisit (inner before made : List (Tag K V)) (fin limit : CallId) : Prop where
  later : ∃ later, inner = before ++ (made ++ later) ∧ ∀ x ∈ later, fin ≤ x.1
  limit : fin ≤ limit

/-- After the calls `before` the thread followed the routine. It made the calls `made` and found
what `found` says, and whatever it calls later has a name from `fin` on. -/
def Course (w₀ w : World K V) (mine : K → Bool) :
    Routine K V → List (Tag K V) → List (Tag K V) → Findings K V → CallId → Prop
  | .stop, _, made, found, _ => made = [] ∧ found = .nil
  | .request r next, before, made, found, fin => ∃ id answer made' found',
    made = (id, r, answer) :: made' ∧ found = .answered answer found' ∧
      Course w₀ w mine (next answer) (before ++ [(id, r, answer)]) made' found' fin
  | .survey visit next, before, made, found, fin => ∃ visits inner made' found' w₁ w₂,
    made = inner ++ made' ∧
      found = .surveyed (Visit.shown mine visits) (Visit.told mine visits) found' ∧
      Survey w₀ w₁ w₂ w before inner made' fin visits ∧
      (∀ v ∈ visits, ∃ l m mid, InVisit inner l m mid w₂.chronicle.issued ∧
        Course w₀ w mine (visit v.key v.held) (before ++ l) m v.found mid) ∧
      Course w₀ w mine (next (Visit.shown mine visits) (Visit.told mine visits))
        (before ++ inner) made' found' fin

variable {mine : K → Bool} {c : Routine K V} {before made : List (Tag K V)} {found : Findings K V}
  {fin : CallId}

/-- The record of a routine lasts. -/
theorem Course.grows (h : w₀.Course w mine c before made found fin) (hg : w.Grows w') :
    w₀.Course w' mine c before made found fin := by
  induction c generalizing before made found fin with
  | stop => exact h
  | request r next ih =>
      obtain ⟨id, answer, made', found', hmade, hfound, h⟩ := h
      exact ⟨id, answer, made', found', hmade, hfound, ih answer h⟩
  | survey visit next ihvisit ih =>
      obtain ⟨visits, inner, made', found', w₁, w₂, hmade, hfound, hsurvey, hvisits, h⟩ := h
      refine ⟨visits, inner, made', found', w₁, w₂, hmade, hfound,
        { hsurvey with onward := hsurvey.onward.trans hg }, fun v hv => ?_, ih _ _ h⟩
      obtain ⟨l, m, mid, hin, hcourse⟩ := hvisits v hv
      exact ⟨l, m, mid, hin, ihvisit _ _ hcourse⟩

/-- From world `w` on the thread followed the routine, and by world `w'` it has made the calls
`made`. -/
structure Stretch (w₀ w : World K V) (t : ThreadId) (past : List CallId)
    (P : Request K V → Prop) (mine : K → Bool) (c : Routine K V) (log made : List (Deed K V))
    (found : Findings K V) (w' : World K V) : Prop where
  grows : w.Grows w'
  keeping : w'.Keeping t past (log ++ made)
  later : ∀ d ∈ made, w.chronicle.issued ≤ d.id
  only : ∀ d ∈ made, P d.request
  course : w₀.Course w' mine c (log.map Deed.tag) (made.map Deed.tag) found w'.chronicle.issued

/-- A request and its answer come before what the thread did then. -/
theorem Stretch.answered {P : Request K V → Prop} {r : Request K V}
    {next : Answer V → Routine K V} {answer : Answer V} {made : List (Deed K V)} {d : Deed K V}
    {id : CallId} (h : w₀.Stretch w₁ t past P mine (next answer) (log ++ [d]) made found w₂)
    (hg : w.Grows w₁) (hid : w.chronicle.issued ≤ id) (hr : P r) (hd : d.tag = (id, r, answer)) :
    w₀.Stretch w t past P mine (.request r next) log (d :: made) (.answered answer found) w₂ := by
  obtain ⟨rfl, rfl, rfl⟩ : d.id = id ∧ d.request = r ∧ d.answer = answer := by
    simpa [Deed.tag] using hd
  have hkeeping := h.keeping
  have hcourse := h.course
  rw [List.append_assoc] at hkeeping
  rw [List.map_append, List.map_singleton] at hcourse
  refine ⟨hg.trans h.grows, hkeeping, fun e he => ?_, fun e he => ?_,
    d.id, d.answer, made.map Deed.tag, found, rfl, rfl, hcourse⟩
  · rcases List.mem_cons.1 he with rfl | he
    · exact hid
    · exact Nat.le_trans hg.issued (h.later e he)
  · rcases List.mem_cons.1 he with rfl | he
    · exact hr
    · exact h.only e he

/-- The thread is between two visits of a survey that began in world `w₁`, and its visitor has made
the calls `inner` so far. -/
structure Surveying (w₀ w₁ : World K V) (t : ThreadId) (past : List CallId)
    (P : Request K V → Prop) (mine : K → Bool) (visit : K → Handle V → Routine K V)
    (log inner : List (Deed K V)) (seen : List (Visit K V)) (rest : List (K × CellId))
    (w : World K V) : Prop where
  touring : w₁.Touring (seen.map Visit.pair) rest w
  keeping : w.Keeping t past (log ++ inner)
  later : ∀ d ∈ inner, w₁.chronicle.issued ≤ d.id
  only : ∀ d ∈ inner, P d.request
  visits : ∀ v ∈ seen, ∃ l m mid, InVisit (inner.map Deed.tag) l m mid w.chronicle.issued ∧
    w₀.Course w mine (visit v.key v.held) (log.map Deed.tag ++ l) m v.found mid

namespace Surveying

variable {P : Request K V → Prop} {visit : K → Handle V → Routine K V}
  {inner made : List (Deed K V)} {seen : List (Visit K V)} {rest : List (K × CellId)}

/-- Between two visits the others may take steps. -/
theorem rely (h : w₀.Surveying w₁ t past P mine visit log inner seen rest w) (hr : w.Rely t w')
    (hw' : w'.Sound) : w₀.Surveying w₁ t past P mine visit log inner seen rest w' where
  touring := h.touring.grows hr.grows
  keeping := h.keeping.rely hr hw'
  later := h.later
  only := h.only
  visits v hv := by
    obtain ⟨l, m, mid, hin, hcourse⟩ := h.visits v hv
    exact ⟨l, m, mid, ⟨hin.later, Nat.le_trans hin.limit hr.grows.issued⟩, hcourse.grows hr.grows⟩

variable [EquivBEq K] {key : K} {cell : CellId} {held : Handle V}

/-- The next entry holds nothing. -/
theorem pass (h : w₀.Surveying w₁ t past P mine visit log inner seen ((key, cell) :: rest) w)
    (hnone : (w.shared.slot cell).handle? = none) :
    w₀.Surveying w₁ t past P mine visit log inner seen rest w :=
  { h with touring := h.touring.pass h.keeping.sound hnone }

/-- The next entry is visited. -/
theorem visited (h : w₀.Surveying w₁ t past P mine visit log inner seen ((key, cell) :: rest) w)
    (hheld : (w.shared.slot cell).handle? = some held) {found : Findings K V}
    (hvisit : w₀.Stretch w t past P mine (visit key held) (log ++ inner) made found w') :
    w₀.Surveying w₁ t past P mine visit log (inner ++ made) (seen ++ [⟨key, held, found⟩]) rest
      w' where
  touring := by
    rw [List.map_append]
    exact (h.touring.visit h.keeping.sound hheld).grows hvisit.grows
  keeping := by
    rw [← List.append_assoc]
    exact hvisit.keeping
  later d hd := by
    rcases List.mem_append.1 hd with hd | hd
    · exact h.later d hd
    · exact Nat.le_trans h.touring.since.issued (hvisit.later d hd)
  only d hd := (List.mem_append.1 hd).elim (h.only d) (hvisit.only d)
  visits v hv := by
    rw [List.map_append]
    rcases List.mem_append.1 hv with hv | hv
    · obtain ⟨l, m, mid, ⟨⟨later, hinner, hlater⟩, hlimit⟩, hcourse⟩ := h.visits v hv
      refine ⟨l, m, mid, ⟨⟨later ++ made.map Deed.tag, ?_, fun x hx => ?_⟩,
        Nat.le_trans hlimit hvisit.grows.issued⟩, hcourse.grows hvisit.grows⟩
      · rw [hinner, List.append_assoc, List.append_assoc]
      · rcases List.mem_append.1 hx with hx | hx
        · exact hlater x hx
        · -- calls of this visit were made when the earlier one was over
          obtain ⟨d, hd, rfl⟩ := List.mem_map.1 hx
          exact Nat.le_trans hlimit (hvisit.later d hd)
    · obtain rfl := List.mem_singleton.1 hv
      refine ⟨inner.map Deed.tag, made.map Deed.tag, w'.chronicle.issued,
        ⟨⟨[], by rw [List.append_nil], by simp⟩, Nat.le_refl _⟩, ?_⟩
      rw [← List.map_append]
      exact hvisit.course

omit [EquivBEq K] in
/-- A survey that is over comes before what the thread did then. -/
theorem stretch {next : (K → List (Handle V)) → (K → Findings K V) → Routine K V}
    {visits : List (Visit K V)} {found : Findings K V} (hg : w₀.Grows w) (h : w.Keeping t past log)
    (hsurvey : w₀.Surveying w t past (fun r => P r ∧ r.Reads) mine visit log inner visits [] w₁)
    (hnext : w₀.Stretch w₁ t past P mine (next (Visit.shown mine visits) (Visit.told mine visits))
      (log ++ inner) made found w₂) :
    w₀.Stretch w t past P mine (.survey visit next) log (inner ++ made)
      (.surveyed (Visit.shown mine visits) (Visit.told mine visits) found) w₂ := by
  have hsince := hsurvey.touring.since
  have hkeeping := hnext.keeping
  have hcourse := hnext.course
  rw [List.append_assoc] at hkeeping
  rw [List.map_append] at hcourse
  refine ⟨hsince.trans hnext.grows, hkeeping, fun d hd => ?_, fun d hd => ?_, visits,
    inner.map Deed.tag, made.map Deed.tag, found, w, w₁, List.map_append, rfl, ?_,
    fun v hv => ?_, hcourse⟩
  -- The calls of the visitor come first, and then those made since the survey.
  · rcases List.mem_append.1 hd with hd | hd
    · exact hsurvey.later d hd
    · exact Nat.le_trans hsince.issued (hnext.later d hd)
  · exact (List.mem_append.1 hd).elim (fun hd => (hsurvey.only d hd).1) (hnext.only d)
  -- The survey lies between the worlds in which its itinerary was fixed and its last visit ended.
  · refine ⟨hg, hsince, hnext.grows, h.sound, hsurvey.keeping.sound,
      ⟨[], hsurvey.touring, fun _ => rfl⟩, fun x hx => ?_, fun x hx => ?_, fun x hx => ?_,
      hnext.grows.issued⟩ <;> obtain ⟨d, hd, rfl⟩ := List.mem_map.1 hx
    · exact ⟨d.horizon, (h.remembers.recorded d hd).2⟩
    · exact (hsurvey.only d hd).2
    · exact hnext.later d hd
  · obtain ⟨l, m, mid, hin, hcourse⟩ := hsurvey.visits v hv
    exact ⟨l, m, mid, hin, hcourse.grows hnext.grows⟩

end Surveying

end World

open World

/-! ## The rule for routines -/

namespace Program

variable [EquivBEq K] {order : Enumeration K} {t : ThreadId} {w₀ w₁ w : World K V}
  {past : List CallId} {P : Request K V → Prop} {mine : K → Bool}

/-- The visits of a survey, if each visit goes as the visitor's routine says. -/
theorem wp_visits_routine {visit : K → Handle V → Routine K V}
    (hvisit : ∀ key held log w, w₀.Grows w → w.Keeping t past log →
      ((visit key held).program mine).wp order t
        (fun found w' => ∃ made, w₀.Stretch w t past P mine (visit key held) log made found w') w)
    (hg₁ : w₀.Grows w₁) {log inner : List (Deed K V)} {seen : List (Visit K V)}
    {entries : List (K × CellId)}
    (h : w₀.Surveying w₁ t past P mine visit log inner seen entries w) :
    (Routine.visits mine visit entries seen).wp order t
      (fun seen' w' => ∃ inner', w₀.Surveying w₁ t past P mine visit log inner' seen' [] w') w := by
  induction entries generalizing inner seen w with
  | nil => exact ⟨inner, h⟩
  | cons e entries ih =>
      obtain ⟨key, cell⟩ := e
      rw [Routine.visits_cons]
      refine wp_bind (wp_sight fun w₂ hr hs => ?_)
      have h₂ := h.rely hr hs
      cases hheld : (w₂.shared.slot cell).handle? with
      | none => exact ih (h₂.pass hheld)
      | some held =>
          refine wp_bind (wp_mono (hvisit key held _ w₂ (hg₁.trans h₂.touring.since) h₂.keeping) ?_)
          rintro found w₃ ⟨made, hmade⟩
          exact ih (h₂.visited hheld hmade)

/-- The program of a routine follows the routine. -/
theorem wp_routine {c : Routine K V} (honly : c.Only P) {log : List (Deed K V)} (hg : w₀.Grows w)
    (h : w.Keeping t past log) :
    (c.program mine).wp order t
      (fun found w' => ∃ made, w₀.Stretch w t past P mine c log made found w') w := by
  -- By induction on the routine, for any log that the thread has when it begins.
  induction c generalizing P log w with
  | stop => exact ⟨[], .refl w, by rwa [List.append_nil], by simp, by simp, rfl, rfl⟩
  | request r next ih =>
      refine wp_bind (wp_call (bind_done _).symm h.outside (by rw [h.rules]; trivial)
        (by simp [h.rules]) fun answer w₁ w₂ hr hs hg₂ hs₂ hout => ?_)
      obtain ⟨d, hd, h₂⟩ := (h.rely hr hs).answered hg₂ hs₂ hout
      have hgrows := hr.grows.trans ((hs.grows_issue t r).trans hg₂)
      refine wp_bind (wp_mono (ih answer (honly.2 answer) (hg.trans hgrows) h₂) ?_)
      rintro found w₃ ⟨made, hmade⟩
      exact ⟨d :: made, hmade.answered hgrows hr.grows.issued honly.1 hd⟩
  | survey visit next ihvisit ih =>
      rw [Routine.program_survey]
      have hitinerary : Map.itinerary.wp order t
          (fun entries w' => w'.Outside t (w.tickets t) ∧ w.Touring [] entries w') w :=
        wp_itinerary h.outside fun _ _ _ hout hcharts hperm => ⟨hout, .start hcharts hperm⟩
      refine wp_bind (wp_mono (wp_upshot hitinerary h.sound) ?_)
      rintro entries w₁ ⟨hs₁, hg₁, hout, htouring⟩
      -- Before the first visit the visitor has made no call.
      have hstart :
          w₀.Surveying w t past (fun r => P r ∧ r.Reads) mine visit log [] [] entries w₁ :=
        ⟨htouring, by rw [List.append_nil]; exact h.grows hg₁ hs₁ hout, by simp, by simp, by simp⟩
      refine wp_bind (wp_mono (wp_visits_routine (fun key held log w hg h =>
        ihvisit key held (honly.1 key held) hg h) hg hstart) ?_)
      rintro visits w₂ ⟨inner, hinner⟩
      refine wp_bind (wp_mono (ih _ _ (honly.2 _ _) (hg.trans hinner.touring.since)
        hinner.keeping) ?_)
      rintro found w₃ ⟨made, hmade⟩
      exact ⟨inner ++ made, Surveying.stretch hg h hinner hmade⟩

end Program

end ConcurrentMap
