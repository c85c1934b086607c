import ConcurrentMap.Proofs.Interference.Partings
import ConcurrentMap.Proofs.Turns

/-!
# Threads with keys of their own do not interfere

Threads carry out routines, each on keys that belong to no other thread. They share the snapshot,
the staged table, the miss counter and the mutex, and the steps of one thread decide which way the
calls of another one take, but not what they come to: however the steps interleave, each thread
finds what it finds if the threads run one after the other, in whatever order, and the map is the
same in the end (`Machine.ofRoutines_separate`). Only the identities of the values depend on who
came first.

The threads may start on any map that clients have left behind (`Shared.Reachable`). Each thread's
record is a `World.Followed`, which others cannot disturb; when all of them are done, the records
fit together as `World.Parted` demands.
-/

namespace ConcurrentMap

variable {K V α : Type} [BEq K] [BEq V]

/-! ## Maps to start from -/

/-- The map is new, or it is what clients left behind when all of them were done. -/
inductive Shared.Reachable : Shared K V → Prop where
  | initial : Reachable .initial
  | run {ε α : Type} {s : Shared K V} (h : Reachable s) (order : Enumeration K)
      (clients : List (Client K V ε α)) (schedule : List ThreadId)
      {results : List (Except ε α × Trace K V)}
      (hdone : ((Machine.ofClients s clients).follow order schedule).Finished results) :
      Reachable ((Machine.ofClients s clients).follow order schedule).shared

namespace World

variable {w₀ w w' : World K V} {t : ThreadId}

/-- Every thread is between two calls. -/
def AtRest (w : World K V) : Prop := ∀ t, ∃ made, w.Idle t (fun _ => True) made

theorem AtRest.sound (h : w.AtRest) : w.Sound := by
  obtain ⟨made, hidle⟩ := h 0
  exact hidle.sound

theorem AtRest.free (h : w.AtRest) : w.shared.holder = none := by
  refine Option.eq_none_iff_forall_ne_some.2 fun t ht => ?_
  obtain ⟨made, hidle⟩ := h t
  exact hidle.holder ht

/-- All calls that were made have been answered. -/
theorem AtRest.settled (h : w.AtRest) : w.Settled := by
  refine ⟨h.sound, fun id hid => ?_⟩
  obtain ⟨t, hmem⟩ := h.sound.docket.lt_issued_iff.1 hid
  obtain ⟨made, hidle⟩ := h t
  obtain ⟨log, hlog, hids, -⟩ := hidle.told
  obtain ⟨d, hd, rfl⟩ := List.mem_map.1 (hids.symm ▸ hmem)
  exact ⟨d.answer, d.horizon, (hlog.recorded d hd).2⟩

/-- A thread that is at rest can follow a routine. -/
theorem AtRest.keeping (h : w.AtRest) (t : ThreadId) : w.Keeping t (w.callsOf t) [] := by
  obtain ⟨made, hidle⟩ := h t
  exact ⟨hidle.sound, hidle.holder, hidle.rules, ⟨by simp, by simp, .nil⟩, by simp⟩

variable {division : Division K} {routines : List (Routine K V)} {found : Findings K V}

/-- Since world `w₀` the thread has followed its routine to the end, on keys of its own. -/
structure Followed (w₀ : World K V) (division : Division K) (routines : List (Routine K V))
    (t : ThreadId) (found : Findings K V) (w : World K V) : Prop where
  holder : w.shared.holder ≠ some t
  told : ∃ made, w.Remembers made ∧ w.callsOf t = w₀.callsOf t ++ made.map (·.id) ∧
    (∀ d ∈ made, w₀.chronicle.issued ≤ d.id) ∧
    (∀ d ∈ made, ∃ key, d.request.key? = some key ∧ division.owns t key = true) ∧
    ∀ c, routines[t]? = some c → ∃ fin,
      w₀.Course w (division.owns t) c [] (made.map Deed.tag) found fin

/-- What others do leaves the record of a thread alone. -/
theorem Followed.rely (h : w₀.Followed division routines t found w) (hr : w.Rely t w') :
    w₀.Followed division routines t found w' := by
  obtain ⟨made, hmade, hcalls, hlater, hown, hcourse⟩ := h.told
  refine ⟨fun hheld => h.holder (hr.along.holder.1 hheld), made, hmade.grows hr.grows, ?_, hlater,
    hown, fun c hc => ?_⟩
  · rw [← hcalls, callsOf, callsOf, hr.ticket]
  · obtain ⟨fin, hcourse⟩ := hcourse c hc
    exact ⟨fin, hcourse.grows hr.grows⟩

end World

open World

/-- The routine makes requests for keys of the thread only. -/
def Routine.KeepsTo (mine : K → Bool) (c : Routine K V) : Prop :=
  c.Only fun r => ∃ key, r.key? = some key ∧ mine key = true

variable [EquivBEq K]

/-- On a map that clients have left behind all threads can be between two calls. -/
theorem Shared.Reachable.exists_atRest {s : Shared K V} (h : s.Reachable) :
    ∃ w : World K V, w.shared = s ∧ w.AtRest := by
  induction h with
  | initial => exact ⟨start ⟨fun _ => True, False⟩, rfl, fun t => ⟨[], idle_start t _⟩⟩
  | @run ε α s h order clients schedule results hdone ih =>
      obtain ⟨w₀, rfl, hrest⟩ := ih
      choose made hidle using hrest
      have hstart : (Machine.ofClients w₀.shared clients).Attended order
          (fun t x w => w.Accounted t (made t ++ x.2)) w₀ :=
        Machine.attended_ofClients (fun c _ => c.only_true) (hidle 0).sound hidle
      obtain ⟨w, hm, hg, hothers⟩ := hstart.follow (fun t x w w' h hr => h.rely hr) schedule
      refine ⟨w, hm.shared, fun t => ?_⟩
      cases hx : results[t]? with
      | some x =>
          obtain ⟨hout, htold⟩ := hm.finished hdone hx
          exact ⟨made t ++ x.2, hm.sound, hout, hg.rules.trans (hidle t).rules, htold⟩
      | none => exact ⟨made t, (hidle t).rely (hothers t (hdone.getElem?_eq_none hx)) hm.sound⟩

namespace Machine

variable {division : Division K} {routines : List (Routine K V)} {order : Enumeration K}
  {w₀ w : World K V}

omit [EquivBEq K] in
/-- The machine of threads that carry out one routine each, on keys of their own. -/
def ofRoutines (division : Division K) (s : Shared K V) (routines : List (Routine K V)) :
    Machine K V (Findings K V) :=
  ⟨s, (routines.mapIdx fun t c => c.program (division.owns t)).toArray⟩

omit [EquivBEq K] in
theorem size_ofRoutines (division : Division K) (s : Shared K V) (routines : List (Routine K V)) :
    (ofRoutines division s routines).threads.size = routines.length := by
  simp [ofRoutines]

/-- Each thread of the machine follows its routine. -/
theorem attended_ofRoutines (order : Enumeration K) (hrest : w₀.AtRest)
    (hkeeps : ∀ t (c : Routine K V), routines[t]? = some c → c.KeepsTo (division.owns t)) :
    (ofRoutines division w₀.shared routines).Attended order
      (fun t found w => w₀.Followed division routines t found w) w₀ := by
  refine ⟨rfl, hrest.sound, fun t p hp => ?_⟩
  rw [ofRoutines, List.getElem?_toArray, List.getElem?_mapIdx, Option.map_eq_some_iff] at hp
  obtain ⟨c, hc, rfl⟩ := hp
  refine Program.wp_mono (Program.wp_routine (hkeeps t c hc) (.refl w₀) (hrest.keeping t)) ?_
  rintro found w ⟨made, hmade⟩
  refine ⟨hmade.keeping.holder, made, hmade.keeping.remembers, hmade.keeping.calls, hmade.later,
    hmade.only, fun c' hc' => ?_⟩
  obtain rfl : c = c' := Option.some.inj (hc.symm.trans hc')
  exact ⟨_, hmade.course⟩

/-- When all threads are done, each of them has found what it would have found apart. -/
theorem Attended.apart {m : Machine K V (Findings K V)} {results : List (Findings K V)}
    (h : m.Attended order (fun t found w => w₀.Followed division routines t found w) w)
    (hrest : w₀.AtRest) (hdone : m.Finished results) (hsize : m.threads.size = routines.length)
    (hothers : ∀ t, routines.length ≤ t → w₀.Rely t w)
    (hrespects : ∀ c ∈ routines, c.Respects) :
    division.Apart routines w₀.shared.view (w₀.shareStamps w division) results m.shared.view := by
  have hlength : results.length = routines.length := hdone.length.trans hsize
  have htold : ∀ t, ∃ made, w.Remembers made ∧ w.callsOf t = w₀.callsOf t ++ made.map (·.id) ∧
      (∀ d ∈ made, w₀.chronicle.issued ≤ d.id) ∧
      (∀ d ∈ made, ∃ key, d.request.key? = some key ∧ division.owns t key = true) ∧
      (routines.length ≤ t → made = []) ∧
      ∀ c found, routines[t]? = some c → results[t]? = some found → ∃ fin,
        w₀.Course w (division.owns t) c [] (made.map Deed.tag) found fin := by
    intro t
    cases hx : results[t]? with
    | some found =>
        obtain ⟨ht, -⟩ := List.getElem?_eq_some_iff.1 hx
        obtain ⟨made, hmade, hcalls, hlater, hown, hcourse⟩ := (h.finished hdone hx).told
        refine ⟨made, hmade, hcalls, hlater, hown, fun hle => by omega, ?_⟩
        intro c found' hc hfound
        obtain rfl := Option.some.inj hfound
        exact hcourse c hc
    | none =>
        have ht : routines.length ≤ t := hlength ▸ List.getElem?_eq_none_iff.1 hx
        refine ⟨[], ⟨by simp, by simp, .nil⟩, ?_, by simp, by simp, fun _ => rfl, by simp⟩
        rw [callsOf, callsOf, (hothers t ht).ticket, List.map_nil, List.append_nil]
  choose made hmade hcalls hlater hown hnone hcourse using htold
  have hparted : Parted division w₀ w made :=
    ⟨hrest.settled, (hothers _ (Nat.le_refl _)).grows, h.sound, hmade, hcalls, hlater, hown⟩
  rw [← h.shared]
  exact hparted.apart hlength hnone hrespects hcourse

/-- Threads with keys of their own do not interfere. Each makes requests for its own keys, but never
clears the map, and surveys whose visitors only read. Whatever schedule they have followed, they can
be carried to their ends. When they have come there, each has found what it would have found in a
plain map of its own; and when they run one after the other on the same map, they find the same and
leave the same behind, up to the identities of the values that they installed. -/
theorem ofRoutines_separate (division : Division K) {s : Shared K V} (hs : s.Reachable)
    (routines : List (Routine K V))
    (hkeeps : ∀ t (c : Routine K V), routines[t]? = some c → c.KeepsTo (division.owns t))
    (huniform : ∀ c ∈ routines, c.Uniform s.view) (order order' : Enumeration K)
    (schedule turns : List ThreadId) (hturns : turns.Perm (List.range routines.length)) :
    (∃ rest results,
      ((ofRoutines division s routines).follow order (schedule ++ rest)).Finished results) ∧
    ∀ results, ((ofRoutines division s routines).follow order schedule).Finished results →
      (∃ stamps, division.Apart routines s.view stamps results
        ((ofRoutines division s routines).follow order schedule).shared.view) ∧
      ∃ m results', (ofRoutines division s routines).inTurn order' turns = some m ∧
        m.Finished results' ∧
        ∃ ρ : Renaming, s.view.rename ρ = s.view ∧ results' = results.map (Findings.rename ρ) ∧
          m.shared.view =
            ((ofRoutines division s routines).follow order schedule).shared.view.rename ρ := by
  obtain ⟨w₀, rfl, hrest⟩ := hs.exists_atRest
  have hsize := size_ofRoutines division w₀.shared routines
  have hstart := fun order => attended_ofRoutines order hrest hkeeps
  have hQ : ∀ t found (w w' : World K V), w₀.Followed division routines t found w → w.Rely t w' →
      w₀.Followed division routines t found w' := fun t found w w' h hr => h.rely hr
  have hout : ∀ t found (w : World K V), w₀.Followed division routines t found w →
      w.shared.holder ≠ some t := fun t found w h => h.holder
  have hrespects : ∀ c ∈ routines, c.Respects := fun c hc => (huniform c hc).keys
  obtain ⟨w, hm, -, hothers⟩ := (hstart order).follow hQ schedule
  have hoff : ∀ t, routines.length ≤ t → w₀.Rely t w := fun t ht =>
    hothers t (Array.getElem?_eq_none (hsize ▸ ht))
  refine ⟨?_, fun results hdone => ?_⟩
  · obtain ⟨rest, results, hdone⟩ := hm.exists_finished hQ hout fun t ht => by
      -- a thread that the machine does not have never takes the mutex
      by_contra hle
      rw [size_follow, hsize] at hle
      have hheld := (hoff t (Nat.le_of_not_lt hle)).along.holder.1 ht
      simp [hrest.free] at hheld
    exact ⟨rest, results, by rwa [follow_append]⟩
  · have hapart := hm.apart hrest hdone (by rw [size_follow, hsize]) hoff hrespects
    obtain ⟨m, w', hrun, hturned⟩ := (hstart order').exists_inTurn hQ hout
      (fun t ht => by
        rw [hsize]
        exact List.mem_range.1 (hturns.subset ht))
      (fun t ht => by simp [hrest.free] at ht)
    obtain ⟨results', hdone'⟩ := exists_finished_of_done fun t ht => hturned.done t (.inl (by
      rw [hturned.size, hsize] at ht
      exact hturns.symm.subset (List.mem_range.2 ht)))
    have hapart' := hturned.attended.apart hrest hdone' (by rw [hturned.size, hsize])
      (fun t ht => hturned.others t (hsize ▸ ht)) hrespects
    exact ⟨⟨_, hapart⟩, m, results', hrun, hdone', hapart.exists_renaming huniform hapart'⟩

end Machine

/-- Even keys belong to thread 0, odd ones to thread 1. -/
def Division.byParity : Division Nat where
  owns t key := key % 2 == t
  respects t a b hab := by rw [eq_of_beq hab]
  disjoint t u key ht hu := (eq_of_beq ht).symm.trans (eq_of_beq hu)

/-- Make sure that there is a counter, look at it in a survey, and count it up. -/
def Routine.countShown (key : Nat) : Routine Nat Nat :=
  .request (.loadOrStore key 0) fun _ =>
    .survey (fun _ _ => .request (.load key) fun _ => .stop) fun shown _ =>
      .request (.store key (((shown key).head?.map (·.value)).getD 0 + 1)) fun _ => .stop

namespace Machine

/-- A client stores 7 under 0. -/
def storing : Machine Nat Nat (Except Unit Unit × Trace Nat Nat) :=
  (ofClients .initial [.request (.store 0 7) fun _ => .done ()]).follow .insertion
    (List.replicate 20 0)

/-- Then two threads count, each under a key of its own. -/
def counting : Machine Nat Nat (Findings Nat Nat) :=
  ofRoutines .byParity storing.shared [.countShown 0, .countShown 1]

/-- One of the counters is new, and both threads find what they find when thread 1 goes first. -/
theorem ofRoutines_separate_countShown :
    ∃ results, (counting.follow .insertion (List.replicate 80 [0, 1]).flatten).Finished results ∧
      ∃ m results', counting.inTurn .insertion [1, 0] = some m ∧ m.Finished results' ∧
        [m.shared.view 0, m.shared.view 1].map (Option.map (·.value)) = [some 8, some 1] ∧
        ∃ ρ : Renaming, storing.shared.view.rename ρ = storing.shared.view ∧
          results' = results.map (Findings.rename ρ) ∧
          m.shared.view = (counting.follow .insertion
            (List.replicate 80 [0, 1]).flatten).shared.view.rename ρ := by
  have hstored : storing.Finished [(.ok (), [(.store 0 7, .finished)])] := by
    unfold Finished
    decide +kernel
  have hkeeps : ∀ t (c : Routine Nat Nat), [Routine.countShown 0, .countShown 1][t]? = some c →
      c.KeepsTo (Division.byParity.owns t) := by
    intro t c hc
    rcases t with _ | _ | t <;> simp at hc <;> subst hc <;>
      simp [Routine.KeepsTo, Routine.countShown, Routine.Only, Request.key?, Request.Reads,
        Division.byParity]
  have huniform : ∀ c ∈ [Routine.countShown 0, .countShown 1], c.Uniform storing.shared.view := by
    intro c hc
    refine ⟨fun ρ _ => ?_, c.respects⟩
    rcases List.mem_pair.1 hc with rfl | rfl <;>
      simp [Routine.countShown, Routine.rename, Handle.rename, Function.comp_def]
  obtain ⟨results, hdone⟩ : ∃ results,
      (counting.follow .insertion (List.replicate 80 [0, 1]).flatten).Finished results := by
    refine exists_finished_of_isSome (List.all_eq_true.1 ?_)
    decide +kernel
  obtain ⟨-, m, results', hrun, hdone', hsame⟩ := (ofRoutines_separate .byParity
    (.run .initial .insertion _ _ hstored) _ hkeeps huniform .insertion .insertion _ [1, 0]
    (by decide)).2 results hdone
  have hvalues : (counting.inTurn .insertion [1, 0]).map (fun m =>
      [m.shared.view 0, m.shared.view 1].map (Option.map (·.value))) = some [some 8, some 1] := by
    decide +kernel
  have hm : counting.inTurn .insertion [1, 0] = some m := hrun
  rw [hm] at hvalues
  exact ⟨results, hdone, m, results', hm, hdone', Option.some.inj hvalues, hsame⟩

end Machine

end ConcurrentMap
