import ConcurrentMap.Proofs.Counters
import ConcurrentMap.Proofs.Interference.Accounts
import ConcurrentMap.Proofs.Refinement

/-!
# Nothing that is stored is lost or found twice

Threads share a map that starts out empty, and none of them clears it. When all of them are done,
what their stores put into the map is either still there or was replaced or removed by one
operation. This is said of identities, not of values, and it counts the results that `store` and
`delete` drop.

`Machine.ofClients_reconciled` has two consequences for a single key: a counter loses no increment,
and one of those who race for an absent key wins.
-/

namespace ConcurrentMap

variable {K V ε α : Type} [BEq K]

/-- The members of a list by their places. -/
private theorem flatMap_range_getElem? {β γ : Type} (l : List β) (f : β → List γ) :
    (List.range l.length).flatMap (fun t => (l[t]?.map f).getD []) = l.flatMap f := by
  induction l with
  | nil => rfl
  | cons x l ih =>
      rw [List.length_cons, List.range_succ_eq_map, List.flatMap_cons, List.flatMap_map,
        List.flatMap_cons, ← ih]
      simp

namespace Machine

variable [BEq V] {order : Enumeration K} {w : World K V}

/-- When all threads are done, their traces have the entries of the line, and no others. -/
theorem Attended.line_perm {m : Machine K V (Except ε α × Trace K V)}
    (h : m.Attended order (fun t x w' => w'.Accounted t x.2) w)
    {results : List (Except ε α × Trace K V)} (hdone : m.Finished results)
    (hothers : ∀ t, results[t]? = none → w.tickets t = none) :
    ((w.chronicle.line.map Deed.toCall).map Call.entry).Perm (results.flatMap Prod.snd) := by
  have htold : ∀ t, ∃ log, w.Remembers log ∧ log.map (·.id) = w.callsOf t ∧
      log.map (fun d => (d.request, d.answer)) = (results[t]?.map Prod.snd).getD [] := by
    intro t
    cases hx : results[t]? with
    | some x => exact (h.finished hdone hx).told
    | none => exact ⟨[], ⟨by simp, by simp, .nil⟩, by simp [World.callsOf, hothers t hx], rfl⟩
  choose logs hlog hids htrace using htold
  have hperm := h.sound.line_perm (n := results.length) hlog hids fun t ht => by
    simpa [List.getElem?_eq_none ht] using htrace t
  simp only [htrace] at hperm
  rwa [flatMap_range_getElem?] at hperm

variable [EquivBEq K]

/-- Whatever clients do but clear the map, and however their steps interleave, their results
account for every value that they stored. -/
theorem ofClients_reconciled (order : Enumeration K) (clients : List (Client K V ε α))
    (hclear : ∀ c ∈ clients, c.Only (· ≠ .clear)) (schedule : List ThreadId)
    {results : List (Except ε α × Trace K V)}
    (hdone : ((ofClients .initial clients).follow order schedule).Finished results) :
    Trace.Reconciled (results.flatMap Prod.snd)
      ((ofClients .initial clients).follow order schedule).shared.view := by
  let P : Request K V → Prop := fun r => r ≠ .clear
  have hstart : (ofClients (World.start ⟨P, False⟩).shared clients).Attended order
      (fun t x w' => w'.Accounted t x.2) (.start ⟨P, False⟩) :=
    attended_ofClients hclear (World.sound_start _) fun t => World.idle_start t P
  obtain ⟨w, h, hg, hothers⟩ :=
    hstart.follow (fun t x w w' hacc hr => hacc.rely hr) schedule
  have hw := h.sound
  have hfinal : w.shared = ((ofClients .initial clients).follow order schedule).shared := h.shared
  rw [← hfinal, hw.view_eq, ← hw.after_line]
  refine Plain.reconciled hw.explains_line (fun c hc => ?_) hw.line_apart
    (h.line_perm hdone fun t ht => ?_)
  · -- whatever stands in the line was asked for by a client
    obtain ⟨d, hd, rfl⟩ := List.mem_map.1 hc
    have hlisted := hw.listed_of_mem_line hd
    have hallowed := hw.docket.allowed d.id (hw.docket.lt_issued hlisted.era hlisted.id)
    rw [hlisted.asked, hg.rules] at hallowed
    exact hallowed
  · exact (hothers t (hdone.getElem?_eq_none ht)).ticket.trans rfl

/-- Create a counter, unless it is there, and try twice to count it up. -/
def countOnce (key : Nat) : Client Nat Nat Unit (Answer Nat) :=
  .request (.loadOrStore key 0) fun created =>
    .request (.compareAndSwap key ((created.handle?.map (·.value)).getD 0)
      ((created.handle?.map (·.value)).getD 0 + 1)) fun _ =>
        .request (.load key) .done

/-- Two threads count at the same time: one creates the counter and counts, the other one finds it
and is too late. -/
theorem ofClients_reconciled_countOnce :
    ∃ results, ((ofClients .initial [countOnce 7, countOnce 7]).follow .insertion
        (List.replicate 30 [0, 1]).flatten).Finished results ∧
      (results.flatMap Prod.snd).map Prod.snd =
        [.settled ⟨1, 0⟩ false, .decided true, .found (some ⟨3, 1⟩),
          .settled ⟨1, 0⟩ true, .decided false, .found (some ⟨3, 1⟩)] ∧
      Trace.Reconciled (results.flatMap Prod.snd)
        ((ofClients .initial [countOnce 7, countOnce 7]).follow .insertion
          (List.replicate 30 [0, 1]).flatten).shared.view := by
  let last : Answer Nat := .found (some ⟨3, 1⟩)
  let results : List (Except Unit (Answer Nat) × Trace Nat Nat) :=
    [(.ok last, [(.loadOrStore 7 0, .settled ⟨1, 0⟩ false),
        (.compareAndSwap 7 0 1, .decided true), (.load 7, last)]),
      (.ok last, [(.loadOrStore 7 0, .settled ⟨1, 0⟩ true),
        (.compareAndSwap 7 0 1, .decided false), (.load 7, last)])]
  have hdone : ((ofClients .initial [countOnce 7, countOnce 7]).follow .insertion
      (List.replicate 30 [0, 1]).flatten).Finished results := by
    unfold Finished
    decide +kernel
  exact ⟨results, hdone, rfl, ofClients_reconciled .insertion _
    (by simp [countOnce, Client.Only]) _ hdone⟩

end Machine

end ConcurrentMap
