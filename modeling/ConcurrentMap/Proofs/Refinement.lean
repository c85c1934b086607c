import ConcurrentMap.Proofs.Interference.Accounts
import ConcurrentMap.Proofs.Traversal

/-!
# A thread alone sees a plain map

A thread that has the map for itself gets the answers of a plain map, whatever it does: requests,
and traversals whose visitors use the map, end early or fail. This follows from what holds among
other threads. The order of effects respects the order in which the calls were made and answered,
and if all calls were made by one thread there is only one such order
(`World.Sound.line_eq_of_alone`).
-/

namespace ConcurrentMap

variable {K V ε α : Type} [BEq K] [BEq V]

/-- The calls of a plain map, one after the other, that were made and answered as the trace says. -/
structure Trace.Explanation (trace : Trace K V) (calls : List (Call K V)) : Prop where
  same : calls.map (fun c => (c.request, c.answer)) = trace
  explained : Plain.empty.Explains calls
  /-- No two calls install values of the same identity. -/
  apart : calls.Pairwise Call.Apart
  /-- A handle that is answered is the one that a call installed. -/
  origin : ∀ c ∈ calls, ∀ held, c.answer.handle? = some held →
    ∃ d ∈ calls, d.request.value? = some held.value ∧ d.stamp = held.stamp

namespace World

variable {w : World K V} {t : ThreadId} {log : List (Deed K V)}

/-- If all calls were made by one thread, the line is what that thread remembers. -/
theorem Sound.line_eq_of_alone (hw : w.Sound) (hlog : w.Remembers log)
    (hids : log.map (·.id) = w.callsOf t) (halone : ∀ u, u ≠ t → w.tickets u = none) :
    w.chronicle.line.map (fun d => (d.request, d.answer)) =
      log.map (fun d => (d.request, d.answer)) := by
  have hmem : ∀ id, id ∈ w.chronicle.line.map (·.id) ↔ id ∈ log.map (·.id) := by
    refine fun id => ⟨fun hid => ?_, fun hid => ?_⟩
    · obtain ⟨e, he, rfl⟩ := List.mem_map.1 hid
      obtain ⟨u, hcall⟩ := hw.exists_caller he
      -- nobody else has a ticket, so the call is one of this thread
      have hu : u = t := by
        by_contra hne
        simp [callsOf, halone u hne] at hcall
      rwa [hids, ← hu]
    · obtain ⟨d, hd, rfl⟩ := List.mem_map.1 hid
      obtain ⟨e, he, hed⟩ := hw.exists_mem_line hlog hd
      exact hed ▸ List.mem_map_of_mem he
  have htags := congrArg (List.map Prod.snd) (hw.tags_eq hlog (List.Sublist.refl _) hmem)
  rwa [List.map_map, List.map_map] at htags

variable [EquivBEq K]

/-- The tables and cells represent the plain map of the current era. -/
theorem Sound.view_eq (hw : w.Sound) : w.shared.view = w.chronicle.state w.era := by
  funext key
  cases hc : w.shared.find? key with
  | none => rw [Shared.view_of_missing hc, hw.ledger.missing key hc]
  | some c =>
      obtain ⟨own, p, hserves, hown⟩ := (hw.roster.serves key c).1 hc
      have hheld := hw.ledger.held c own (by rw [hserves]; rfl)
      rw [World.site, hserves] at hheld
      rw [Shared.view_of_find? hc, ← hheld]
      exact w.chronicle.respects_state w.era hown

end World

/-- A client that has the map for itself is answered as by a plain map. -/
theorem Client.run_refines [EquivBEq K] (order : Enumeration K) (t : ThreadId)
    (pairs : List (K × V)) (c : Client K V ε α) :
    ∃ (s₀ s₁ : Shared K V) (x : Except ε α) (trace : Trace K V) (calls : List (Call K V)),
      Shared.ofList order t pairs = some s₀ ∧
      (c.program []).run order t s₀ = some ((x, trace), s₁) ∧
      s₁.holder = none ∧
      (Trace.stores pairs ++ trace).Explanation calls ∧
      s₁.view = Plain.empty.after calls ∧
      ∀ {σ : Type} (visit : K → Handle V → σ → Client K V ε (ForInStep σ)) (start : σ),
        (∀ key held state, (visit key held state).Only Request.Reads) →
          ∃ visits s₂, s₁.view.Lists visits ∧ s₂.view = s₁.view ∧
            ((traverse visit start .done).program []).run order t s₁ =
              ((forEach visit visits start).program []).run order t s₂ := by
  obtain ⟨w₀, hof, hfree, hidle, hothers⟩ := World.exists_ofList (P := fun _ : Request K V => True)
    order t fun p _ => trivial
  obtain ⟨⟨x, trace⟩, w₁, hrun, hfree₁, hidle₁, hothers₁⟩ := hidle.run hfree c.only_true order
  have hw₁ := hidle₁.sound
  obtain ⟨log, hlog, hids, htrace⟩ := hidle₁.told
  -- All calls are the thread's, so the line has them in the order in which they were made.
  have hsame := hw₁.line_eq_of_alone hlog hids fun u hu => (hothers₁ u hu).trans (hothers u hu)
  refine ⟨w₀.shared, w₁.shared, x, trace, w₁.chronicle.line.map Deed.toCall, hof, hrun, hfree₁,
    ⟨?_, hw₁.explains_line, ?_, ?_⟩, ?_, fun visit start hvisit => ?_⟩
  · rw [List.map_map, ← htrace, ← hsame]
    rfl
  · refine List.pairwise_map.2 (hw₁.line_pairwise.imp_of_mem fun {x y} hx hy hxy => ?_)
    exact fun v v' hv hv' => hw₁.stamp_ne hx hy hxy.1 hv hv'
  · intro c hc held hheld
    have hempty : ∀ key held, (Plain.empty : Plain K V) key = some held →
        ∃ d ∈ ([] : List (Call K V)), d.request.value? = some held.value ∧ d.stamp = held.stamp :=
      fun key held h => by simp [Plain.empty] at h
    exact hw₁.explains_line.origin hempty hc hheld
  · rw [hw₁.view_eq, hw₁.after_line]
  · have htidy := hw₁.tidy
    rw [hw₁.free hfree₁] at htidy
    exact Client.run_traverse order t hvisit start [] htidy hfree₁

/-- Every value is counted up by a visitor, and then one of them is read. -/
def Client.countUp (key : Nat) : Client Nat Nat Unit (Answer Nat) :=
  traverse (fun key held () => request (.swap key (held.value + 1)) fun _ => done (.yield ())) ()
    fun _ => request (.load key) done

/-- The value is 11 in the end, under the identity of the visitor's exchange. -/
theorem Client.run_refines_countUp :
    ∃ (s₀ s₁ : Shared Nat Nat) (trace : Trace Nat Nat) (calls : List (Call Nat Nat)),
      Shared.ofList .insertion 0 [(1, 10)] = some s₀ ∧
      ((countUp 1).program []).run .insertion 0 s₀ =
        some ((.ok (.found (some ⟨2, 11⟩)), trace), s₁) ∧
      (Trace.stores [(1, 10)] ++ trace).Explanation calls ∧
      s₁.view = Plain.empty.after calls := by
  obtain ⟨s₀, s₁, x, trace, calls, hof, hrun, -, hexplained, hview, -⟩ :=
    Client.run_refines .insertion 0 [(1, 10)] (countUp 1)
  have hresult : ((Shared.ofList .insertion 0 [(1, 10)]).bind fun s =>
      ((countUp 1).program []).run .insertion 0 s).map (fun r => r.1.1) =
        some (.ok (.found (some ⟨2, 11⟩))) := by
    decide +kernel
  rw [hof, Option.bind_some, hrun] at hresult
  obtain rfl : x = .ok (.found (some ⟨2, 11⟩)) := Option.some.inj hresult
  exact ⟨s₀, s₁, trace, calls, hof, hrun, hexplained, hview⟩

end ConcurrentMap
