import ConcurrentMap.Proofs.Interference.World
import Mathlib.Data.List.Nodup

/-!
# The whole order of a sound world

`Chronicle.line` lists each call once, in an order that agrees with the order of calling
(`World.Sound.line_pairwise`), with the answers that a plain map gives
(`World.Sound.explains_line`), and it has every call that was answered
(`Chronicle.Recorded.exists_mem_line`).
-/

namespace ConcurrentMap

variable {K V : Type}

namespace Chronicle

variable [BEq K] [BEq V]

/-- The call that ended an era stands there until it is entered. -/
theorem mem_epilogue {C : Chronicle K V} {j : Nat} {d : Deed K V} (h : d ∈ C.epilogue j) :
    C.ended j = some (d.id, d.request) ∧ d.era = j ∧ d.horizon = C.limit j ∧
      ∀ key, d.request.key? = some key → (C.state j key).isSome = true := by
  unfold epilogue at h
  split at h
  · simp at h
  · next id r hend =>
    split at h
    · next hkey =>
      obtain rfl := List.mem_singleton.1 h
      refine ⟨hend, rfl, rfl, fun key hk => ?_⟩
      change r.key? = some key at hk
      simpa [hk] using hkey
    · simp at h

/-- What was recorded stands in the line. -/
theorem Recorded.exists_mem_line {C : Chronicle K V} {id : CallId} {answer : Answer V}
    {horizon : CallId} (h : C.Recorded id answer horizon)
    (hdeeds : ∀ d ∈ C.deeds, d.era ≤ C.era) (hcur : ∀ j, C.era ≤ j → C.ended j = none) :
    ∃ d ∈ C.line, d.id = id ∧ d.answer = answer ∧ d.horizon = horizon := by
  rcases h with ⟨d, hd, hid⟩ | ⟨j, hend, rfl, rfl⟩
  · exact ⟨d, mem_line.2 ⟨d.era, hdeeds d hd, .inl (mem_within.2 ⟨hd, rfl⟩)⟩, hid⟩
  · have hj : j ≤ C.era := by
      by_contra hlt
      simp [hcur j (Nat.le_of_not_le hlt)] at hend
    refine ⟨⟨⟨.clear, 0, .finished⟩, id, j, C.limit j⟩, mem_line.2 ⟨j, hj, .inr ?_⟩, rfl, rfl, rfl⟩
    rw [epilogue, hend]
    exact List.mem_singleton_self _

end Chronicle

namespace World

variable [BEq K] [BEq V] {w : World K V} {d e : Deed K V}

/-- Whatever stands in an era was made before the era ended, and counts there. -/
theorem Sound.listed (hw : w.Sound) {j : Nat} (hj : j ≤ w.era)
    (h : d ∈ w.chronicle.within j ++ w.chronicle.epilogue j) :
    d.era = j ∧ d.Listed w.chronicle := by
  rcases List.mem_append.1 h with h | h
  · obtain ⟨hd, hera⟩ := Chronicle.mem_within.1 h
    exact ⟨hera, hw.docket.deeds d hd⟩
  · obtain ⟨hend, rfl, hhor, -⟩ := Chronicle.mem_epilogue h
    obtain ⟨hid, hask⟩ := hw.docket.ended d.era d.id d.request hend
    refine ⟨rfl, hj, hid, hask, ?_, fun i hi => ?_⟩
    · rw [hhor]
      exact hw.docket.limits d.era w.era hj (Nat.le_refl _)
    · rw [hhor]
      exact hw.docket.limits i d.era (Nat.le_of_lt hi) hj

/-- Whatever stands in the line was made before its era ended, and counts there. -/
theorem Sound.listed_of_mem_line (hw : w.Sound) (h : d ∈ w.chronicle.line) :
    d.Listed w.chronicle := by
  obtain ⟨j, hj, h⟩ := Chronicle.mem_line.1 h
  exact (hw.listed hj (List.mem_append.2 h)).2

/-- The call that ended an era and still stands there is not entered. -/
theorem Sound.unentered_of_mem_epilogue (hw : w.Sound) {j : Nat}
    (h : d ∈ w.chronicle.epilogue j) : w.chronicle.Unentered d.id := by
  obtain ⟨hend, rfl, -, hsome⟩ := Chronicle.mem_epilogue h
  exact hw.docket.unentered d.era d.id d.request hend hsome

/-- No call stands in two eras. -/
theorem Sound.id_ne (hw : w.Sound) {i j : Nat} (hij : i ≠ j)
    (hd : d ∈ w.chronicle.within i ++ w.chronicle.epilogue i)
    (he : e ∈ w.chronicle.within j ++ w.chronicle.epilogue j) : d.id ≠ e.id := by
  intro hid
  rcases List.mem_append.1 hd with hd | hd <;> rcases List.mem_append.1 he with he | he
  · obtain ⟨hd, hera⟩ := Chronicle.mem_within.1 hd
    obtain ⟨he, hera'⟩ := Chronicle.mem_within.1 he
    have hnodup : (w.chronicle.deeds.map (·.id)).Nodup :=
      List.pairwise_map.2 (hw.docket.distinct.imp fun h => h.1)
    obtain rfl := List.inj_on_of_nodup_map hnodup hd he hid
    exact hij (hera.symm.trans hera')
  -- the call that ended an era is entered nowhere while it stands there
  · exact hw.unentered_of_mem_epilogue he d (Chronicle.mem_within.1 hd).1 hid
  · exact hw.unentered_of_mem_epilogue hd e (Chronicle.mem_within.1 he).1 hid.symm
  · obtain ⟨hend, rfl, -⟩ := Chronicle.mem_epilogue hd
    obtain ⟨hend', rfl, -⟩ := Chronicle.mem_epilogue he
    rw [← hid] at hend'
    exact hij (hw.docket.once _ _ _ _ _ hend hend')

/-- The line agrees with the order of calling: a call stands before another one only if it was made
before the other one's horizon. -/
theorem Sound.line_pairwise (hw : w.Sound) :
    w.chronicle.line.Pairwise fun x y => x.id ≠ y.id ∧ x.id < y.horizon := by
  refine List.pairwise_flatMap.2 ⟨fun j _ => ?_, ?_⟩
  · -- within one era: what was entered, and then the call that ended the era
    refine List.pairwise_append.2 ⟨hw.docket.distinct.filter _, ?_, fun x hx y hy => ?_⟩
    · unfold Chronicle.epilogue
      split
      · exact .nil
      · split
        · exact List.pairwise_singleton _ _
        · exact .nil
    · obtain ⟨hx, hera⟩ := Chronicle.mem_within.1 hx
      refine ⟨hw.unentered_of_mem_epilogue hy x hx, ?_⟩
      rw [(Chronicle.mem_epilogue hy).2.2.1, ← hera]
      exact (hw.docket.deeds x hx).id
  · -- what stands in an earlier era was called before that era ended
    refine List.pairwise_lt_range.imp_of_mem fun {i j} hi hj hij x hx y hy => ?_
    have hi : i ≤ w.era := Nat.lt_succ_iff.1 (List.mem_range.1 hi)
    have hj : j ≤ w.era := Nat.lt_succ_iff.1 (List.mem_range.1 hj)
    obtain ⟨rfl, hlisted⟩ := hw.listed hi hx
    obtain ⟨rfl, hlisted'⟩ := hw.listed hj hy
    exact ⟨hw.id_ne (Nat.ne_of_lt hij) hx hy, Nat.lt_of_lt_of_le hlisted.id (hlisted'.late _ hij)⟩

/-- No call stands in the line twice. -/
theorem Sound.nodup_line (hw : w.Sound) : (w.chronicle.line.map (·.id)).Nodup :=
  List.pairwise_map.2 (hw.line_pairwise.imp fun h => h.1)

/-- The record of a call is what the line says of it. -/
theorem Sound.recorded_eq (hw : w.Sound) (hd : d ∈ w.chronicle.line) {answer : Answer V}
    {horizon : CallId} (h : w.chronicle.Recorded d.id answer horizon) :
    d.answer = answer ∧ d.horizon = horizon := by
  obtain ⟨e, he, hid, hans, hhor⟩ :=
    h.exists_mem_line (fun d hd => (hw.docket.deeds d hd).era) hw.ledger.current
  obtain rfl := List.inj_on_of_nodup_map hw.nodup_line he hd hid
  exact ⟨hans, hhor⟩

/-- A call has one answer. -/
theorem Sound.recorded_unique (hw : w.Sound) {id : CallId} {answer answer' : Answer V}
    {horizon horizon' : CallId} (h : w.chronicle.Recorded id answer horizon)
    (h' : w.chronicle.Recorded id answer' horizon') : answer = answer' ∧ horizon = horizon' := by
  obtain ⟨d, hd, rfl, rfl, rfl⟩ :=
    h.exists_mem_line (fun d hd => (hw.docket.deeds d hd).era) hw.ledger.current
  exact hw.recorded_eq hd h'

/-- Calls that carry values have drawn stamps of their own. -/
theorem Sound.stamp_ne (hw : w.Sound) (hd : d ∈ w.chronicle.line) (he : e ∈ w.chronicle.line)
    (hid : d.id ≠ e.id) {v v' : V} (hv : d.request.value? = some v)
    (hv' : e.request.value? = some v') : d.stamp ≠ e.stamp := by
  -- what ended an era carries no value
  have hdrawn : ∀ x ∈ w.chronicle.line, ∀ v, x.request.value? = some v →
      (w.mint x.stamp).2 = x.id := by
    intro x hx v hv
    obtain ⟨j, -, hx | hx⟩ := Chronicle.mem_line.1 hx
    · exact (hw.docket.stamps x (Chronicle.mem_within.1 hx).1 v hv).2
    · obtain ⟨hend, -⟩ := Chronicle.mem_epilogue hx
      rcases hw.ledger.endings _ _ _ hend with hclear | ⟨key, hrem⟩
      · simp [hclear, Request.value?] at hv
      · simp [Request.value?_of_removes? hrem] at hv
  intro hstamp
  exact hid (by rw [← hdrawn d hd v hv, ← hdrawn e he v' hv', hstamp])

/-- No two calls of the line install values of the same identity. -/
theorem Sound.line_apart (hw : w.Sound) :
    (w.chronicle.line.map Deed.toCall).Pairwise Call.Apart := by
  refine List.pairwise_map.2 (hw.line_pairwise.imp_of_mem fun {x y} hx hy hxy => ?_)
  exact fun v v' hv hv' => hw.stamp_ne hx hy hxy.1 hv hv'

/-- A request that ends an era leaves its key without a value. -/
theorem Sound.effect_ended (hw : w.Sound) (j : Nat) (id : CallId) (r : Request K V)
    (hend : w.chronicle.ended j = some (id, r)) :
    (r.effect 0 (none : Option (Handle V))).2 = none := by
  rcases hw.ledger.endings j id r hend with rfl | ⟨key, hrem⟩
  · rfl
  · exact Request.effect_of_removes? hrem 0 none

variable [EquivBEq K]

/-- The plain map gives the answers of the line. -/
theorem Sound.explains_line (hw : w.Sound) :
    Plain.empty.Explains (w.chronicle.line.map Deed.toCall) :=
  w.chronicle.explains_lineTo hw.effect_ended fun j hj =>
    hw.ledger.explained j (Nat.lt_succ_iff.1 hj)

/-- The line leaves the map of the current era behind. -/
theorem Sound.after_line (hw : w.Sound) :
    Plain.empty.after (w.chronicle.line.map Deed.toCall) = w.chronicle.state w.era := by
  have hopen : w.chronicle.ended w.chronicle.era = none := hw.ledger.current _ (Nat.le_refl _)
  rw [Chronicle.line, w.chronicle.after_lineTo hw.effect_ended, Chronicle.opening_succ, hopen]
  rfl

end World

end ConcurrentMap
