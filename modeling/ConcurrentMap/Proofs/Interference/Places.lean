import ConcurrentMap.Proofs.Interference.Calling
import ConcurrentMap.Proofs.Interference.Line

/-!
# Places in the line

A lookup that is no call has no deed, but it has a place: an era, and the number of calls of that
era that come before it. Later entries go behind the place (`Chronicle.Extends.stateAt`), so what
the lookup found is what the plain map has there for good.

`World.Moment` says that a place lies between two worlds. In the line of a later world
everything that had taken effect in the first one comes before the place
(`World.Moment.exists_before`), nothing that is made after the second one does
(`World.Moment.lt_issued`), and moments that follow each other have places that do
(`World.Moment.place_le`).
-/

namespace ConcurrentMap

variable {K V : Type} [BEq K] [BEq V]

namespace Chronicle

/-- The plain map after the first `n` calls of an era. -/
def stateAt (C : Chronicle K V) (j n : Nat) : Plain K V := (C.opening j).after ((C.calls j).take n)

/-- The number of calls in the line before the place. -/
def place (C : Chronicle K V) (j n : Nat) : Nat := (C.lineTo j).length + n

variable {C C' : Chronicle K V} {i j n : Nat}

omit [BEq K] [BEq V] in
theorem length_calls (C : Chronicle K V) (j : Nat) : (C.calls j).length = (C.within j).length := by
  simp [calls]

/-- The map of an era is the one after all of its calls. -/
theorem stateAt_length (C : Chronicle K V) (j : Nat) :
    C.stateAt j (C.within j).length = C.state j := by
  rw [stateAt, ← C.length_calls, List.take_length]
  rfl

/-- The map at a place treats equal keys alike. -/
theorem respects_stateAt [EquivBEq K] (C : Chronicle K V) (j n : Nat) :
    (C.stateAt j n).Respects :=
  (C.respects_opening j).after _

/-- The calls of an era stay, and new ones come behind them. -/
theorem Extends.within (h : C.Extends C') (j : Nat) : C.within j <+: C'.within j :=
  h.deeds.filter _

theorem Extends.length_within (h : C.Extends C') (j : Nat) :
    (C.within j).length ≤ (C'.within j).length := (h.within j).length_le

/-- Later entries leave what comes before a place of the era as it is. -/
theorem Extends.take_within (h : C.Extends C') (hn : n ≤ (C.within j).length) :
    (C'.within j).take n = (C.within j).take n := by
  obtain ⟨later, hlater⟩ := h.within j
  rw [← hlater, List.take_append_of_le_length hn]

/-- Later entries go behind a place. -/
theorem Extends.stateAt (h : C.Extends C') (hj : j ≤ C.era) (hn : n ≤ (C.within j).length) :
    C'.stateAt j n = C.stateAt j n := by
  rw [Chronicle.stateAt, Chronicle.stateAt, h.opening j hj, calls, calls, ← List.map_take,
    ← List.map_take, h.take_within hn]

/-- The line up to an era is the beginning of the line up to any later one. -/
theorem lineTo_prefix (C : Chronicle K V) (h : i ≤ j) : C.lineTo i <+: C.lineTo j := by
  induction h with
  | refl => exact List.prefix_rfl
  | step _ ih =>
      rw [lineTo_succ]
      exact ih.trans (List.prefix_append _ _)

/-- What stands in an era stands before all later ones. -/
theorem mem_lineTo {d : Deed K V} (hij : i < j) (h : d ∈ C.within i ++ C.epilogue i) :
    d ∈ C.lineTo j :=
  List.mem_flatMap.2 ⟨i, List.mem_range.2 hij, h⟩

/-- A place of an era comes no later than the end of that era. -/
theorem place_le_lineTo_succ (hn : n ≤ (C.within j).length) :
    C.place j n ≤ (C.lineTo (j + 1)).length := by
  rw [place, lineTo_succ, List.length_append, List.length_append]
  omega

/-- A place comes no later than the end of the whole line. -/
theorem place_le_length (hj : j ≤ C.era) (hn : n ≤ (C.within j).length) :
    C.place j n ≤ C.line.length :=
  Nat.le_trans (place_le_lineTo_succ hn) (C.lineTo_prefix (Nat.succ_le_succ hj)).length_le

/-- What comes before a place. -/
theorem take_place (hj : j ≤ C.era) (hn : n ≤ (C.within j).length) :
    C.line.take (C.place j n) = C.lineTo j ++ (C.within j).take n := by
  obtain ⟨later, hlater⟩ := C.lineTo_prefix (Nat.succ_le_succ hj)
  rw [line, ← hlater, List.take_append_of_le_length (place_le_lineTo_succ hn), lineTo_succ, place,
    List.take_length_add_append, List.take_append_of_le_length hn]

end Chronicle

namespace World

variable {w₀ w₁ w w' : World K V} {j n : Nat}

/-- The place lies between the two worlds. -/
structure Moment (w₀ w₁ : World K V) (j n : Nat) : Prop where
  era : w₀.era ≤ j
  era' : j ≤ w₁.era
  calls : (w₀.chronicle.within j).length ≤ n
  calls' : n ≤ (w₁.chronicle.within j).length

/-- At some moment between the two worlds the key has this handle, or none. -/
def Shows (w₀ w₁ : World K V) (key : K) (held : Option (Handle V)) : Prop :=
  ∃ j n, w₀.Moment w₁ j n ∧ w₁.chronicle.stateAt j n key = held

/-- The place at the end of an era, as far as the era has come. -/
theorem Grows.moment (hg : w₀.Grows w) (hera : w₀.era ≤ j) (hj : j ≤ w.era) :
    w₀.Moment w j (w.chronicle.within j).length :=
  ⟨hera, hj, hg.chronicle.length_within j, Nat.le_refl _⟩

/-- A moment before a world is one before any later world. -/
theorem Moment.grows (h : w₀.Moment w₁ j n) (hg : w₁.Grows w) : w₀.Moment w j n :=
  ⟨h.era, Nat.le_trans h.era' hg.era, h.calls,
    Nat.le_trans h.calls' (hg.chronicle.length_within j)⟩

/-- The map at a moment stays what it was. -/
theorem Moment.stateAt (h : w₀.Moment w₁ j n) (hg : w₁.Grows w) :
    w.chronicle.stateAt j n = w₁.chronicle.stateAt j n :=
  hg.chronicle.stateAt h.era' h.calls'

/-- What a key showed before a world it has also shown before any later one. -/
theorem Shows.grows {key : K} {held : Option (Handle V)} (h : w₀.Shows w₁ key held)
    (hg : w₁.Grows w) : w₀.Shows w key held := by
  obtain ⟨j, n, hmoment, hheld⟩ := h
  exact ⟨j, n, hmoment.grows hg, by rw [hmoment.stateAt hg, hheld]⟩

/-- The place of a moment lies within the line of every later world. -/
theorem Moment.place_le_length (h : w₀.Moment w₁ j n) (hg : w₁.Grows w) :
    w.chronicle.place j n ≤ w.chronicle.line.length :=
  Chronicle.place_le_length (h.grows hg).era' (h.grows hg).calls'

/-- In the line of a later world the place of a moment is preceded by the eras before its own and by
the first calls of its own. -/
theorem Moment.take_place (h : w₀.Moment w₁ j n) (hg : w₁.Grows w) :
    w.chronicle.line.take (w.chronicle.place j n) =
      w.chronicle.lineTo j ++ (w.chronicle.within j).take n :=
  Chronicle.take_place (h.grows hg).era' (h.grows hg).calls'

/-- The plain map at a place. -/
theorem Moment.after_take [EquivBEq K] (h : w₀.Moment w₁ j n) (hg : w₁.Grows w) (hw : w.Sound) :
    Plain.empty.after ((w.chronicle.line.take (w.chronicle.place j n)).map Deed.toCall) =
      w₁.chronicle.stateAt j n := by
  rw [h.take_place hg, List.map_append, Plain.after_append,
    w.chronicle.after_lineTo hw.effect_ended, List.map_take]
  exact h.stateAt hg

/-- What comes before a place was made by then. -/
theorem Moment.lt_issued (h : w₀.Moment w₁ j n) (hg : w₁.Grows w) (hw₁ : w₁.Sound) (hw : w.Sound)
    {d : Deed K V} (hd : d ∈ w.chronicle.line.take (w.chronicle.place j n)) :
    d.id < w₁.chronicle.issued := by
  rw [h.take_place hg] at hd
  rcases List.mem_append.1 hd with hd | hd
  · -- an earlier era was over, so its calls are below its limit
    obtain ⟨i, hi, hd⟩ := List.mem_flatMap.1 hd
    have hi := List.mem_range.1 hi
    have hi₁ : i < w₁.era := Nat.lt_of_lt_of_le hi h.era'
    obtain ⟨rfl, hlisted⟩ := hw.listed (Nat.le_trans (Nat.le_of_lt hi₁) hg.era) hd
    have hid := hlisted.id
    rw [hg.chronicle.limit _ hi₁] at hid
    exact hw₁.docket.lt_issued (Nat.le_of_lt hi₁) hid
  · rw [hg.chronicle.take_within h.calls'] at hd
    have hlisted := hw₁.docket.deeds d (Chronicle.mem_within.1 (List.mem_of_mem_take hd)).1
    exact hw₁.docket.lt_issued hlisted.era hlisted.id

/-- What had taken effect before comes before a place. -/
theorem Moment.exists_before (h : w₀.Moment w₁ j n) (hg₀ : w₀.Grows w₁) (hg : w₁.Grows w)
    (hw₀ : w₀.Sound) {id : CallId} {answer : Answer V} {horizon : CallId}
    (hrec : w₀.chronicle.Recorded id answer horizon) :
    ∃ d ∈ w.chronicle.line.take (w.chronicle.place j n), d.id = id := by
  have hg' := hg₀.trans hg
  rw [h.take_place hg]
  rcases hrec with ⟨d, hd, rfl, -⟩ | ⟨i, hend, -⟩
  · refine ⟨d, List.mem_append.2 ?_, rfl⟩
    have hmem : d ∈ w₀.chronicle.within d.era := Chronicle.mem_within.2 ⟨hd, rfl⟩
    have hle : d.era ≤ j := Nat.le_trans (hw₀.docket.deeds d hd).era h.era
    rcases Nat.lt_or_eq_of_le hle with hlt | heq
    · refine .inl (Chronicle.mem_lineTo hlt (List.mem_append_left _ ?_))
      exact (hg'.chronicle.within d.era).subset hmem
    · refine .inr ?_
      rw [heq] at hmem
      obtain ⟨later, hlater⟩ := hg'.chronicle.within j
      have hprefix : w₀.chronicle.within j <+: (w.chronicle.within j).take n :=
        List.prefix_take_iff.2 ⟨⟨later, hlater⟩, h.calls⟩
      exact hprefix.subset hmem
  · -- a clearing ended an era, and stands there
    have hi := hw₀.ledger.lt_era_of_ended hend
    refine ⟨⟨⟨.clear, 0, .finished⟩, id, i, w.chronicle.limit i⟩, List.mem_append_left _ ?_, rfl⟩
    refine Chronicle.mem_lineTo (Nat.lt_of_lt_of_le hi h.era) (List.mem_append_right _ ?_)
    rw [Chronicle.epilogue, hg'.chronicle.ended i hi, hend]
    exact List.mem_singleton_self _

/-- Moments that follow each other have places that do. -/
theorem Moment.place_le {w₀' w₁' : World K V} {j' n' : Nat} (h : w₀.Moment w₁ j n)
    (hnext : w₁.Grows w₀') (h' : w₀'.Moment w₁' j' n') (hg : w₁.Grows w) :
    w.chronicle.place j n ≤ w.chronicle.place j' n' := by
  have hle : j ≤ j' := Nat.le_trans h.era' (Nat.le_trans hnext.era h'.era)
  rcases Nat.lt_or_eq_of_le hle with hlt | rfl
  · have hplace := Chronicle.place_le_lineTo_succ (h.grows hg).calls'
    exact Nat.le_trans hplace (Nat.le_trans (w.chronicle.lineTo_prefix hlt).length_le
      (Nat.le_add_right _ _))
  · refine Nat.add_le_add_left ?_ _
    exact Nat.le_trans h.calls' (Nat.le_trans (hnext.chronicle.length_within j) h'.calls)

end World

end ConcurrentMap
