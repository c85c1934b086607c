import ConcurrentMap.Proofs.Plain
import Mathlib.Logic.Function.Basic

/-!
# The order in which calls take effect

A call acts on the cell of its key, but by the time it does so the cell may no longer serve the key:
a promotion left it out, a deletion took it from the staged table, or the map was cleared. Such a
call takes effect as if it had come before that change. So the order of effects is not the order in
which the calls act, and it is not known before the run is over.

A chronicle keeps it all the same. It is divided into eras, and whenever cells cease to serve their
keys, an era ends. A call is entered at the end of the era in which its cell serves the key, be it
the current era or one long past. `Chronicle.ended` says which call ended an era: none for a
promotion, the deletion that took a staged key away, or the clearing. A deletion that ended an era
is entered for good only when it acts on its cell; as long as the cell has a value it stands at the
end of the era provisionally (`Chronicle.epilogue`), since the key has no value any more.

`Chronicle.state_enter_of_ne` and `Chronicle.opening_enter` are what makes late entries harmless:
the request that ended an era leaves the same map behind, whatever was entered before it.
`Chronicle.line` is the whole order, and `Chronicle.explains_lineTo` says that it explains the
answers.
-/

namespace ConcurrentMap

/-- The name of a call. Calls are named in the order in which they are made. -/
abbrev CallId := Nat

/-- A call that has taken effect. -/
structure Deed (K V : Type) extends Call K V where
  id : CallId
  /-- The era in which the call counts. -/
  era : Nat
  /-- The calls named from here on were made after this one had taken effect. -/
  horizon : CallId

/-- Which calls have taken effect, and when. -/
structure Chronicle (K V : Type) where
  /-- The current era. -/
  era : Nat
  /-- The calls that have taken effect, in the order in which they were entered. -/
  deeds : List (Deed K V)
  /-- The call that ended an era, if a call did. -/
  ended : Nat → Option (CallId × Request K V)
  /-- The calls named below were made before the era ended. -/
  limit : Nat → CallId
  /-- What a call asked for. -/
  asked : CallId → Request K V

namespace Plain

variable {K V : Type} [BEq K] [BEq V]

/-- The map after the request that ends an era, if there is one. -/
def closed (m : Plain K V) : Option (CallId × Request K V) → Plain K V
  | none => m
  | some (_, r) => (m.apply 0 r).2

@[simp] theorem closed_none (m : Plain K V) : m.closed none = m := rfl

@[simp] theorem closed_some (m : Plain K V) (id : CallId) (r : Request K V) :
    m.closed (some (id, r)) = (m.apply 0 r).2 := rfl

end Plain

namespace Chronicle

variable {K V : Type}

/-- Nothing has happened yet. -/
def start : Chronicle K V := ⟨0, [], fun _ => none, fun _ => 0, fun _ => .clear⟩

/-- The number of calls made so far, which is the name of the next one. -/
def issued (C : Chronicle K V) : CallId := C.limit C.era

/-- The calls that count in an era. -/
def within (C : Chronicle K V) (j : Nat) : List (Deed K V) := C.deeds.filter fun d => d.era == j

/-- The calls of an era, without what only the chronicle knows of them. -/
def calls (C : Chronicle K V) (j : Nat) : List (Call K V) := (C.within j).map Deed.toCall

/-- Enter a call that takes effect. -/
def enter (C : Chronicle K V) (d : Deed K V) : Chronicle K V :=
  { C with deeds := C.deeds ++ [d] }

/-- End the current era. -/
def close (C : Chronicle K V) (ending : Option (CallId × Request K V)) : Chronicle K V :=
  { C with
    era := C.era + 1
    ended := Function.update C.ended C.era ending
    limit := Function.update C.limit (C.era + 1) (C.limit C.era) }

/-- Name a call that is made. -/
def issue (C : Chronicle K V) (r : Request K V) : Chronicle K V :=
  { C with
    limit := Function.update C.limit C.era (C.issued + 1)
    asked := Function.update C.asked C.issued r }

theorem mem_within {C : Chronicle K V} {j : Nat} {d : Deed K V} :
    d ∈ C.within j ↔ d ∈ C.deeds ∧ d.era = j := by
  simp [within]

/-- An era to which no deed belongs has no calls. -/
theorem calls_eq_nil {C : Chronicle K V} {j : Nat} (h : ∀ d ∈ C.deeds, d.era ≠ j) :
    C.calls j = [] := by
  simp only [calls, within, List.map_eq_nil_iff, List.filter_eq_nil_iff, beq_iff_eq]
  exact h

/-- An entry comes last among the calls of its own era. -/
theorem calls_enter_self (C : Chronicle K V) (d : Deed K V) :
    (C.enter d).calls d.era = C.calls d.era ++ [d.toCall] := by
  simp [calls, within, enter]

/-- An entry leaves the calls of every other era as they are. -/
theorem calls_enter_of_ne (C : Chronicle K V) {d : Deed K V} {j : Nat} (h : d.era ≠ j) :
    (C.enter d).calls j = C.calls j := by
  simp [calls, within, enter, h]

@[simp] theorem ended_close_self (C : Chronicle K V) (ending : Option (CallId × Request K V)) :
    (C.close ending).ended C.era = ending := by
  simp [close]

/-- The end of an era says nothing about how other eras ended. -/
theorem ended_close_of_ne (C : Chronicle K V) {j : Nat} (h : j ≠ C.era)
    (ending : Option (CallId × Request K V)) : (C.close ending).ended j = C.ended j := by
  simp [close, h]

@[simp] theorem issued_close (C : Chronicle K V) (ending : Option (CallId × Request K V)) :
    (C.close ending).issued = C.issued := by
  simp [issued, close]

/-- The eras that are over, and the one that ends, keep their limits. -/
theorem limit_close_of_le (C : Chronicle K V) {j : Nat} (h : j ≤ C.era)
    (ending : Option (CallId × Request K V)) : (C.close ending).limit j = C.limit j := by
  have hne : j ≠ C.era + 1 := by omega
  simp [close, hne]

@[simp] theorem issued_issue (C : Chronicle K V) (r : Request K V) :
    (C.issue r).issued = C.issued + 1 := by
  simp [issued, issue]

theorem limit_issue_of_ne (C : Chronicle K V) {j : Nat} (h : j ≠ C.era) (r : Request K V) :
    (C.issue r).limit j = C.limit j := by
  simp [issue, h]

/-- No limit sinks when a call is named, and that of the current era grows by one. -/
theorem limit_le_issue (C : Chronicle K V) (j : Nat) (r : Request K V) :
    C.limit j ≤ (C.issue r).limit j := by
  by_cases h : j = C.era
  · subst h
    simp [issue, issued]
  · exact Nat.le_of_eq (C.limit_issue_of_ne h r).symm

theorem asked_issue_self (C : Chronicle K V) (r : Request K V) :
    (C.issue r).asked C.issued = r := by
  simp [issue]

/-- Naming a call leaves what the earlier ones asked for. -/
theorem asked_issue_of_lt (C : Chronicle K V) {id : CallId} (h : id < C.issued) (r : Request K V) :
    (C.issue r).asked id = C.asked id := by
  simp [issue, Nat.ne_of_lt h]

variable [BEq K] [BEq V]

/-- The plain map at the beginning of an era. -/
def opening (C : Chronicle K V) : Nat → Plain K V
  | 0 => .empty
  | j + 1 => ((C.opening j).after (C.calls j)).closed (C.ended j)

/-- The plain map after the calls that an era has so far. -/
def state (C : Chronicle K V) (j : Nat) : Plain K V := (C.opening j).after (C.calls j)

/-- An era begins with the map that the end of the one before leaves behind. -/
theorem opening_succ (C : Chronicle K V) (j : Nat) :
    C.opening (j + 1) = (C.state j).closed (C.ended j) := rfl

@[simp] theorem opening_issue (C : Chronicle K V) (r : Request K V) (j : Nat) :
    (C.issue r).opening j = C.opening j := by
  induction j with
  | zero => rfl
  | succ j ih => simp only [opening_succ, state, ih]; rfl

@[simp] theorem state_issue (C : Chronicle K V) (r : Request K V) (j : Nat) :
    (C.issue r).state j = C.state j := by
  simp only [state, opening_issue]
  rfl

/-! ## Late entries -/

/-- An entry leaves the beginning of its own era and of all earlier ones alone. -/
theorem opening_enter_of_le (C : Chronicle K V) {d : Deed K V} {i : Nat} (h : i ≤ d.era) :
    (C.enter d).opening i = C.opening i := by
  induction i with
  | zero => rfl
  | succ i ih =>
      have hne : d.era ≠ i := by omega
      simp only [opening, ih (by omega), C.calls_enter_of_ne hne]
      rfl

/-- The plain map right after a call that is entered. -/
theorem state_enter_self (C : Chronicle K V) (d : Deed K V) :
    (C.enter d).state d.era = ((C.state d.era).apply d.stamp d.request).2 := by
  simp only [state, C.opening_enter_of_le (Nat.le_refl _), calls_enter_self, Plain.after_concat]

/-- The call that ended the era leaves the same map behind, with the new entry or without it. -/
def Harmless (C : Chronicle K V) (d : Deed K V) : Prop :=
  (((C.state d.era).apply d.stamp d.request).2).closed (C.ended d.era) =
    (C.state d.era).closed (C.ended d.era)

/-- A harmless entry makes no later era begin differently. -/
theorem opening_enter (C : Chronicle K V) {d : Deed K V} {i : Nat}
    (h : d.era < i → C.Harmless d) : (C.enter d).opening i = C.opening i := by
  induction i with
  | zero => rfl
  | succ i ih =>
      rw [opening_succ, opening_succ]
      by_cases hi : d.era = i
      · subst hi
        rw [state_enter_self]
        exact h (Nat.lt_succ_self _)
      · simp only [state, ih fun hlt => h (Nat.lt_succ_of_lt hlt), C.calls_enter_of_ne hi]
        rfl

/-- Nor is any other era affected. -/
theorem state_enter_of_ne (C : Chronicle K V) {d : Deed K V} {i : Nat}
    (h : d.era < i → C.Harmless d) (hi : d.era ≠ i) : (C.enter d).state i = C.state i := by
  simp only [state, C.opening_enter h, C.calls_enter_of_ne hi]

/-! ## The end of an era -/

/-- Ending an era leaves its beginning and that of all earlier ones alone. -/
theorem opening_close_of_le (C : Chronicle K V) (ending : Option (CallId × Request K V)) {i : Nat}
    (h : i ≤ C.era) : (C.close ending).opening i = C.opening i := by
  induction i with
  | zero => rfl
  | succ i ih =>
      have hne : i ≠ C.era := by omega
      simp only [opening, ih (by omega), C.ended_close_of_ne hne]
      rfl

/-- Ending an era leaves its own map and those of all earlier ones alone. -/
theorem state_close_of_le (C : Chronicle K V) (ending : Option (CallId × Request K V)) {i : Nat}
    (h : i ≤ C.era) : (C.close ending).state i = C.state i := by
  simp only [state, C.opening_close_of_le ending h]
  rfl

/-- A new era begins with the map that the end of the last one leaves. -/
theorem state_close_era (C : Chronicle K V) (ending : Option (CallId × Request K V))
    (h : ∀ d ∈ C.deeds, d.era ≤ C.era) :
    (C.close ending).state (C.era + 1) = (C.state C.era).closed ending := by
  have hcalls : (C.close ending).calls (C.era + 1) = [] := by
    refine calls_eq_nil fun d hd => ?_
    have hle : d.era ≤ C.era := h d hd
    omega
  rw [state, hcalls, Plain.after_nil, opening_succ, ended_close_self,
    C.state_close_of_le ending (Nat.le_refl _)]

/-! ## What lasts -/

/-- A later state of the chronicle: calls were entered, eras ended and calls were named, but no era
begins with another map than before, and what is said of the eras that are over stays. -/
structure Extends (C C' : Chronicle K V) : Prop where
  era : C.era ≤ C'.era
  deeds : C.deeds <+: C'.deeds
  opening : ∀ j ≤ C.era, C'.opening j = C.opening j
  ended : ∀ j < C.era, C'.ended j = C.ended j
  limit : ∀ j < C.era, C'.limit j = C.limit j

namespace Extends

theorem refl (C : Chronicle K V) : C.Extends C :=
  ⟨Nat.le_refl _, List.prefix_rfl, fun _ _ => rfl, fun _ _ => rfl, fun _ _ => rfl⟩

theorem trans {C C' C'' : Chronicle K V} (h : C.Extends C') (h' : C'.Extends C'') :
    C.Extends C'' where
  era := Nat.le_trans h.era h'.era
  deeds := h.deeds.trans h'.deeds
  opening j hj := (h'.opening j (Nat.le_trans hj h.era)).trans (h.opening j hj)
  ended j hj := (h'.ended j (Nat.lt_of_lt_of_le hj h.era)).trans (h.ended j hj)
  limit j hj := (h'.limit j (Nat.lt_of_lt_of_le hj h.era)).trans (h.limit j hj)

end Extends

/-- Entering a harmless call is an extension, and so is entering one in the current era. -/
theorem extends_enter (C : Chronicle K V) {d : Deed K V} (h : d.era < C.era → C.Harmless d) :
    C.Extends (C.enter d) where
  era := Nat.le_refl _
  deeds := List.prefix_append _ _
  opening _ hj := C.opening_enter fun hlt => h (Nat.lt_of_lt_of_le hlt hj)
  ended _ _ := rfl
  limit _ _ := rfl

/-- Ending an era is an extension. -/
theorem extends_close (C : Chronicle K V) (ending : Option (CallId × Request K V)) :
    C.Extends (C.close ending) where
  era := Nat.le_succ _
  deeds := List.prefix_rfl
  opening _ hj := C.opening_close_of_le ending hj
  ended _ hj := C.ended_close_of_ne (Nat.ne_of_lt hj) ending
  limit _ hj := C.limit_close_of_le (Nat.le_of_lt hj) ending

/-- Naming a call is an extension. -/
theorem extends_issue (C : Chronicle K V) (r : Request K V) : C.Extends (C.issue r) where
  era := Nat.le_refl _
  deeds := List.prefix_rfl
  opening j _ := C.opening_issue r j
  ended _ _ := rfl
  limit _ hj := C.limit_issue_of_ne (Nat.ne_of_lt hj) r

/-! ## The whole order -/

/-- The call that ended an era, as long as it is not entered itself. A deletion counts only if its
key would still have a value without it. -/
def epilogue (C : Chronicle K V) (j : Nat) : List (Deed K V) :=
  match C.ended j with
  | none => []
  | some (id, r) =>
    if r.key?.all fun key => (C.state j key).isSome then
      [⟨⟨r, 0, ((C.state j).apply 0 r).1⟩, id, j, C.limit j⟩]
    else
      []

/-- The calls of the first `n` eras, in the order in which they took effect. -/
def lineTo (C : Chronicle K V) (n : Nat) : List (Deed K V) :=
  (List.range n).flatMap fun j => C.within j ++ C.epilogue j

/-- All calls that have taken effect, in the order in which they did. -/
def line (C : Chronicle K V) : List (Deed K V) := C.lineTo (C.era + 1)

/-- An era adds its calls and its epilogue to the line. -/
theorem lineTo_succ (C : Chronicle K V) (n : Nat) :
    C.lineTo (n + 1) = C.lineTo n ++ (C.within n ++ C.epilogue n) := by
  simp [lineTo, List.range_succ]

/-- What is in the line is a call of some era so far or of its epilogue. -/
theorem mem_line {C : Chronicle K V} {d : Deed K V} :
    d ∈ C.line ↔ ∃ j ≤ C.era, d ∈ C.within j ∨ d ∈ C.epilogue j := by
  simp only [line, lineTo, List.mem_flatMap, List.mem_range, Nat.lt_succ_iff, List.mem_append]

variable [EquivBEq K]

/-- Every era begins with a map that treats equal keys alike. -/
theorem respects_opening (C : Chronicle K V) (j : Nat) : (C.opening j).Respects := by
  induction j with
  | zero => exact Plain.respects_empty
  | succ j ih =>
      simp only [opening]
      cases C.ended j with
      | none => exact ih.after _
      | some x => exact (ih.after _).apply 0 x.2

/-- The map of every era treats equal keys alike. -/
theorem respects_state (C : Chronicle K V) (j : Nat) : (C.state j).Respects :=
  (C.respects_opening j).after _

/-- The calls of an era and the one that ended it. -/
theorem after_epilogue (C : Chronicle K V) {j : Nat}
    (hends : ∀ id r, C.ended j = some (id, r) → (r.effect 0 (none : Option (Handle V))).2 = none) :
    (C.state j).after ((C.epilogue j).map Deed.toCall) = C.opening (j + 1) := by
  rw [opening_succ]
  unfold epilogue
  cases hend : C.ended j with
  | none => rfl
  | some x =>
      obtain ⟨id, r⟩ := x
      simp only [Plain.closed_some]
      split
      -- The key still has a value: the call is in the epilogue, and takes its effect there.
      · rfl
      · next hkey =>
        cases hk : r.key? with
        | none => simp [hk] at hkey
        | some key =>
            -- The call is left out, and rightly so: on a key without a value it changes nothing.
            have hnone : C.state j key = none := by simpa [hk] using hkey
            have heff := hends id r hend
            rw [Plain.apply_of_key hk, hnone, heff,
              (C.respects_state j).set_eq_self hnone]
            rfl

omit [EquivBEq K] in
/-- The answer of the call that ended an era is defined by the map at its turn. -/
theorem explains_epilogue (C : Chronicle K V) (j : Nat) :
    (C.state j).Explains ((C.epilogue j).map Deed.toCall) := by
  unfold epilogue
  cases C.ended j with
  | none => trivial
  | some x =>
      simp only
      split
      · exact ⟨rfl, trivial⟩
      · trivial

/-- The map after some eras is the one with which the next era begins. -/
theorem after_lineTo (C : Chronicle K V) {n : Nat}
    (hends : ∀ j id r, C.ended j = some (id, r) →
      (r.effect 0 (none : Option (Handle V))).2 = none) :
    Plain.empty.after ((C.lineTo n).map Deed.toCall) = C.opening n := by
  induction n with
  | zero => rfl
  | succ n ih =>
      rw [lineTo_succ, List.map_append, List.map_append, Plain.after_append, Plain.after_append, ih]
      exact C.after_epilogue (hends n)

/-- If each era is explained, so are all of them in a row. -/
theorem explains_lineTo (C : Chronicle K V) {n : Nat}
    (hends : ∀ j id r, C.ended j = some (id, r) →
      (r.effect 0 (none : Option (Handle V))).2 = none)
    (hera : ∀ j < n, (C.opening j).Explains (C.calls j)) :
    Plain.empty.Explains ((C.lineTo n).map Deed.toCall) := by
  induction n with
  | zero => trivial
  | succ n ih =>
      rw [lineTo_succ, List.map_append, List.map_append, Plain.explains_append,
        Plain.explains_append, C.after_lineTo hends]
      refine ⟨ih fun j hj => hera j (Nat.lt_succ_of_lt hj), hera n (Nat.lt_succ_self n), ?_⟩
      exact C.explains_epilogue n

end Chronicle

end ConcurrentMap
