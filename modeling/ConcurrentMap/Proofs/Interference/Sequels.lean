import ConcurrentMap.Proofs.Division
import ConcurrentMap.Proofs.Interference.Places
import ConcurrentMap.Proofs.Refinement

/-!
# What comes after a state

When every call so far has been answered, what is called later comes later in the line: the line of
a later world has the old calls first, in some order, and then the new ones (`World.sequel`). So the
new calls are explained by the map as it stood in between (`World.Settled.explains_sequel`), and a
place that a lookup has among them says which of them it saw (`World.Settled.exists_before`).
-/

namespace ConcurrentMap

variable {K V : Type} [BEq K] [BEq V]

namespace World

/-- Every call that was made has taken effect. -/
structure Settled (w : World K V) : Prop where
  sound : w.Sound
  recorded : ∀ id < w.chronicle.issued, ∃ answer horizon, w.chronicle.Recorded id answer horizon

/-- The place in the line of world `w` up to which all had taken effect in world `w₀`. -/
def present (w₀ w : World K V) : Nat :=
  w.chronicle.place w₀.era (w₀.chronicle.within w₀.era).length

/-- What stands in the line behind what had taken effect in world `w₀`. -/
def sequel (w₀ w : World K V) : List (Deed K V) := w.chronicle.line.drop (w₀.present w)

variable {w₀ w₁ w₂ w : World K V}

/-- The current end of the line is a moment of its world. -/
theorem moment_present (w₀ : World K V) :
    w₀.Moment w₀ w₀.era (w₀.chronicle.within w₀.era).length :=
  (Grows.refl w₀).moment (Nat.le_refl _) (Nat.le_refl _)

/-- The line is what came before the world and what came after. -/
theorem take_append_sequel (w₀ w : World K V) :
    w.chronicle.line.take (w₀.present w) ++ w₀.sequel w = w.chronicle.line :=
  List.take_append_drop _ _

/-- A sequel stands in the line, in the order of the line. -/
theorem sequel_sublist (w₀ w : World K V) : (w₀.sequel w).Sublist w.chronicle.line :=
  List.drop_sublist _ _

namespace Settled

/-- The old calls come first. -/
theorem mem_sequel_iff (h : w₀.Settled) (hg : w₀.Grows w) (hw : w.Sound) {d : Deed K V} :
    d ∈ w₀.sequel w ↔ d ∈ w.chronicle.line ∧ w₀.chronicle.issued ≤ d.id := by
  have hmoment := w₀.moment_present
  constructor
  · refine fun hd => ⟨(w₀.sequel_sublist w).subset hd, Nat.le_of_not_lt fun hlt => ?_⟩
    -- an old call has its one and only place among the old ones
    obtain ⟨answer, horizon, hrec⟩ := h.recorded d.id hlt
    obtain ⟨e, he, hid⟩ := hmoment.exists_before (.refl w₀) hg h.sound hrec
    have hnodup := hw.nodup_line
    rw [← take_append_sequel w₀ w, List.map_append] at hnodup
    exact List.disjoint_of_nodup_append hnodup (List.mem_map_of_mem he)
      (hid ▸ List.mem_map_of_mem hd)
  · rintro ⟨hd, hid⟩
    rw [← take_append_sequel w₀ w] at hd
    refine (List.mem_append.1 hd).resolve_left fun hold => ?_
    exact Nat.not_lt.2 hid (hmoment.lt_issued hg h.sound hw hold)

variable [EquivBEq K]

/-- The old calls leave the map as it stood. -/
theorem after_take (h : w₀.Settled) (hg : w₀.Grows w) (hw : w.Sound) :
    Plain.empty.after ((w.chronicle.line.take (w₀.present w)).map Deed.toCall) =
      w₀.shared.view := by
  rw [h.sound.view_eq]
  exact (w₀.moment_present.after_take hg hw).trans (w₀.chronicle.stateAt_length _)

/-- The map as it stood explains what was answered since. -/
theorem explains_sequel (h : w₀.Settled) (hg : w₀.Grows w) (hw : w.Sound) :
    w₀.shared.view.Explains ((w₀.sequel w).map Deed.toCall) := by
  have hline := hw.explains_line
  rw [← take_append_sequel w₀ w, List.map_append, Plain.explains_append,
    h.after_take hg hw] at hline
  exact hline.2

/-- The old calls and the new ones lead to the map as it stands now. -/
theorem after_sequel (h : w₀.Settled) (hg : w₀.Grows w) (hw : w.Sound) :
    w₀.shared.view.after ((w₀.sequel w).map Deed.toCall) = w.shared.view := by
  have hline := hw.after_line
  rw [← take_append_sequel w₀ w, List.map_append, Plain.after_append,
    h.after_take hg hw] at hline
  rw [hline, hw.view_eq]

/-- A moment between two later worlds has its place among the new calls: behind those that had been
answered before, and before those that were made later. -/
theorem exists_before (h : w₀.Settled) (hg₁ : w₀.Grows w₁) (hg₂ : w₁.Grows w₂) (hg : w₂.Grows w)
    (hw₁ : w₁.Sound) (hw₂ : w₂.Sound) (hw : w.Sound) {j n : Nat} (hmoment : w₁.Moment w₂ j n) :
    ∃ seen, seen <+: w₀.sequel w ∧
      w₂.chronicle.stateAt j n = w₀.shared.view.after (seen.map Deed.toCall) ∧
      (∀ d ∈ seen, d.id < w₂.chronicle.issued) ∧
      ∀ d ∈ w₀.sequel w, (∃ answer horizon, w₁.chronicle.Recorded d.id answer horizon) →
        d ∈ seen := by
  have hg₀ : w₀.Grows w := (hg₁.trans hg₂).trans hg
  have hle : w₀.present w ≤ w.chronicle.place j n :=
    w₀.moment_present.place_le hg₁ hmoment hg₀
  -- The place is behind the old calls, so what comes before it are these and some new ones.
  obtain ⟨k, hk⟩ := Nat.exists_eq_add_of_le hle
  have htake : w.chronicle.line.take (w.chronicle.place j n) =
      w.chronicle.line.take (w₀.present w) ++ (w₀.sequel w).take k := by
    rw [hk, List.take_add]
    rfl
  refine ⟨(w₀.sequel w).take k, List.take_prefix _ _, ?_, fun d hd => ?_, fun d hd hrec => ?_⟩
  · rw [← hmoment.after_take hg hw, htake, List.map_append, Plain.after_append,
      h.after_take hg₀ hw]
  · refine hmoment.lt_issued hg hw₂ hw ?_
    rw [htake]
    exact List.mem_append_right _ hd
  -- A call that had been answered before comes before the place, and it is none of the old ones.
  · obtain ⟨answer, horizon, hrec⟩ := hrec
    obtain ⟨e, he, hid⟩ := hmoment.exists_before hg₂ hg hw₁ hrec
    obtain ⟨hline, hnew⟩ := (h.mem_sequel_iff hg₀ hw).1 hd
    obtain rfl := List.inj_on_of_nodup_map hw.nodup_line (List.mem_of_mem_take he) hline hid
    rw [htake] at he
    refine (List.mem_append.1 he).resolve_left fun hold => ?_
    exact Nat.not_lt.2 hnew (w₀.moment_present.lt_issued hg₀ h.sound hw hold)

end Settled

end World

end ConcurrentMap
