import ConcurrentMap.Proofs.Alone
import Mathlib.Data.List.Basic

/-!
# Copying the snapshot among writers

A rebuild walks the snapshot, and meanwhile other threads go on to write its cells. What they cannot
do while the mutex is held is to change a table, or to make a tombstone or take one away. This is
`Shared.Intact`, and all that the loop has to rely on: whether a cell is tombstoned is settled when
its turn comes (`Program.amid_bury`), whatever it held before and whatever it holds afterwards. So
the entries that are copied are those whose cell is not tombstoned in the end
(`Program.amid_copyLive`).

`Program.amid` says this of programs in general, as an assertion that is defined along the program.
The thread itself writes no slot but an absent one, and puts nothing there but a tombstone.
-/

namespace ConcurrentMap

variable {K V α β : Type}

/-! ## What others leave intact -/

/-- The tables and the number of cells are the same, and no tombstone came or went except in the
cells `cs`. -/
structure Shared.Intact (cs : List CellId) (s s' : Shared K V) : Prop where
  snapshot : s'.snapshot = s.snapshot
  staging : s'.staging = s.staging
  size : s'.cells.size = s.cells.size
  tombstoned : ∀ c, c ∉ cs → s'.tombstoned c = s.tombstoned c

namespace Shared.Intact

variable {cs ds : List CellId} {s s' s'' : Shared K V}

theorem refl (s : Shared K V) : s.Intact cs s := ⟨rfl, rfl, rfl, fun _ _ => rfl⟩

/-- What is intact but for some cells stays so but for those of both changes. -/
theorem trans (h : s.Intact cs s') (h' : s'.Intact ds s'') : s.Intact (cs ++ ds) s'' where
  snapshot := h'.snapshot.trans h.snapshot
  staging := h'.staging.trans h.staging
  size := h'.size.trans h.size
  tombstoned c hc := by
    rw [List.mem_append, not_or] at hc
    exact (h'.tombstoned c hc.2).trans (h.tombstoned c hc.1)

/-- Only the tombstone of the cell that is written may come or go. -/
theorem setSlot (s : Shared K V) (c : CellId) (new : Slot V) : s.Intact [c] (s.setSlot c new) where
  snapshot := rfl
  staging := rfl
  size := size_setSlot s c new
  tombstoned d hd := by
    have hcd : c ≠ d := fun hcd => hd (hcd ▸ List.mem_singleton_self c)
    exact tombstoned_setSlot_ne hcd new

end Shared.Intact

/-! ## Assertions about a program among writers -/

/-- The action writes no cell, and neither the snapshot nor the mutex. -/
def Action.Gentle : Action K V → Prop
  | .hasStaged => True
  | .installStaged _ => True
  | .walk _ => True
  | .drawStamp => True
  | .readCell _ => True
  | .emit _ => True
  | _ => False

/-- What the action writes to the log. -/
def Action.logs : Action K V → List Event
  | .emit e => [e]
  | _ => []

/-- An absent slot is exchanged for a tombstone, or it stays. -/
structure Update.Buries (u : Update V) : Prop where
  seen : u.seen.content = .absent
  candidate : u.candidate.content = .tombstoned
  accepts : u.accepts = Content.isAbsent

namespace Program

/-- What the next step writes to the log. -/
def logs (p : Program K V α) (_ : Shared K V) : List Event :=
  match p with
  | .act a _ => a.logs
  | _ => []

variable [BEq K] {order : Enumeration K} {t : ThreadId} {s s' : Shared K V} {es : List Event}
  {p : Program K V α} {Q Q' : α → Shared K V → List Event → Prop}

/-- The holder of the mutex carries the program out gently among others who leave the tables and the
tombstones intact, and when it is done, `Q` holds of its result, of the state, and of what it has
written to the log. -/
def amid (order : Enumeration K) (t : ThreadId) : Program K V α →
    (α → Shared K V → List Event → Prop) → Shared K V → List Event → Prop
  | .done x, Q, s, es => Q x s es
  | .act a next, Q, s, es => a.Gentle ∧ ∀ s₁, s.Intact [] s₁ → ∀ r, a.perform order t s₁ = some r →
      (next r.1).amid order t Q r.2 (es ++ a.logs)
  | .retry u next, Q, s, es => u.Buries ∧ ∀ s₁, s.Intact [] s₁ →
      ((s₁.slot u.cell).content = .absent → ∀ seen,
        (next (.installed seen)).amid order t Q (s₁.setSlot u.cell u.candidate) es) ∧
      ((s₁.slot u.cell).content ≠ .absent →
        (next (.refused (s₁.slot u.cell))).amid order t Q s₁ es)

/-- What holds in the end may be weakened. -/
theorem amid_mono (h : p.amid order t Q s es) (himp : ∀ x s es, Q x s es → Q' x s es) :
    p.amid order t Q' s es := by
  induction p generalizing s es with
  | done x => exact himp x s es h
  | act a next ih => exact ⟨h.1, fun s₁ hs r hr => ih r.1 (h.2 s₁ hs r hr)⟩
  | retry u next ih =>
      refine ⟨h.1, fun s₁ hs => ?_⟩
      obtain ⟨habsent, hother⟩ := h.2 s₁ hs
      exact ⟨fun hc seen => ih _ (habsent hc seen), fun hc => ih _ (hother hc)⟩

/-- A sequence of programs, one after the other. -/
theorem amid_bind {f : α → Program K V β} {Q : β → Shared K V → List Event → Prop}
    (h : p.amid order t (fun x s es => (f x).amid order t Q s es) s es) :
    (p >>= f).amid order t Q s es := by
  induction p generalizing s es with
  | done x => exact h
  | act a next ih => exact ⟨h.1, fun s₁ hs r hr => ih r.1 (h.2 s₁ hs r hr)⟩
  | retry u next ih =>
      refine ⟨h.1, fun s₁ hs => ?_⟩
      obtain ⟨habsent, hother⟩ := h.2 s₁ hs
      exact ⟨fun hc seen => ih _ (habsent hc seen), fun hc => ih _ (hother hc)⟩

/-- What the others do in the meantime is accounted for. -/
theorem amid_intact (h : p.amid order t Q s es) (hs : s.Intact [] s')
    (hQ : ∀ x s s' es, Q x s es → s.Intact [] s' → Q x s' es) : p.amid order t Q s' es := by
  cases p with
  | done x => exact hQ x s s' es h hs
  | act a next => exact ⟨h.1, fun s₁ hs₁ => h.2 s₁ (hs.trans hs₁)⟩
  | retry u next => exact ⟨h.1, fun s₁ hs₁ => h.2 s₁ (hs.trans hs₁)⟩

/-- The program is never refused a step. -/
theorem amid_exists_step (h : p.amid order t Q s es) :
    (∃ x, p = .done x) ∨ ∃ p' s', p.step order t s = some (p', s') := by
  cases p with
  | done x => exact .inl ⟨x, rfl⟩
  | act a next =>
      have hgentle := h.1
      cases a with
      | hasStaged | installStaged table | walk table | drawStamp | readCell c | emit e =>
          exact .inr ⟨_, _, rfl⟩
      | _ => exact hgentle.elim
  | retry u next =>
      refine .inr ?_
      simp only [step]
      split <;> exact ⟨_, _, rfl⟩

/-- A step of the program itself. The mutex stays where it is, and so does every slot that is not
absent, if a stamp tells for sure which slot it is. -/
theorem amid_step {p' : Program K V α} (h : p.amid order t Q s es)
    (hgenuine : ∀ u next, p = retry u next → (s.slot u.cell).stamp = u.seen.stamp →
      s.slot u.cell = u.seen) (hstep : p.step order t s = some (p', s')) :
    p'.amid order t Q s' (es ++ p.logs s) ∧ s'.holder = s.holder ∧
      ∀ c, (s.slot c).content ≠ .absent → s'.slot c = s.slot c := by
  cases p with
  | done x => cases hstep
  | act a next =>
      obtain ⟨r, hr, rfl, rfl⟩ := of_step_act hstep
      refine ⟨h.2 s (.refl s) r hr, ?_⟩
      have hgentle := h.1
      cases a with
      | hasStaged | installStaged table | walk table | drawStamp | readCell c | emit e =>
          obtain rfl := Option.some.inj hr
          exact ⟨rfl, fun _ _ => rfl⟩
      | _ => exact hgentle.elim
  | retry u next =>
      obtain ⟨hburies, hnext⟩ := h
      obtain ⟨habsent, hother⟩ := hnext s (.refl s)
      have hnone : es ++ (retry u next).logs s = es := List.append_nil es
      rw [hnone]
      rcases step_retry_cases hstep with ⟨hstamp, rfl, rfl⟩ | ⟨-, rfl, ⟨hacc, rfl⟩ | ⟨hacc, rfl⟩⟩
      · have hslot := hgenuine u next rfl hstamp
        have hcontent : (s.slot u.cell).content = .absent := by
          rw [hslot]
          exact hburies.seen
        refine ⟨habsent hcontent u.seen, rfl, fun c hc => Shared.slot_setSlot_ne ?_ _⟩
        rintro rfl
        exact hc hcontent
      · -- the attempt was for another absent slot
        rw [hburies.accepts] at hacc
        refine ⟨⟨⟨?_, hburies.candidate, hburies.accepts⟩, hnext⟩, rfl, fun _ _ => rfl⟩
        show (s'.slot u.cell).content = .absent
        cases hcontent : (s'.slot u.cell).content with
        | absent => rfl
        | tombstoned | present v => simp [hcontent, Content.isAbsent] at hacc
      · refine ⟨hother fun hcontent => ?_, rfl, fun _ _ => rfl⟩
        rw [hburies.accepts, hcontent] at hacc
        cases hacc

/-- A gentle action may be followed by what can be carried out after it. -/
theorem amid_action {a : Action K V} {f : a.Response → Program K V α} (ha : a.Gentle)
    (h : ∀ s₁, s.Intact [] s₁ → ∀ r, a.perform order t s₁ = some r →
      (f r.1).amid order t Q r.2 (es ++ a.logs)) : (a.program >>= f).amid order t Q s es := ⟨ha, h⟩

/-- An exchange that buries is decided by whether the slot is still absent when it succeeds. -/
theorem amid_update {u : Update V} {next : Outcome V → Program K V α} (hu : u.Buries)
    (h : ∀ s₁, s.Intact [] s₁ →
      ((s₁.slot u.cell).content = .absent → ∀ seen,
        (next (.installed seen)).amid order t Q (s₁.setSlot u.cell u.candidate) es) ∧
      ((s₁.slot u.cell).content ≠ .absent →
        (next (.refused (s₁.slot u.cell))).amid order t Q s₁ es)) :
    (u.program >>= next).amid order t Q s es := by
  have hwanted : u.accepts u.seen.content = true := by
    rw [hu.accepts, hu.seen]
    rfl
  rw [Update.program, if_pos hwanted]
  exact ⟨hu, h⟩

/-! ## The loop -/

/-- When the turn of a cell is over, the answer tells whether it is tombstoned. -/
theorem amid_bury {c : CellId} (hlt : c < s.cells.size) :
    (Cell.bury c).amid order t (fun buried s' es' =>
      es' = es ∧ s.Intact [c] s' ∧ buried = s'.tombstoned c) s es := by
  refine amid_action trivial fun s₁ hs₁ r hr => ?_
  obtain rfl := Option.some.inj hr
  have hany : ∀ {s'}, s.Intact [] s' → s.Intact [c] s' := fun h =>
    ⟨h.snapshot, h.staging, h.size, fun d _ => h.tombstoned d List.not_mem_nil⟩
  cases hcontent : (s₁.slot c).content with
  -- The slot was absent when it was read, so the exchange is attempted.
  | absent =>
      simp only [Content.isAbsent, if_true]
      refine amid_action trivial fun s₂ hs₂ r hr => ?_
      obtain rfl := Option.some.inj hr
      have hs₂ : s.Intact [] s₂ := hs₁.trans hs₂
      have hdrawn : s.Intact [] s₂.drawStamp.2 :=
        ⟨hs₂.snapshot, hs₂.staging, hs₂.size, hs₂.tombstoned⟩
      refine amid_update ⟨hcontent, rfl, rfl⟩ fun s₃ hs₃ => ?_
      have hsame : s.Intact [] s₃ := hdrawn.trans hs₃
      have hes : es ++ (Action.readCell c : Action K V).logs ++ (Action.drawStamp : Action K V).logs =
          es := by simp [Action.logs]
      -- The tombstone is made, or the slot that was met instead decides the answer.
      refine ⟨fun _ _ => ⟨hes, hsame.trans (.setSlot s₃ c _), ?_⟩, fun _ => ⟨hes, hany hsame, rfl⟩⟩
      have hlt₃ : c < s₃.cells.size := Nat.lt_of_lt_of_eq hlt hsame.size.symm
      exact (Shared.tombstoned_setSlot_self hlt₃ ⟨s₂.drawStamp.1, .tombstoned⟩).symm
  -- A slot that holds something is left alone, and so is a tombstone.
  | tombstoned | present v =>
      simp only [Content.isAbsent, Bool.false_eq_true, if_false]
      refine ⟨List.append_nil es, hany hs₁, ?_⟩
      show _ = (s₁.slot c).content.isTombstoned
      rw [hcontent]

variable [EquivBEq K]

/-- The entries that are copied are those whose cell is not tombstoned in the end, and the others
are counted. -/
theorem amid_copyLive {entries : List (K × CellId)} {copies : Table K} {n : Nat}
    (hnew : copies.Admits entries)
    (hcells : entries.Pairwise fun a b => a.2 ≠ b.2) (hlt : ∀ e ∈ entries, e.2 < s.cells.size) :
    (Map.copyLive entries copies n).amid order t (fun x s' es' =>
      es' = es ∧ s.Intact (entries.map Prod.snd) s' ∧
        x.1.entries = copies.entries ++ entries.filter (fun e => !s'.tombstoned e.2) ∧
        x.2 = n + entries.countP fun e => s'.tombstoned e.2) s es := by
  induction entries generalizing copies n s with
  | nil => exact ⟨rfl, .refl s, (List.append_nil _).symm, rfl⟩
  | cons e entries ih =>
      obtain ⟨key, c⟩ := e
      obtain ⟨hcell, hcells⟩ := List.pairwise_cons.1 hcells
      refine amid_bind (amid_mono (amid_bury (hlt (key, c) List.mem_cons_self)) ?_)
      rintro buried s₁ es₁ ⟨rfl, hs₁, hburied⟩
      have hlt₁ : ∀ e ∈ entries, e.2 < s₁.cells.size := by
        intro e he
        rw [hs₁.size]
        exact hlt e (List.mem_cons_of_mem _ he)
      -- the turn of the cell is over, so the tombstone is there to stay or never comes
      have hsettled : ∀ {s₂}, s₁.Intact (entries.map Prod.snd) s₂ → s₂.tombstoned c = buried := by
        intro s₂ hs₂
        refine (hs₂.tombstoned c fun hmem => ?_).trans hburied.symm
        obtain ⟨e, he, hec⟩ := List.mem_map.1 hmem
        exact hcell e he hec.symm
      cases buried with
      | true =>
          refine amid_mono (ih hnew.tail hcells hlt₁) ?_
          rintro x s₂ es₂ ⟨rfl, hs₂, hcopied, hcounted⟩
          have hdead := hsettled hs₂
          refine ⟨rfl, hs₁.trans hs₂, ?_, ?_⟩
          · simp only [hcopied, List.filter_cons, hdead, Bool.not_true, Bool.false_eq_true, if_false]
          · rw [hcounted, List.countP_cons, if_pos hdead]
            omega
      | false =>
          have hinsert : (copies.insert key c).entries = copies.entries ++ [(key, c)] :=
            hnew.entries_insert
          refine amid_mono (ih hnew.insert hcells hlt₁) ?_
          rintro x s₂ es₂ ⟨rfl, hs₂, hcopied, hcounted⟩
          have hlive := hsettled hs₂
          refine ⟨rfl, hs₁.trans hs₂, ?_, ?_⟩
          · simp only [hcopied, hinsert, List.filter_cons, hlive, Bool.not_false, if_true,
              List.append_assoc, List.singleton_append]
          · rw [hcounted, List.countP_cons, if_neg (by simp [hlive]), Nat.add_zero]

end Program

/-! ## The whole rebuild -/

/-- The staged table has the entries of the snapshot whose cell is not tombstoned, and `es` reports
how many they are and how many are left out. -/
structure Snapshot.Divided (snapshot : Snapshot K) (s : Shared K V) (es : List Event) : Prop where
  current : s.snapshot = snapshot
  staged : ∃ copies, s.staging.table = some copies ∧
    copies.entries.Perm (snapshot.table.entries.filter fun e => !s.tombstoned e.2) ∧
      es = [.rebuilt copies.size (snapshot.table.entries.countP fun e => s.tombstoned e.2)]

namespace Snapshot.Divided

variable {snapshot : Snapshot K} {s s' : Shared K V} {es : List Event}

/-- What others leave intact stays divided. -/
theorem intact (h : snapshot.Divided s es) (hs : s.Intact [] s') : snapshot.Divided s' es := by
  have htomb : ∀ c, s'.tombstoned c = s.tombstoned c := fun c => hs.tombstoned c List.not_mem_nil
  obtain ⟨copies, hcopies, hperm, hes⟩ := h.staged
  refine ⟨hs.snapshot.trans h.current, copies, ?_, ?_, ?_⟩
  · rw [hs.staging, hcopies]
  · simpa only [htomb] using hperm
  · simpa only [htomb] using hes

/-- The two classes make up the snapshot. -/
theorem counted (h : snapshot.Divided s es) : ∃ copied expunged,
    es = [.rebuilt copied expunged] ∧ copied = s.staging.size ∧
      expunged = snapshot.table.entries.countP (fun e => s.tombstoned e.2) ∧
      copied + expunged = snapshot.size := by
  obtain ⟨copies, hcopies, hperm, hes⟩ := h.staged
  refine ⟨_, _, hes, ?_, rfl, ?_⟩
  · rw [Staging.size, hcopies]
    rfl
  · have hlive : copies.size = snapshot.table.entries.countP fun e => !s.tombstoned e.2 :=
      hperm.length_eq.trans List.countP_eq_length_filter.symm
    have hsum := snapshot.table.entries.length_eq_countP_add_countP fun e => s.tombstoned e.2
    simp only [Bool.not_eq_true, Bool.decide_eq_false] at hsum
    rw [hlive, Nat.add_comm]
    exact hsum.symm

variable [BEq K] [EquivBEq K]

/-- What is staged has the key and the cell of an entry of the snapshot. -/
theorem source (h : snapshot.Divided s es) (hkeys : snapshot.table.KeysDistinct) {key : K} {c : CellId}
    (hc : s.staging.find? key = some c) :
    snapshot.find? key = some c ∧ s.tombstoned c = false := by
  obtain ⟨copies, hcopies, hperm, -⟩ := h.staged
  rw [Staging.find?, hcopies] at hc
  obtain ⟨e, he, rfl, hkey⟩ := Table.exists_mem_of_find? hc
  obtain ⟨hmem, hlive⟩ := List.mem_filter.1 (hperm.mem_iff.1 he)
  refine ⟨?_, by simpa using hlive⟩
  rw [← snapshot.find?_congr hkey]
  exact hkeys.find?_of_mem hmem

/-- Each entry is in one of the classes. -/
theorem find?_eq (h : snapshot.Divided s es) (hkeys : snapshot.table.KeysDistinct) {key : K}
    {c : CellId} (hc : snapshot.find? key = some c) :
    s.staging.find? key = if s.tombstoned c then none else some c := by
  cases htomb : s.tombstoned c with
  | true =>
      -- A key of a tombstoned cell would be staged with that cell, and only live ones are.
      cases hstaged : s.staging.find? key with
      | none => rfl
      | some d =>
          obtain ⟨hd, hlive⟩ := h.source hkeys hstaged
          obtain rfl := Option.some.inj (hc.symm.trans hd)
          rw [htomb] at hlive
          cases hlive
  | false =>
      -- A live entry was copied.
      obtain ⟨copies, hcopies, hperm, -⟩ := h.staged
      obtain ⟨e, he, rfl, hkey⟩ := Table.exists_mem_of_find? hc
      have hdistinct : copies.KeysDistinct := Table.distinct_of_perm hperm (hkeys.filter _)
      have hmem : e ∈ copies.entries := hperm.mem_iff.2 (List.mem_filter.2 ⟨he, by simp [htomb]⟩)
      rw [Staging.find?, hcopies, Option.bind_some, ← copies.find?_congr hkey]
      exact hdistinct.find?_of_mem hmem

end Snapshot.Divided

variable [BEq K] [EquivBEq K]

/-- A rebuild divides the snapshot, whatever the others write meanwhile. -/
theorem Program.amid_rebuild {order : Enumeration K} {t : ThreadId} {s : Shared K V}
    (hnone : s.staging.table = none) (hkeys : s.snapshot.table.KeysDistinct)
    (hcells : s.snapshot.table.entries.Pairwise fun a b => a.2 ≠ b.2)
    (hlt : ∀ e ∈ s.snapshot.table.entries, e.2 < s.cells.size) :
    (Map.rebuild s.snapshot).amid order t (fun _ s' es => s.snapshot.Divided s' es) s [] := by
  -- Nothing is staged, so the snapshot is walked.
  refine amid_action trivial fun s₁ hs₁ r hr => ?_
  obtain rfl := Option.some.inj hr
  have hunstaged : s₁.staging.table.isSome = false := by
    rw [hs₁.staging, hnone]
    rfl
  simp only [hunstaged, Bool.false_eq_true, if_false]
  refine amid_action trivial fun s₂ hs₂ r hr => ?_
  obtain rfl := Option.some.inj hr
  have hs₂ : s.Intact [] s₂ := hs₁.trans hs₂
  have hperm := order.perm s₂.walks s.snapshot.table.entries
  have hlt₂ : ∀ e ∈ order.arrange s₂.walks s.snapshot.table.entries, e.2 < s₂.cells.size := by
    intro e he
    rw [hs₂.size]
    exact hlt e (hperm.mem_iff.1 he)
  refine amid_bind (amid_mono (amid_copyLive (hkeys.admits hperm)
    ((hperm.pairwise_iff Ne.symm).2 hcells) hlt₂) ?_)
  rintro ⟨copies, buried⟩ s₃ es ⟨rfl, hs₃, hcopied, hcounted⟩
  -- The event is written to the log, and then the copies are installed; no tombstone comes or goes
  -- in between.
  refine amid_action trivial fun s₄ hs₄ r hr => ?_
  obtain rfl := Option.some.inj hr
  refine ⟨trivial, fun s₅ hs₅ r hr => ?_⟩
  obtain rfl := Option.some.inj hr
  have htomb : ∀ c, s₅.tombstoned c = s₃.tombstoned c := fun c =>
    (hs₅.tombstoned c List.not_mem_nil).trans (hs₄.tombstoned c List.not_mem_nil)
  have hdead : ∀ c, (s₅.setStaged (some copies)).tombstoned c = s₃.tombstoned c := htomb
  refine ⟨?_, copies, rfl, ?_, ?_⟩
  · exact hs₅.snapshot.trans (hs₄.snapshot.trans (hs₃.snapshot.trans hs₂.snapshot))
  · simp only [hdead]
    exact hcopied ▸ hperm.filter _
  · have hsize : buried = s.snapshot.table.entries.countP fun e => s₃.tombstoned e.2 := by
      exact hcounted.trans ((Nat.zero_add _).trans (hperm.countP_eq _))
    simp only [hdead, hsize]
    rfl

end ConcurrentMap
