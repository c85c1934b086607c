import ConcurrentMap.Proofs.Interference.TableRules

/-!
# Operations of the map among others

Every request has the one rule `Program.wp_request`: a thread that carries a request out takes only
steps that it may take, and when it is done its call has taken effect with the answer that it got.
-/

namespace ConcurrentMap

variable {K V : Type} [BEq K] [BEq V] [EquivBEq K]

namespace World

variable {w : World K V} {t : ThreadId} {k : Ticket K V} {key : K} {c : CellId}

omit [EquivBEq K] in
/-- The cell that serves the key of a call is one where it counts. -/
theorem Sound.engaged (hw : w.Sound) (hk : w.tickets t = some k) (hpend : k.progress = .pending)
    (hkey : k.request.key? = some key) (hc : w.shared.find? key = some c) :
    w.Engaged t k key c := by
  obtain ⟨own, p, hserves, heq⟩ := (hw.roster.serves key c).1 hc
  refine ⟨hk, .inl hpend, hkey, own, by simp [hserves, Standing.key?], heq, ?_⟩
  rw [World.site, hserves]
  exact (hw.docket.tickets t k hk).1

omit [EquivBEq K] in
/-- A call that has withdrawn its key counts at the cell that is gone, before the era ended. -/
theorem Sound.engaged_withdrawn (hw : w.Sound) (hk : w.tickets t = some k)
    (hkey : k.request.key? = some key) (hc : w.shared.find? key = some c) :
    (w.withdrawn t k key c).Engaged t (k.become (.withdrawing w.era)) key c := by
  obtain ⟨own, p, hserves, heq⟩ := (hw.roster.serves key c).1 hc
  have hretired : (w.withdrawn t k key c).standing c = .retired own w.era .withdrawn := by
    show w.afterEra (· == c) .withdrawn false c = _
    simp [afterEra, hserves]
  refine ⟨Function.update_self _ _ _, .inr ⟨w.era, own, rfl, hretired⟩, hkey, own, ?_, heq, ?_⟩
  · simp [hretired, Standing.key?]
  · rw [World.site, hretired]
    show k.id < (w.chronicle.close _).limit w.chronicle.era
    rw [w.chronicle.limit_close_of_le (Nat.le_refl _)]
    exact (hw.docket.tickets t k hk).1

omit [EquivBEq K] in
/-- A thread may put a value into a cell that the snapshot leads to. -/
theorem Sound.mayInstall (hw : w.Sound) (hc : w.shared.snapshot.find? key = some c) :
    w.MayInstall t c := by
  obtain ⟨own, hserves, -⟩ := (hw.roster.published key c).1 hc
  simp [MayInstall, hserves]

omit [EquivBEq K] in
/-- The holder of the mutex may put a value into any cell that serves a key. -/
theorem Sound.mayInstall_of_holder (hw : w.Sound) (hholder : w.shared.holder = some t)
    (hc : w.shared.find? key = some c) : w.MayInstall t c := by
  obtain ⟨own, p, hserves, -⟩ := (hw.roster.serves key c).1 hc
  simp [MayInstall, hserves, hholder]

omit [EquivBEq K] in
/-- A call that finds nothing to change takes effect without a change of the shared state. -/
theorem Sound.ghost_idle (hw : w.Sound) (hk : w.tickets t = some k)
    (hpend : k.progress = .pending) {stamp : Stamp} {answer : Answer V}
    (hanswer : (k.request.effect stamp none).1 = answer)
    (happly : (w.chronicle.state w.era).apply stamp k.request =
      ((k.request.effect stamp none).1, w.chronicle.state w.era))
    (hstamp : ∀ v, k.request.value? = some v →
      stamp < w.shared.clock ∧ (w.mint stamp).2 = k.id) :
    ∃ w', w.Ghost t w' ∧ w'.Sound ∧ w.Along t w' ∧ w'.tickets t = some (k.closed answer) := by
  refine ⟨_, ⟨w.guarantee_entered t k rfl, rfl, rfl, rfl⟩, hw.idle hk hpend happly hstamp,
    w.along_entered t k rfl, ?_⟩
  rw [← hanswer]
  exact Function.update_self _ _ _

/-- The same for a call whose key has no cell. -/
theorem Sound.ghost_missing (hw : w.Sound) (hk : w.tickets t = some k)
    (hpend : k.progress = .pending) (hkey : k.request.key? = some key)
    (hmiss : w.shared.find? key = none) {stamp : Stamp} {answer : Answer V}
    (heff : k.request.effect stamp (none : Option (Handle V)) = (answer, none))
    (hstamp : ∀ v, k.request.value? = some v →
      stamp < w.shared.clock ∧ (w.mint stamp).2 = k.id) :
    ∃ w', w.Ghost t w' ∧ w'.Sound ∧ w.Along t w' ∧ w'.tickets t = some (k.closed answer) :=
  hw.ghost_idle hk hpend (by rw [heff]) (hw.apply_missing hkey hmiss (by rw [heff])) hstamp

omit [EquivBEq K] in
/-- The same for a call that clears a map without entries that nothing amends. -/
theorem Sound.ghost_clear (hw : w.Sound) (hk : w.tickets t = some k)
    (hpend : k.progress = .pending) (hreq : k.request = .clear)
    (hsize : ¬(0 < w.shared.snapshot.size ∨ w.shared.snapshot.amended = true)) :
    ∃ w', w.Ghost t w' ∧ w'.Sound ∧ w.Along t w' ∧ w'.tickets t = some (k.closed .finished) := by
  have hmiss : ∀ key, w.shared.find? key = none := by
    intro key
    have hsnap := Snapshot.eq_empty hsize
    exact Shared.find?_of_complete (by rw [hsnap]; rfl) (by rw [hsnap]; rfl)
  have heff : (k.request.effect 0 (none : Option (Handle V))).1 = .finished := by
    rw [hreq]
    rfl
  refine hw.ghost_idle hk hpend heff (hw.apply_clear hreq hmiss) fun v hv => ?_
  simp [hreq, Request.value?] at hv

omit [EquivBEq K] in
/-- A change in what the proofs know reaches whatever holds after it, without a step. -/
theorem Ghost.reaches {w' : World K V} {P : World K V → Prop} (h : w.Ghost t w') (hw' : w'.Sound)
    (hP : P w') : w.Reaches t w.shared P :=
  ⟨w', h.shared, hw', h.guarantee, hP⟩

end World

open World

namespace Program

variable {order : Enumeration K} {t : ThreadId} {w : World K V} {k : Ticket K V} {key : K}

omit [EquivBEq K] in
/-- Reading the snapshot. -/
theorem wp_readSnapshot {β : Type} {R : β → World K V → Prop}
    {next : Snapshot K → Program K V β} (h : ∀ w₁, w.Rely t w₁ → w₁.Sound →
      w₁.Reaches t w₁.shared fun w₂ => (next w₁.shared.snapshot).wp order t R w₂) :
    (Action.readSnapshot.program >>= next).wp order t R w :=
  wp_read (fun s => s.snapshot) (fun _ => rfl) h

/-! ## Finding the cell of a key under the mutex -/

/-- The cell where the call counts; or the key has none, and the call has taken effect. -/
theorem wp_locate {Q : Option CellId → World K V → Prop} {answer : Answer V}
    (hin : w.Inside t (some k) .rest) (hpend : k.progress = .pending)
    (hkey : k.request.key? = some key) (hvalue : k.request.value? = none)
    (heff : k.request.effect 0 (none : Option (Handle V)) = (answer, none))
    (hfound : ∀ c w', w'.Inside t (some k) .rest → w'.Engaged t k key c → Q (some c) w')
    (hmissing : ∀ w', w'.Inside t (some (k.closed answer)) .rest → Q none w') :
    (Map.locate key).wp order t Q w := by
  refine wp_readSnapshot fun w₁ hr hs => ?_
  have hin₁ := hin.rely hr
  split
  -- The snapshot leads to the cell; the call takes effect there, later.
  · next c hc =>
    exact .here hs (hfound c w₁ hin₁
      (hs.engaged hin₁.ticket hpend hkey (Shared.find?_of_snapshot hc)))
  · next hsnap =>
    split
    · next ham =>
      refine .here hs (wp_read (fun s => s.staging.find? key) (fun _ => rfl)
        fun w₂ hr₂ hs₂ => ?_)
      -- Nobody else changes the tables, so what the snapshot said before still holds.
      have hin₂ := hin₁.rely hr₂
      have hframe := hin₁.frame hr₂
      have hsnap₂ : w₂.shared.snapshot.find? key = none := by rw [hframe.snapshot, hsnap]
      have ham₂ : w₂.shared.snapshot.amended = true := by rw [hframe.snapshot, ham]
      have hst : w₂.shared.staging.table.isSome = true :=
        (hin₂.tidy hs₂).phase.1.symm.trans ham₂
      cases hc : w₂.shared.staging.find? key with
      | some c =>
          have he := hs₂.engaged hin₂.ticket hpend hkey
            ((Shared.find?_of_staging hsnap₂ ham₂).trans hc)
          refine .here hs₂ (wp_bind (wp_recordMiss hin₂ hst fun w' hin' hg => ?_))
          exact hfound c w' hin' (he.grows hg hin'.ticket)
      | none =>
          -- Neither table has the key: the call takes effect now, before the miss is recorded.
          obtain ⟨w₃, hghost, hs₃, ha, ht⟩ := hs₂.ghost_missing hin₂.ticket hpend hkey
            ((Shared.find?_of_staging hsnap₂ ham₂).trans hc) heff (by simp [hvalue])
          refine hghost.reaches hs₃ (wp_bind (wp_recordMiss (hin₂.along ha ht) ?_
            fun w' hin' _ => hmissing w' hin'))
          rw [hghost.shared, hst]
    · next ham =>
      -- The snapshot is complete, so a key that it lacks has no cell.
      obtain ⟨w₂, hghost, hs₂, ha, ht⟩ := hs.ghost_missing hin₁.ticket hpend hkey
        (Shared.find?_of_complete hsnap (by simpa using ham)) heff (by simp [hvalue])
      exact hghost.reaches hs₂ (hmissing w₂ (hin₁.along ha ht))

/-- The same for a deletion, which has taken the key from the staged table if the snapshot lacks it
and is yet to act on the cell. -/
theorem wp_withdraw {Q : Option CellId → World K V → Prop} {answer : Answer V}
    (hin : w.Inside t (some k) .rest) (hpend : k.progress = .pending)
    (hrem : k.request.removes? = some key)
    (heff : k.request.effect 0 (none : Option (Handle V)) = (answer, none))
    (hfound : ∀ c progress w', w'.Inside t (some (k.become progress)) .rest →
      w'.Engaged t (k.become progress) key c → Q (some c) w')
    (hmissing : ∀ w', w'.Inside t (some (k.closed answer)) .rest → Q none w') :
    (Map.withdraw key).wp order t Q w := by
  have hkey := k.request.key?_of_removes? hrem
  have hvalue := k.request.value?_of_removes? hrem
  refine wp_readSnapshot fun w₁ hr hs => ?_
  have hin₁ := hin.rely hr
  split
  · next c hc =>
    exact .here hs (hfound c k.progress w₁ hin₁
      (hs.engaged hin₁.ticket hpend hkey (Shared.find?_of_snapshot hc)))
  · next hsnap =>
    split
    · next ham =>
      refine .here hs (wp_effect (fun _ => rfl) fun w₂ hr₂ hs₂ => ?_)
      have hin₂ := hin₁.rely hr₂
      have hframe := hin₁.frame hr₂
      have hsnap₂ : w₂.shared.snapshot.find? key = none := by rw [hframe.snapshot, hsnap]
      have ham₂ : w₂.shared.snapshot.amended = true := by rw [hframe.snapshot, ham]
      cases hc : w₂.shared.staging.find? key with
      | some c =>
          -- the era ends here, but the call takes effect only where it empties the cell
          have hclosing := hs₂.closing_withdrawn hin₂.holder hin₂.phase hin₂.ticket hpend hrem
            hsnap₂ hc
          have he := hs₂.engaged_withdrawn hin₂.ticket hkey
            ((Shared.find?_of_staging hsnap₂ ham₂).trans hc)
          exact ⟨_, rfl, hclosing.sound hs₂, hclosing.guarantee hs₂,
            hfound c (.withdrawing w₂.era) _ ⟨he.ticket, hin₂.holder, hin₂.phase⟩ he⟩
      | none =>
          have hmiss : w₂.shared.find? key = none :=
            (Shared.find?_of_staging hsnap₂ ham₂).trans hc
          obtain ⟨w₃, hghost, hs₃, ha, ht⟩ := hs₂.ghost_missing hin₂.ticket hpend hkey hmiss heff
            (by simp [hvalue])
          have hin₃ := hin₂.along ha ht
          refine .after hghost ?_
          rw [← hghost.shared] at hmiss hsnap₂ ⊢
          refine hin₃.reaches_tables hs₃ (by simp) ((hin₃.tidy hs₃).unstage hsnap₂) rfl rfl rfl
            (fun _ => rfl) (fun query => ?_) fun w' _ _ hin' _ => hmissing w' hin'
          rw [Tidy.find?_unstage hsnap₂]
          split
          · next hq => rw [← w₃.shared.find?_congr hq, hmiss]
          · rfl
    · next ham =>
      obtain ⟨w₂, hghost, hs₂, ha, ht⟩ := hs.ghost_missing hin₁.ticket hpend hkey
        (Shared.find?_of_complete hsnap (by simpa using ham)) heff (by simp [hvalue])
      exact hghost.reaches hs₂ (hmissing w₂ (hin₁.along ha ht))

/-! ## Reading and deleting -/

/-- An operation that finds the cell of its key, under the mutex if need be, and acts on it after
letting the mutex go. -/
theorem wp_seek {α : Type} {find : Program K V (Option CellId)} {onCell : CellId → Program K V α}
    {onMissing : α} {Q : α → World K V → Prop} {answer : α → Answer V}
    (hout : w.Outside t (some k)) (hpend : k.progress = .pending)
    (hkey : k.request.key? = some key) (hvalue : k.request.value? = none)
    (heff : k.request.effect 0 (none : Option (Handle V)) = (answer onMissing, none))
    (hfind : ∀ {Q' : Option CellId → World K V → Prop} {w : World K V},
      w.Inside t (some k) .rest →
      (∀ c progress w', w'.Inside t (some (k.become progress)) .rest →
        w'.Engaged t (k.become progress) key c → Q' (some c) w') →
      (∀ w', w'.Inside t (some (k.closed (answer onMissing))) .rest → Q' none w') →
      find.wp order t Q' w)
    (hcell : ∀ c progress (w : World K V), w.Engaged t (k.become progress) key c →
      (∀ x w', w.Along t w' → w'.tickets t = some (k.closed (answer x)) → Q x w') →
      (onCell c).wp order t Q w)
    (hQ : ∀ x w', w'.Outside t (some (k.closed (answer x))) → Q x w') :
    (Map.seek key find onCell (return onMissing)).wp order t Q w := by
  rw [Map.seek]
  refine wp_readSnapshot fun w₁ hr hs => ?_
  have hout₁ := hout.rely hr
  split
  · next c hc =>
    exact .here hs (hcell c k.progress w₁
      (hs.engaged hout₁.ticket hpend hkey (Shared.find?_of_snapshot hc))
      fun x w' ha ht => hQ x w' (hout₁.along ha ht))
  · next hsnap =>
    split
    · refine .here hs (wp_bind (wp_locked hout₁ fun w₂ _ _ hin => hfind hin ?_ ?_))
      · exact fun c progress w₃ hin₃ he => ⟨_, hin₃, fun w₄ hg hout₄ =>
          hcell c progress w₄ (he.grows hg hout₄.ticket) fun x w' ha ht =>
            hQ x w' (hout₄.along ha ht)⟩
      · exact fun w₃ hin₃ => ⟨_, hin₃, fun w₄ _ hout₄ => hQ onMissing w₄ hout₄⟩
    · next ham =>
      -- nothing amends the snapshot, so the call takes effect as it is read
      obtain ⟨w₂, hghost, hs₂, ha, ht⟩ := hs.ghost_missing hout₁.ticket hpend hkey
        (Shared.find?_of_complete hsnap (by simpa using ham)) heff (by simp [hvalue])
      exact hghost.reaches hs₂ (hQ onMissing w₂ (hout₁.along ha ht))

/-- A load takes effect with the handle that it answers. -/
theorem wp_load {Q : Option (Handle V) → World K V → Prop} (hout : w.Outside t (some k))
    (hpend : k.progress = .pending) (hreq : k.request = .load key)
    (hQ : ∀ held w', w'.Outside t (some (k.closed (.found held))) → Q held w') :
    (Map.load key).wp order t Q w := by
  have hkey : k.request.key? = some key := by rw [hreq]; rfl
  have hvalue : k.request.value? = none := by rw [hreq]; rfl
  have heff : k.request.effect 0 (none : Option (Handle V)) = (.found none, none) := by
    rw [hreq]
    rfl
  refine wp_seek hout hpend hkey hvalue heff (fun hin hfound hmissing => ?_)
    (fun c progress w he hQ => wp_cellLoad he hreq hQ) hQ
  exact wp_locate hin hpend hkey hvalue heff (fun c w' hin' he => hfound c k.progress w' hin' he)
    hmissing

/-- A deletion on condition takes effect with the answer whether it removed the value. -/
theorem wp_compareAndDelete {Q : Bool → World K V → Prop} {old : V} (hout : w.Outside t (some k))
    (hpend : k.progress = .pending) (hreq : k.request = .compareAndDelete key old)
    (hQ : ∀ deleted w', w'.Outside t (some (k.closed (.decided deleted))) → Q deleted w') :
    (Map.compareAndDelete key old).wp order t Q w := by
  have hkey : k.request.key? = some key := by rw [hreq]; rfl
  have hvalue : k.request.value? = none := by rw [hreq]; rfl
  have heff : k.request.effect 0 (none : Option (Handle V)) = (.decided false, none) := by
    rw [hreq]
    rfl
  -- It empties its cell exactly where the cell holds the value asked for.
  have hvac : k.request.Vacates (Content.holds old)
      (fun previous => .decided previous.isSome) := by
    rw [hreq]
    refine ⟨rfl, fun content h => ?_, fun x h stamp => ?_, fun x h stamp => ?_⟩
    · cases content <;> simp_all [Content.holds, Content.isTombstoned]
    · obtain ⟨stamp', content⟩ := x
      cases content <;> simp_all [Content.holds, Slot.handle?, Request.effect]
    · obtain ⟨stamp', content⟩ := x
      cases content <;> simp_all [Content.holds, Slot.handle?, Request.effect]
  refine wp_seek hout hpend hkey hvalue heff (fun hin hfound hmissing => ?_)
    (fun c progress w he hQ => ?_) hQ
  · exact wp_locate hin hpend hkey hvalue heff
      (fun c w' hin' he => hfound c k.progress w' hin' he) hmissing
  · exact wp_bind (wp_vacate he hvac fun previous w' ha ht => hQ previous.isSome w' ha ht)

/-- Deleting answers the handle removed, which `loadAndDelete` reports and `delete` does not. -/
theorem wp_loadAndDelete {Q : Option (Handle V) → World K V → Prop}
    (answer : Option (Handle V) → Answer V) (hout : w.Outside t (some k))
    (hpend : k.progress = .pending) (hrem : k.request.removes? = some key)
    (heff : ∀ stamp held, k.request.effect stamp held = (answer held, none))
    (hQ : ∀ held w', w'.Outside t (some (k.closed (answer held))) → Q held w') :
    (Map.loadAndDelete key).wp order t Q w := by
  have hkey := k.request.key?_of_removes? hrem
  have hvalue := k.request.value?_of_removes? hrem
  have hvac : k.request.Vacates Content.isPresent
      (fun previous => answer (previous.bind Slot.handle?)) := by
    refine ⟨hvalue, fun content h => ?_, fun x h stamp => heff stamp _, fun x h stamp => ?_⟩
    · cases content <;> simp_all [Content.isPresent, Content.isTombstoned]
    · have hnone : x.handle? = none := by
        simpa [Slot.handle?, Content.isPresent_eq_isSome] using h
      rw [hnone, heff]
      rfl
  refine wp_seek hout hpend hkey hvalue (heff 0 none)
    (fun hin hfound hmissing => wp_withdraw hin hpend hrem (heff 0 none) hfound hmissing)
    (fun c progress w he hQ => ?_) hQ
  exact wp_bind (wp_vacate he hvac fun previous w' ha ht => hQ _ w' ha ht)

/-! ## Writing -/

/-- The way of writing `a` carries out the request `r`, which puts the value `v` into the map. -/
structure LawfulWrite {α : Type} (order : Enumeration K) (t : ThreadId) (a : Map.Write K V α)
    (r : Request K V) (key : K) (v : V) (answer : α → Answer V) : Prop where
  key? : r.key? = some key
  attempt : ∀ {c : CellId} {new : Handle V} {w : World K V} {k : Ticket K V}
    {Q : Option α → World K V → Prop}, new.value = v → k.request = r → w.Engaged t k key c →
      w.Minted new.stamp (.present v) k.id → w.MayInstall t c →
      (∀ x w', w.Along t w' → w'.tickets t = some (k.closed (answer x)) → Q (some x) w') →
      (∀ w', w.Rely t w' → Q none w') → (a.attempt c new).wp order t Q w
  guarded : ∀ {c : CellId} {new : Handle V} {w : World K V} {k : Ticket K V}
    {Q : α → World K V → Prop}, new.value = v → k.request = r → w.Engaged t k key c →
      w.shared.holder = some t → w.shared.tombstoned c = false →
      w.Minted new.stamp (.present v) k.id → w.MayInstall t c →
      (∀ x w', w.Along t w' → w'.tickets t = some (k.closed (answer x)) → Q x w') →
      (a.guarded c new).wp order t Q w
  inserted : ∀ new : Handle V, new.value = v →
    r.effect new.stamp none = (answer (a.inserted new), some new)

section Write

variable {α : Type} {a : Map.Write K V α} {v : V} {answer : α → Answer V}
  {Q : α → World K V → Prop}

/-- A write that holds the mutex takes effect: in the cell of its key, or in the new one that it
stages for the key. -/
theorem wp_underMutex {new : Handle V} (ha : LawfulWrite order t a k.request key v answer)
    (hin : w.Inside t (some k) .rest) (hpend : k.progress = .pending) (hnew : new.value = v)
    (hmint : w.Minted new.stamp (.present v) k.id)
    (hQ : ∀ x w', w'.Inside t (some (k.closed (answer x))) .rest → Q x w') :
    (a.underMutex key new).wp order t Q w := by
  refine wp_readSnapshot fun w₁ hr hs => ?_
  have hin₁ := hin.rely hr
  have hmint₁ := hr.grows.minted_of hmint
  split
  · next c hc =>
    -- The cell is in the snapshot, and its tombstone is lifted if it has one.
    have he := hs.engaged hin₁.ticket hpend ha.key? (Shared.find?_of_snapshot hc)
    refine .here hs (wp_bind (wp_readmitted hin₁ hc fun w₂ hin₂ hlike hlive => ?_))
    refine ha.guarded hnew rfl (he.grows hlike.grows hin₂.ticket) hin₂.holder hlive
      (hlike.grows.minted_of hmint₁) ?_ fun x w' ha' ht => hQ x w' (hin₂.along ha' ht)
    obtain ⟨own, hserves, -⟩ := (hs.roster.published key c).1 hc
    simp [MayInstall, hlike.standing, hserves]
  · next hsnap =>
    refine .here hs (wp_read (fun s => s.staging.find? key) (fun _ => rfl)
      fun w₂ hr₂ hs₂ => .here hs₂ ?_)
    have hin₂ := hin₁.rely hr₂
    have hmint₂ := hr₂.grows.minted_of hmint₁
    have hframe := hin₁.frame hr₂
    split
    · next c hc =>
      -- The cell is staged, and staged cells have no tombstones.
      have hfind := (hin₂.tidy hs₂).find?_of_staged hc
      refine wp_bind (ha.guarded hnew rfl (hs₂.engaged hin₂.ticket hpend ha.key? hfind)
        hin₂.holder ((hin₂.tidy hs₂).stagedLive key c hc) hmint₂
        (hs₂.mayInstall_of_holder hin₂.holder hfind) fun x w₃ ha₃ ht₃ => ?_)
      have hin₃ := hin₂.along ha₃ ht₃
      refine wp_bind ?_
      -- The miss is charged or not, as the write has it; the call is answered either way.
      unfold Map.Write.charge
      split
      · refine wp_recordMiss hin₃ ?_ fun w' hin' _ => hQ x w' hin'
        rw [(ha₃.frame hin₂.holder).staging]
        exact Staging.isSome_of_find? hc
      · exact hQ x w₃ hin₃
    · next hstag =>
      -- The key is new, and the call takes effect as it is staged.
      refine wp_bind (wp_stageNew hin₂ hframe.snapshot hpend ha.key?
        (by rw [hframe.snapshot, hsnap]) hstag (hnew ▸ hmint₂) (ha.inserted new hnew)
        fun w' hin' _ => hQ _ w' hin')

/-- A write, through the cell that the snapshot leads to or under the mutex. -/
theorem wp_write (answer : α → Answer V) (ha : LawfulWrite order t a k.request key v answer)
    (hout : w.Outside t (some k)) (hpend : k.progress = .pending)
    (hQ : ∀ x w', w'.Outside t (some (k.closed (answer x))) → Q x w') :
    (a.program key v).wp order t Q w := by
  refine wp_drawStamp (.present v) k.id fun w₁ stamp hr hmint => ?_
  -- there are two ways to the mutex: the snapshot lacks the key, or its cell is tombstoned
  have hlock : ∀ w₂, w₁.Rely t w₂ →
      (Map.locked (a.underMutex key ⟨stamp, v⟩)).wp order t Q w₂ := fun w₂ hr₂ =>
    wp_locked (hout.rely (hr.trans hr₂)) fun w₃ hg _ hin =>
      wp_underMutex ha hin hpend rfl ((hr₂.grows.trans hg).minted_of hmint) fun x w₄ hin₄ =>
        ⟨_, hin₄, fun w₅ _ hout₅ => hQ x w₅ hout₅⟩
  refine wp_readSnapshot fun w₂ hr₂ hs₂ => .here hs₂ ?_
  have hout₂ := hout.rely (hr.trans hr₂)
  split
  · next c hc =>
    refine wp_bind (ha.attempt rfl rfl
      (hs₂.engaged hout₂.ticket hpend ha.key? (Shared.find?_of_snapshot hc))
      (hr₂.grows.minted_of hmint) (hs₂.mayInstall hc) (fun x w' ha' ht => ?_) fun w₃ hr₃ => ?_)
    · exact hQ x w' (hout₂.along ha' ht)
    · exact hlock w₃ (hr₂.trans hr₃)
  · exact hlock w₂ hr₂

end Write

/-- A store takes effect. -/
theorem wp_store {Q : Unit → World K V → Prop} {v : V} (hout : w.Outside t (some k))
    (hpend : k.progress = .pending) (hreq : k.request = .store key v)
    (hQ : ∀ w', w'.Outside t (some (k.closed .finished)) → Q () w') :
    (Map.store key v).wp order t Q w := by
  have hover : k.request.Overwrites v fun _ => .finished := by
    rw [hreq]
    exact fun stamp held => rfl
  refine wp_write (fun _ => .finished) ⟨by rw [hreq]; rfl, ?_, ?_, ?_⟩ hout hpend
    fun _ w' => hQ w'
  · rintro c new w k' Q' rfl hk he hmint hmay hsome hnone
    refine wp_bind (wp_bind (wp_trySwap he (hk ▸ hover) hmint hmay
      (fun previous w' ha ht => hsome () w' ha ht) fun w' hr => hnone w' hr))
  · rintro c new w k' Q' rfl hk he hholder hlive hmint hmay hQ'
    exact wp_bind (wp_cellSwap he hholder hlive (hk ▸ hover) hmint hmay
      fun previous w' ha ht => hQ' () w' ha ht)
  · rintro new rfl
    rw [hover]

/-- A swap takes effect with the previous handle as its answer. -/
theorem wp_swap {Q : Option (Handle V) → World K V → Prop} {v : V} (hout : w.Outside t (some k))
    (hpend : k.progress = .pending) (hreq : k.request = .swap key v)
    (hQ : ∀ previous w', w'.Outside t (some (k.closed (.found previous))) → Q previous w') :
    (Map.swap key v).wp order t Q w := by
  have hover : k.request.Overwrites v Answer.found := by
    rw [hreq]
    exact fun stamp held => rfl
  refine wp_write Answer.found ⟨by rw [hreq]; rfl, ?_, ?_, ?_⟩ hout hpend hQ
  · rintro c new w k' Q' rfl hk he hmint hmay hsome hnone
    exact wp_trySwap he (hk ▸ hover) hmint hmay hsome hnone
  · rintro c new w k' Q' rfl hk he hholder hlive hmint hmay hQ'
    exact wp_cellSwap he hholder hlive (hk ▸ hover) hmint hmay hQ'
  · rintro new rfl
    rw [hover]

/-- Loading or storing takes effect with the handle that the key has from then on. -/
theorem wp_loadOrStore {Q : Handle V × Bool → World K V → Prop} {v : V}
    (hout : w.Outside t (some k)) (hpend : k.progress = .pending)
    (hreq : k.request = .loadOrStore key v)
    (hQ : ∀ x w', w'.Outside t (some (k.closed (.settled x.1 x.2))) → Q x w') :
    (Map.loadOrStore key v).wp order t Q w := by
  refine wp_write (fun x => .settled x.1 x.2) ⟨by rw [hreq]; rfl, ?_, ?_, ?_⟩ hout hpend
    hQ
  · rintro c new w k' Q' rfl hk he hmint hmay hsome hnone
    exact wp_tryLoadOrStore he (hk.trans hreq) hmint hmay hsome fun w' hr _ => hnone w' hr
  · rintro c new w k' Q' rfl hk he hholder hlive hmint hmay hQ'
    refine wp_bind (wp_tryLoadOrStore he (hk.trans hreq) hmint hmay
      (fun x w' ha ht => hQ' x w' ha ht) fun w' hr htomb => ?_)
    -- the cell was not tombstoned, and only the holder of the mutex could have changed that
    rw [(hr.along.frame hholder).tombstoned, hlive] at htomb
    simp at htomb
  · rintro new rfl
    rw [hreq]
    rfl

/-- A comparison under the mutex, which counts at a cell or finds nothing to compare with. -/
theorem wp_compareAndSwapLocked {Q : Bool → World K V → Prop} {old : V} {new : Handle V}
    (hin : w.Inside t (some k) .rest) (hpend : k.progress = .pending)
    (hreq : k.request = .compareAndSwap key old new.value)
    (hmint : w.Minted new.stamp (.present new.value) k.id)
    (hQ : ∀ swapped w', w'.Inside t (some (k.closed (.decided swapped))) .rest → Q swapped w') :
    (Map.compareAndSwapLocked key old new).wp order t Q w := by
  have hkey : k.request.key? = some key := by rw [hreq]; rfl
  refine wp_readSnapshot fun w₁ hr hs => ?_
  have hin₁ := hin.rely hr
  have hmint₁ := hr.grows.minted_of hmint
  split
  · next c hc =>
    -- The cell is in the snapshot; a tombstone there holds nothing that could be compared.
    exact .here hs (wp_compareAndSwap
      (hs.engaged hin₁.ticket hpend hkey (Shared.find?_of_snapshot hc)) hreq hmint₁
      (hs.mayInstall hc) fun x w' ha ht => hQ x w' (hin₁.along ha ht))
  · next hsnap =>
    refine .here hs (wp_read (fun s => s.staging.find? key) (fun _ => rfl) fun w₂ hr₂ hs₂ => ?_)
    have hin₂ := hin₁.rely hr₂
    have hmint₂ := hr₂.grows.minted_of hmint₁
    split
    · next c hc =>
      -- The cell is staged, and the lookup is a miss once the comparison is decided.
      have hfind := (hin₂.tidy hs₂).find?_of_staged hc
      refine .here hs₂ (wp_bind (wp_compareAndSwap (hs₂.engaged hin₂.ticket hpend hkey hfind)
        hreq hmint₂ (hs₂.mayInstall_of_holder hin₂.holder hfind) fun x w₃ ha ht => ?_))
      refine wp_bind (wp_recordMiss (hin₂.along ha ht) ?_ fun w' hin' _ => hQ x w' hin')
      rw [(ha.frame hin₂.holder).staging]
      exact Staging.isSome_of_find? hc
    · next hstag =>
      -- The key has no cell, so there is nothing to compare with.
      have hmiss : w₂.shared.find? key = none := by
        have hsnap₂ : w₂.shared.snapshot.find? key = none := by
          rw [(hin₁.frame hr₂).snapshot, hsnap]
        simp [Shared.find?, hsnap₂, hstag]
      have heff : k.request.effect new.stamp (none : Option (Handle V)) =
          (.decided false, none) := by
        rw [hreq]
        rfl
      obtain ⟨w₃, hghost, hs₃, ha, ht⟩ := hs₂.ghost_missing hin₂.ticket hpend hkey hmiss heff
        fun v _ => hmint₂.stamped
      exact hghost.reaches hs₃ (hQ false w₃ (hin₂.along ha ht))

/-- A comparison and exchange takes effect with the answer whether it exchanged the value. -/
theorem wp_mapCompareAndSwap {Q : Bool → World K V → Prop} {old new : V}
    (hout : w.Outside t (some k)) (hpend : k.progress = .pending)
    (hreq : k.request = .compareAndSwap key old new)
    (hQ : ∀ swapped w', w'.Outside t (some (k.closed (.decided swapped))) → Q swapped w') :
    (Map.compareAndSwap key old new).wp order t Q w := by
  have hkey : k.request.key? = some key := by rw [hreq]; rfl
  refine wp_drawStamp (.present new) k.id fun w₁ stamp hr hmint => ?_
  refine wp_readSnapshot fun w₂ hr₂ hs₂ => ?_
  have hout₂ := hout.rely (hr.trans hr₂)
  have hmint₂ := hr₂.grows.minted_of hmint
  split
  · next c hc =>
    exact .here hs₂ (wp_compareAndSwap
      (hs₂.engaged hout₂.ticket hpend hkey (Shared.find?_of_snapshot hc)) hreq hmint₂
      (hs₂.mayInstall hc) fun x w' ha ht => hQ x w' (hout₂.along ha ht))
  · next hsnap =>
    split
    -- Only an amended snapshot leaves room for a staged key.
    · exact .here hs₂ (wp_locked hout₂ fun w₃ hg _ hin => wp_compareAndSwapLocked hin hpend hreq
        (hg.minted_of hmint₂) fun x w₄ hin₄ => ⟨_, hin₄, fun w₅ _ hout₅ => hQ x w₅ hout₅⟩)
    · next ham =>
      have heff : k.request.effect stamp (none : Option (Handle V)) = (.decided false, none) := by
        rw [hreq]
        rfl
      obtain ⟨w₃, hghost, hs₃, ha, ht⟩ := hs₂.ghost_missing hout₂.ticket hpend hkey
        (Shared.find?_of_complete hsnap (by simpa using ham)) heff fun v _ => hmint₂.stamped
      exact hghost.reaches hs₃ (hQ false w₃ (hout₂.along ha ht))

/-! ## The whole map -/

omit [EquivBEq K] in
/-- Dropping what is staged, after the snapshot was emptied or if it was complete anyhow. -/
theorem wp_reset {Q : Unit → World K V → Prop} {k : Option (Ticket K V)} {phase : Phase K}
    (hin : w.Inside t k phase)
    (hdrop : ∀ w₁, w.Rely t w₁ → w₁.Sound → Tidy .rest { w₁.shared with staging := .empty } ∧
      w₁.shared.snapshot.amended = false)
    (hphase : ∀ key c, phase ≠ .reviving key c)
    (hQ : ∀ w', w'.Inside t k .rest → Q () w') : Map.clearLocked.reset.wp order t Q w := by
  refine wp_effect (fun _ => rfl) fun w₁ hr hs => ?_
  obtain ⟨htidy, ham⟩ := hdrop w₁ hr hs
  refine (hin.rely hr).reaches_tables hs (fun key c hp => absurd hp (hphase key c)) htidy rfl rfl
    rfl (fun _ => rfl) (Tidy.find?_drop ham) fun w₂ _ _ hin₂ _ => ?_
  exact wp_emit fun w₃ hr₃ => hQ w₃ (hin₂.rely hr₃)

/-- A clearing that holds the mutex takes effect. -/
theorem wp_clearLocked {Q : Unit → World K V → Prop} (hin : w.Inside t (some k) .rest)
    (hpend : k.progress = .pending) (hreq : k.request = .clear)
    (hQ : ∀ w', w'.Inside t (some (k.closed .finished)) .rest → Q () w') :
    Map.clearLocked.wp order t Q w := by
  refine wp_readSnapshot fun w₁ hr hs => ?_
  have hin₁ := hin.rely hr
  split
  · refine .here hs (wp_effect (fun _ => rfl) fun w₂ hr₂ hs₂ => ?_)
    have hin₂ := hin₁.rely hr₂
    -- There is something to clear: the call takes effect as the snapshot is emptied, and the staged
    -- table goes afterwards.
    have hclosing := hs₂.closing_discarded hin₂.holder hin₂.phase hin₂.ticket hpend hreq
    have hin₃ : (w₂.discarded t k).Inside t (some (k.closed .finished)) .cleared :=
      ⟨Function.update_self _ _ _, hin₂.holder, rfl⟩
    refine ⟨_, rfl, hclosing.sound hs₂, hclosing.guarantee hs₂,
      wp_reset hin₃ (fun w₄ hr₄ hs₄ => ?_) (by simp) hQ⟩
    have htidy := (hin₃.rely hr₄).tidy hs₄
    have hsnap : w₄.shared.snapshot = .empty := htidy.phase
    exact ⟨htidy.dropCleared, by rw [hsnap]; rfl⟩
  · next hsize =>
    -- There is nothing to clear, and the call takes effect at once.
    obtain ⟨w₂, hghost, hs₂, ha, ht⟩ := hs.ghost_clear hin₁.ticket hpend hreq
      (by simpa using hsize)
    have hin₂ := hin₁.along ha ht
    refine hghost.reaches hs₂ (wp_reset hin₂ (fun w₃ hr₃ hs₃ => ?_) (by simp) hQ)
    have htidy := (hin₂.rely hr₃).tidy hs₃
    have ham : w₃.shared.snapshot.amended = false := by
      rw [(hin₂.frame hr₃).snapshot, hghost.shared]
      simp only [Bool.or_eq_true, decide_eq_true_eq, not_or] at hsize
      simpa using hsize.2
    have hempty := htidy.staging_eq_empty ham
    refine ⟨?_, ham⟩
    rw [← hempty]
    exact htidy

/-- A clearing takes effect. -/
theorem wp_clear {Q : Unit → World K V → Prop} (hout : w.Outside t (some k))
    (hpend : k.progress = .pending) (hreq : k.request = .clear)
    (hQ : ∀ w', w'.Outside t (some (k.closed .finished)) → Q () w') :
    Map.clear.wp order t Q w := by
  refine wp_readSnapshot fun w₁ hr hs => ?_
  have hout₁ := hout.rely hr
  split
  · exact .here hs (wp_locked hout₁ fun w₂ _ _ hin => wp_clearLocked hin hpend hreq fun w₃ hin₃ =>
      ⟨_, hin₃, fun w₄ _ hout₄ => hQ w₄ hout₄⟩)
  · next hsize =>
    obtain ⟨w₂, hghost, hs₂, ha, ht⟩ := hs.ghost_clear hout₁.ticket hpend hreq
      (by simpa using hsize)
    exact hghost.reaches hs₂ (hQ w₂ (hout₁.along ha ht))

/-- Fixing what a traversal visits concerns no call. What it visits are the entries of a snapshot
that was complete at some moment in between. -/
theorem wp_itinerary {Q : List (K × CellId) → World K V → Prop} {k : Option (Ticket K V)}
    (hout : w.Outside t k)
    (hQ : ∀ entries x w', w'.Outside t k → w.Charts w' x → entries.Perm x.table.entries →
      Q entries w') : Map.itinerary.wp order t Q w := by
  -- What is walked through is a table that was read, whatever becomes of the map meanwhile.
  have hwalk : ∀ (snapshot : Snapshot K) (w₁ : World K V), w₁.Outside t k →
      w.Charts w₁ snapshot → (Action.walk snapshot.table).program.wp order t Q w₁ :=
    fun snapshot w₁ hout₁ hcharts => wp_walk fun w₂ entries hr₂ hperm =>
      hQ entries snapshot w₂ (hout₁.rely hr₂) (hcharts.after hr₂.grows) hperm
  refine wp_bind (wp_readSnapshot fun w₁ hr hs => .here hs ?_)
  have hout₁ := hout.rely hr
  split
  · refine wp_locked hout₁ fun w₂ hg₂ _ hin => wp_readSnapshot fun w₃ hr₃ hs₃ => .here hs₃ ?_
    -- The snapshot is read again under the mutex, as another thread may have promoted already.
    have hin₃ := hin.rely hr₃
    have hg₃ := (hr.grows.trans hg₂).trans hr₃.grows
    split
    · next ham =>
      exact wp_promote hin₃ ((hin₃.tidy hs₃).phase.1.symm.trans ham) fun x w₄ hin₄ hcharts =>
        ⟨k, hin₄, fun w₅ hg₅ hout₅ => hwalk x w₅ hout₅ ((hcharts.before hg₃).after hg₅)⟩
    · next ham =>
      have hcharts := (hs₃.charts (by simpa using ham)).before hg₃
      exact ⟨k, hin₃, fun w₄ hg₄ hout₄ => hwalk _ w₄ hout₄ (hcharts.after hg₄)⟩
  · next ham => exact hwalk _ w₁ hout₁ ((hs.charts (by simpa using ham)).before hr.grows)

/-! ## Requests -/

/-- A call takes effect while its request is carried out, and with the answer that is given. -/
theorem wp_request {Q : Answer V → World K V → Prop} (hout : w.Outside t (some k))
    (hpend : k.progress = .pending)
    (hQ : ∀ answer w', w'.Outside t (some (k.closed answer)) → Q answer w') :
    k.request.program.wp order t Q w := by
  cases hreq : k.request with
  | load key => exact wp_bind (wp_load hout hpend hreq fun held w' hout' => hQ _ w' hout')
  | store key v => exact wp_bind (wp_store hout hpend hreq fun w' hout' => hQ _ w' hout')
  | swap key v => exact wp_bind (wp_swap hout hpend hreq fun held w' hout' => hQ _ w' hout')
  | loadOrStore key v =>
      exact wp_bind (wp_loadOrStore hout hpend hreq fun x w' hout' => hQ _ w' hout')
  | loadAndDelete key =>
      exact wp_bind (wp_loadAndDelete .found hout hpend (by rw [hreq]; rfl)
        (fun stamp held => by rw [hreq]; rfl) fun held w' hout' => hQ _ w' hout')
  | delete key =>
      exact wp_bind (wp_bind (wp_loadAndDelete (fun _ => .finished) hout hpend
        (by rw [hreq]; rfl) (fun stamp held => by rw [hreq]; rfl)
        fun held w' hout' => hQ _ w' hout'))
  | compareAndSwap key old new =>
      exact wp_bind (wp_mapCompareAndSwap hout hpend hreq fun swapped w' hout' => hQ _ w' hout')
  | compareAndDelete key old =>
      exact wp_bind (wp_compareAndDelete hout hpend hreq fun deleted w' hout' => hQ _ w' hout')
  | clear => exact wp_bind (wp_clear hout hpend hreq fun w' hout' => hQ _ w' hout')

end Program

end ConcurrentMap
