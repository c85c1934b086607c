import ConcurrentMap.Proofs.Custody.Logic

/-!
# Operations on cells meet their expectations

At any time an operation on a cell takes nothing for granted. Under the mutex the cell is not
tombstoned, and nobody else may bury it: so a write that does not look first meets no tombstone
(`Cell.heeds_store`), and `Cell.loadOrStore` has no need of one (`Cell.heeds_loadOrStore`). Whatever
handle an operation answers has been in a cell.
-/

namespace ConcurrentMap

variable {K V α β : Type} [BEq K]

namespace Scene

/-- The handle, if there is one, has been in a cell. -/
def Hands (σ : Scene K V) (found : Option (Handle V)) : Prop := ∀ h, found = some h → σ.shown h

variable {σ σ' : Scene K V}

omit [BEq K] in
/-- What was shown once stays shown. -/
theorem Hands.mono {found : Option (Handle V)} (h : σ.Hands found)
    (hshown : ∀ held, σ.shown held → σ'.shown held) : σ'.Hands found :=
  fun held hheld => hshown held (h held hheld)

omit [BEq K] in
/-- What a cell holds now is shown. -/
theorem hands_slot (σ : Scene K V) (posted : Account) (s : Shared K V) (c : CellId) :
    (σ.after posted s).Hands (s.slot c).handle? :=
  fun _ hheld => .inr ⟨c, Slot.handle?_eq_some_iff.1 hheld⟩

omit [BEq K] in
/-- What was put into a cell is shown. -/
theorem shown_setSlot (σ : Scene K V) (posted : Account) {s : Shared K V} {c : CellId}
    (hc : c < s.cells.size) (new : Handle V) :
    (σ.after posted (s.setSlot c new.slot)).shown new :=
  .inr ⟨c, Shared.slot_setSlot_self hc _⟩

end Scene

variable {order : Enumeration K} {t : ThreadId} {role : Role K V} {σ : Scene K V}

namespace Program

/-- A cell is read, and its slot is exchanged for as long as it is acceptable. -/
theorem heeds_renew {c : CellId} {candidate : Slot V} {accepts : Content V → Bool}
    {next : Outcome V → Program K V β} {R : β → Scene K V → Prop} (hpermitted : role.Permits accepts)
    (hin : ∀ σ₁, σ.Endures t role σ₁ → ∀ found : Slot V, accepts found.content = true →
      σ₁.Hands found.handle? → (next (.installed found)).heeds order t role R
        (σ₁.after [] (σ₁.shared.setSlot c candidate)))
    (hout : ∀ σ₁, σ.Endures t role σ₁ → accepts (σ₁.shared.slot c).content = false →
      (next (.refused (σ₁.shared.slot c))).heeds order t role R (σ₁.after [] σ₁.shared)) :
    ((Action.readCell c).program >>= fun seen =>
      Update.program ⟨c, seen, candidate, accepts⟩ >>= next).heeds order t role R σ := by
  refine heeds_readCell fun σ₁ he => heeds_update (σ₁.hands_slot _ _ c) hpermitted (hout σ₁ he) ?_
  intro σ₂ he₂
  have he := he.trans he₂.of_after
  exact ⟨fun found => hin σ₂ he found, hout σ₂ he⟩

end Program

open Program

namespace Cell

variable {c : CellId}

/-! ## At any time -/

/-- A load answers what the cell held when it was read. -/
theorem heeds_load : (load c).heeds order t role (fun x σ' => σ'.Hands x) σ :=
  heeds_readCell fun σ₁ _ => σ₁.hands_slot _ _ c

/-- A swap answers what it has replaced; only deletions have to find a value there. -/
theorem heeds_trySwap (hkeeps : role.Keeps) (new : Handle V) :
    (trySwap c new).heeds order t role (fun x σ' => ∀ prev, x = some prev → σ'.Hands prev) σ := by
  refine heeds_renew (hkeeps.permits _) (fun σ₁ _ found _ hfound => ?_) fun σ₁ _ _ => ?_
  · rintro prev hprev held hheld
    obtain rfl := Option.some.inj hprev
    exact .inl (hfound held hheld)
  · exact fun prev hprev => by simp at hprev

/-- A store that may be refused takes nothing for granted. -/
theorem heeds_tryStore (hkeeps : role.Keeps) (new : Handle V) :
    (tryStore c new).heeds order t role (fun _ _ => True) σ :=
  heeds_bind (heeds_mono (heeds_trySwap hkeeps new) fun _ _ _ => trivial)

/-- The answer is the candidate, which is in the cell by then, or what was found there. -/
theorem heeds_tryLoadOrStore (hkeeps : role.Keeps) (hc : c < σ.shared.cells.size)
    (candidate : Handle V) : (tryLoadOrStore c candidate).heeds order t role
      (fun x σ' => ∀ a, x = some a → σ'.shown a.1) σ := by
  refine heeds_renew (hkeeps.permits _) (fun σ₁ he found _ _ => ?_) fun σ₁ _ _ => ?_
  · rintro a ha
    obtain rfl := Option.some.inj ha
    exact σ₁.shown_setSlot [] (Nat.lt_of_lt_of_le hc he.along.size) candidate
  · rintro a ha
    obtain ⟨held, hheld, rfl⟩ := Option.map_eq_some_iff.1 ha
    exact σ₁.hands_slot _ _ c held hheld

/-- To vacate a cell is permitted even to deletions if what is wanted holds a value. -/
theorem heeds_vacate {wanted : Content V → Bool}
    (hwanted : ∀ x, wanted x = true → x.isPresent = true) :
    (vacate c wanted).heeds order t role
      (fun x σ' => σ'.Hands (x.bind Slot.handle?)) σ := by
  refine heeds_readCell fun σ₁ _ => ?_
  split
  · refine heeds_drawStamp fun σ₂ he₂ => ?_
    refine heeds_update (fun held hheld => .inl (he₂.along.shown held ?_))
      (role.permits_of_isPresent hwanted) (fun _ => ?_) ?_
    · exact σ₁.hands_slot _ _ c held hheld
    · exact fun held hheld => by simp at hheld
    · refine fun σ₃ _ => ⟨fun found _ hfound held hheld => .inl (hfound held hheld), fun _ => ?_⟩
      exact fun held hheld => by simp at hheld
  · exact fun held hheld => by simp at hheld

/-- A deletion hands over the value that it has replaced. -/
theorem heeds_remove : (remove c).heeds order t role (fun x σ' => σ'.Hands x) σ :=
  heeds_bind (heeds_mono (heeds_vacate fun _ h => h) fun _ _ h => h)

/-- A comparison takes nothing for granted: it only matches a slot that holds a value. -/
theorem heeds_compareAndSwap [BEq V] (old : V) (new : Handle V) :
    (compareAndSwap c old new).heeds order t role (fun _ _ => True) σ :=
  heeds_renew (role.permits_of_isPresent fun _ => Content.isPresent_of_holds)
    (fun _ _ _ _ _ => trivial) fun _ _ _ => trivial

/-- A comparison that deletes only matches a slot that holds a value. -/
theorem heeds_compareAndDelete [BEq V] (old : V) :
    (compareAndDelete c old).heeds order t role (fun _ _ => True) σ :=
  heeds_bind (heeds_mono (heeds_vacate fun _ => Content.isPresent_of_holds) fun _ _ _ => trivial)

/-- Nobody buries a cell in a deletion: a burial accepts absent slots. -/
theorem heeds_bury (hkeeps : role.Keeps) :
    (bury c).heeds order t role (fun _ _ => True) σ := by
  refine heeds_readCell fun σ₁ _ => ?_
  split
  · refine heeds_drawStamp fun σ₂ he₂ => ?_
    refine heeds_update (fun held hheld => .inl (he₂.along.shown held ?_)) (hkeeps.permits _)
      (fun _ => trivial) ?_
    · exact σ₁.hands_slot _ _ c held hheld
    · exact fun σ₃ _ => ⟨fun _ _ _ => trivial, fun _ => trivial⟩
  · trivial

/-! ## Under the mutex -/

/-- A write that does not look first: it takes for granted that the cell is not tombstoned. -/
theorem heeds_exchange {new : Slot V} {next : Slot V → Program K V β}
    {R : β → Scene K V → Prop} (hholder : σ.shared.holder = some t)
    (hlive : σ.shared.tombstoned c = false)
    (hrole : ∀ id key value, role ≠ some (id, .loadOrStore key value))
    (h : ∀ σ₁, σ.Endures t role σ₁ → (next (σ₁.shared.slot c)).heeds order t role R
      (σ₁.after [] (σ₁.shared.setSlot c new))) :
    ((Action.exchange c new).program >>= next).heeds order t role R σ :=
  heeds_effect (fun s => (s.slot c, s.setSlot c new)) (fun _ => rfl)
    (fun _ he => .of_postings ((he.tombstoned hholder c).trans hlive) hrole rfl (by simp)) rfl h

/-- Under the mutex, a swap answers what the cell held before it was written. -/
theorem heeds_swap (hholder : σ.shared.holder = some t) (hlive : σ.shared.tombstoned c = false)
    (hrole : ∀ id key value, role ≠ some (id, .loadOrStore key value)) (new : Handle V) :
    (swap c new).heeds order t role (fun x σ' => σ'.Hands x) σ := by
  refine heeds_exchange hholder hlive hrole fun σ₁ he held hheld => .inl ?_
  -- what the cell held before it was written
  exact he.valid.shows held ⟨c, Slot.handle?_eq_some_iff.1 hheld⟩

/-- Under the mutex, a store may rely on it that the cell is not tombstoned. -/
theorem heeds_store (hholder : σ.shared.holder = some t) (hlive : σ.shared.tombstoned c = false)
    (hrole : ∀ id key value, role ≠ some (id, .loadOrStore key value)) (new : Handle V) :
    (store c new).heeds order t role (fun _ _ => True) σ :=
  heeds_exchange hholder hlive hrole fun _ _ => trivial

/-- The cell is not tombstoned, so the first attempt answers. -/
theorem heeds_loadOrStore (hholder : σ.shared.holder = some t)
    (hlive : σ.shared.tombstoned c = false) (hkeeps : role.Keeps) (hc : c < σ.shared.cells.size)
    (candidate : Handle V) :
    (loadOrStore c candidate).heeds order t role (fun a σ' => σ'.shown a.1) σ := by
  have hanswers : (tryLoadOrStore c candidate).heeds order t role
      (fun x σ' => ∃ a, x = some a ∧ σ'.shown a.1) σ := by
    refine heeds_renew (hkeeps.permits _) (fun σ₁ he found _ _ => ?_) fun σ₁ he hrefused => ?_
    · exact ⟨_, rfl, σ₁.shown_setSlot [] (Nat.lt_of_lt_of_le hc he.along.size) candidate⟩
    · -- what is neither absent nor tombstoned holds a value
      have hlive₁ := (he.tombstoned hholder c).trans hlive
      obtain ⟨held, hheld⟩ : ∃ held, (σ₁.shared.slot c).handle? = some held := by
        unfold Shared.tombstoned at hlive₁
        unfold Slot.handle?
        cases hcontent : (σ₁.shared.slot c).content with
        | absent => simp [hcontent, Content.isAbsent] at hrefused
        | tombstoned => simp [hcontent, Content.isTombstoned] at hlive₁
        | present v => exact ⟨_, rfl⟩
      refine ⟨(held, true), ?_, σ₁.hands_slot _ _ c held hheld⟩
      rw [hheld]
      rfl
  refine heeds_bind (heeds_mono hanswers ?_)
  rintro x σ₁ ⟨a, rfl, ha⟩
  exact ha

end Cell

end ConcurrentMap
