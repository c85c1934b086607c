import ConcurrentMap.Proofs.Interference.Runs

/-!
# No write is lost

Readers and writers may hold on to a snapshot that was replaced, and so to cells that no table leads
to any more. A value put into such a cell would be lost. `Machine.KeepsTombstones` says how
tombstones prevent that, at every single step: a cell that a promotion leaves out is tombstoned by
then and for ever, and nobody puts a value into a cell that does not serve its key.

`Machine.ofClients_keepsTombstones` is about clients that do anything but clear the map. A clearing
discards cells without tombstones, and a thread that met such a cell before may still write it.
-/

namespace ConcurrentMap

variable {K V ε α : Type} [BEq K]

namespace Machine

/-- The shared state after the steps of a schedule. -/
def sharedAt (order : Enumeration K) (m : Machine K V α) (schedule : List ThreadId) : Shared K V :=
  (m.follow order schedule).shared

theorem sharedAt_append (order : Enumeration K) (m : Machine K V α) (σ τ : List ThreadId) :
    m.sharedAt order (σ ++ τ) = ((m.follow order σ).follow order τ).shared := by
  rw [sharedAt, follow, List.foldl_append]
  rfl

/-- The tombstone protocol, at every step of every schedule `σ ++ [t]`. -/
structure KeepsTombstones (order : Enumeration K) (m : Machine K V α) : Prop where
  /-- No cell ever serves two keys. -/
  oneKey : ∀ σ τ a b c, (m.sharedAt order σ).find? a = some c →
    (m.sharedAt order (σ ++ τ)).find? b = some c → (a == b) = true
  /-- A value is put only into a cell that the snapshot leads to for its key, or the staged table
  does and the thread holds the mutex. -/
  installs : ∀ σ t c, c < (m.sharedAt order σ).cells.size →
    (m.sharedAt order (σ ++ [t])).slot c ≠ (m.sharedAt order σ).slot c →
      ((m.sharedAt order (σ ++ [t])).slot c).content.isPresent = true →
        ∃ key, (m.sharedAt order σ).find? key = some c ∧
          ((m.sharedAt order σ).snapshot.find? key = some c ∨
            ((m.sharedAt order σ).holder = some t ∧
              (m.sharedAt order σ).staging.find? key = some c))
  /-- A cell that a promotion leaves out is tombstoned by then, and stays so. -/
  drops : ∀ σ t key c, (m.sharedAt order σ).snapshot.find? key = some c →
    (m.sharedAt order (σ ++ [t])).snapshot.find? key ≠ some c →
      (m.sharedAt order σ).tombstoned c = true ∧
        ∀ τ, (m.sharedAt order (σ ++ [t] ++ τ)).tombstoned c = true
  /-- The staged table never leads to a tombstone. -/
  stagedLive : ∀ σ key c, (m.sharedAt order σ).staging.find? key = some c →
    (m.sharedAt order σ).tombstoned c = false
  /-- Tombstones come and go in steps of the holder of the mutex, and only in absent cells. -/
  changes : ∀ σ t c, c < (m.sharedAt order σ).cells.size →
    (m.sharedAt order (σ ++ [t])).tombstoned c ≠ (m.sharedAt order σ).tombstoned c →
      (m.sharedAt order σ).holder = some t ∧
        ((m.sharedAt order σ).slot c).content.isPresent = false ∧
          ((m.sharedAt order (σ ++ [t])).slot c).content.isPresent = false
  /-- Before the thread that lifted a tombstone lets the mutex go, it stages the cell. -/
  readmits : ∀ σ t c, (m.sharedAt order σ).tombstoned c = true →
    (m.sharedAt order (σ ++ [t])).tombstoned c = false →
      ∀ τ, (m.sharedAt order (σ ++ [t] ++ τ)).holder ≠ some t →
        ∃ τ₁ τ₂, τ = τ₁ ++ τ₂ ∧
          (∃ key, (m.sharedAt order (σ ++ [t] ++ τ₁)).staging.find? key = some c) ∧
            ∀ ρ₁ ρ₂, τ₁ = ρ₁ ++ ρ₂ → (m.sharedAt order (σ ++ [t] ++ ρ₁)).holder = some t

end Machine

/-! ## One step -/

/-- An action that replaces the snapshot leaves the cells alone. -/
theorem Action.perform_snapshot {order : Enumeration K} {t : ThreadId} {a : Action K V}
    {s : Shared K V} {r : a.Response × Shared K V} (h : a.perform order t s = some r) :
    r.2.snapshot = s.snapshot ∨ r.2.cells = s.cells := by
  cases a with
  | publish snapshot =>
      refine .inr ?_
      simp only [perform, Option.some.injEq] at h
      subst h
      rfl
  | acquire =>
      refine .inl ?_
      obtain ⟨-, rfl⟩ := of_perform_acquire h
      rfl
  | compareExchange c seen new =>
      refine .inl ?_
      simp only [perform, Option.some.injEq, Shared.compareExchange] at h
      rw [← h]
      split <;> rfl
  | _ =>
      refine .inl ?_
      simp only [perform, Option.some.injEq] at h
      subst h
      rfl

/-- A step that replaces the snapshot leaves the cells alone. -/
theorem Program.step_snapshot {order : Enumeration K} {t : ThreadId} {p p' : Program K V α}
    {s s' : Shared K V} (h : p.step order t s = some (p', s')) :
    s'.snapshot = s.snapshot ∨ s'.cells = s.cells := by
  cases p with
  | done x => simp [Program.step] at h
  | act a next =>
      obtain ⟨r, hperf, -, rfl⟩ := Program.of_step_act h
      exact Action.perform_snapshot hperf
  | retry u next => rcases Program.of_step_retry h with rfl | rfl <;> exact .inl rfl

theorem Machine.step_snapshot (order : Enumeration K) (m : Machine K V α) (t : ThreadId) :
    (m.step order t).shared.snapshot = m.shared.snapshot ∨
      (m.step order t).shared.cells = m.shared.cells := by
  unfold Machine.step
  split
  · exact .inl rfl
  · split
    · exact .inl rfl
    · next hstep => exact Program.step_snapshot hstep

variable [BEq V]

namespace World

variable {w w' : World K V} {t : ThreadId} {c : CellId} {key : K}

/-- If nobody clears the map, no cell is discarded. -/
theorem Sound.not_discarded (hw : w.Sound) (hclear : ¬w.rules.allowed .clear) {own : K} {j : Nat} :
    w.standing c ≠ .retired own j .discarded := by
  intro hc
  obtain ⟨hj, id, hend⟩ := hw.ledger.fates c own j .discarded hc
  obtain ⟨hid, hask⟩ := hw.docket.ended j id .clear hend
  have hlt := Nat.lt_of_lt_of_le hid (hw.docket.limits j w.era (Nat.le_of_lt hj) (Nat.le_refl _))
  exact hclear (hask ▸ hw.docket.allowed id hlt)

/-- The cell keeps the key that it serves. -/
theorem Grows.key_eq [EquivBEq K] (hg : w.Grows w') (hw : w.Sound) (hw' : w'.Sound) {a b : K}
    (ha : w.shared.find? a = some c) (hb : w'.shared.find? b = some c) : (a == b) = true := by
  obtain ⟨own, p, hc, hown⟩ := (hw.roster.serves a c).1 ha
  obtain ⟨own', p', hc', hown'⟩ := (hw'.roster.serves b c).1 hb
  have hkey : (w'.standing c).key? = some own := (hg.standing c).key? (by rw [hc]; rfl)
  rw [hc'] at hkey
  obtain rfl : own' = own := Option.some.inj hkey
  exact BEq.trans (BEq.symm hown) hown'

/-- Where a thread puts a value. -/
theorem Guarantee.installs [ReflBEq K] (hg : w.Guarantee t w') (hw : w.Sound)
    (hclear : ¬w.rules.allowed .clear) (hlt : c < w.shared.cells.size)
    (hne : w'.shared.slot c ≠ w.shared.slot c)
    (hpres : (w'.shared.slot c).content.isPresent = true) :
    ∃ key, w.shared.find? key = some c ∧ (w.shared.snapshot.find? key = some c ∨
      (w.shared.holder = some t ∧ w.shared.staging.find? key = some c)) := by
  have hmay := hg.protocol.installs c hlt hne hpres
  unfold MayInstall at hmay
  cases hc : w.standing c with
  | unused => simp [hc] at hmay
  | retired own j fate =>
      cases fate with
      | withdrawn => simp [hc] at hmay
      | discarded => exact absurd hc (hw.not_discarded hclear)
      | dropped =>
          -- the cell was tombstoned, and no step puts a value in place of a tombstone
          have htomb := hw.roster.dropped c own j hc
          have hlive : w'.shared.tombstoned c = false := by
            cases hcontent : (w'.shared.slot c).content <;>
              simp_all [Shared.tombstoned, Content.isPresent, Content.isTombstoned]
          have hchange := hg.protocol.tombstones c hlt (by rw [htomb, hlive]; simp)
          rw [hchange.2.2] at hpres
          simp at hpres
  | serving own p =>
      have hfind : w.shared.find? own = some c := (hw.roster.serves own c).2 ⟨own, p, hc, BEq.rfl⟩
      refine ⟨own, hfind, ?_⟩
      simp only [hc] at hmay
      rcases hmay with rfl | hholder
      · exact .inl ((hw.roster.published own c).2 ⟨own, hc, BEq.rfl⟩)
      · unfold Shared.find? at hfind
        split at hfind
        · next d hd => exact .inl (hd.trans hfind)
        · split at hfind
          · exact .inr ⟨hholder, hfind⟩
          · simp at hfind

/-- What becomes of a cell that the snapshot leads to no more. -/
theorem Grows.dropped (hg : w.Grows w') (hw : w.Sound) (hw' : w'.Sound)
    (hclear : ¬w.rules.allowed .clear) (hc : w.shared.snapshot.find? key = some c)
    (hc' : w'.shared.snapshot.find? key ≠ some c) :
    ∃ own j, w'.standing c = .retired own j .dropped := by
  obtain ⟨own, hserves, hown⟩ := (hw.roster.published key c).1 hc
  have hlead := hg.standing c
  rw [hserves] at hlead
  cases hs : w'.standing c with
  | unused => simp [hs, Standing.Leads] at hlead
  | serving own' p' =>
      simp only [hs, Standing.Leads] at hlead
      obtain ⟨rfl, hp⟩ := hlead
      obtain rfl := hp trivial
      exact absurd ((hw'.roster.published key c).2 ⟨own', hs, hown⟩) hc'
  | retired own' j fate =>
      cases fate with
      | dropped => exact ⟨own', j, rfl⟩
      | withdrawn => simp [hs, Standing.Leads] at hlead
      | discarded => exact absurd hs (hw'.not_discarded (by rwa [hg.rules]))

/-- A cell that a promotion left out stays tombstoned. -/
theorem Grows.tombstoned (hg : w.Grows w') (hw' : w'.Sound) {own : K} {j : Nat}
    (hc : w.standing c = .retired own j .dropped) : w'.shared.tombstoned c = true := by
  have hlead := hg.standing c
  rw [hc] at hlead
  exact hw'.roster.dropped c own j hlead

end World

open World

namespace Machine

variable {order : Enumeration K} {m : Machine K V α} {w : World K V}

/-- While a tombstone is being lifted nobody but its thread takes or leaves the mutex, and it stages
the cell first. -/
theorem Backed.readmits (h : m.Backed order w) {t : ThreadId} {key : K} {c : CellId}
    (hphase : w.phase = .reviving key c) (hholder : w.shared.holder = some t) (τ : List ThreadId)
    (hfree : (m.follow order τ).shared.holder ≠ some t) :
    ∃ τ₁ τ₂, τ = τ₁ ++ τ₂ ∧ (∃ key, (m.follow order τ₁).shared.staging.find? key = some c) ∧
      ∀ ρ₁ ρ₂, τ₁ = ρ₁ ++ ρ₂ → (m.follow order ρ₁).shared.holder = some t := by
  -- as long as the cell is not staged, the phase says that its tombstone is being lifted
  induction τ generalizing m w with
  | nil =>
      rw [h.shared] at hholder
      exact absurd hholder hfree
  | cons u τ ih =>
      obtain ⟨w', h', hg⟩ := h.step u
      obtain ⟨hsame, hnext⟩ := hg.protocol.readmits key c hphase
      have hstart : m.shared.holder = some t := h.shared ▸ hholder
      have hholder' : w'.shared.holder = some t := hsame.trans hholder
      rcases hnext with hphase' | ⟨given, hstaged⟩
      · obtain ⟨τ₁, τ₂, rfl, hstaged, hheld⟩ := ih h' hphase' hholder' hfree
        refine ⟨u :: τ₁, τ₂, rfl, hstaged, fun ρ₁ ρ₂ hρ => ?_⟩
        rcases List.cons_eq_append_iff.1 hρ with ⟨rfl, -⟩ | ⟨ρ, rfl, hτ⟩
        · exact hstart
        · exact hheld ρ ρ₂ hτ
      · refine ⟨[u], τ, rfl, ⟨given, ?_⟩, fun ρ₁ ρ₂ hρ => ?_⟩
        · rw [h'.shared] at hstaged
          exact hstaged
        · rcases List.cons_eq_append_iff.1 hρ with ⟨rfl, -⟩ | ⟨ρ, rfl, hτ⟩
          · exact hstart
          · obtain ⟨rfl, -⟩ := List.append_eq_nil_iff.1 hτ.symm
            rw [h'.shared] at hholder'
            exact hholder'

/-- The worlds before and after a step. -/
theorem Backed.exists_step (h : m.Backed order w) (σ : List ThreadId) (t : ThreadId) :
    ∃ w₁ w₂, (m.follow order σ).Backed order w₁ ∧
      ((m.follow order σ).step order t).Backed order w₂ ∧
      w₁.Guarantee t w₂ ∧ w₁.shared = m.sharedAt order σ ∧
        w₂.shared = m.sharedAt order (σ ++ [t]) ∧ w₁.rules = w.rules := by
  obtain ⟨w₁, h₁, hg₁⟩ := h.follow σ
  obtain ⟨w₂, h₂, hg⟩ := h₁.step t
  exact ⟨w₁, w₂, h₁, h₂, hg, h₁.shared, h₂.shared.trans (m.sharedAt_append order σ [t]).symm,
    hg₁.rules⟩

/-- Threads that do anything but clear the map keep to the protocol. -/
theorem Backed.keepsTombstones [EquivBEq K] (h : m.Backed order w)
    (hclear : ¬w.rules.allowed .clear) : m.KeepsTombstones order where
  oneKey σ τ a b c ha hb := by
    obtain ⟨w₁, h₁, -⟩ := h.follow σ
    obtain ⟨w₂, h₂, hg⟩ := h₁.follow τ
    rw [sharedAt, ← h₁.shared] at ha
    rw [sharedAt_append, ← h₂.shared] at hb
    exact hg.key_eq h₁.sound h₂.sound ha hb
  installs σ t c hlt hne hpres := by
    obtain ⟨w₁, w₂, h₁, h₂, hg, hs₁, hs₂, hrules⟩ := h.exists_step σ t
    rw [← hs₁] at hlt hne ⊢
    rw [← hs₂] at hne hpres
    exact hg.installs h₁.sound (by rwa [hrules]) hlt hne hpres
  drops σ t key c hc hc' := by
    obtain ⟨w₁, w₂, h₁, h₂, hg, hs₁, hs₂, hrules⟩ := h.exists_step σ t
    have hcells := (m.follow order σ).step_snapshot order t
    rw [← h₂.shared, ← h₁.shared] at hcells
    rw [← hs₁] at hc ⊢
    rw [← hs₂] at hc'
    obtain ⟨own, j, hdropped⟩ := hg.grows.dropped h₁.sound h₂.sound (by rwa [hrules]) hc hc'
    refine ⟨?_, fun τ => ?_⟩
    · -- the step replaced the snapshot, so the tombstone was there before
      have hcells : w₂.shared.cells = w₁.shared.cells :=
        hcells.resolve_left fun heq => hc' (by rw [heq, hc])
      have htomb := h₂.sound.roster.dropped c own j hdropped
      rwa [Shared.tombstoned, Shared.slot, hcells] at htomb
    · obtain ⟨w₃, h₃, hg₃⟩ := h₂.follow τ
      have hτ : w₃.shared = m.sharedAt order (σ ++ [t] ++ τ) := by
        rw [List.append_assoc, sharedAt_append]
        exact h₃.shared
      rw [← hτ]
      exact hg₃.tombstoned h₃.sound hdropped
  stagedLive σ key c hc := by
    obtain ⟨w₁, h₁, -⟩ := h.follow σ
    rw [sharedAt, ← h₁.shared] at hc ⊢
    exact h₁.sound.tidy.stagedLive key c hc
  changes σ t c hlt hne := by
    obtain ⟨w₁, w₂, h₁, h₂, hg, hs₁, hs₂, hrules⟩ := h.exists_step σ t
    rw [← hs₁] at hlt hne ⊢
    rw [← hs₂] at hne ⊢
    exact hg.protocol.tombstones c hlt hne
  readmits σ t c htomb hlive τ hfree := by
    obtain ⟨w₁, w₂, h₁, h₂, hg, hs₁, hs₂, hrules⟩ := h.exists_step σ t
    rw [← hs₁] at htomb
    rw [← hs₂] at hlive
    obtain ⟨key, hphase⟩ := hg.protocol.lifts c htomb hlive
    have hlt := Shared.lt_of_tombstoned htomb
    have hheld := (hg.protocol.tombstones c hlt (by rw [htomb, hlive]; simp)).1
    have hheld' : w₂.shared.holder = some t := by
      refine (hg.free_or_own (.inr hheld)).resolve_left fun hnone => ?_
      have hrest := h₂.sound.free hnone
      simp [hphase] at hrest
    have hat : ∀ ρ, m.sharedAt order (σ ++ [t] ++ ρ) =
        (((m.follow order σ).step order t).follow order ρ).shared := by
      intro ρ
      rw [List.append_assoc, sharedAt_append]
      rfl
    simp only [hat] at hfree ⊢
    exact h₂.readmits hphase hheld' τ hfree

/-- No write is lost while clients share a map that they do not clear. -/
theorem ofClients_keepsTombstones [EquivBEq K] (order : Enumeration K) (t₀ : ThreadId)
    (pairs : List (K × V)) (clients : List (Client K V ε α))
    (hclear : ∀ c ∈ clients, c.Only (· ≠ .clear)) :
    ∃ s₀ : Shared K V, Shared.ofList order t₀ pairs = some s₀ ∧
      (ofClients s₀ clients).KeepsTombstones order := by
  obtain ⟨w, hof, hfree, hready⟩ :=
    World.exists_ready (P := fun r : Request K V => r ≠ .clear) order t₀ fun p _ => by simp
  obtain ⟨made, hidle⟩ := hready t₀
  have hbacked : (ofClients w.shared clients).Backed order w :=
    backed_ofClients hclear hidle.sound hready
  refine ⟨w.shared, hof, hbacked.keepsTombstones ?_⟩
  simp [hidle.rules]

/-- Thread 0 finds key 1, which pays for a promotion, and deletes it; thread 1 adds key 2; thread 2
looks for key 2; and thread 3 stores key 1. -/
def burying : List (Client Nat Nat Unit (Answer Nat)) :=
  [.request (.load 1) fun _ => .request (.delete 1) .done, .request (.store 2 20) .done,
    .request (.load 2) .done, .request (.store 1 11) .done]

/-- Key 1 was deleted when thread 1 rebuilt the table, so there is a tombstone in its cell. -/
def buried : List ThreadId := List.replicate 15 0 ++ List.replicate 16 1

/-- Thread 3 comes next, and lifts the tombstone. -/
def lifted : List ThreadId := buried ++ List.replicate 11 3

/-- Thread 3 has read the snapshot, but then thread 2 promotes what is staged. -/
def dropped : List ThreadId := buried ++ [3, 3] ++ List.replicate 11 2

/-- The tombstone comes and goes: when thread 3 lifts it, the cell is staged and written; and when a
promotion leaves the cell out, the tombstone stays there for good, and thread 3, which still has the
old snapshot, puts its value into a new cell. -/
theorem ofClients_keepsTombstones_burying :
    ∃ s₀ : Shared Nat Nat, Shared.ofList .insertion 0 [(1, 10)] = some s₀ ∧
      (ofClients s₀ burying).KeepsTombstones .insertion ∧
      (((ofClients s₀ burying).sharedAt .insertion buried).snapshot.find? 1 = some 0 ∧
        ((ofClients s₀ burying).sharedAt .insertion buried).slot 0 = ⟨4, .tombstoned⟩) ∧
      (((ofClients s₀ burying).sharedAt .insertion lifted).staging.find? 1 = some 0 ∧
        ((ofClients s₀ burying).sharedAt .insertion lifted).slot 0 = ⟨5, .present 11⟩) ∧
      ((ofClients s₀ burying).sharedAt .insertion dropped).snapshot.find? 1 = none ∧
      (((ofClients s₀ burying).sharedAt .insertion
          (dropped ++ List.replicate 13 3)).find? 1 = some 2 ∧
        ((ofClients s₀ burying).sharedAt .insertion
          (dropped ++ List.replicate 13 3)).slot 0 = ⟨4, .tombstoned⟩) := by
  obtain ⟨s₀, hof, hkeeps⟩ := ofClients_keepsTombstones .insertion 0 [(1, 10)] burying
    (by simp [burying, Client.Only])
  have hruns : (Shared.ofList .insertion 0 [(1, 10)]).map (fun s =>
      let after := (ofClients s burying).sharedAt .insertion
      (((after buried).snapshot.find? 1, (after buried).slot 0),
        ((after lifted).staging.find? 1, (after lifted).slot 0), (after dropped).snapshot.find? 1,
        (after (dropped ++ List.replicate 13 3)).find? 1,
        (after (dropped ++ List.replicate 13 3)).slot 0)) =
      some ((some 0, ⟨4, .tombstoned⟩), (some 0, ⟨5, .present 11⟩), none, some 2,
        ⟨4, .tombstoned⟩) := by
    decide +kernel
  rw [hof] at hruns
  simp only [Option.map_some, Option.some.injEq, Prod.mk.injEq] at hruns
  obtain ⟨hburied, hlifted, hdropped, hrewritten⟩ := hruns
  exact ⟨s₀, hof, hkeeps, hburied, hlifted, hdropped, hrewritten⟩

end Machine

end ConcurrentMap
