import ConcurrentMap.Proofs.Custody.Structure
import ConcurrentMap.Proofs.Reshaping
import ConcurrentMap.Proofs.Tours

/-!
# All operations meet their expectations

There is a rule for every operation of the map, which leads up to `Program.heeds_request` for all
requests, and to `Program.heeds_traversal` and `Program.heeds_onward` for the legs of a traversal.
Each handle that is answered, or shown to a visitor, has been in a cell.
-/

namespace ConcurrentMap

variable {K V α β : Type} [BEq K] [EquivBEq K] {order : Enumeration K} {t : ThreadId}
  {role : Role K V} {σ : Scene K V}

open Program

namespace Map

/-! ## Writing -/

/-- The two ways of writing through a cell, and what the write answers. The handles that an answer
hands out are `hands`. -/
structure Write.Heeds (order : Enumeration K) (t : ThreadId) (role : Role K V)
    (hands : α → Option (Handle V)) (w : Write K V α) : Prop where
  onCells : w.OnCells
  attempt : ∀ (σ : Scene K V) c new, c < σ.shared.cells.size → (w.attempt c new).heeds order t role
    (fun x σ' => ∀ a, x = some a → σ'.Hands (hands a)) σ
  guarded : ∀ (σ : Scene K V) c new, σ.shared.holder = some t → σ.shared.tombstoned c = false →
    c < σ.shared.cells.size →
      (w.guarded c new).heeds order t role (fun a σ' => σ'.Hands (hands a)) σ
  inserted : ∀ new h, hands (w.inserted new) = some h → h = new

variable {hands : α → Option (Handle V)} {w : Write K V α}

/-- Under the mutex, a write finds its key in the snapshot, in the staged table, or stages a new
cell. -/
theorem Write.Heeds.underMutex (hw : w.Heeds order t role hands) (hrole : role.isSome = true)
    (hkeeps : role.Keeps) (hin : σ.Entered t) (hfresh : σ.Fresh role) (key : K) (new : Handle V) :
    (w.underMutex key new).heeds order t role
      (fun a σ' => σ'.Hands (hands a) ∧ σ'.Inside t) σ := by
  refine heeds_readSnapshot fun σ₁ he => ?_
  have hin₁ := he.entered hin
  have hfresh₁ := he.along.fresh hfresh
  have hstay := hin₁.after_self
  -- what the snapshot has is brought back first if it is tombstoned
  cases hsnap : σ₁.shared.snapshot.find? key with
  | some c =>
      simp only []
      refine heeds_bind (heeds_mono (heeds_readmitted hstay hsnap)
        fun _ σ₂ ⟨hin₂, hlive, hc⟩ => ?_)
      exact heeds_mono
        (heeds_along (hw.guarded σ₂ c new hin₂.holder hlive hc) (hw.onCells.guarded c new))
        fun a σ₃ ⟨ha, hal⟩ => ⟨ha, hal.inside hin₂⟩
  | none =>
      simp only []
      refine heeds_findStaged fun σ₂ he₂ => ?_
      have hin₂ := he₂.entered hstay
      have hfresh₂ : (σ₂.after [] σ₂.shared).Fresh role := he₂.along.fresh hfresh₁
      have hstay₂ := hin₂.after_self
      cases hc : σ₂.shared.staging.find? key with
      | some c =>
          simp only []
          refine heeds_bind (heeds_mono (heeds_along
            (hw.guarded (σ₂.after [] σ₂.shared) c new hin₂.holder (hin₂.tidy.stagedLive key c hc)
              (hin₂.tidy.stagedBounded key c hc)) (hw.onCells.guarded c new)) fun a σ₃ ⟨ha, hal⟩ => ?_)
          -- what is staged is never tombstoned, so the write takes nothing for granted that is not
          -- so
          unfold Write.charge
          split
          · have hstaged : σ₃.shared.staging.table.isSome = true := by
              rw [hal.staging_eq hstay₂.holder]
              exact Staging.isSome_of_find? hc
            refine heeds_bind (heeds_mono (heeds_shown (heeds_recordMiss
              (hal.inside hstay₂.toInside) hstaged hrole (hal.fresh hfresh₂)))
              fun _ σ₄ ⟨hin₄, hshown⟩ => ?_)
            exact ⟨ha.mono hshown, hin₄⟩
          · exact ⟨ha, hal.inside hstay₂.toInside⟩
      | none =>
          simp only []
          -- the snapshot that was read is still there, since nobody else replaces it
          have hsame : σ₁.shared.snapshot = (σ₂.after [] σ₂.shared).shared.snapshot :=
            (he₂.along.snapshot_eq hstay.holder).symm
          rw [hsame]
          refine heeds_bind (heeds_mono (heeds_stageNew hstay₂ hrole hkeeps key new)
            fun _ σ₃ ⟨hin₃, hnew⟩ => ⟨fun held hheld => ?_, hin₃⟩)
          rwa [hw.inserted new held hheld]

/-- A write tries without the mutex first, if the snapshot has the key. -/
theorem Write.Heeds.program (hw : w.Heeds order t role hands) (hrole : role.isSome = true)
    (hkeeps : role.Keeps) (hfresh : σ.Fresh role) (key : K) (value : V) :
    (w.program key value).heeds order t role (fun a σ' => σ'.Hands (hands a)) σ := by
  refine heeds_drawStamp fun σ₁ he₁ => heeds_readSnapshot fun σ₂ he₂ => ?_
  have hfresh₂ : (σ₂.after [] σ₂.shared).Fresh role :=
    he₂.along.fresh (he₁.along.fresh hfresh)
  have hlocked : ∀ (σ : Scene K V) new, σ.Fresh role →
      (locked (w.underMutex key new)).heeds order t role (fun a σ' => σ'.Hands (hands a)) σ :=
    fun σ new hf => heeds_locked hf (fun _ _ _ h hshown => h.mono hshown)
      fun σ₁ hin hfresh₁ => hw.underMutex hrole hkeeps hin hfresh₁ key new
  split
  · next c hc =>
    refine heeds_bind (heeds_mono (heeds_along
      (hw.attempt (σ₂.after [] σ₂.shared) c _ (he₂.valid.bounded key c hc))
      (hw.onCells.attempt c _)) fun x σ₃ ⟨hx, hal⟩ => ?_)
    -- only an attempt that met a tombstone goes on under the mutex
    cases x with
    | some a => exact hx a rfl
    | none => exact hlocked σ₃ _ (hal.fresh hfresh₂)
  · exact hlocked _ _ hfresh₂

/-! ## Finding a cell -/

omit [EquivBEq K] in
/-- A lookup under the mutex records its miss if the snapshot lacks the key. -/
theorem heeds_locate (hrole : role.isSome = true) (hin : σ.Entered t) (hfresh : σ.Fresh role)
    (key : K) : (locate key).heeds order t role (fun _ σ' => σ'.Inside t) σ := by
  refine heeds_readSnapshot fun σ₁ he => ?_
  have hin₁ := he.entered hin
  have hstay := hin₁.toInside.after_self
  split
  · exact hstay
  · split
    · next ham =>
      refine heeds_findStaged fun σ₂ he₂ => ?_
      have hstay₂ := (he₂.along.inside hstay).after_self
      -- an amended snapshot has a staged table beside it
      have hstaged : (σ₂.after [] σ₂.shared).shared.staging.table.isSome = true := by
        show σ₂.shared.staging.table.isSome = true
        rw [he₂.along.staging_eq hstay.holder]
        exact hin₁.tidy.phase.1.symm.trans ham
      exact heeds_bind (heeds_mono (heeds_recordMiss hstay₂ hstaged hrole
        (he₂.along.fresh (he.along.fresh hfresh))) fun _ _ h => h)
    · exact hstay

omit [EquivBEq K] in
/-- To withdraw a key erases it from the staged table at most. -/
theorem heeds_withdraw (hin : σ.Entered t) (key : K) :
    (withdraw key).heeds order t role (fun _ σ' => σ'.Inside t) σ := by
  refine heeds_readSnapshot fun σ₁ he => ?_
  have hin₁ := he.entered hin
  have hstay := hin₁.toInside.after_self
  split
  · exact hstay
  · split
    · refine heeds_effect (g := .done)
        (fun s => (s.staging.find? key, s.setStaged (s.staging.table.map (·.erase key))))
        (fun _ => rfl) (fun _ _ => .of_postings trivial trivial rfl (by simp)) rfl fun σ₂ he₂ => ?_
      have hin₂ := he₂.along.inside hstay
      exact ⟨hin₂.holder, hin₂.balanced.setStaged _⟩
    · exact hstay

omit [EquivBEq K] in
/-- An operation that looks for a cell, under the mutex if need be, and then works on it. -/
theorem heeds_seek {key : K} {found : CellId → Program K V α} {missing : Program K V α}
    {search : Program K V (Option CellId)} {Q : α → Scene K V → Prop} (hfresh : σ.Fresh role)
    (hfound : ∀ (σ : Scene K V) c, (found c).heeds order t role Q σ)
    (hmissing : ∀ σ : Scene K V, missing.heeds order t role Q σ)
    (hsearch : ∀ σ : Scene K V, σ.Entered t → σ.Fresh role →
      search.heeds order t role (fun _ σ' => σ'.Inside t) σ) :
    (seek key search found missing).heeds order t role Q σ := by
  rw [seek]
  refine heeds_readSnapshot fun σ₁ he => ?_
  split
  · exact hfound _ _
  · split
    · refine heeds_bind (heeds_mono (heeds_locked (Q := fun _ _ => True)
        (he.along.fresh hfresh) (fun _ _ _ _ _ => trivial) fun σ₂ hin₂ hfresh₂ =>
          heeds_mono (hsearch σ₂ hin₂ hfresh₂) fun _ _ h => ⟨trivial, h⟩) fun x σ₃ _ => ?_)
      cases x with
      | some c => exact hfound _ _
      | none => exact hmissing _
    · exact hmissing _

/-! ## Comparing first -/

omit [EquivBEq K] in
/-- A comparison works on the cell that it finds, and records a miss if that is staged only. -/
theorem heeds_compareAndSwap [BEq V] (hrole : role.isSome = true) (hfresh : σ.Fresh role)
    (key : K) (old new : V) :
    (compareAndSwap key old new).heeds order t role (fun _ _ => True) σ := by
  refine heeds_drawStamp fun σ₁ he₁ => heeds_readSnapshot fun σ₂ he₂ => ?_
  have hfresh₂ : (σ₂.after [] σ₂.shared).Fresh role := he₂.along.fresh (he₁.along.fresh hfresh)
  split
  · exact Cell.heeds_compareAndSwap _ _
  · split
    · refine heeds_locked hfresh₂ (fun _ _ _ _ _ => trivial) fun σ₃ hin hfresh₃ => ?_
      refine heeds_readSnapshot fun σ₄ he₄ => ?_
      have hin₄ := he₄.entered hin
      have hstay := hin₄.toInside.after_self
      split
      · exact heeds_mono (heeds_along (Cell.heeds_compareAndSwap _ _)
          (Cell.onCells_compareAndSwap _ _ _)) fun _ _ ⟨_, hal⟩ => ⟨trivial, hal.inside hstay⟩
      · refine heeds_findStaged fun σ₅ he₅ => ?_
        have hstay₅ := (he₅.along.inside hstay).after_self
        have hfresh₅ : (σ₅.after [] σ₅.shared).Fresh role :=
          he₅.along.fresh (he₄.along.fresh hfresh₃)
        split
        · next c hc =>
          refine heeds_bind (heeds_mono (heeds_along (Cell.heeds_compareAndSwap _ _)
            (Cell.onCells_compareAndSwap _ _ _)) fun _ σ₆ ⟨_, hal⟩ => ?_)
          -- the cell was found in the staged table, which is still there
          have hstaged : σ₆.shared.staging.table.isSome = true := by
            rw [hal.staging_eq hstay₅.holder]
            exact Staging.isSome_of_find? hc
          exact heeds_bind (heeds_mono (heeds_recordMiss (hal.inside hstay₅) hstaged hrole
            (hal.fresh hfresh₅)) fun _ _ h => ⟨trivial, h⟩)
        · exact ⟨trivial, hstay₅⟩
    · trivial

/-! ## Operations on the whole map -/

omit [EquivBEq K] in
/-- What is staged is dropped, and the clearing is logged. -/
theorem heeds_reset (hc : ∃ staging, σ.Custody t .empty staging σ.account) :
    (clearLocked.reset : Program K V Unit).heeds order t role (fun _ σ' => σ'.Inside t) σ := by
  obtain ⟨staging, hc⟩ := hc
  exact heeds_dropStaging hc fun σ₁ hc₁ =>
    heeds_emit (g := .done) hc₁ trivial trivial fun σ₂ hc₂ => hc₂.inside (.cleared _)

omit [EquivBEq K] in
/-- To clear the map empties the snapshot before it drops what is staged. -/
theorem heeds_clear (hfresh : σ.Fresh role) :
    (clear : Program K V Unit).heeds order t role (fun _ _ => True) σ := by
  refine heeds_readSnapshot fun σ₁ he => ?_
  split
  · refine heeds_locked (he.along.fresh hfresh) (fun _ _ _ _ _ => trivial) fun σ₂ hin _ => ?_
    refine heeds_mono (Q := fun _ σ' => σ'.Inside t) ?_ fun _ _ h => ⟨trivial, h⟩
    refine heeds_readSnapshot fun σ₃ he₃ => ?_
    have hin₃ := he₃.along.inside hin.toInside
    have hc₃ : (σ₃.after [] σ₃.shared).Custody t σ₃.shared.snapshot σ₃.shared.staging
        σ₃.account := hin₃.custody.after [] rfl rfl rfl
    split
    · refine heeds_publish hc₃ fun σ₄ hc₄ => heeds_reset ⟨σ₃.shared.staging, ?_⟩
      rw [hc₄.account]
      exact hc₄
    · next hempty =>
      -- the snapshot is the empty one already
      have hsnap : σ₃.shared.snapshot = .empty := Snapshot.eq_empty (by simpa using hempty)
      rw [hsnap] at hc₃
      exact heeds_reset ⟨_, hc₃⟩
  · trivial

omit [EquivBEq K] in
/-- A traversal makes sure that it has a complete snapshot to walk. -/
theorem heeds_itinerary :
    (itinerary : Program K V _).heeds order t none (fun _ _ => True) σ := by
  have hfresh : ∀ σ : Scene K V, σ.Fresh none := fun _ _ _ h => by simp at h
  have hwalk : ∀ (σ : Scene K V) (table : Table K), (Action.walk table : Action K V).program.heeds
      order t none (fun _ _ => True) σ := fun σ table =>
    heeds_effect (g := .done) (fun s => s.walk order table) (fun _ => rfl)
      (fun _ _ => .of_postings trivial trivial rfl (by simp)) rfl fun _ _ => trivial
  refine heeds_bind (heeds_mono (Q := fun _ _ => True) ?_ fun _ _ _ => hwalk _ _)
  refine heeds_readSnapshot fun σ₁ he => ?_
  split
  · refine heeds_locked (hfresh _) (fun _ _ _ _ _ => trivial) fun σ₂ hin _ => ?_
    refine heeds_mono (Q := fun _ σ' => σ'.Inside t) ?_ fun _ _ h => ⟨trivial, h⟩
    refine heeds_readSnapshot fun σ₃ he₃ => ?_
    have hin₃ := he₃.entered hin
    split
    · next ham =>
      -- only an amended snapshot is replaced, and then a table is staged
      obtain ⟨table, htable⟩ := Option.isSome_iff_exists.1 (hin₃.tidy.phase.1.symm.trans ham)
      have hc₃ : (σ₃.after [] σ₃.shared).Custody t σ₃.shared.snapshot
          ⟨some table, σ₃.shared.staging.misses⟩ σ₃.account :=
        hin₃.toInside.custody.after [] rfl rfl (by rw [← htable])
      exact heeds_promote hc₃ ⟨hin₃.balanced.misses, by simp⟩ fun _ => rfl
    · exact hin₃.toInside.after_self
  · trivial

end Map

/-! ## Requests -/

variable [BEq V]

open Map

/-- A call for a request meets all expectations, and what it answers has been in a cell. -/
theorem Program.heeds_request {id : CallId} {r : Request K V} (hfresh : σ.Fresh (some (id, r))) :
    r.program.heeds order t (some (id, r)) (fun answer σ' => σ'.Hands answer.handle?) σ := by
  have hnone : ∀ σ : Scene K V, σ.Hands none := fun _ held h => by simp at h
  -- each operation was treated above; what is left is that its answer hands out what it found
  cases r with
  | load key =>
      refine heeds_bind (heeds_mono (heeds_seek hfresh (fun _ _ => Cell.heeds_load) hnone
        fun σ hin hf => heeds_locate rfl hin hf key) fun _ _ h => h)
  | store key v =>
      have hwrite : (store key v).heeds order t (some (id, .store key v))
          (fun _ σ' => σ'.Hands none) σ := by
        refine Write.Heeds.program ⟨⟨fun c new => ?_, Cell.onCells_store⟩, fun σ c new _ => ?_,
          fun σ c new hh hl _ => ?_, fun _ _ h => by simp at h⟩ rfl (.of_call rfl) hfresh key v
        · exact .bind (.bind (Cell.onCells_trySwap c new) fun _ => trivial) fun _ => trivial
        · exact heeds_bind (heeds_mono (Cell.heeds_tryStore (.of_call rfl) new)
            fun _ σ' _ _ _ => hnone σ')
        · exact heeds_mono (Cell.heeds_store hh hl (by simp) new) fun _ σ' _ => hnone σ'
      exact heeds_bind (heeds_mono hwrite fun _ _ h => h)
  | swap key v =>
      have hwrite : (swap key v).heeds order t (some (id, .swap key v))
          (fun held σ' => σ'.Hands held) σ :=
        Write.Heeds.program ⟨⟨Cell.onCells_trySwap, Cell.onCells_swap⟩,
          fun σ c new _ => Cell.heeds_trySwap (.of_call rfl) new,
          fun σ c new hh hl _ => Cell.heeds_swap hh hl (by simp) new, fun _ _ h => by simp at h⟩
          rfl (.of_call rfl) hfresh key v
      exact heeds_bind (heeds_mono hwrite fun _ _ h => h)
  | loadOrStore key v =>
      have hwrite : (loadOrStore key v).heeds order t (some (id, .loadOrStore key v))
          (fun a σ' => σ'.Hands (some a.1)) σ := by
        refine Write.Heeds.program ⟨⟨Cell.onCells_tryLoadOrStore, Cell.onCells_loadOrStore⟩,
          fun σ c new hc => ?_, fun σ c new hh hl hc => ?_,
          fun new held h => ?_⟩ rfl (.of_call rfl) hfresh key v
        · refine heeds_mono (Cell.heeds_tryLoadOrStore (.of_call rfl) hc new)
            fun x σ' hx a ha held hheld => ?_
          obtain rfl := Option.some.inj hheld
          exact hx a ha
        · refine heeds_mono (Cell.heeds_loadOrStore hh hl (.of_call rfl) hc new)
            fun a σ' ha held hheld => ?_
          obtain rfl := Option.some.inj hheld
          exact ha
        · exact (Option.some.inj h).symm
      exact heeds_bind (heeds_mono hwrite fun _ _ h => h)
  | loadAndDelete key =>
      exact heeds_bind (heeds_mono (heeds_seek hfresh (fun _ _ => Cell.heeds_remove) hnone
        fun σ hin _ => heeds_withdraw hin key) fun _ _ h => h)
  | delete key =>
      exact heeds_bind (heeds_bind (heeds_mono (heeds_seek hfresh
        (fun _ _ => Cell.heeds_remove) hnone fun σ hin _ => heeds_withdraw hin key)
        fun _ σ' _ => hnone σ'))
  | compareAndSwap key old new =>
      exact heeds_bind (heeds_mono (heeds_compareAndSwap rfl hfresh key old new)
        fun _ σ' _ => hnone σ')
  | compareAndDelete key old =>
      exact heeds_bind (heeds_mono (heeds_seek hfresh
        (fun _ _ => Cell.heeds_compareAndDelete old) (fun _ => trivial)
        fun σ hin hf => heeds_locate rfl hin hf key) fun _ σ' _ => hnone σ')
  | clear => exact heeds_bind (heeds_mono (heeds_clear hfresh) fun _ σ' _ => hnone σ')

/-! ## Traversals -/

namespace Scene

/-- All that a visitor was shown has been in a cell. -/
def Toured (σ : Scene K V) (visited : List (K × Handle V)) : Prop :=
  ∀ p ∈ visited, σ.shown p.2

/-- A traversal that waits for its visitor has a list of entries left. -/
def Awaits (σ : Scene K V) (next : Bool → Tour K V (Report K V)) : Prop :=
  ∃ rest visited, σ.Toured visited ∧ ∀ goOn, next goOn = .onward rest ⟨visited, !goOn⟩

/-- How a leg of a traversal ends. -/
def Leads (σ : Scene K V) : Leg K V → Prop
  | .arrived report => σ.Toured report.visited
  | .reached _ held next => σ.shown held ∧ σ.Awaits next

variable {σ σ' : Scene K V}

omit [BEq K] [EquivBEq K] [BEq V] in
/-- What was shown once stays shown. -/
theorem Awaits.mono {next : Bool → Tour K V (Report K V)} (h : σ.Awaits next)
    (hshown : ∀ held, σ.shown held → σ'.shown held) : σ'.Awaits next := by
  obtain ⟨rest, visited, hvisited, hnext⟩ := h
  exact ⟨rest, visited, fun p hp => hshown _ (hvisited p hp), hnext⟩

omit [BEq K] [EquivBEq K] [BEq V] in
/-- What was shown once stays shown, so a leg leads where it did. -/
theorem Leads.mono {l : Leg K V} (h : σ.Leads l)
    (hshown : ∀ held, σ.shown held → σ'.shown held) : σ'.Leads l := by
  cases l with
  | arrived report => exact fun p hp => hshown _ (h p hp)
  | reached key held next => exact ⟨hshown _ h.1, h.2.mono hshown⟩

end Scene

namespace Program

omit [EquivBEq K] [BEq V]

/-- On its way through the entries, a traversal shows what it has read. -/
theorem heeds_ahead {rest : List (K × CellId)} {report : Report K V}
    (h : σ.Toured report.visited) :
    (Tour.ahead rest report).leg.heeds order t none (fun l σ' => σ'.Leads l) σ := by
  induction rest generalizing σ with
  | nil => exact h
  | cons e rest ih =>
      obtain ⟨key, c⟩ := e
      rw [Tour.leg_ahead_cons]
      refine heeds_bind (heeds_mono (heeds_shown Cell.heeds_load) fun x σ' ⟨hx, hshown⟩ => ?_)
      have hvisited : σ'.Toured report.visited := fun p hp => hshown _ (h p hp)
      cases x with
      | none => exact ih hvisited
      | some held =>
          refine ⟨hx held rfl, rest, _, fun p hp => ?_, fun _ => rfl⟩
          rcases List.mem_append.1 hp with hp | hp
          · exact hvisited p hp
          · obtain rfl := List.mem_singleton.1 hp
            exact hx held rfl

/-- The first leg of a traversal meets all expectations. -/
theorem heeds_traversal :
    (Tour.traversal : Tour K V _).leg.heeds order t none (fun l σ' => σ'.Leads l) σ := by
  rw [Tour.leg_traversal]
  exact heeds_bind (heeds_mono Map.heeds_itinerary fun _ _ _ => heeds_ahead fun p hp => by
    simp [Report.empty] at hp)

/-- So does each further leg. -/
theorem heeds_onward {next : Bool → Tour K V (Report K V)} (h : σ.Awaits next) (goOn : Bool) :
    (next goOn).leg.heeds order t none (fun l σ' => σ'.Leads l) σ := by
  obtain ⟨rest, visited, hvisited, hnext⟩ := h
  rw [hnext]
  cases goOn with
  | true => exact heeds_ahead hvisited
  | false => exact hvisited

end Program

end ConcurrentMap
