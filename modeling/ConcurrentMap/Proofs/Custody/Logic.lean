import ConcurrentMap.Proofs.Account
import ConcurrentMap.Proofs.Alone
import ConcurrentMap.Proofs.Plain
import ConcurrentMap.Proofs.Representation

/-!
# What programs take for granted

Some actions of the map only make sense in certain states: a key is staged in a table that is there,
a table is promoted that is there, a rebuild begins without one, a write under the mutex does not
meet a tombstone, and a tombstone that was seen under the mutex is still in its cell.
`Action.Expected` lists these expectations.

`Program.heeds` says of a program that all its steps meet them, whatever other threads do in the
meantime. It is defined along the program, as `Program.wp` is, but it is about less: what is in the
custody of the holder of the mutex, which handles have been in a cell, and the account of misses,
walks and events that the thread adds to. What others may do to these is `Scene.Endures`.
-/

namespace ConcurrentMap

variable {K V α β : Type}

/-- What an action takes for granted of the state that it finds. -/
def Action.Expected (s : Shared K V) : Action K V → Prop
  | .hasStaged => s.staging.table = none
  | .stage _ _ => s.staging.table.isSome = true
  | .readStaging => s.staging.table.isSome = true
  | .exchange c _ => s.tombstoned c = false
  | .compareExchange c seen _ => (s.slot c).stamp = seen.stamp
  | _ => True

/-- What a thread is busy with: a call, with its name and request, or a traversal. -/
abbrev Role (K V : Type) := Option (CallId × Request K V)

/-- What an action enters into the account. A call that walks a table does so to rebuild from it. -/
def Action.postings (role : Role K V) : Action K V → Account
  | .countMiss => (role.map fun c => Posting.miss c.1).toList
  | .walk table => (role.map fun _ => Posting.walk table.size).toList
  | .emit e => [.event e]
  | _ => []

/-- Only calls count misses, and only traversals promote without them. A write under the mutex that
does not look first is no part of `loadOrStore`. -/
def Action.Permitted (role : Role K V) : Action K V → Prop
  | .countMiss => role.isSome = true
  | .emit (.promoted _ _ .traversal) => role = none
  | .exchange _ _ => ∀ id key value, role ≠ some (id, .loadOrStore key value)
  | _ => True

/-- What an exchange that is retried may accept. A call that deletes hands over the slot that it
exchanged, so it accepts none without a value. -/
def Role.Permits (role : Role K V) (accepts : Content V → Bool) : Prop :=
  ∀ id r, role = some (id, r) → r.removes?.isSome = true →
    ∀ x, accepts x = true → x.isPresent = true

/-- The thread is not busy with a deletion. -/
def Role.Keeps (role : Role K V) : Prop := ∀ id r, role = some (id, r) → r.removes? = none

/-- A call for anything but a deletion is none. -/
theorem Role.Keeps.of_call {id : CallId} {r : Request K V} (h : r.removes? = none) :
    Role.Keeps (some (id, r)) := by
  rintro _ _ heq
  obtain ⟨-, rfl⟩ := Prod.mk.inj (Option.some.inj heq)
  exact h

/-- Whoever deletes nothing may accept any slot. -/
theorem Role.Keeps.permits {role : Role K V} (h : role.Keeps) (accepts : Content V → Bool) :
    role.Permits accepts := fun id r hrole hremoves => by simp [h id r hrole] at hremoves

/-- An exchange that accepts no slot without a value is permitted to all. -/
theorem Role.permits_of_isPresent (role : Role K V) {accepts : Content V → Bool}
    (h : ∀ x, accepts x = true → x.isPresent = true) : role.Permits accepts := fun _ _ _ _ => h

/-- A retried exchange is tried from a slot that it accepts, and it may accept what it accepts. -/
structure Update.Proper (role : Role K V) (u : Update V) : Prop where
  accepted : u.accepts u.seen.content = true
  permitted : role.Permits u.accepts

/-- A call that deletes exchanges a slot that holds a value. -/
theorem Update.Proper.isPresent {role : Role K V} {u : Update V} (h : u.Proper role) {id : CallId}
    {r : Request K V} (hrole : role = some (id, r)) (hremoves : r.removes?.isSome = true) :
    u.seen.content.isPresent = true := h.permitted id r hrole hremoves _ h.accepted

/-- Some cell holds the value that the handle wraps. -/
def Shared.Shows (s : Shared K V) (h : Handle V) : Prop := ∃ c, s.slot c = h.slot

/-- While the mutex is free, the account agrees with the counter and with the snapshot. -/
structure Account.Balanced (account : Account) (snapshot : Snapshot K) (staging : Staging K) :
    Prop where
  misses : staging.misses = account.misses
  spent : snapshot.amended = account.spent
  credit : snapshot.amended = false → snapshot.size = account.credit

/-- The shared state, the account so far, and which handles have been in a cell so far. -/
structure Scene (K V : Type) where
  shared : Shared K V
  account : Account
  shown : Handle V → Prop

namespace Scene

/-- The scene after a step that posts something and leaves the given state. -/
def after (σ : Scene K V) (posted : Account) (s : Shared K V) : Scene K V :=
  ⟨s, posted ++ σ.account, fun h => σ.shown h ∨ s.Shows h⟩

/-- What is in the custody of the holder of the mutex. -/
structure Custody (t : ThreadId) (snapshot : Snapshot K) (staging : Staging K) (account : Account)
    (σ : Scene K V) : Prop where
  holder : σ.shared.holder = some t
  snapshot : σ.shared.snapshot = snapshot
  staging : σ.shared.staging = staging
  account : σ.account = account

/-- While thread `t` works on cells, and others take steps, the mutex stays where it is, and what is
in custody of `t` as it is. -/
structure Along (t : ThreadId) (role : Role K V) (σ σ' : Scene K V) : Prop where
  holder : σ'.shared.holder = some t ↔ σ.shared.holder = some t
  size : σ.shared.cells.size ≤ σ'.shared.cells.size
  shown : ∀ h, σ.shown h → σ'.shown h
  /-- No other thread records a miss for the call. -/
  own : ∀ id r, role = some (id, r) → .miss id ∈ σ'.account → .miss id ∈ σ.account
  custody : ∀ snapshot staging account, σ.Custody t snapshot staging account →
    σ'.Custody t snapshot staging account

/-- The call has not recorded a miss. -/
def Fresh (role : Role K V) (σ : Scene K V) : Prop :=
  ∀ id r, role = some (id, r) → .miss id ∉ σ.account

/-- The thread holds the mutex and might let it go. -/
structure Inside (t : ThreadId) (σ : Scene K V) : Prop where
  holder : σ.shared.holder = some t
  balanced : σ.account.Balanced σ.shared.snapshot σ.shared.staging

variable {t : ThreadId} {role : Role K V} {σ σ' σ'' : Scene K V} {snapshot : Snapshot K}
  {staging : Staging K} {account : Account}

namespace Along

/-- Nothing happens. -/
theorem refl (t : ThreadId) (role : Role K V) (σ : Scene K V) : σ.Along t role σ :=
  ⟨Iff.rfl, Nat.le_refl _, fun _ h => h, fun _ _ _ h => h, fun _ _ _ h => h⟩

/-- What is kept in each of two parts is kept in both. -/
theorem trans (h : σ.Along t role σ') (h' : σ'.Along t role σ'') : σ.Along t role σ'' where
  holder := h'.holder.trans h.holder
  size := Nat.le_trans h.size h'.size
  shown held hs := h'.shown held (h.shown held hs)
  own id r hrole hmem := h.own id r hrole (h'.own id r hrole hmem)
  custody _ _ _ hc := h'.custody _ _ _ (h.custody _ _ _ hc)

/-- A call that has recorded no miss has recorded none after what the others do. -/
theorem fresh (h : σ.Along t role σ') (hfresh : σ.Fresh role) : σ'.Fresh role :=
  fun id r hrole hmem => hfresh id r hrole (h.own id r hrole hmem)

/-- The holder of the mutex is still ready to let it go. -/
theorem inside (h : σ.Along t role σ') (hin : σ.Inside t) : σ'.Inside t := by
  obtain ⟨hholder, hsnap, hstag, hacc⟩ := h.custody _ _ _ ⟨hin.holder, rfl, rfl, rfl⟩
  exact ⟨hholder, by rw [hsnap, hstag, hacc]; exact hin.balanced⟩

/-- Nobody replaces the snapshot of the holder of the mutex. -/
theorem snapshot_eq (h : σ.Along t role σ') (hheld : σ.shared.holder = some t) :
    σ'.shared.snapshot = σ.shared.snapshot := (h.custody _ _ _ ⟨hheld, rfl, rfl, rfl⟩).snapshot

/-- Nobody changes what the holder of the mutex has staged. -/
theorem staging_eq (h : σ.Along t role σ') (hheld : σ.shared.holder = some t) :
    σ'.shared.staging = σ.shared.staging := (h.custody _ _ _ ⟨hheld, rfl, rfl, rfl⟩).staging

/-- A step that works on cells leaves what is in custody alone. -/
theorem of_after {s' : Shared K V} (hsnap : s'.snapshot = σ.shared.snapshot)
    (hstag : s'.staging = σ.shared.staging) (hholder : s'.holder = σ.shared.holder)
    (hsize : σ.shared.cells.size ≤ s'.cells.size) : σ.Along t role (σ.after [] s') where
  holder := by
    show s'.holder = some t ↔ _
    rw [hholder]
  size := hsize
  shown _ hs := .inl hs
  own _ _ _ h := h
  custody _ _ _ hc := ⟨hholder.trans hc.holder, hsnap.trans hc.snapshot, hstag.trans hc.staging,
    hc.account⟩

end Along

/-- Everything behind the mutex is in the custody of its holder. -/
theorem Inside.custody (h : σ.Inside t) :
    σ.Custody t σ.shared.snapshot σ.shared.staging σ.account :=
  ⟨h.holder, rfl, rfl, rfl⟩

/-- Reading makes no difference to the holder of the mutex. -/
theorem Inside.after_self (h : σ.Inside t) : (σ.after [] σ.shared).Inside t :=
  ⟨h.holder, h.balanced⟩

/-- The holder may let the mutex go once the account is balanced. -/
theorem Custody.inside (h : σ.Custody t snapshot staging account)
    (hbal : account.Balanced snapshot staging) : σ.Inside t :=
  ⟨h.holder, by rw [h.account, h.snapshot, h.staging]; exact hbal⟩

variable [BEq K]

/-- What holds after every step. -/
structure Valid (σ : Scene K V) : Prop where
  free : σ.shared.holder = none →
    Tidy .rest σ.shared ∧ σ.account.Balanced σ.shared.snapshot σ.shared.staging
  bounded : ∀ key c, σ.shared.snapshot.find? key = some c → c < σ.shared.cells.size
  shows : ∀ h, σ.shared.Shows h → σ.shown h

/-- Thread `t` may count on this while others take steps: moreover, while `t` holds the mutex, no
tombstone comes or goes. -/
structure Endures (t : ThreadId) (role : Role K V) (σ σ' : Scene K V) : Prop where
  valid : σ'.Valid
  along : σ.Along t role σ'
  tombstoned : σ.shared.holder = some t → ∀ c, σ'.shared.tombstoned c = σ.shared.tombstoned c
  buried : σ.shared.holder = some t →
    ∀ c, σ.shared.tombstoned c = true → σ'.shared.slot c = σ.shared.slot c

/-- The thread has just taken the mutex. -/
structure Entered (t : ThreadId) (σ : Scene K V) : Prop extends σ.Inside t where
  tidy : Tidy .rest σ.shared

/-- Reading makes no difference to whoever has just taken the mutex. -/
theorem Entered.after_self (h : σ.Entered t) : (σ.after [] σ.shared).Entered t :=
  ⟨h.toInside.after_self, h.tidy⟩

namespace Endures

/-- Nothing happens. -/
theorem refl (t : ThreadId) (role : Role K V) (h : σ.Valid) : σ.Endures t role σ :=
  ⟨h, .refl t role σ, fun _ _ => rfl, fun _ _ _ => rfl⟩

/-- What may be counted on in each of two parts may be counted on in both. -/
theorem trans (h : σ.Endures t role σ') (h' : σ'.Endures t role σ'') :
    σ.Endures t role σ'' where
  valid := h'.valid
  along := h.along.trans h'.along
  tombstoned ht c :=
    (h'.tombstoned (h.along.holder.2 ht) c).trans (h.tombstoned ht c)
  buried ht c hc :=
    (h'.buried (h.along.holder.2 ht) c ((h.tombstoned ht c).trans hc)).trans (h.buried ht c hc)

/-- What is in custody stays as it is. -/
theorem custody (h : σ.Endures t role σ') (hc : σ.Custody t snapshot staging account) :
    σ'.Custody t snapshot staging account := h.along.custody _ _ _ hc

/-- Whoever has just taken the mutex finds the tables tidy for as long as only others act. -/
theorem entered (h : σ.Endures t role σ') (hin : σ.Entered t) : σ'.Entered t := by
  have hc := h.custody hin.toInside.custody
  exact ⟨h.along.inside hin.toInside, hin.tidy.congr hc.snapshot hc.staging h.along.size
    fun c _ => h.tombstoned hin.holder c⟩

/-- A step that leaves the state as it is makes no difference. -/
theorem of_after (h : (σ.after [] σ.shared).Endures t role σ') : σ.Endures t role σ' where
  valid := h.valid
  along := (Along.of_after rfl rfl rfl (Nat.le_refl _)).trans h.along
  tombstoned := h.tombstoned
  buried := h.buried

end Endures

end Scene

/-- The action meets the expectations, and what it enters into the account fits in. -/
structure Action.Proper (t : ThreadId) (role : Role K V) (σ : Scene K V) (a : Action K V) :
    Prop where
  expected : a.Expected σ.shared
  permitted : a.Permitted role
  guarded : a.postings role ≠ [] → σ.shared.holder = some t
  posted : ∀ p ∈ a.postings role, σ.account.Fits p
  balanced : a = .release → σ.account.Balanced σ.shared.snapshot σ.shared.staging

/-- An action that takes nothing for granted. -/
theorem Action.Proper.of_postings {t : ThreadId} {role : Role K V} {σ : Scene K V}
    {a : Action K V} (hexpected : a.Expected σ.shared) (hpermitted : a.Permitted role)
    (hpostings : a.postings role = []) (hrelease : a ≠ .release) : a.Proper t role σ :=
  ⟨hexpected, hpermitted, fun h => absurd hpostings h, by simp [hpostings],
    fun h => absurd h hrelease⟩

variable [BEq K]

namespace Program

/-- All steps of thread `t` meet the expectations, and when the program is done, `Q` holds. -/
def heeds (order : Enumeration K) (t : ThreadId) (role : Role K V) :
    Program K V α → (α → Scene K V → Prop) → Scene K V → Prop
  | done x, Q, σ => Q x σ
  | act a next, Q, σ => ∀ σ₁, σ.Endures t role σ₁ → a.Proper t role σ₁ ∧
      ∀ r, a.perform order t σ₁.shared = some r →
        (next r.1).heeds order t role Q (σ₁.after (a.postings role) r.2)
  | retry u next, Q, σ => (∀ h, u.seen.handle? = some h → σ.shown h) ∧ u.Proper role ∧
      ∀ σ₁, σ.Endures t role σ₁ →
        (∀ found : Slot V, u.accepts found.content = true →
          (∀ h, found.handle? = some h → σ₁.shown h) →
            (next (.installed found)).heeds order t role Q
              (σ₁.after [] (σ₁.shared.setSlot u.cell u.candidate))) ∧
        (u.accepts (σ₁.shared.slot u.cell).content = false →
          (next (.refused (σ₁.shared.slot u.cell))).heeds order t role Q
            (σ₁.after [] σ₁.shared))

variable {order : Enumeration K} {t : ThreadId} {role : Role K V} {σ σ' : Scene K V}
  {p : Program K V α} {Q Q' : α → Scene K V → Prop}

/-- What holds in the end may be weakened. -/
theorem heeds_mono (h : p.heeds order t role Q σ) (himp : ∀ x σ, Q x σ → Q' x σ) :
    p.heeds order t role Q' σ := by
  induction p generalizing σ with
  | done x => exact himp x σ h
  | act a next ih =>
      intro σ₁ he
      obtain ⟨hproper, hnext⟩ := h σ₁ he
      exact ⟨hproper, fun r hperf => ih r.1 (hnext r hperf)⟩
  | retry u next ih =>
      obtain ⟨hseen, hproper, h⟩ := h
      refine ⟨hseen, hproper, fun σ₁ he => ?_⟩
      obtain ⟨hin, hout⟩ := h σ₁ he
      exact ⟨fun found ha hf => ih _ (hin found ha hf), fun ha => ih _ (hout ha)⟩

/-- A sequence of programs, one after the other. -/
theorem heeds_bind {f : α → Program K V β} {Q : β → Scene K V → Prop}
    (h : p.heeds order t role (fun x σ => (f x).heeds order t role Q σ) σ) :
    (p >>= f).heeds order t role Q σ := by
  induction p generalizing σ with
  | done x => exact h
  | act a next ih =>
      intro σ₁ he
      obtain ⟨hproper, hnext⟩ := h σ₁ he
      exact ⟨hproper, fun r hperf => ih r.1 (hnext r hperf)⟩
  | retry u next ih =>
      obtain ⟨hseen, hproper, h⟩ := h
      refine ⟨hseen, hproper, fun σ₁ he => ?_⟩
      obtain ⟨hin, hout⟩ := h σ₁ he
      exact ⟨fun found ha hf => ih _ (hin found ha hf), fun ha => ih _ (hout ha)⟩

/-- What the others do in the meantime is accounted for. -/
theorem heeds_endures (h : p.heeds order t role Q σ) (he : σ.Endures t role σ')
    (hQ : ∀ x σ σ', Q x σ → σ.Endures t role σ' → Q x σ') : p.heeds order t role Q σ' := by
  cases p with
  | done x => exact hQ x σ σ' h he
  | act a next => exact fun σ₁ he₁ => h σ₁ (he.trans he₁)
  | retry u next =>
      obtain ⟨hseen, hproper, h⟩ := h
      exact ⟨fun held hs => he.along.shown held (hseen held hs), hproper,
        fun σ₁ he₁ => h σ₁ (he.trans he₁)⟩

/-- The next step of a program is a proper one. -/
def Proper (t : ThreadId) (role : Role K V) (σ : Scene K V) : Program K V α → Prop
  | done _ => True
  | act a _ => a.Proper t role σ
  | retry u _ => u.Proper role

omit [BEq K] in
/-- What the next step of a program enters into the account. -/
def postings (role : Role K V) : Program K V α → Account
  | done _ => []
  | act a _ => a.postings role
  | retry _ _ => []

/-- The next step of a program that heeds the expectations meets them. -/
theorem heeds_proper (h : p.heeds order t role Q σ) (hσ : σ.Valid) : p.Proper t role σ := by
  cases p with
  | done x => trivial
  | act a next => exact (h σ (.refl t role hσ)).1
  | retry u next => exact h.2.1

/-- A program that heeds the expectations does so after each step. -/
theorem heeds_step (h : p.heeds order t role Q σ) (hσ : σ.Valid) {p' : Program K V α}
    {s' : Shared K V} (hstep : p.step order t σ.shared = some (p', s')) :
    p'.heeds order t role Q (σ.after (p.postings role) s') := by
  cases p with
  | done x => simp [step] at hstep
  | act a next =>
      obtain ⟨r, hperf, rfl, rfl⟩ := of_step_act hstep
      exact (h σ (.refl t role hσ)).2 r hperf
  | retry u next =>
      obtain ⟨hseen, hproper, h⟩ := h
      obtain ⟨hin, hout⟩ := h σ (.refl t role hσ)
      rcases step_retry_cases hstep with ⟨-, rfl, rfl⟩ | ⟨-, rfl, ⟨hacc, rfl⟩ | ⟨hrej, rfl⟩⟩
      · exact hin u.seen hproper.accepted hseen
      · refine ⟨fun held hheld => .inr ⟨u.cell, ?_⟩, ⟨hacc, hproper.permitted⟩,
          fun σ₁ he => h σ₁ he.of_after⟩
        exact Slot.handle?_eq_some_iff.1 hheld
      · exact hout hrej

/-- The handles that were shown once stay shown. -/
theorem heeds_shown (h : p.heeds order t role Q σ) :
    p.heeds order t role (fun x σ' => Q x σ' ∧ ∀ held, σ.shown held → σ'.shown held) σ := by
  suffices hfrom : ∀ σ₀ : Scene K V, (∀ held, σ₀.shown held → σ.shown held) →
      p.heeds order t role (fun x σ' => Q x σ' ∧ ∀ held, σ₀.shown held → σ'.shown held) σ from
    hfrom σ fun _ h => h
  -- the handles of `σ₀` are shown in all scenes that follow, so the induction is over those
  induction p generalizing σ with
  | done x => exact fun σ₀ hshown => ⟨h, hshown⟩
  | act a next ih =>
      intro σ₀ hshown σ₁ he
      obtain ⟨hproper, hnext⟩ := h σ₁ he
      exact ⟨hproper, fun r hperf => ih r.1 (hnext r hperf) σ₀ fun held hheld =>
        .inl (he.along.shown held (hshown held hheld))⟩
  | retry u next ih =>
      obtain ⟨hseen, hproper, h⟩ := h
      refine fun σ₀ hshown => ⟨hseen, hproper, fun σ₁ he => ?_⟩
      obtain ⟨hin, hout⟩ := h σ₁ he
      have hlater : ∀ s held, σ₀.shown held → (σ₁.after [] s).shown held := fun s held hheld =>
        .inl (he.along.shown held (hshown held hheld))
      exact ⟨fun found ha hf => ih _ (hin found ha hf) σ₀ (hlater _),
        fun ha => ih _ (hout ha) σ₀ (hlater _)⟩

/-! ## Programs that work on cells -/

omit [BEq K] in
/-- Actions on cells post nothing. -/
theorem postings_of_onCells {a : Action K V} (h : a.OnCells) (role : Role K V) :
    a.postings role = [] := by
  cases a <;> first | rfl | exact h.elim

/-- An action on cells leaves what is in custody alone. -/
theorem along_perform {a : Action K V} (ha : a.OnCells) {r : a.Response × Shared K V}
    (hperf : a.perform order t σ.shared = some r) : σ.Along t role (σ.after [] r.2) := by
  cases a with
  | drawStamp =>
      obtain rfl := Option.some.inj hperf
      exact .of_after rfl rfl rfl (Nat.le_refl _)
  | newCell slot =>
      obtain rfl := Option.some.inj hperf
      exact .of_after rfl rfl rfl (by simp [Shared.addCell])
  | readCell c =>
      obtain rfl := Option.some.inj hperf
      exact .of_after rfl rfl rfl (Nat.le_refl _)
  | exchange c new =>
      obtain rfl := Option.some.inj hperf
      exact .of_after rfl rfl rfl (by simp [Shared.setSlot])
  | compareExchange c seen new =>
      obtain rfl := Option.some.inj hperf
      simp only [Shared.compareExchange]
      -- a failed exchange changes nothing, and a successful one changes a cell
      split
      · exact .of_after rfl rfl rfl (by simp [Shared.setSlot])
      · exact .of_after rfl rfl rfl (Nat.le_refl _)
  | _ => exact ha.elim

/-- What works on cells leaves what is in custody alone. -/
theorem heeds_along (h : p.heeds order t role Q σ) (hp : p.OnCells) :
    p.heeds order t role (fun x σ' => Q x σ' ∧ σ.Along t role σ') σ := by
  suffices hfrom : ∀ σ₀ : Scene K V, σ₀.Along t role σ →
      p.heeds order t role (fun x σ' => Q x σ' ∧ σ₀.Along t role σ') σ from hfrom σ (.refl t role σ)
  -- the scene in which the program began is kept fixed
  induction p generalizing σ with
  | done x => exact fun σ₀ hσ₀ => ⟨h, hσ₀⟩
  | act a next ih =>
      intro σ₀ hσ₀ σ₁ he
      obtain ⟨hproper, hnext⟩ := h σ₁ he
      refine ⟨hproper, fun r hperf => ih r.1 (hnext r hperf) (hp.2 r.1) σ₀ ?_⟩
      rw [postings_of_onCells hp.1]
      exact (hσ₀.trans he.along).trans (along_perform hp.1 hperf)
  | retry u next ih =>
      obtain ⟨hseen, hproper, h⟩ := h
      refine fun σ₀ hσ₀ => ⟨hseen, hproper, fun σ₁ he => ?_⟩
      obtain ⟨hin, hout⟩ := h σ₁ he
      have hthere := hσ₀.trans he.along
      exact ⟨fun found ha hf => ih _ (hin found ha hf) (hp _) σ₀
          (hthere.trans (.of_after rfl rfl rfl (by simp [Shared.setSlot]))),
        fun ha => ih _ (hout ha) (hp _) σ₀
          (hthere.trans (.of_after rfl rfl rfl (Nat.le_refl _)))⟩

/-! ## Rules for single actions -/

variable {f : α → Program K V β} {R : β → Scene K V → Prop}

/-- An action that posts nothing and is never refused. -/
theorem heeds_effect {a : Action K V} {g : a.Response → Program K V β}
    (eff : Shared K V → a.Response × Shared K V) (hperf : ∀ s, a.perform order t s = some (eff s))
    (hproper : ∀ σ₁, σ.Endures t role σ₁ → a.Proper t role σ₁) (hpostings : a.postings role = [])
    (h : ∀ σ₁, σ.Endures t role σ₁ →
      (g (eff σ₁.shared).1).heeds order t role R (σ₁.after [] (eff σ₁.shared).2)) :
    (a.program >>= g).heeds order t role R σ := by
  refine fun σ₁ he => ⟨hproper σ₁ he, fun r hr => ?_⟩
  rw [hperf, Option.some.injEq] at hr
  subst hr
  rw [hpostings]
  exact h σ₁ he

/-- An action that only reads. -/
theorem heeds_read {a : Action K V} {next : a.Response → Program K V β}
    (val : Shared K V → a.Response) (hperf : ∀ s, a.perform order t s = some (val s, s))
    (hproper : ∀ σ₁, σ.Endures t role σ₁ → a.Proper t role σ₁) (hpostings : a.postings role = [])
    (h : ∀ σ₁, σ.Endures t role σ₁ →
      (next (val σ₁.shared)).heeds order t role R (σ₁.after [] σ₁.shared)) :
    (a.program >>= next).heeds order t role R σ :=
  heeds_effect (fun s => (val s, s)) hperf hproper hpostings h

/-- The snapshot is read. -/
theorem heeds_readSnapshot {next : Snapshot K → Program K V β}
    (h : ∀ σ₁, σ.Endures t role σ₁ →
      (next σ₁.shared.snapshot).heeds order t role R (σ₁.after [] σ₁.shared)) :
    (Action.readSnapshot.program >>= next).heeds order t role R σ :=
  heeds_read (·.snapshot) (fun _ => rfl)
    (fun _ _ => .of_postings trivial trivial rfl (by simp)) rfl h

/-- A cell is read. -/
theorem heeds_readCell {c : CellId} {next : Slot V → Program K V β}
    (h : ∀ σ₁, σ.Endures t role σ₁ →
      (next (σ₁.shared.slot c)).heeds order t role R (σ₁.after [] σ₁.shared)) :
    ((Action.readCell c).program >>= next).heeds order t role R σ :=
  heeds_read (·.slot c) (fun _ => rfl)
    (fun _ _ => .of_postings trivial trivial rfl (by simp)) rfl h

/-- A key is looked up in the staged table. -/
theorem heeds_findStaged {key : K} {next : Option CellId → Program K V β}
    (h : ∀ σ₁, σ.Endures t role σ₁ →
      (next (σ₁.shared.staging.find? key)).heeds order t role R (σ₁.after [] σ₁.shared)) :
    ((Action.findStaged key).program >>= next).heeds order t role R σ :=
  heeds_read (·.staging.find? key) (fun _ => rfl)
    (fun _ _ => .of_postings trivial trivial rfl (by simp)) rfl h

/-- A stamp is drawn. -/
theorem heeds_drawStamp {next : Stamp → Program K V β}
    (h : ∀ σ₁, σ.Endures t role σ₁ → (next σ₁.shared.drawStamp.1).heeds order t role R
      (σ₁.after [] σ₁.shared.drawStamp.2)) :
    ((Action.drawStamp : Action K V).program >>= next).heeds order t role R σ :=
  heeds_effect Shared.drawStamp (fun _ => rfl)
    (fun _ _ => .of_postings trivial trivial rfl (by simp)) rfl h

/-- A retried exchange. -/
theorem heeds_update {u : Update V} {next : Outcome V → Program K V β}
    (hseen : ∀ h, u.seen.handle? = some h → σ.shown h) (hpermitted : role.Permits u.accepts)
    (hsight : u.accepts u.seen.content = false →
      (next (.refused u.seen)).heeds order t role R σ)
    (h : ∀ σ₁, σ.Endures t role σ₁ →
      (∀ found : Slot V, u.accepts found.content = true →
        (∀ h, found.handle? = some h → σ₁.shown h) →
          (next (.installed found)).heeds order t role R
            (σ₁.after [] (σ₁.shared.setSlot u.cell u.candidate))) ∧
      (u.accepts (σ₁.shared.slot u.cell).content = false →
        (next (.refused (σ₁.shared.slot u.cell))).heeds order t role R
          (σ₁.after [] σ₁.shared))) :
    (u.program >>= next).heeds order t role R σ := by
  unfold Update.program
  split
  · next hacc => exact ⟨hseen, ⟨hacc, hpermitted⟩, h⟩
  · next hacc => exact hsight (by simpa using hacc)

end Program

end ConcurrentMap
