import ConcurrentMap.Proofs.Crowd
import ConcurrentMap.Proofs.Custody.Operations

/-!
# Steps that meet their expectations

One step of a thread that heeds the expectations makes a scene from which the other threads can go
on, which is `Scene.Proceeds`. That nobody but the holder of the mutex changes the tables is what
`World.Guarantee` says of the step; that nobody else posts anything, that the account fits, and that
it is balanced when the mutex is let go, is what `Program.Proper` says.

`Errand.Heeds` says of a thread that it heeds the expectations to the end of its errand.
-/

namespace ConcurrentMap

variable {K V α : Type}

/-! ## One step -/

section Step

variable [BEq K] {order : Enumeration K} {t : ThreadId} {role : Role K V}

/-- No action takes a cell away, and what it logs it posts. -/
theorem Action.perform_logged (role : Role K V) {a : Action K V} {s : Shared K V}
    {r : a.Response × Shared K V} (h : a.perform order t s = some r) :
    s.cells.size ≤ r.2.cells.size ∧ r.2.log = (a.postings role).events ++ s.log := by
  cases a with
  | acquire =>
      obtain ⟨-, rfl⟩ := of_perform_acquire h
      exact ⟨Nat.le_refl _, rfl⟩
  | compareExchange c seen new =>
      obtain rfl := Option.some.inj h
      simp only [Shared.compareExchange]
      split
      · exact ⟨by simp [Shared.setSlot], rfl⟩
      · exact ⟨Nat.le_refl _, rfl⟩
  | exchange c new =>
      obtain rfl := Option.some.inj h
      exact ⟨by simp [Shared.setSlot], rfl⟩
  | newCell slot =>
      obtain rfl := Option.some.inj h
      exact ⟨by simp [Shared.addCell], rfl⟩
  -- a call posts the miss and a traversal posts nothing, but neither is an event
  | countMiss =>
      obtain rfl := Option.some.inj h
      cases role <;> exact ⟨Nat.le_refl _, rfl⟩
  | walk table =>
      obtain rfl := Option.some.inj h
      cases role <;> exact ⟨Nat.le_refl _, rfl⟩
  | _ =>
      obtain rfl := Option.some.inj h
      exact ⟨Nat.le_refl _, rfl⟩

/-- No step takes a cell away, and what it logs it posts. -/
theorem Program.step_logged (role : Role K V) {p p' : Program K V α} {s s' : Shared K V}
    (h : p.step order t s = some (p', s')) :
    s.cells.size ≤ s'.cells.size ∧ s'.log = (p.postings role).events ++ s.log := by
  cases p with
  | done x => simp [step] at h
  | act a next =>
      obtain ⟨r, hperf, -, rfl⟩ := of_step_act h
      exact Action.perform_logged role hperf
  | retry u next =>
      rcases of_step_retry h with rfl | rfl
      · exact ⟨Nat.le_refl _, rfl⟩
      · exact ⟨by simp [Shared.setSlot], rfl⟩

/-- The mutex is let go by no other action. -/
theorem Action.eq_release {a : Action K V} {s : Shared K V} {r : a.Response × Shared K V}
    {u : ThreadId} (h : a.perform order t s = some r) (hheld : s.holder = some u)
    (hfree : r.2.holder = none) : a = .release := by
  cases a with
  | release => rfl
  | acquire =>
      obtain ⟨hnone, -⟩ := of_perform_acquire h
      simp [hnone] at hheld
  | compareExchange c seen new =>
      obtain rfl := Option.some.inj h
      simp only [Shared.compareExchange] at hfree
      split at hfree <;> simp [Shared.setSlot, hheld] at hfree
  | _ =>
      obtain rfl := Option.some.inj h
      exact absurd (hheld.symm.trans hfree) (by simp)

namespace Scene

/-- What a step of thread `t` does to a scene, and leaves to the others. -/
structure Proceeds (t : ThreadId) (posted : Account) (σ σ' : Scene K V) : Prop where
  valid : σ'.Valid
  audited : σ.account.Audited → σ'.account.Audited
  logged : σ.account.events = σ.shared.log → σ'.account.events = σ'.shared.log
  others : ∀ u role, u ≠ t → (∀ id r, role = some (id, r) → .miss id ∉ posted) →
    σ.Endures u role σ'

variable {σ : Scene K V}

/-- Everybody may count on it if nothing happens. -/
theorem Proceeds.endures_self (h : σ.Valid) (t : ThreadId) (role : Role K V) :
    σ.Endures t role (σ.after [] σ.shared) where
  valid := ⟨h.free, h.bounded, fun held hs => .inl (h.shows held hs)⟩
  along := .of_after rfl rfl rfl (Nat.le_refl _)
  tombstoned _ _ := rfl
  buried _ _ _ := rfl

/-- Nothing happens. -/
theorem Proceeds.refl (h : σ.Valid) (t : ThreadId) : σ.Proceeds t [] (σ.after [] σ.shared) :=
  ⟨(endures_self h t none).valid, fun h => h, fun h => h, fun u role _ _ => endures_self h u role⟩

end Scene

variable {σ : Scene K V}

omit [BEq K] in
/-- An action enters one thing at most. -/
theorem Action.length_postings_le (role : Role K V) (a : Action K V) :
    (a.postings role).length ≤ 1 := by
  cases a <;> cases role <;> first | exact Nat.le_refl _ | exact Nat.zero_le _

omit [BEq K] in
/-- Whoever posts a miss is busy with that call. -/
theorem Program.role_of_miss {p : Program K V α} {id : CallId} (h : .miss id ∈ p.postings role) :
    ∃ r, role = some (id, r) := by
  cases p with
  | done x => simp [postings] at h
  | retry u next => simp [postings] at h
  | act a next =>
      cases a with
      | countMiss =>
          obtain ⟨c, rfl, hc⟩ : ∃ c, role = some c ∧ Posting.miss c.1 = .miss id := by
            simpa [postings, Action.postings] using h
          exact ⟨c.2, by rw [← Posting.miss.inj hc]⟩
      | _ => simp [postings, Action.postings] at h

omit [BEq K] in
/-- Whoever posts a promotion without misses is on a traversal. -/
theorem Program.Proper.role_of_traversal {p : Program K V α} (hp : p.Proper t role σ)
    {entries misses : Nat} (h : .event (.promoted entries misses .traversal) ∈ p.postings role) :
    role = none := by
  cases p with
  | done x => simp [Program.postings] at h
  | retry u next => simp [Program.postings] at h
  | act a next =>
      cases a with
      | emit e =>
          obtain rfl : Event.promoted entries misses .traversal = e := by
            simpa [Program.postings, Action.postings] using h
          exact hp.permitted
      | _ => simp [Program.postings, Action.postings] at h

/-- What fits into an audited account makes an audited account. -/
theorem Account.Audited.append {account posted : Account} (h : account.Audited)
    (hone : posted.length ≤ 1) (hfits : ∀ p ∈ posted, account.Fits p) :
    Audited (posted ++ account) := by
  match posted, hone with
  | [], _ => exact h
  | [p], _ => exact ⟨hfits p (List.mem_singleton_self p), h⟩

/-- A thread posts nothing unless it holds the mutex, and lets go of it only if the account is
balanced. -/
theorem Program.Proper.postings {p p' : Program K V α} {s' : Shared K V}
    (hp : p.Proper t role σ) (hstep : p.step order t σ.shared = some (p', s')) :
    (p.postings role ≠ [] → σ.shared.holder = some t) ∧ (p.postings role).length ≤ 1 ∧
      (∀ x ∈ p.postings role, σ.account.Fits x) ∧
      (σ.shared.holder = some t → s'.holder = none →
        Account.Balanced (p.postings role ++ σ.account) s'.snapshot s'.staging) := by
  cases p with
  | done x => simp [step] at hstep
  | act a next =>
      obtain ⟨r, hperf, -, rfl⟩ := of_step_act hstep
      refine ⟨hp.guarded, a.length_postings_le role, hp.posted, fun hheld hfree => ?_⟩
      obtain rfl := Action.eq_release hperf hheld hfree
      obtain rfl := Option.some.inj hperf
      exact hp.balanced rfl
  | retry u next =>
      refine ⟨fun h => absurd rfl h, Nat.zero_le _, by simp [Program.postings], ?_⟩
      intro hheld hfree
      rcases of_step_retry hstep with rfl | rfl <;> exact absurd (hheld.symm.trans hfree) (by simp)

variable [BEq V] {w w' : World K V}

/-- A proper step that thread `t` may take in a sound world. -/
theorem Program.Proper.proceeds {p p' : Program K V α} (hp : p.Proper t role σ) (hσ : σ.Valid)
    (hw : w.shared = σ.shared) (hg : w.Guarantee t w') (hw' : w'.Sound)
    (hstep : p.step order t σ.shared = some (p', w'.shared)) :
    σ.Proceeds t (p.postings role) (σ.after (p.postings role) w'.shared) := by
  obtain ⟨hguarded, hone, hfits, hrelease⟩ := hp.postings hstep
  obtain ⟨hsize, hlog⟩ := step_logged role hstep
  -- nothing is posted and no table changes while another thread holds the mutex
  have hframe : ∀ u, u ≠ t → σ.shared.holder = some u → p.postings role = [] ∧ w.Frame w' := by
    intro u hu hheld
    have hne : σ.shared.holder ≠ some t := by simpa [hheld] using hu
    exact ⟨not_imp_comm.1 hguarded hne, hg.frame (hw ▸ hne)⟩
  have hvalid : (σ.after (p.postings role) w'.shared).Valid := by
    refine ⟨fun hfree => ⟨hw'.free hfree ▸ hw'.tidy, ?_⟩, fun key c hc => ?_, fun _ h => .inr h⟩
    · by_cases hheld : σ.shared.holder = some t
      · exact hrelease hheld hfree
      · -- if it was not `t` who let the mutex go, then it has been free
        have hfree' : w.shared.holder = none := by
          rcases hg.holder with heq | ⟨heq, -⟩ | ⟨heq, -⟩
          · exact heq ▸ hfree
          · exact heq
          · exact absurd (hw ▸ heq) hheld
        have hsame : w.Frame w' := hg.frame (hw ▸ hheld)
        obtain ⟨-, hbalanced⟩ := hσ.free (hw ▸ hfree')
        show Account.Balanced (p.postings role ++ σ.account) w'.shared.snapshot w'.shared.staging
        rwa [not_imp_comm.1 hguarded hheld, hsame.snapshot, hsame.staging, hw]
    · obtain ⟨own, hserving, -⟩ := (hw'.roster.published key c).1 hc
      exact hw'.roster.used c (by simp [hserving])
  refine ⟨hvalid, fun h => h.append hone hfits, fun h => ?_, fun u role' hu hown => ?_⟩
  · show Account.events (p.postings role ++ σ.account) = w'.shared.log
    rw [hlog, ← h]
    exact List.filterMap_append
  · have hrely := hg.rely hu
    refine ⟨hvalid, ⟨hw ▸ hrely.along.holder, hsize, fun _ h => .inl h, fun id r hr hmem => ?_,
      fun snapshot staging account hc => ?_⟩, fun hheld => ?_, fun hheld => ?_⟩
    · exact (List.mem_append.1 hmem).resolve_left (hown id r hr)
    · obtain ⟨hnone, hsame⟩ := hframe u hu hc.holder
      refine ⟨hrely.along.holder.2 (hw ▸ hc.holder), hsame.snapshot.trans (hw ▸ hc.snapshot),
        hsame.staging.trans (hw ▸ hc.staging), ?_⟩
      show p.postings role ++ σ.account = account
      rw [hnone]
      exact hc.account
    · exact hw ▸ (hframe u hu hheld).2.tombstoned
    · exact hw ▸ (hframe u hu hheld).2.buried

end Step

/-! ## Errands -/

namespace Errand

/-- What a thread is busy with, and what the next step enters into the account. The callers and
requests of all calls are `invoked`. -/
def role (invoked : CallId → Option (ThreadId × Request K V)) : Errand K V → Role K V
  | call id _ => (invoked id).map fun c => (id, c.2)
  | tour _ _ => none

def postings (invoked : CallId → Option (ThreadId × Request K V)) : Errand K V → Account
  | call id p => p.postings (role invoked (call id p))
  | tour id p => p.postings (role invoked (tour id p))

end Errand

variable [BEq K] {order : Enumeration K} {t u : ThreadId} {σ σ' : Scene K V}
  {invoked invoked' : CallId → Option (ThreadId × Request K V)} {x x' : Errand K V}

/-- A thread heeds the expectations to the end of its errand. A call has the thread as its
caller. -/
def Errand.Heeds (order : Enumeration K) (t : ThreadId)
    (invoked : CallId → Option (ThreadId × Request K V)) (σ : Scene K V) : Errand K V → Prop
  | call id p => ∃ r, invoked id = some (t, r) ∧
      p.heeds order t (some (id, r)) (fun answer σ' => σ'.Hands answer.handle?) σ
  | tour _ p => p.heeds order t none (fun l σ' => σ'.Leads l) σ

/-- The next step of an errand is a proper one. -/
def Errand.Proper (t : ThreadId) (invoked : CallId → Option (ThreadId × Request K V))
    (σ : Scene K V) : Errand K V → Prop
  | call id p => p.Proper t (role invoked (call id p)) σ
  | tour id p => p.Proper t (role invoked (tour id p)) σ

namespace Errand.Heeds

/-- The next step of an errand that heeds the expectations meets them. -/
theorem proper (h : x.Heeds order t invoked σ) (hσ : σ.Valid) : x.Proper t invoked σ := by
  cases x with
  | call id p =>
      obtain ⟨r, hr, hp⟩ := h
      show p.Proper t ((invoked id).map fun c => (id, c.2)) σ
      rw [hr]
      exact Program.heeds_proper hp hσ
  | tour id p => exact Program.heeds_proper h hσ

/-- What other threads do in the meantime is accounted for. -/
theorem endures (h : x.Heeds order t invoked σ)
    (he : σ.Endures t (x.role invoked) σ') : x.Heeds order t invoked σ' := by
  cases x with
  | call id p =>
      obtain ⟨r, hr, hp⟩ := h
      simp only [Errand.role, hr] at he
      exact ⟨r, hr, Program.heeds_endures hp he fun _ _ _ hQ he => hQ.mono he.along.shown⟩
  | tour id p => exact Program.heeds_endures h he fun _ _ _ hQ he => hQ.mono he.along.shown

/-- More calls may be made. -/
theorem congr (h : x.Heeds order t invoked σ)
    (hinvoked : ∀ id c, invoked id = some c → invoked' id = some c) :
    x.Heeds order t invoked' σ := by
  cases x with
  | call id p =>
      obtain ⟨r, hr, hp⟩ := h
      exact ⟨r, hinvoked id _ hr, hp⟩
  | tour id p => exact h

/-- An errand that heeds the expectations does so after each step. -/
theorem step (h : x.Heeds order t invoked σ) (hσ : σ.Valid) {s' : Shared K V}
    (hstep : x.step order t σ.shared = some (x', s')) :
    x'.Heeds order t invoked (σ.after (x.postings invoked) s') := by
  cases x with
  | call id p =>
      simp only [Errand.step, Option.map_eq_some_iff, Prod.mk.injEq] at hstep
      obtain ⟨p', hstep, rfl, rfl⟩ := hstep
      obtain ⟨r, hr, hp⟩ := h
      simp only [Errand.postings, Errand.role, hr]
      exact ⟨r, hr, Program.heeds_step hp hσ hstep⟩
  | tour id p =>
      simp only [Errand.step, Option.map_eq_some_iff, Prod.mk.injEq] at hstep
      obtain ⟨p', hstep, rfl, rfl⟩ := hstep
      exact Program.heeds_step h hσ hstep

/-- The role of a call is known from who made it. -/
theorem invoked_of_role (h : x.Heeds order t invoked σ) {id : CallId} {r : Request K V}
    (hr : x.role invoked = some (id, r)) : invoked id = some (t, r) := by
  cases x with
  | call id' p =>
      obtain ⟨r', hr', -⟩ := h
      obtain ⟨rfl, rfl⟩ : id' = id ∧ r' = r := by simpa [Errand.role, hr'] using hr
      exact hr'
  | tour id' p => simp [Errand.role] at hr

/-- Whoever posts a miss of a call has made the call. -/
theorem invoked_of_miss (h : x.Heeds order t invoked σ) {id : CallId}
    (hmem : .miss id ∈ x.postings invoked) : ∃ r, invoked id = some (t, r) := by
  obtain ⟨r, hr⟩ : ∃ r, x.role invoked = some (id, r) := by
    cases x with
    | call id' p => exact Program.role_of_miss hmem
    | tour id' p => exact Program.role_of_miss hmem
  exact ⟨r, h.invoked_of_role hr⟩

/-- Only traversals promote without misses. -/
theorem tour_of_traversal (h : x.Heeds order t invoked σ) (hσ : σ.Valid) {entries misses : Nat}
    (hmem : .event (.promoted entries misses .traversal) ∈ x.postings invoked) :
    ∃ id p, x = .tour id p := by
  have hproper := h.proper hσ
  cases x with
  | tour id p => exact ⟨id, p, rfl⟩
  | call id p =>
      obtain ⟨r, hr, -⟩ := h
      have hnone : Errand.role invoked (.call id p) = none :=
        Program.Proper.role_of_traversal hproper hmem
      simp [Errand.role, hr] at hnone

end Errand.Heeds

/-- A proper step of an errand leaves the others a scene from which they can go on. -/
theorem Errand.Proper.proceeds [BEq V] {w w' : World K V} (hx : x.Proper t invoked σ)
    (hσ : σ.Valid) (hw : w.shared = σ.shared) (hg : w.Guarantee t w') (hw' : w'.Sound)
    (hstep : x.step order t σ.shared = some (x', w'.shared)) :
    σ.Proceeds t (x.postings invoked) (σ.after (x.postings invoked) w'.shared) := by
  cases x with
  | call id p =>
      simp only [Errand.step, Option.map_eq_some_iff, Prod.mk.injEq] at hstep
      obtain ⟨⟨p', s'⟩, hstep, -, rfl⟩ := hstep
      exact Program.Proper.proceeds hx hσ hw hg hw' hstep
  | tour id p =>
      simp only [Errand.step, Option.map_eq_some_iff, Prod.mk.injEq] at hstep
      obtain ⟨⟨p', s'⟩, hstep, -, rfl⟩ := hstep
      exact Program.Proper.proceeds hx hσ hw hg hw' hstep

/-- Whoever waits for the mutex posts nothing. -/
theorem Errand.postings_of_step (h : x.step order t σ.shared = none) : x.postings invoked = [] := by
  have hpost : ∀ {α : Type} (role : Role K V) (p : Program K V α),
      p.step order t σ.shared = none → p.postings role = [] := by
    intro α role p h
    cases p with
    | done y => rfl
    | act a next =>
        have hnone : a.perform order t σ.shared = none := by simpa [Program.step] using h
        obtain ⟨rfl, -⟩ := (Action.perform_eq_none_iff _ _ _ _).1 hnone
        rfl
    | retry u next => rfl
  cases x with
  | call id p => exact hpost _ p (by simpa [Errand.step] using h)
  | tour id p => exact hpost _ p (by simpa [Errand.step] using h)

end ConcurrentMap
