import ConcurrentMap.Proofs.Debts
import ConcurrentMap.Proofs.Tombstones
import ConcurrentMap.Proofs.Turns
import Mathlib.Data.List.Induction

/-!
# What an amended snapshot means

A snapshot is marked as amended when it is published, and the mark stays with it for as long as it
is there. What it announces may be gone by then: a key that only the staged table has is dropped
from it when the key is deleted, and nothing is published for that.

`Machine.ofClients_announces` says what the mark does mean: at some moment since the snapshot was
published, with nobody in the mutex, a key was staged that the snapshot lacks; and such a key leaves
the staged table in a deletion only. The invariant is `Machine.Solvent`: the threads have debts,
all of them right, and an amended snapshot has announced something already or its debt is not paid.
-/

namespace ConcurrentMap

variable {K V ε α : Type}

namespace Machine

variable [BEq K] {order : Enumeration K} {m : Machine K V α} {σ τ ρ : List ThreadId}
  {debts : ThreadId → Debt K}

/-! ## Runs -/

/-- From the end of `τ` to the end of `τ ++ ρ` the snapshot was not replaced. -/
def Unreplaced (order : Enumeration K) (m : Machine K V α) (τ ρ : List ThreadId) : Prop :=
  ∀ ρ₁, ρ₁ <+: ρ → (m.sharedAt order (τ ++ ρ₁)).snapshot = (m.sharedAt order (τ ++ ρ)).snapshot

/-- At some moment since the snapshot was published, with nobody in the mutex, a key was staged that
the snapshot lacks. -/
def HasStagedOnly (order : Enumeration K) (m : Machine K V α) (σ : List ThreadId) : Prop :=
  ∃ τ ρ, σ = τ ++ ρ ∧ m.Unreplaced order τ ρ ∧ (m.sharedAt order τ).holder = none ∧
    ∃ key, (m.sharedAt order τ).StagedOnly key

/-- Next, the thread drops the key from the staged table. -/
def Unstages (m : Machine K V α) (t : ThreadId) (key : K) : Prop :=
  ∃ other next, m.threads[t]? = some (.act (.unstage other) next) ∧ (other == key) = true

/-- All threads pay what they owe, their debts are right, and an amended snapshot has announced
something already, or its debt is not paid yet. -/
structure Solvent (order : Enumeration K) (m : Machine K V α) (σ : List ThreadId)
    (debts : ThreadId → Debt K) : Prop where
  threads : ∀ t (p : Program K V α), (m.follow order σ).threads[t]? = some p →
    p.announces (fun _ _ => True) (debts t)
  holds : ∀ t, (m.sharedAt order σ).holder = some t → (debts t).Holds (m.sharedAt order σ)
  announced : (m.sharedAt order σ).snapshot.amended = true → m.HasStagedOnly order σ ∨
    ∃ t, (m.sharedAt order σ).holder = some t ∧ (debts t).Open

/-- Another step that keeps the snapshot may be added. -/
theorem Unreplaced.concat (h : m.Unreplaced order τ ρ) {t : ThreadId}
    (hsnap : (m.sharedAt order (τ ++ (ρ ++ [t]))).snapshot = (m.sharedAt order (τ ++ ρ)).snapshot) :
    m.Unreplaced order τ (ρ ++ [t]) := by
  intro ρ₁ hρ₁
  rcases List.prefix_concat_iff.1 hρ₁ with rfl | hρ₁
  · rfl
  · rw [h ρ₁ hρ₁, hsnap]

/-- What was staged at some moment still was at that moment, as long as the snapshot is there. -/
theorem HasStagedOnly.concat (h : m.HasStagedOnly order σ) {t : ThreadId}
    (hsnap : (m.sharedAt order (σ ++ [t])).snapshot = (m.sharedAt order σ).snapshot) :
    m.HasStagedOnly order (σ ++ [t]) := by
  obtain ⟨τ, ρ, rfl, hkept, hrest⟩ := h
  rw [List.append_assoc] at hsnap ⊢
  exact ⟨τ, ρ ++ [t], rfl, hkept.concat hsnap, hrest⟩

/-- What is staged now is staged at some moment since the snapshot was published. -/
theorem HasStagedOnly.here (hfree : (m.sharedAt order σ).holder = none) {key : K}
    (hkey : (m.sharedAt order σ).StagedOnly key) : m.HasStagedOnly order σ := by
  refine ⟨σ, [], (List.append_nil σ).symm, ?_, hfree, key, hkey⟩
  intro ρ₁ hρ₁
  rw [List.prefix_nil.1 hρ₁]

/-- A step at which neither the tables nor the mutex change. -/
theorem Solvent.steady (h : m.Solvent order σ debts) {t : ThreadId}
    (hthreads : ∀ u (p : Program K V α), (m.follow order (σ ++ [t])).threads[u]? = some p →
      p.announces (fun _ _ => True) (debts u))
    (hsteady : (m.sharedAt order σ).Steady (m.sharedAt order (σ ++ [t]))) :
    m.Solvent order (σ ++ [t]) debts where
  threads := hthreads
  holds u hu := (h.holds u (hsteady.holder ▸ hu)).congr hsteady.snapshot hsteady.staging
  announced ham := by
    rw [hsteady.snapshot] at ham
    rw [hsteady.holder]
    exact (h.announced ham).imp_left fun hhas => hhas.concat hsteady.snapshot

/-- After a step that performs an action, what the others know is as right as it was. -/
theorem Solvent.holds_perform [EquivBEq K] [BEq V] {w : World K V} (h : m.Solvent order σ debts)
    (hback : m.Backed order w) {t : ThreadId} {a : Action K V} {r : a.Response × Shared K V}
    (ha : a.InOrder (debts t)) (hr : a.perform order t (m.sharedAt order σ) = some r)
    (hs : m.sharedAt order (σ ++ [t]) = r.2) {u : ThreadId} (hu : r.2.holder = some u) :
    (Function.update debts t (a.debt (debts t) r.1) u).Holds r.2 := by
  obtain ⟨w₁, w₂, -, -, hg, hs₁, hs₂, -⟩ := hback.exists_step σ t
  rw [hs] at hs₂
  by_cases hut : u = t
  · subst hut
    rw [Function.update_self]
    -- The thread held the mutex before its step, or has just taken it and looked at nothing.
    by_cases hheld : (m.sharedAt order σ).holder = some u
    · exact (h.holds u hheld).perform ha hr
    · obtain rfl := Action.eq_acquire hr hu hheld
      trivial
  -- Another thread that holds the mutex has the tables to itself.
  · rw [Function.update_of_ne hut]
    have hheld : w₁.shared.holder = some u := (hg.rely hut).along.holder.1 (hs₂ ▸ hu)
    have hframe := hg.frame (by rw [hheld]; simpa using hut)
    have hholds := h.holds u (hs₁ ▸ hheld)
    rw [← hs₁] at hholds
    rw [← hs₂]
    exact hholds.congr hframe.snapshot hframe.staging

/-- After a step that performs an action, an amended snapshot has announced something already, or
its debt is not paid yet. -/
theorem Solvent.announced_perform [EquivBEq K] [BEq V] {w : World K V}
    (h : m.Solvent order σ debts) (hback : m.Backed order w) {t : ThreadId} {a : Action K V}
    {r : a.Response × Shared K V} (ha : a.InOrder (debts t))
    (hr : a.perform order t (m.sharedAt order σ) = some r) (hs : m.sharedAt order (σ ++ [t]) = r.2)
    (ham : r.2.snapshot.amended = true) : m.HasStagedOnly order (σ ++ [t]) ∨
      ∃ u, r.2.holder = some u ∧ (Function.update debts t (a.debt (debts t) r.1) u).Open := by
  obtain ⟨w₁, w₂, -, -, hg, hs₁, hs₂, -⟩ := hback.exists_step σ t
  rw [hs] at hs₂
  by_cases hsnap : r.2.snapshot = (m.sharedAt order σ).snapshot
  · rw [hsnap] at ham
    rcases h.announced ham with hhas | ⟨u, hheld, hopen⟩
    · exact .inl (hhas.concat (hs ▸ hsnap))
    · by_cases hut : u = t
      · subst hut
        rcases hopen.perform ha r.1 with ⟨rfl, snapshot, key, hpaid⟩ | hopen
        · -- the debt is paid and the mutex is let go
          have hholds := h.holds u hheld
          rw [hpaid] at hholds
          obtain rfl := Option.some.inj hr
          have hkey : (m.sharedAt order (σ ++ [u])).StagedOnly key := by
            rw [hs]
            exact hholds.2.congr rfl rfl
          refine .inl (.here ?_ hkey)
          rw [hs]
          rfl
        · refine .inr ⟨u, ?_, by rwa [Function.update_self]⟩
          rcases hg.holder with heq | ⟨hnone, -⟩ | ⟨-, hnone⟩
          · rw [hs₁, hs₂] at heq
            rw [heq, hheld]
          · rw [hs₁, hheld] at hnone
            cases hnone
          · rw [hs₂] at hnone
            obtain rfl := Action.eq_release hr hheld hnone
            exact hopen.elim
      · refine .inr ⟨u, ?_, by rwa [Function.update_of_ne hut]⟩
        exact hs₂ ▸ (hg.rely hut).along.holder.2 (hs₁ ▸ hheld)
  · -- only the holder of the mutex replaces the snapshot
    have hheld : (m.sharedAt order σ).holder = some t := by
      by_contra hheld
      have hframe := hg.frame (hs₁ ▸ hheld)
      exact hsnap (by rw [← hs₂, ← hs₁, hframe.snapshot])
    obtain ⟨hholder, hopen⟩ := (Action.snapshot_perform (debts t) hr).resolve_left hsnap
    exact .inr ⟨t, hholder.trans hheld, by rw [Function.update_self]; exact hopen ham⟩

/-- One step. -/
theorem Solvent.step [EquivBEq K] [BEq V] {w : World K V} (h : m.Solvent order σ debts)
    (hback : m.Backed order w) (t : ThreadId) :
    ∃ debts', m.Solvent order (σ ++ [t]) debts' := by
  have hfollow : m.follow order (σ ++ [t]) = (m.follow order σ).step order t :=
    m.follow_append order σ [t]
  rcases (m.follow order σ).step_cases order t with ⟨hsame, -⟩ | ⟨p, p', hp, hstep, hthreads⟩
  · rw [← hfollow] at hsame
    refine ⟨debts, h.steady (by rw [hsame]; exact h.threads) ?_⟩
    rw [sharedAt, sharedAt, hsame]
    exact .refl _
  -- The thread knows something new, and the others are where they were.
  · rw [← hfollow] at hstep hthreads
    have hnext : ∀ n : Debt K, p'.announces (fun _ _ => True) n →
        ∀ u (q : Program K V α), (m.follow order (σ ++ [t])).threads[u]? = some q →
          q.announces (fun _ _ => True) (Function.update debts t n u) := fun n hn =>
      threads_update (P := fun q n => q.announces (fun _ _ => True) n) h.threads hn hthreads
    rcases Program.announces_step (h.threads t p hp) hstep with
      ⟨a, rest, r, rfl, ha, hr, hs, hp'⟩ | ⟨hp', hsteady⟩
    · refine ⟨_, hnext _ hp', fun u hu => ?_, fun ham => ?_⟩
      · rw [sharedAt, hs] at hu ⊢
        exact h.holds_perform hback ha hr hs hu
      · rw [sharedAt, hs] at ham ⊢
        exact h.announced_perform hback ha hr hs ham
    · refine ⟨debts, h.steady ?_ hsteady⟩
      have hsame := hnext _ hp'
      rwa [Function.update_eq_self] at hsame

/-- However long the schedule, the debts are right. -/
theorem exists_solvent [EquivBEq K] [BEq V] {w : World K V} (h : m.Solvent order [] debts)
    (hback : m.Backed order w) (σ : List ThreadId) : ∃ debts', m.Solvent order σ debts' := by
  induction σ using List.reverseRecOn with
  | nil => exact ⟨debts, h⟩
  | append_singleton σ t ih =>
      obtain ⟨debts', h'⟩ := ih
      exact h'.step hback t

/-- A step that leaves an amended snapshot where it is leaves a key that only the staged table has
there, or drops it. -/
theorem Solvent.stagedOnly_step [EquivBEq K] [BEq V] {w : World K V} {key : K}
    (h : m.Solvent order σ debts) (hback : m.Backed order w) (t : ThreadId)
    (hkey : (m.sharedAt order σ).StagedOnly key)
    (hsnap : (m.sharedAt order (σ ++ [t])).snapshot = (m.sharedAt order σ).snapshot)
    (ham : (m.sharedAt order σ).snapshot.amended = true) :
    (m.sharedAt order (σ ++ [t])).StagedOnly key ∨ (m.follow order σ).Unstages t key := by
  have hfollow : m.follow order (σ ++ [t]) = (m.follow order σ).step order t :=
    m.follow_append order σ [t]
  obtain ⟨w₁, w₂, -, -, hg, hs₁, hs₂, -⟩ := hback.exists_step σ t
  by_cases hheld : (m.sharedAt order σ).holder = some t
  · rcases (m.follow order σ).step_cases order t with ⟨hsame, -⟩ | ⟨p, p', hp, hstep, -⟩
    · left
      rw [sharedAt, hfollow, hsame]
      exact hkey
    · rw [← hfollow] at hstep
      rcases Program.announces_step (h.threads t p hp) hstep with
        ⟨a, rest, r, rfl, ha, hr, hs, -⟩ | ⟨-, hsteady⟩
      · rw [sharedAt, hs] at hsnap ⊢
        rcases hkey.perform ham (h.holds t hheld) ha hr hsnap with hstill | ⟨other, rfl, hother⟩
        · exact .inl hstill
        · exact .inr ⟨other, rest, hp, hother⟩
      · exact .inl (hkey.congr hsteady.snapshot hsteady.staging)
  · -- the others do not change the tables
    have hframe := hg.frame (hs₁ ▸ hheld)
    left
    rw [← hs₁] at hkey
    rw [← hs₂]
    exact hkey.congr hframe.snapshot hframe.staging

/-- While the snapshot is not replaced, a key that only the staged table has stays there until some
thread drops it. -/
theorem Solvent.stagedOnly [EquivBEq K] [BEq V] {w : World K V} {key : K}
    (h : m.Solvent order [] debts) (hback : m.Backed order w)
    (hkey : (m.sharedAt order τ).StagedOnly key) (hkept : m.Unreplaced order τ ρ)
    (ham : (m.sharedAt order (τ ++ ρ)).snapshot.amended = true) :
    (m.sharedAt order (τ ++ ρ)).StagedOnly key ∨ ∃ ρ₁ t ρ₂, ρ = ρ₁ ++ t :: ρ₂ ∧
      (m.sharedAt order (τ ++ ρ₁)).StagedOnly key ∧
        (m.follow order (τ ++ ρ₁)).Unstages t key := by
  induction ρ using List.reverseRecOn with
  | nil => exact .inl (by rwa [List.append_nil])
  | append_singleton ρ t ih =>
      have hlast := hkept ρ (List.prefix_append ρ [t])
      have hkept' : m.Unreplaced order τ ρ := fun ρ₁ hρ₁ =>
        (hkept ρ₁ (hρ₁.trans (List.prefix_append ρ [t]))).trans hlast.symm
      rcases ih hkept' (hlast ▸ ham) with hstill | ⟨ρ₁, u, ρ₂, rfl, hdrop⟩
      · -- the last step drops the key, or leaves it
        obtain ⟨debts', h'⟩ := exists_solvent h hback (τ ++ ρ)
        rcases h'.stagedOnly_step hback t hstill (by rw [List.append_assoc, hlast]) (hlast ▸ ham) with
          hstill' | hdrop
        · exact .inl (by rwa [List.append_assoc] at hstill')
        · exact .inr ⟨ρ, t, [], rfl, hstill, hdrop⟩
      · exact .inr ⟨ρ₁, u, ρ₂ ++ [t], by simp, hdrop⟩

/-! ## Clients -/

variable [BEq V]

/-- In the beginning nobody has looked at anything. -/
theorem solvent_ofClients (order : Enumeration K) (clients : List (Client K V ε α)) :
    (ofClients .initial clients).Solvent order [] fun _ => .unread where
  threads t p hp := by
    obtain ⟨c, -, rfl⟩ := exists_client hp
    have hpays : (c.program []).Announces :=
      Client.program_composed Program.composes_announces Map.supports_announces c []
    exact Program.announces_mono (hpays .unread (.inl rfl)) fun _ _ _ => trivial
  holds _ _ := trivial
  announced ham := by cases ham

theorem backed_initial [EquivBEq K] (order : Enumeration K) (clients : List (Client K V ε α)) :
    (ofClients .initial clients).Backed order (.start ⟨fun _ => True, False⟩) :=
  backed_ofClients (fun c _ => c.only_true) (World.sound_start _)
    fun t => ⟨[], World.idle_start t _⟩

/-- When nobody holds the mutex, the snapshot is amended if and only if at some moment since it was
published, with nobody in the mutex, a key was staged that it lacks. Such a key stays staged for as
long as the amended snapshot is there, unless a deletion drops it. -/
theorem ofClients_announces [EquivBEq K] (order : Enumeration K) (clients : List (Client K V ε α))
    (σ : List ThreadId) (hfree : ((ofClients .initial clients).sharedAt order σ).holder = none) :
    (((ofClients .initial clients).sharedAt order σ).snapshot.amended = true ↔
      (ofClients .initial clients).HasStagedOnly order σ) ∧
    ∀ τ ρ key, σ = τ ++ ρ → (ofClients .initial clients).Unreplaced order τ ρ →
      ((ofClients .initial clients).sharedAt order σ).snapshot.amended = true →
      ((ofClients .initial clients).sharedAt order τ).StagedOnly key →
        ((ofClients .initial clients).sharedAt order σ).StagedOnly key ∨
        ∃ ρ₁ t ρ₂, ρ = ρ₁ ++ t :: ρ₂ ∧
          ((ofClients .initial clients).sharedAt order (τ ++ ρ₁)).StagedOnly key ∧
          ((ofClients .initial clients).follow order (τ ++ ρ₁)).Unstages t key := by
  have hback := backed_initial order clients
  have hstart := solvent_ofClients order clients
  obtain ⟨debts, hsolvent⟩ := exists_solvent hstart hback σ
  refine ⟨⟨fun ham => ?_, ?_⟩, ?_⟩
  · refine (hsolvent.announced ham).resolve_right ?_
    rintro ⟨t, hheld, -⟩
    rw [hfree] at hheld
    cases hheld
  · rintro ⟨τ, ρ, rfl, hkept, hfree', key, hkey⟩
    -- at rest a staged table goes with an amended snapshot, and this one has not been replaced
    obtain ⟨w', hw', -⟩ := hback.follow τ
    have hrest := hw'.sound.free (hw'.shared ▸ hfree')
    have htidy := hw'.sound.tidy
    rw [hrest, hw'.shared] at htidy
    have hsnap := hkept [] List.nil_prefix
    rw [List.append_nil] at hsnap
    rw [← hsnap]
    obtain ⟨c, hc⟩ := Option.isSome_iff_exists.1 hkey.1
    exact htidy.phase.1.trans (Staging.isSome_of_find? hc)
  · rintro τ ρ key rfl hkept ham hkey
    exact Solvent.stagedOnly hstart hback hkey hkept ham

/-- A client stores a key and deletes it again. -/
def storeDelete : List (Client Nat Nat Unit Unit) :=
  [.request (.store 0 7) fun _ => .request (.delete 0) fun _ => .done ()]

/-- After the deletion the snapshot is amended, and announces the key that was stored. -/
theorem ofClients_announces_storeDelete :
    ((ofClients .initial storeDelete).sharedAt .insertion (List.replicate 18 0)).holder = none ∧
      ((ofClients .initial storeDelete).sharedAt .insertion
        (List.replicate 18 0)).snapshot.amended = true ∧
      (ofClients .initial storeDelete).HasStagedOnly .insertion (List.replicate 18 0) := by
  have hfree : ((ofClients .initial storeDelete).sharedAt .insertion
      (List.replicate 18 0)).holder = none := by decide +kernel
  have ham : ((ofClients .initial storeDelete).sharedAt .insertion
      (List.replicate 18 0)).snapshot.amended = true := by decide +kernel
  exact ⟨hfree, ham, (ofClients_announces .insertion storeDelete _ hfree).1.1 ham⟩

/-- But then no key is staged any more, although nobody is in the mutex. -/
theorem amended_storeDelete :
    ((ofClients .initial storeDelete).sharedAt .insertion (List.replicate 18 0)).holder = none ∧
      ((ofClients .initial storeDelete).sharedAt .insertion
        (List.replicate 18 0)).snapshot.amended = true ∧
      ∀ key, ¬((ofClients .initial storeDelete).sharedAt .insertion
        (List.replicate 18 0)).StagedOnly key := by
  have hempty : ((ofClients .initial storeDelete).sharedAt .insertion
      (List.replicate 18 0)).staging.table = some ⟨[]⟩ := by decide +kernel
  refine ⟨by decide +kernel, by decide +kernel, ?_⟩
  intro key hkey
  have hstaged := hkey.1
  rw [Staging.find?, hempty] at hstaged
  cases hstaged

end Machine

end ConcurrentMap
