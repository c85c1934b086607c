import ConcurrentMap.Proofs.Acquisitions
import ConcurrentMap.Proofs.Announcing
import ConcurrentMap.Proofs.Burying
import ConcurrentMap.Proofs.Cells.Vouching
import ConcurrentMap.Proofs.Solo.Structure

/-!
# What a rebuild makes of the snapshot

While a thread rebuilds the staged table, other threads write and delete through the cells that it
walks over. All the same, a rebuild divides the snapshot: an entry is staged, or its cell is
tombstoned (`Machine.Partitions`). No write is lost between the two, because the slot that a write
put into a cell stays there until somebody else exchanges it, and the rebuild exchanges absent slots
only (`Machine.KeepsWrites`).

What a step does to a rebuild that is under way is `Machine.Sheltered.step`, and
`Machine.Sheltered.follow` is what the steps of a schedule do, by induction. That other threads
leave the tables and the tombstones alone is what `World.Guarantee` says of whoever does not hold
the mutex, and the thread that rebuilds does hold it (`Machine.Backed.holder_of_rebuild`).
-/

namespace ConcurrentMap

variable {K V ε α β : Type} [BEq K] [BEq V] {order : Enumeration K} {t u : ThreadId}

/-! ## The holder of the mutex -/

/-- Whoever does not hold the mutex, and does not ask for it, leaves the staged table alone. -/
theorem Program.staging_of_wp {p : Program K V α} {Q : α → World K V → Prop} {w : World K V}
    (h : p.wp order t Q w) (hw : w.Sound) (hp : p.Lockless) (hout : w.shared.holder ≠ some t)
    {r : α × Shared K V} (hrun : p.run order t w.shared = some r) :
    r.2.staging = w.shared.staging := by
  induction p generalizing w with
  | done x =>
      obtain rfl := Option.some.inj hrun
      rfl
  | act a next ih =>
      obtain ⟨r₁, hr₁, hrun⟩ := Option.bind_eq_some_iff.1 hrun
      obtain ⟨w₁, hs₁, hw₁, hg, h₁⟩ := (h w (.refl t w) hw).2 r₁ hr₁
      have hout₁ : w₁.shared.holder ≠ some t := by
        intro hheld
        rw [hs₁] at hheld
        obtain rfl := Action.eq_acquire hr₁ hheld hout
        cases hp.1
      rw [← hs₁] at hrun
      exact (ih r₁.1 h₁ hw₁ (hp.2 r₁.1) hout₁ hrun).trans (hg.frame hout).staging
  | retry v next ih =>
      obtain ⟨hseen, hacc, h⟩ := h
      obtain ⟨hin, hrefused⟩ := h w (.refl t w) hw
      rw [Program.run_retry, settle_eq hw hseen hacc] at hrun
      have hgo : ∀ {o s₁}, (w.Reaches t s₁ fun w₁ => (next o).wp order t Q w₁) →
          s₁.holder = w.shared.holder → (next o).run order t s₁ = some r →
            r.2.staging = w.shared.staging := by
        rintro o s₁ ⟨w₁, rfl, hw₁, hg, h₁⟩ hholder hrun
        have hout₁ : w₁.shared.holder ≠ some t := by rwa [hholder]
        exact (ih o h₁ hw₁ (hp o) hout₁ hrun).trans (hg.frame hout).staging
      split at hrun
      · next haccepts => exact hgo (hin haccepts) rfl hrun
      · next hrefuses => exact hgo (hrefused (by simpa using hrefuses)) rfl hrun

omit [BEq V] in
/-- A rebuild that nobody disturbs stages a table. -/
theorem Map.exists_run_rebuild (order : Enumeration K) (t : ThreadId) (snapshot : Snapshot K)
    {s : Shared K V}
    (hnone : s.staging.table = none) : ∃ r, (Map.rebuild snapshot).run order t s = some r ∧
      r.2.staging.table.isSome = true := by
  have hasStaged : (Action.hasStaged : Action K V).program.run order t s = some (false, s) := by
    rw [Action.run_program, Action.perform, hnone]
    rfl
  rw [Map.rebuild, Program.run_bind, hasStaged, Option.bind_some, if_neg Bool.false_ne_true,
    Program.run_bind, Action.run_program]
  simp only [Action.perform, Option.bind_some, Program.run_bind, Map.run_copyLive]
  exact ⟨_, rfl, rfl⟩

namespace Machine

variable {m : Machine K V α} {w : World K V} {p : Program K V β} {f : β → Program K V α}
  {Q : β → Shared K V → List Event → Prop} {es : List Event}

/-- Only the holder of the mutex comes to rebuild without a staged table. -/
theorem Backed.holder_of_rebuild (h : m.Backed order w) {snapshot : Snapshot K}
    {f : Unit → Program K V α} (hcall : m.threads[t]? = some (Map.rebuild snapshot >>= f))
    (hnone : m.shared.staging.table = none) : m.shared.holder = some t := by
  by_contra hout
  rw [← h.shared] at hout hnone
  obtain ⟨r, hrun, hstaged⟩ := Map.exists_run_rebuild order t snapshot hnone
  have hkept := Program.staging_of_wp (Program.wp_of_bind (h.threads t _ hcall)) h.sound
    (Map.lockless_rebuild snapshot) hout hrun
  rw [hkept, hnone] at hstaged
  cases hstaged

/-! ## A rebuild that is under way -/

/-- Thread `t` holds the mutex and is in the part `p`, of which it has written `es` to the log. -/
structure Sheltered (order : Enumeration K) (m : Machine K V α) (t : ThreadId) (p : Program K V β)
    (f : β → Program K V α) (Q : β → Shared K V → List Event → Prop) (es : List Event)
    (w : World K V) : Prop where
  backed : m.Backed order w
  held : m.shared.holder = some t
  inside : m.Inside t p f
  amid : p.amid order t Q m.shared es

/-- A turn of the thread itself is a step of the rebuild, which exchanges no slot but an absent
one. -/
theorem Sheltered.turn (h : m.Sheltered order t p f Q es w) (hmore : ∀ x, p ≠ .done x) :
    ∃ w', (m.step order t).Sheltered order t (p.next order t m.shared) f Q
        (es ++ p.logs m.shared) w' ∧
      ∀ c, (m.shared.slot c).content ≠ .absent →
        (m.step order t).shared.slot c = m.shared.slot c := by
  obtain ⟨w', hback, -⟩ := h.backed.step t
  obtain ⟨p', s', hstep⟩ := (Program.amid_exists_step h.amid).resolve_left fun ⟨x, hx⟩ => hmore x hx
  obtain ⟨rfl, hinside, -⟩ := h.inside.turn hstep
  -- the stamp that an attempt compares belongs to one slot only
  have hgenuine : ∀ v next, p = .retry v next →
      (m.shared.slot v.cell).stamp = v.seen.stamp → m.shared.slot v.cell = v.seen := by
    rintro v next rfl hstamp
    have hthread := h.inside.resolve_left fun ⟨x, hx⟩ => hmore x hx
    obtain ⟨hseen, -⟩ := h.backed.threads t _ hthread
    have hminted := h.backed.sound.minted v.cell
    rw [h.backed.shared] at hminted
    exact hminted.eq_of_stamp hseen hstamp
  obtain ⟨hamid, hholder, hslot⟩ := Program.amid_step h.amid hgenuine hstep
  rw [Program.next_of_step hstep]
  exact ⟨w', ⟨hback, hholder.trans h.held, hinside, hamid⟩, hslot⟩

/-- A turn of another thread leaves the rebuild where it is. A cell keeps its slot unless that
thread puts something into it, which it does not do if there is a tombstone. -/
theorem Sheltered.other (h : m.Sheltered order t p f Q es w)
    (hQ : ∀ x s s' es, Q x s es → s.Intact [] s' → Q x s' es) (hut : u ≠ t) :
    ∃ w', (m.step order u).Sheltered order t p f Q es w' ∧
      ∀ c, (m.shared.tombstoned c = true ∨ ∀ e ∈ m.installed u, e.cell = c → e.thread = t) →
        (m.step order u).shared.slot c = m.shared.slot c := by
  obtain ⟨w', hback, hg⟩ := h.backed.step u
  have hframe : w.Frame w' := hg.frame (by simp [h.backed.shared, h.held, Ne.symm hut])
  have hintact : m.shared.Intact [] (m.step order u).shared := by
    rw [← h.backed.shared, ← hback.shared]
    exact ⟨hframe.snapshot, hframe.staging, hframe.size, fun c _ => hframe.tombstoned c⟩
  have hheld : (m.step order u).shared.holder = some t := by
    rw [← hback.shared]
    refine (hg.rely (Ne.symm hut)).along.holder.2 ?_
    rw [h.backed.shared]
    exact h.held
  refine ⟨w', ⟨hback, hheld, h.inside.other hut, Program.amid_intact h.amid hintact hQ⟩, ?_⟩
  rintro c (hdead | hnone)
  · rw [← h.backed.shared] at hdead ⊢
    rw [← hback.shared]
    exact hframe.buried c hdead
  · rw [m.slot_step order u c]
    refine lastInto_of_forall fun e he hec => hut ?_
    rw [← thread_of_mem_installed he]
    exact hnone e he hec

/-- A step leaves the rebuild sheltered. A cell keeps its slot, unless that is absent, or another
thread puts something into the cell, which it does not do if there is a tombstone. -/
theorem Sheltered.step (h : m.Sheltered order t p f Q es w)
    (hQ : ∀ x s s' es, Q x s es → s.Intact [] s' → Q x s' es) (hmore : ∀ x, p ≠ .done x)
    (u : ThreadId) : ∃ w', (m.step order u).Sheltered order t
        (if u = t then p.next order t m.shared else p) f Q
        (es ++ if u = t then p.logs m.shared else []) w' ∧
      ∀ c, (m.shared.slot c).content ≠ .absent →
        (m.shared.tombstoned c = true ∨ ∀ e ∈ m.installed u, e.cell = c → e.thread = t) →
          (m.step order u).shared.slot c = m.shared.slot c := by
  by_cases hut : u = t
  · subst hut
    obtain ⟨w', hsheltered, hslot⟩ := h.turn hmore
    rw [if_pos rfl, if_pos rfl]
    exact ⟨w', hsheltered, fun c hc _ => hslot c hc⟩
  · obtain ⟨w', hsheltered, hslot⟩ := h.other hQ hut
    rw [if_neg hut, if_neg hut, List.append_nil]
    exact ⟨w', hsheltered, fun c _ hspared => hslot c hspared⟩

/-- So do the steps of a schedule. -/
theorem Sheltered.follow (h : m.Sheltered order t p f Q es w)
    (hQ : ∀ x s s' es, Q x s es → s.Intact [] s' → Q x s' es) {τ : List ThreadId}
    (hτ : Occupied order t m p τ) : ∃ w', (m.follow order τ).Sheltered order t
        (remains order t m p τ) f Q (es ++ gather order t Program.logs m p τ) w' ∧
      ∀ c, (m.shared.slot c).content ≠ .absent →
        (m.shared.tombstoned c = true ∨ ∀ e ∈ m.installs order τ, e.cell = c → e.thread = t) →
          (m.sharedAt order τ).slot c = m.shared.slot c := by
  induction τ generalizing m p es w with
  | nil =>
      rw [gather, List.append_nil]
      exact ⟨w, h, fun _ _ _ => rfl⟩
  | cons u τ ih =>
      obtain ⟨w₁, h₁, hslot₁⟩ := h.step hQ hτ.1 u
      obtain ⟨w₂, h₂, hslot₂⟩ := ih h₁ hτ.2
      rw [gather, ← List.append_assoc]
      refine ⟨w₂, h₂, fun c hc hspared => ?_⟩
      have hfirst : (m.step order u).shared.slot c = m.shared.slot c := by
        refine hslot₁ c hc (hspared.imp_right fun hnone e he => ?_)
        exact hnone e (List.mem_append_left _ he)
      refine (hslot₂ c (hfirst ▸ hc) ?_).trans hfirst
      rw [Shared.tombstoned, hfirst]
      exact hspared.imp_right fun hnone e he => hnone e (List.mem_append_right _ he)

/-! ## The division of the snapshot -/

/-- The steps `τ` are a whole rebuild of thread `t` from the snapshot, among the steps of others. -/
structure Rebuilds (order : Enumeration K) (m : Machine K V α) (t : ThreadId)
    (τ : List ThreadId) : Prop where
  begun : ∃ f, m.threads[t]? = some (Map.rebuild m.shared.snapshot >>= f)
  unstaged : m.shared.staging.table = none
  occupied : Occupied order t m (Map.rebuild m.shared.snapshot) τ
  ended : remains order t m (Map.rebuild m.shared.snapshot) τ = .done ()

/-- What the rebuild has made of the snapshot when the steps `τ` have been taken. -/
structure Partitions (order : Enumeration K) (m : Machine K V α) (t : ThreadId)
    (τ : List ThreadId) : Prop where
  snapshot : (m.sharedAt order τ).snapshot = m.shared.snapshot
  /-- Either the cell of an entry is tombstoned and the key is not staged, or the cell is not
  tombstoned and the key is staged with it. -/
  split : ∀ key c, m.shared.snapshot.find? key = some c →
    (m.sharedAt order τ).tombstoned c = true ∧ (m.sharedAt order τ).staging.find? key = none ∨
    (m.sharedAt order τ).tombstoned c = false ∧ (m.sharedAt order τ).staging.find? key = some c
  /-- Nothing else is staged. -/
  source : ∀ key c, (m.sharedAt order τ).staging.find? key = some c →
    m.shared.snapshot.find? key = some c
  /-- The one event that the rebuild logs has the sizes of the two classes, which make up the
  snapshot. -/
  counted : ∃ copied expunged,
    gather order t Program.logs m (Map.rebuild m.shared.snapshot) τ = [.rebuilt copied expunged] ∧
      copied = (m.sharedAt order τ).staging.size ∧
      expunged = m.shared.snapshot.table.entries.countP
        (fun e => (m.sharedAt order τ).tombstoned e.2) ∧
      copied + expunged = m.shared.snapshot.size
  /-- Once a cell is tombstoned, nobody changes it. -/
  lasting : ∀ ρ₁ ρ₂ c, τ = ρ₁ ++ ρ₂ → (m.sharedAt order ρ₁).tombstoned c = true →
    (m.sharedAt order τ).slot c = (m.sharedAt order ρ₁).slot c

/-- After the steps of `σ`, thread `u` takes the last step of an operation on cell `c` in the course
of the steps `τ`, and the answer is `answer`. The operation began when the steps `σ₁` had been
taken, and after the answer the steps `ρ₂` follow. -/
structure Reports (order : Enumeration K) (m : Machine K V α) (σ τ : List ThreadId) (u : ThreadId)
    (c : CellId) (x : Cell.Access V) (answer : x.Result) (σ₁ σ₂ ρ₁ ρ₂ : List ThreadId) : Prop where
  before : σ₁ ++ σ₂ = σ ++ ρ₁
  during : τ = ρ₁ ++ u :: ρ₂
  answers : (m.follow order σ₁).Answers order u (x.program c) answer σ₂

/-- What the rebuild in the steps `τ`, which follow those of `σ`, makes of the writes of other
threads that are answered meanwhile. -/
structure KeepsWrites (order : Enumeration K) (m : Machine K V α) (t : ThreadId)
    (σ τ : List ThreadId) : Prop where
  /-- A value of which the answer says that it was put into a cell of the snapshot is still there,
  unless another thread has put something else there since, and the key is staged. -/
  held : ∀ u c (x : Cell.Access V) answer σ₁ σ₂ ρ₁ ρ₂ key new,
    m.Reports order σ τ u c x answer σ₁ σ₂ ρ₁ ρ₂ → ¬x.Guarded → x.candidate? = some new →
    (m.sharedAt order σ).snapshot.find? key = some c → x.Wrote answer →
    (∀ e ∈ (m.follow order (σ ++ ρ₁ ++ [u])).installs order ρ₂, e.cell = c → e.thread = t) →
      (m.sharedAt order (σ ++ τ)).slot c = new.slot ∧
        (m.sharedAt order (σ ++ τ)).tombstoned c = false ∧
        (m.sharedAt order (σ ++ τ)).staging.find? key = some c
  /-- Otherwise the thread has put nothing into any cell. -/
  refused : ∀ u c (x : Cell.Access V) answer σ₁ σ₂ ρ₁ ρ₂ key new,
    m.Reports order σ τ u c x answer σ₁ σ₂ ρ₁ ρ₂ → ¬x.Guarded → x.candidate? = some new →
    (m.sharedAt order σ).snapshot.find? key = some c → ¬x.Wrote answer →
      ∀ e ∈ (m.follow order σ₁).installs order (σ₂ ++ [u]), e.thread ≠ u

variable [EquivBEq K] {τ : List ThreadId}

theorem Rebuilds.sheltered (h : m.Rebuilds order t τ) (hback : m.Backed order w) :
    ∃ f : Unit → Program K V α, m.Sheltered order t (Map.rebuild m.shared.snapshot) f
      (fun _ s es => m.shared.snapshot.Divided s es) [] w := by
  obtain ⟨f, hcall⟩ := h.begun
  have htidy := hback.sound.tidy
  rw [hback.shared] at htidy
  refine ⟨f, hback, hback.holder_of_rebuild hcall h.unstaged, .inr hcall, ?_⟩
  refine Program.amid_rebuild h.unstaged htidy.keys htidy.cellsDistinct fun e he => ?_
  exact htidy.bounded e.1 e.2 (htidy.keys.find?_of_mem he)

/-- A slot that is not absent outlasts the rest of the rebuild, if it is a tombstone, or if no other
thread puts anything else into its cell. -/
theorem Rebuilds.slot_kept {ρ₁ ρ₂ : List ThreadId} (h : m.Rebuilds order t (ρ₁ ++ ρ₂))
    (hback : m.Backed order w) {c : CellId}
    (hc : ((m.sharedAt order ρ₁).slot c).content ≠ .absent)
    (hspared : (m.sharedAt order ρ₁).tombstoned c = true ∨
      ∀ e ∈ (m.follow order ρ₁).installs order ρ₂, e.cell = c → e.thread = t) :
    (m.sharedAt order (ρ₁ ++ ρ₂)).slot c = (m.sharedAt order ρ₁).slot c := by
  obtain ⟨f, hstart⟩ := h.sheltered hback
  obtain ⟨hfirst, hrest⟩ := (occupied_append order t m _ ρ₁ ρ₂).1 h.occupied
  obtain ⟨w₁, hbetween, -⟩ := hstart.follow (fun _ _ _ _ hd hs => hd.intact hs) hfirst
  obtain ⟨w₂, -, hslot⟩ := hbetween.follow (fun _ _ _ _ hd hs => hd.intact hs) hrest
  rw [sharedAt_append]
  exact hslot c hc hspared

/-- Whatever the other threads do, the snapshot is divided. -/
theorem Rebuilds.partitions (h : m.Rebuilds order t τ) (hback : m.Backed order w) :
    m.Partitions order t τ := by
  obtain ⟨f, hstart⟩ := h.sheltered hback
  have hkeys : m.shared.snapshot.table.KeysDistinct := hback.shared ▸ hback.sound.tidy.keys
  obtain ⟨w', hend, -⟩ := hstart.follow (fun _ _ _ _ hd hs => hd.intact hs) h.occupied
  have hdivided := hend.amid
  rw [h.ended, List.nil_append] at hdivided
  have hdivided : m.shared.snapshot.Divided (m.sharedAt order τ)
      (gather order t Program.logs m (Map.rebuild m.shared.snapshot) τ) := hdivided
  refine ⟨hdivided.current, ?_, ?_, hdivided.counted, ?_⟩
  · intro key c hc
    rw [hdivided.find?_eq hkeys hc]
    cases (m.sharedAt order τ).tombstoned c with
    | true => exact .inl ⟨rfl, rfl⟩
    | false => exact .inr ⟨rfl, rfl⟩
  · exact fun key c hc => (hdivided.source hkeys hc).1
  · rintro ρ₁ ρ₂ c rfl hdead
    refine h.slot_kept hback (fun habsent => ?_) (.inl hdead)
    rw [Shared.tombstoned, habsent] at hdead
    cases hdead

omit [BEq V] [EquivBEq K] in
/-- No cell is taken away. -/
theorem size_le_follow (order : Enumeration K) (m : Machine K V α) (σ : List ThreadId) :
    m.shared.cells.size ≤ (m.sharedAt order σ).cells.size := by
  induction σ generalizing m with
  | nil => exact Nat.le_refl _
  | cons u σ ih =>
      refine Nat.le_trans ?_ (ih (m.step order u))
      rcases m.step_cases order u with ⟨hsame, -⟩ | ⟨p, p', -, hstep, -⟩
      · rw [hsame]
      · exact (Program.step_logged none hstep).1

variable {σ : List ThreadId}

omit [EquivBEq K] in
/-- The last step of a write, which the answer tells about, puts the value into the cell or
nothing. -/
theorem Reports.installs {c : CellId} {x : Cell.Access V} {answer : x.Result}
    {σ₁ σ₂ ρ₁ ρ₂ : List ThreadId} (h : m.Reports order σ τ u c x answer σ₁ σ₂ ρ₁ ρ₂)
    (hback : (m.follow order σ).Backed order w) (hx : ¬x.Guarded) {new : Handle V}
    (hnew : x.candidate? = some new) {key : K}
    (hkey : (m.sharedAt order σ).snapshot.find? key = some c) :
    (x.Wrote answer → (m.follow order (σ ++ ρ₁)).installed u = [⟨u, c, new.slot⟩]) ∧
      (¬x.Wrote answer →
        ∀ e ∈ (m.follow order σ₁).installs order (σ₂ ++ [u]), e.thread ≠ u) := by
  have hlt : c < (m.sharedAt order σ).cells.size := by
    have htidy := hback.sound.tidy
    rw [hback.shared] at htidy
    exact htidy.bounded key c hkey
  have hwhen : (m.follow order σ₁).follow order σ₂ = m.follow order (σ ++ ρ₁) := by
    rw [← follow_append, h.before]
  have hlater : c < ((m.follow order σ₁).sharedAt order σ₂).cells.size := by
    rw [sharedAt, hwhen, follow_append]
    exact Nat.lt_of_lt_of_le hlt (size_le_follow order (m.follow order σ) ρ₁)
  have hvouches := h.answers.vouches (x.onCells c) (x.vouches hx hnew c) hlater
  rwa [hwhen] at hvouches

/-- No write is lost. -/
theorem Rebuilds.keepsWrites (h : (m.follow order σ).Rebuilds order t τ)
    (hback : (m.follow order σ).Backed order w) : m.KeepsWrites order t σ τ where
  held := by
    intro u c x answer σ₁ σ₂ ρ₁ ρ₂ key new hreports hx hnew hkey hwrote hnone
    have hput := (hreports.installs hback hx hnew hkey).1 hwrote
    obtain rfl := hreports.during
    have hsplit : ρ₁ ++ u :: ρ₂ = (ρ₁ ++ [u]) ++ ρ₂ := by rw [List.append_assoc]; rfl
    rw [hsplit] at h ⊢
    rw [List.append_assoc, follow_append] at hnone
    have hwritten : ((m.follow order σ).sharedAt order (ρ₁ ++ [u])).slot c = new.slot := by
      rw [sharedAt_append]
      show (((m.follow order σ).follow order ρ₁).step order u).shared.slot c = _
      rw [← follow_append, slot_step, hput]
      exact if_pos rfl
    -- from then on the slot is there, because it is not absent
    have hend : (m.sharedAt order (σ ++ (ρ₁ ++ [u] ++ ρ₂))).slot c = new.slot := by
      rw [sharedAt_append]
      refine (h.slot_kept hback ?_ (.inr hnone)).trans hwritten
      rw [hwritten]
      exact fun habsent => by cases habsent
    have hlive : (m.sharedAt order (σ ++ (ρ₁ ++ [u] ++ ρ₂))).tombstoned c = false := by
      rw [Shared.tombstoned, hend]
      rfl
    have hpart := h.partitions hback
    refine ⟨hend, hlive, ?_⟩
    rw [sharedAt_append] at hlive ⊢
    rcases hpart.split key c hkey with ⟨hdead, -⟩ | ⟨-, hstaged⟩
    · exact absurd (hlive.symm.trans hdead) Bool.false_ne_true
    · exact hstaged
  refused := by
    intro u c x answer σ₁ σ₂ ρ₁ ρ₂ key new hreports hx hnew hkey hnot
    exact (hreports.installs hback hx hnew hkey).2 hnot

/-! ## Clients -/

/-- In a run of clients, a rebuild divides the snapshot whatever the other threads do meanwhile:
each entry is staged, or its cell is tombstoned, and both are counted. A write that is reported
meanwhile is still there, in a cell that is staged, unless it was overwritten or deleted. -/
theorem ofClients_partitions (order : Enumeration K) (clients : List (Client K V ε α))
    (σ τ : List ThreadId) (t : ThreadId)
    (h : ((ofClients .initial clients).follow order σ).Rebuilds order t τ) :
    ((ofClients .initial clients).follow order σ).Partitions order t τ ∧
      (ofClients .initial clients).KeepsWrites order t σ τ := by
  obtain ⟨w, hback, -⟩ := (backed_initial order clients).follow σ
  exact ⟨h.partitions hback, h.keepsWrites hback⟩

/-- Two keys were stored, promoted and deleted, and a third one is about to be stored. -/
def refilling : List (Client Nat Nat Unit Unit) :=
  [.extend [(0, 5), (1, 6)] (.request (.load 0) fun _ => .request (.load 1) fun _ =>
      .request (.delete 0) fun _ => .request (.delete 1) fun _ =>
      .request (.store 2 7) fun _ => .done ()),
    .request (.swap 0 9) fun _ => .done ()]

set_option maxRecDepth 2000 in
/-- Thread 0 has come to its rebuild, and goes on with something. -/
theorem calls_refilling : ∃ f, ((ofClients .initial refilling).follow .insertion
    (List.replicate 52 0)).threads[0]? =
      some (Map.rebuild ((ofClients .initial refilling).follow .insertion
        (List.replicate 52 0)).shared.snapshot >>= f) :=
  thread_of_begins (.within (.within (.within (.within (.within (.within (.within (.first _)
    _) _) _) _) _) _) _) rfl

set_option maxRecDepth 2000 in
/-- In the course of the rebuild, thread 1 is answered that it has put its value into the cell of
the first key. -/
theorem reports_refilling : (ofClients .initial refilling).Reports .insertion (List.replicate 52 0)
    [0, 0, 0, 0, 1, 1, 1, 1, 0, 0, 0, 0, 0, 0] 1 0 (.trySwap ⟨7, 9⟩) (some none)
    (List.replicate 52 0 ++ [0, 0, 0, 0, 1, 1]) [1] [0, 0, 0, 0, 1, 1, 1] [0, 0, 0, 0, 0, 0] where
  before := rfl
  during := rfl
  answers := by
    refine ⟨?_, ?_, ?_⟩
    · exact thread_of_begins (.within (.within (.within (.within (.first _) _) _) _) _) rfl
    · have hpending : (remains .insertion 1 ((ofClients .initial refilling).follow .insertion
          (List.replicate 52 0 ++ [0, 0, 0, 0, 1, 1])) ((Cell.Access.trySwap ⟨7, 9⟩).program 0)
            [1]).result? = none := by decide +kernel
      intro z hz
      rw [hz] at hpending
      cases hpending
    · exact Program.eq_done_of_result? (by decide +kernel)

/-- Thread 1 writes the first key between the rebuild's look at its cell and the attempt to bury
that. So the first key is staged, and the second one is left out. -/
theorem ofClients_partitions_refilling :
    ((ofClients .initial refilling).follow .insertion (List.replicate 52 0)).Rebuilds .insertion 0
        [0, 0, 0, 0, 1, 1, 1, 1, 0, 0, 0, 0, 0, 0] ∧
      gather .insertion 0 Program.logs
        ((ofClients .initial refilling).follow .insertion (List.replicate 52 0))
        (Map.rebuild ((ofClients .initial refilling).follow .insertion
          (List.replicate 52 0)).shared.snapshot)
        [0, 0, 0, 0, 1, 1, 1, 1, 0, 0, 0, 0, 0, 0] = [.rebuilt 1 1] ∧
      (((ofClients .initial refilling).sharedAt .insertion (List.replicate 52 0 ++
          [0, 0, 0, 0, 1, 1, 1, 1, 0, 0, 0, 0, 0, 0])).slot 0 = (Handle.mk 7 9).slot ∧
        ((ofClients .initial refilling).sharedAt .insertion (List.replicate 52 0 ++
          [0, 0, 0, 0, 1, 1, 1, 1, 0, 0, 0, 0, 0, 0])).staging.find? 0 = some 0) ∧
      ((ofClients .initial refilling).follow .insertion (List.replicate 52 0)).Partitions .insertion 0
        [0, 0, 0, 0, 1, 1, 1, 1, 0, 0, 0, 0, 0, 0] ∧
      (ofClients .initial refilling).KeepsWrites .insertion 0 (List.replicate 52 0)
        [0, 0, 0, 0, 1, 1, 1, 1, 0, 0, 0, 0, 0, 0] := by
  have hrebuilds : ((ofClients .initial refilling).follow .insertion
      (List.replicate 52 0)).Rebuilds .insertion 0 [0, 0, 0, 0, 1, 1, 1, 1, 0, 0, 0, 0, 0, 0] := by
    refine ⟨calls_refilling, by decide +kernel, ?_, ?_⟩
    · exact occupied_concat (τ := [0, 0, 0, 0, 1, 1, 1, 1, 0, 0, 0, 0, 0]) (by decide +kernel) 0
    · exact Program.eq_done_of_result? (by decide +kernel)
  obtain ⟨hpartitions, hkeeps⟩ := ofClients_partitions .insertion refilling (List.replicate 52 0)
    [0, 0, 0, 0, 1, 1, 1, 1, 0, 0, 0, 0, 0, 0] 0 hrebuilds
  -- the answer of thread 1 tells what its cell holds in the end
  obtain ⟨hslot, -, hstaged⟩ := hkeeps.held 1 0 (.trySwap ⟨7, 9⟩) (some none) _ _ _ _ 0 ⟨7, 9⟩
    reports_refilling (fun h => h) rfl (by decide +kernel) rfl (by decide +kernel)
  exact ⟨hrebuilds, by decide +kernel, ⟨hslot, hstaged⟩, hpartitions, hkeeps⟩

end Machine

end ConcurrentMap
