import ConcurrentMap.Proofs.Custody.Steps
import Mathlib.Data.List.Induction

/-!
# Threads that meet their expectations

A run of a `Crowd` has an account: whatever the steps of its threads post, the newest posting first
(`Crowd.account`). The scene after a run is its shared state with this account and the handles that
have been in a cell at some time (`Crowd.scene`).

`Crowd.Heeded` is the invariant of a run: every thread that is busy heeds the expectations to the
end of its errand. `Crowd.Heeded.turn` is its step; there the other threads rely on the invariant of
all runs, `Crowd.Backed`.
-/

namespace ConcurrentMap

variable {K V : Type}

/-! ## Scenes of a run -/

/-- The caller and the request, if the sighting is that the call with this name is made. -/
def Sighting.invoked? (id : CallId) : Sighting K V → Option (ThreadId × Request K V)
  | .call (.invoked id' t r) => if id' = id then some (t, r) else none
  | .call (.answered _ _) => none
  | .departed _ => none
  | .arrived _ _ => none

/-- The caller and the request of the call with this name. -/
def Crowd.invoked? (S : Crowd K V) (id : CallId) : Option (ThreadId × Request K V) :=
  S.history.findSome? (Sighting.invoked? id)

namespace Crowd

/-- What a turn enters into the account. -/
def posted (S : Crowd K V) : Move K V → Account
  | .step t => ((S.running t).map (Errand.postings S.invoked?)).getD []
  | .invoke _ _ => []
  | .depart _ => []
  | .resume _ _ _ => []

variable [BEq K] [BEq V] (order : Enumeration K)

/-- All turns, one after the other, and what they enter into the account. -/
def audit (turns : List (Move K V)) : Crowd K V × Account :=
  turns.foldl (fun r x => (r.1.turn order x, r.1.posted x ++ r.2)) (start, [])

/-- What a run enters into the account, the newest posting first. -/
def account (turns : List (Move K V)) : Account := (audit order turns).2

/-- The scene after a run: a handle has been in a cell if it was in one after some of the turns. -/
def scene (turns : List (Move K V)) : Scene K V where
  shared := (run order turns).shared
  account := account order turns
  shown h := ∃ earlier, earlier <+: turns ∧ (run order earlier).shared.Shows h

/-- The last turn is taken after all others. -/
theorem run_concat (turns : List (Move K V)) (x : Move K V) :
    run order (turns ++ [x]) = (run order turns).turn order x := by
  rw [run, List.foldl_concat]
  rfl

/-- The account is kept beside the run, and makes no difference to it. -/
theorem fst_audit (turns : List (Move K V)) : (audit order turns).1 = run order turns :=
  (List.foldl_hom Prod.fst fun _ _ => rfl).symm

/-- The last turn is entered on top of the account. -/
theorem account_concat (turns : List (Move K V)) (x : Move K V) :
    account order (turns ++ [x]) = (run order turns).posted x ++ account order turns := by
  rw [account, audit, List.foldl_concat]
  show (audit order turns).1.posted x ++ _ = _
  rw [fst_audit]
  rfl

/-- One more turn makes the scene after it. -/
theorem scene_concat (turns : List (Move K V)) (x : Move K V) :
    scene order (turns ++ [x]) = (scene order turns).after ((run order turns).posted x)
      ((run order turns).turn order x).shared := by
  have hshown : ∀ h, (scene order (turns ++ [x])).shown h ↔
      (scene order turns).shown h ∨ ((run order turns).turn order x).shared.Shows h := by
    intro h
    rw [← run_concat]
    -- a handle was shown by one of the earlier turns or is shown by the last one
    constructor
    · rintro ⟨earlier, hpre, hshows⟩
      rcases List.prefix_concat_iff.1 hpre with rfl | hpre
      · exact .inr hshows
      · exact .inl ⟨earlier, hpre, hshows⟩
    · rintro (⟨earlier, hpre, hshows⟩ | hshows)
      · exact ⟨earlier, hpre.trans (List.prefix_append _ _), hshows⟩
      · exact ⟨_, List.prefix_rfl, hshows⟩
  have hshared : (run order (turns ++ [x])).shared = ((run order turns).turn order x).shared :=
    congrArg Crowd.shared (run_concat order turns x)
  rw [scene, account_concat, hshared]
  exact congrArg (Scene.mk _ _) (funext fun h => propext (hshown h))

end Crowd

/-! ## The invariant -/

variable [BEq K] {order : Enumeration K} {t u : ThreadId} {σ σ' : Scene K V} {S : Crowd K V}
  {x x' : Errand K V}

namespace Crowd

variable {posted : Account}

omit [BEq K] in
/-- What is seen later does not change who made a call. -/
theorem invoked?_see (S : Crowd K V) (y : Sighting K V) (id : CallId) :
    (S.see y).invoked? id = (S.invoked? id).or (y.invoked? id) := by
  rw [invoked?, see, List.findSome?_append]
  simp [invoked?]

omit [BEq K] in
/-- A call that was made stays made. -/
theorem invoked?_see_of_some {y : Sighting K V} {id : CallId} {c : ThreadId × Request K V}
    (h : S.invoked? id = some c) : (S.see y).invoked? id = some c := by
  rw [invoked?_see, h]
  rfl

/-- What holds of the shared state, and of what an observer has seen. -/
structure Observed (S : Crowd K V) (σ : Scene K V) : Prop where
  shared : σ.shared = S.shared
  valid : σ.Valid
  audited : σ.account.Audited
  logged : σ.account.events = σ.shared.log
  missed : ∀ id, .miss id ∈ σ.account → id < S.made
  uncalled : ∀ id, S.made ≤ id → S.invoked? id = none
  promoted : ∀ entries misses, .event (.promoted entries misses .traversal) ∈ σ.account →
    0 < S.begun
  waiting : ∀ id next, S.stage id = .waiting next → σ.Awaits next
  answered : ∀ id answer, .call (.answered id answer) ∈ S.history → σ.Hands answer.handle?
  arrived : ∀ id report, .arrived id report ∈ S.history → σ.Toured report.visited

/-- Moreover, each thread heeds the expectations. -/
structure Heeded (order : Enumeration K) (S : Crowd K V) (σ : Scene K V) : Prop extends
    S.Observed σ where
  running : ∀ t x, S.running t = some x → x.Heeds order t S.invoked? σ

namespace Observed

/-- A step is taken. -/
theorem proceeds (h : S.Observed σ) {s' : Shared K V}
    (hp : σ.Proceeds t posted (σ.after posted s')) (hmiss : ∀ id, .miss id ∈ posted → id < S.made)
    (hprom : ∀ entries misses, .event (.promoted entries misses .traversal) ∈ posted →
      0 < S.begun) :
    ({ S with shared := s' } : Crowd K V).Observed (σ.after posted s') where
  shared := rfl
  valid := hp.valid
  audited := hp.audited h.audited
  logged := hp.logged h.logged
  missed id hmem := (List.mem_append.1 hmem).elim (hmiss id) (h.missed id)
  uncalled := h.uncalled
  promoted entries misses hmem :=
    (List.mem_append.1 hmem).elim (hprom entries misses) (h.promoted entries misses)
  waiting id next hid := (h.waiting id next hid).mono fun _ => .inl
  answered id answer hmem := (h.answered id answer hmem).mono fun _ => .inl
  arrived id report hmem p hp := .inl (h.arrived id report hmem p hp)

/-- To give a thread something to do shows nothing to an observer. -/
theorem assign (h : S.Observed σ) (t : ThreadId) (e : Option (Errand K V)) :
    (S.assign t e).Observed σ := { h with }

/-- A traversal that is to wait has shown only what was in a cell. -/
theorem setStage (h : S.Observed σ) (id : TourId) {y : Stage K V}
    (hy : ∀ next, y = .waiting next → σ.Awaits next) : (S.setStage id y).Observed σ := by
  refine { h with waiting := fun other next hother => ?_ }
  simp only [Crowd.setStage, Function.update_apply] at hother
  split at hother
  · exact hy next hother
  · exact h.waiting other next hother

/-- Something other than a new call is seen. -/
theorem see (h : S.Observed σ) {y : Sighting K V} (hcall : ∀ id, y.invoked? id = none)
    (hanswered : ∀ id answer, y = .call (.answered id answer) → σ.Hands answer.handle?)
    (harrived : ∀ id report, y = .arrived id report → σ.Toured report.visited) :
    (S.see y).Observed σ := by
  refine { h with uncalled := fun id hid => ?_, answered := fun id answer hmem => ?_,
                  arrived := fun id report hmem => ?_ }
  · rw [invoked?_see, h.uncalled id hid, hcall]
    rfl
  · rcases List.mem_append.1 hmem with hmem | hmem
    · exact h.answered id answer hmem
    · exact hanswered id answer (List.mem_singleton.1 hmem).symm
  · rcases List.mem_append.1 hmem with hmem | hmem
    · exact h.arrived id report hmem
    · exact harrived id report (List.mem_singleton.1 hmem).symm

/-- A new call gets a name of its own. -/
theorem invoke (h : S.Observed σ) (t : ThreadId) (r : Request K V) :
    ({ S with made := S.made + 1 }.see (.call (.invoked S.made t r))).Observed σ := by
  refine { h with missed := fun id hmem => Nat.lt_succ_of_lt (h.missed id hmem),
                  uncalled := fun id hid => ?_, answered := fun id answer hmem => ?_,
                  arrived := fun id report hmem => ?_ }
  · have hne : S.made ≠ id := Nat.ne_of_lt hid
    rw [invoked?_see]
    show (S.invoked? id).or (if S.made = id then some (t, r) else none) = none
    rw [h.uncalled id (Nat.le_of_succ_le hid), if_neg hne]
    rfl
  · exact h.answered id answer (by simpa [Crowd.see] using hmem)
  · exact h.arrived id report (by simpa [Crowd.see] using hmem)

end Observed

/-- A thread goes on with its errand, which heeds the expectations. -/
theorem Observed.proceed (h : S.Observed σ)
    (hothers : ∀ u y, u ≠ t → S.running u = some y → y.Heeds order u S.invoked? σ)
    (hx : x.Heeds order t S.invoked? σ) : (S.proceed t x).Heeded order σ := by
  have hassign : ∀ (e : Option (Errand K V)), (∀ y, e = some y → y.Heeds order t S.invoked? σ) →
      ∀ u y, (S.assign t e).running u = some y → y.Heeds order u S.invoked? σ := by
    intro e he u y hy
    -- the thread itself goes on with what it was given, and the others are where they were
    by_cases hu : u = t
    · subst hu
      exact he y (by simpa [Crowd.assign] using hy)
    · exact hothers u y hu (by simpa [Crowd.assign, Function.update_of_ne hu] using hy)
  have hfree := hassign none (by simp)
  cases x with
  | call id p =>
      simp only [Crowd.proceed]
      split
      · exact ⟨h.assign t _, hassign _ fun y hy => Option.some.inj hy ▸ hx⟩
      -- a call that is over is seen with its answer
      · next answer hres =>
        obtain rfl := Program.eq_done_of_result? hres
        obtain ⟨r, -, hheld⟩ := hx
        refine ⟨(h.assign t none).see (fun _ => rfl) ?_ (by simp), fun u y hy =>
          (hfree u y hy).congr fun _ _ => invoked?_see_of_some⟩
        rintro id' answer' heq
        obtain ⟨rfl, rfl⟩ : id = id' ∧ answer = answer' := by simpa using heq
        exact hheld
  | tour id p =>
      simp only [Crowd.proceed]
      split
      · exact ⟨h.assign t _, hassign _ fun y hy => Option.some.inj hy ▸ hx⟩
      -- a leg that is over has shown an entry, or all of them
      · next key held next hres =>
        obtain rfl := Program.eq_done_of_result? hres
        obtain ⟨-, hawaits⟩ := hx
        exact ⟨(h.assign t none).setStage id fun next' heq => Stage.waiting.inj heq ▸ hawaits,
          hfree⟩
      · next report hres =>
        obtain rfl := Program.eq_done_of_result? hres
        refine ⟨((h.assign t none).setStage id (by simp)).see (fun _ => rfl) (by simp) ?_,
          fun u y hy => (hfree u y hy).congr fun _ _ => invoked?_see_of_some⟩
        rintro id' report' heq
        obtain ⟨rfl, rfl⟩ := Sighting.arrived.inj heq
        exact hx

/-- The world of a run has its shared state. -/
theorem Backed.shared [BEq V] {w : World K V} (h : S.Backed order w) : w.shared = S.shared := by
  obtain ⟨start, log, hdoc, -⟩ := h
  exact hdoc.shared

/-- The step of a thread is one that others can rely on. -/
theorem Backed.guarantee [BEq V] {w : World K V} (h : S.Backed order w) (hx : S.running t = some x)
    {s' : Shared K V} (hstep : x.step order t S.shared = some (x', s')) :
    ∃ w', w'.shared = s' ∧ w'.Sound ∧ w.Guarantee t w' := by
  obtain ⟨start, log, hdoc, hthreads⟩ := h
  have hcarried := hthreads t
  rw [hx] at hcarried
  rw [← hdoc.shared] at hstep
  obtain ⟨w', hs', hw', hg, -⟩ := hcarried.step hdoc.sound hstep
  exact ⟨w', hs', hw', hg⟩

/-- Nobody is on a traversal that has not begun. -/
theorem Backed.begun_pos [BEq V] {w : World K V} (h : S.Backed order w) {id : TourId}
    {p : Program K V (Leg K V)} (hx : S.running t = some (.tour id p)) : 0 < S.begun := by
  obtain ⟨start, log, hdoc, hthreads⟩ := h
  have hcarried := hthreads t
  rw [hx] at hcarried
  have hstage : S.stage id ≠ .unknown := by simp [hcarried.1]
  exact Nat.zero_lt_of_lt (hdoc.lt_begun hstage)

namespace Heeded

/-- Nothing happens. -/
theorem idle (h : S.Heeded order σ) : S.Heeded order (σ.after [] σ.shared) where
  toObserved := by
    have hidle := h.toObserved.proceeds (.refl h.valid 0) (by simp) (by simp)
    rw [h.shared] at hidle ⊢
    exact hidle
  running t x hx := (h.running t x hx).endures (Scene.Proceeds.endures_self h.valid t _)

variable [BEq V]

/-- A thread that is free may make any call. -/
theorem invoke [EquivBEq K] (h : S.Heeded order σ) (r : Request K V) (ht : S.running t = none) :
    (S.turn order (.invoke t r)).Heeded order σ := by
  have hnew : S.invoked? S.made = none := h.uncalled S.made (Nat.le_refl _)
  simp only [turn, ht]
  refine (h.toObserved.invoke t r).proceed
    (fun u y _ hy => (h.running u y hy).congr fun _ _ => invoked?_see_of_some)
    ⟨r, ?_, Program.heeds_request fun id r' hrole hmem => ?_⟩
  · rw [invoked?_see]
    show (S.invoked? S.made).or (if S.made = S.made then some (t, r) else none) = some (t, r)
    simp [hnew]
  · obtain ⟨rfl, -⟩ : S.made = id ∧ r = r' := by simpa using hrole
    exact Nat.lt_irrefl _ (h.missed _ hmem)

/-- A thread that is free may begin a traversal. -/
theorem depart (h : S.Heeded order σ) (ht : S.running t = none) :
    (S.turn order (.depart t)).Heeded order σ := by
  have hbegun : ({ S with begun := S.begun + 1 } : Crowd K V).Observed σ :=
    { h.toObserved with promoted := fun _ _ _ => Nat.succ_pos _ }
  simp only [turn, ht]
  exact ((hbegun.setStage S.begun (by simp)).see (fun _ => rfl) (by simp) (by simp)).proceed
    (fun u y _ hy => (h.running u y hy).congr fun _ _ => invoked?_see_of_some)
    Program.heeds_traversal

/-- A traversal that waits may be resumed by any thread that is free. -/
theorem resume (h : S.Heeded order σ) {id : TourId} {next : Bool → Tour K V (Report K V)}
    (ht : S.running t = none) (hid : S.stage id = .waiting next) (goOn : Bool) :
    (S.turn order (.resume t id goOn)).Heeded order σ := by
  simp only [turn, ht, hid]
  exact (h.toObserved.setStage id (by simp)).proceed (fun u y _ hy => h.running u y hy)
    (Program.heeds_onward (h.waiting id next hid) goOn)

/-- A thread takes its next step, and the others may count on it. -/
theorem step {w : World K V} (h : S.Heeded order σ) (hback : S.Backed order w) (t : ThreadId) :
    (S.turn order (.step t)).Heeded order
      (σ.after (S.posted (.step t)) (S.turn order (.step t)).shared) := by
  simp only [turn, posted]
  cases hx : S.running t with
  | none =>
      have hidle := h.idle
      rwa [h.shared] at hidle
  | some x =>
      simp only [Option.map_some, Option.getD_some]
      cases hstep : x.step order t S.shared with
      | none =>
          have hidle := h.idle
          rw [h.shared] at hidle
          rwa [Errand.postings_of_step (h.shared ▸ hstep)]
      | some r =>
          obtain ⟨x', s'⟩ := r
          obtain ⟨w', rfl, hw', hg⟩ := hback.guarantee hx hstep
          have hheeds := h.running t x hx
          rw [← h.shared] at hstep
          have hproper := hheeds.proper h.valid
          have hp := hproper.proceeds h.valid (hback.shared.trans h.shared.symm) hg hw' hstep
          have hobs := h.toObserved.proceeds hp
            (fun id hmem => by
              obtain ⟨r, hr⟩ := hheeds.invoked_of_miss hmem
              by_contra hle
              simp [h.uncalled id (Nat.le_of_not_lt hle)] at hr)
            (fun entries misses hmem => by
              obtain ⟨id, p, rfl⟩ := hheeds.tour_of_traversal h.valid hmem
              exact hback.begun_pos hx)
          have hrest := hobs.proceed (fun u y hu hy => ?_) (hheeds.step h.valid hstep)
          · exact hrest.shared ▸ hrest
          · -- the two threads are busy with different calls
            refine (h.running u y hy).endures (hp.others u _ hu fun id r hr hmem => ?_)
            obtain ⟨r', hr'⟩ := hheeds.invoked_of_miss hmem
            have hown := (h.running u y hy).invoked_of_role hr
            rw [hown, Option.some.injEq, Prod.mk.injEq] at hr'
            exact hu hr'.1

/-- Every turn keeps all threads to their expectations. -/
theorem turn [EquivBEq K] {w : World K V} (h : S.Heeded order σ) (hback : S.Backed order w)
    (m : Move K V) :
    (S.turn order m).Heeded order (σ.after (S.posted m) (S.turn order m).shared) := by
  -- without a step nothing happens to the scene
  have hidle : (S.turn order m).Heeded order (σ.after [] σ.shared) → S.posted m = [] →
      (S.turn order m).Heeded order (σ.after (S.posted m) (S.turn order m).shared) := by
    intro hnext hposted
    rw [hposted, ← hnext.shared]
    exact hnext
  cases m with
  | step t => exact h.step hback t
  | invoke t r =>
      cases ht : S.running t with
      | none => exact hidle (h.idle.invoke r ht) rfl
      | some e => exact hidle (by simpa only [Crowd.turn, ht] using h.idle) rfl
  | depart t =>
      cases ht : S.running t with
      | none => exact hidle (h.idle.depart ht) rfl
      | some e => exact hidle (by simpa only [Crowd.turn, ht] using h.idle) rfl
  | resume t id goOn =>
      cases ht : S.running t with
      | some e => exact hidle (by simpa only [Crowd.turn, ht] using h.idle) rfl
      | none =>
          cases hid : S.stage id with
          | waiting next => exact hidle (h.idle.resume ht hid goOn) rfl
          | unknown => exact hidle (by simpa only [Crowd.turn, ht, hid] using h.idle) rfl
          | travelling u => exact hidle (by simpa only [Crowd.turn, ht, hid] using h.idle) rfl
          | arrived report => exact hidle (by simpa only [Crowd.turn, ht, hid] using h.idle) rfl

end Heeded

variable [BEq V]

/-- Nobody is busy at first. -/
theorem heeded_start (order : Enumeration K) :
    (start : Crowd K V).Heeded order (scene order []) where
  shared := rfl
  valid :=
    { free := fun _ => ⟨.initial, .initial⟩
      bounded := by simp [scene, run, start, Shared.initial]
      shows := fun h hshows => ⟨[], List.prefix_rfl, hshows⟩ }
  audited := trivial
  logged := rfl
  missed := by simp [scene, account, audit]
  uncalled _ _ := rfl
  promoted := by simp [scene, account, audit]
  waiting := by simp [start]
  answered := by simp [start]
  arrived := by simp [start]
  running := by simp [start]

/-- Whatever the threads do, all their steps heed the expectations. -/
theorem run_heeded [EquivBEq K] (order : Enumeration K) (turns : List (Move K V)) :
    (run order turns).Heeded order (scene order turns) := by
  induction turns using List.reverseRecOn with
  | nil => exact heeded_start order
  | append_singleton turns m ih =>
      obtain ⟨w, hback⟩ := exists_backed_run order turns
      rw [run_concat, scene_concat]
      exact ih.turn hback m

end Crowd

end ConcurrentMap
