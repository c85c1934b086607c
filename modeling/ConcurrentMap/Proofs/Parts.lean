import ConcurrentMap.Proofs.Installations
import Mathlib.Data.List.Basic

/-!
# A part of what a thread does

A thread that has to do `p >>= f` is in the part `p` until that is done. What is left of the part
after the steps of a schedule is `Machine.remains`, and `Machine.gather` collects something from
each step that the thread takes in it. As long as the part is not done, the thread has to do what is
left of it and then `f` (`Machine.Inside`), so its steps are those of the part
(`Machine.Inside.turn`).
-/

namespace ConcurrentMap

variable {K V α β γ : Type}

namespace Program

/-- A sequence begins with its first part, and with whatever this one begins with. -/
inductive Begins (p : Program K V β) : {α : Type} → Program K V α → Prop where
  | first {α : Type} (f : β → Program K V α) : Begins p (p >>= f)
  | within {α γ : Type} {q : Program K V γ} (h : Begins p q) (f : γ → Program K V α) :
      Begins p (q >>= f)

/-- However deep the sequence is nested, there is something that comes after its beginning. -/
theorem Begins.exists_bind {p : Program K V β} {q : Program K V α} (h : p.Begins q) :
    ∃ f, q = p >>= f := by
  induction h with
  | first f => exact ⟨f, rfl⟩
  | within h f ih =>
      obtain ⟨g, rfl⟩ := ih
      exact ⟨fun x => g x >>= f, bind_assoc p g f⟩

variable {t : ThreadId} {s : Shared K V} {p : Program K V α}

/-- While the first part is not done, the next step puts in what that part puts in. -/
theorem installs_bind (hp : ∀ x, p ≠ .done x) (f : α → Program K V β) :
    (p >>= f).installs t s = p.installs t s := by
  cases p with
  | done x => exact absurd rfl (hp x)
  | act a next => rfl
  | retry u next => rfl

variable [BEq K] {order : Enumeration K}

/-- What is left after the next step, if there is one. -/
def next (order : Enumeration K) (t : ThreadId) (s : Shared K V) (p : Program K V α) :
    Program K V α := ((p.step order t s).map Prod.fst).getD p

theorem next_of_step {p' : Program K V α} {s' : Shared K V}
    (h : p.step order t s = some (p', s')) : p.next order t s = p' := by
  rw [next, h, Option.map_some, Option.getD_some]

/-- The first steps of a sequence are those of its first part. -/
theorem step_bind (hp : ∀ x, p ≠ .done x) (f : α → Program K V β) :
    (p >>= f).step order t s = (p.step order t s).map fun r => (r.1 >>= f, r.2) := by
  cases p with
  | done x => exact absurd rfl (hp x)
  | act a next => simp only [act_bind, step, Option.map_map, Function.comp_def]
  | retry u next =>
      simp only [retry_bind, step]
      split <;> rfl

end Program

namespace Machine

variable [BEq K] {order : Enumeration K} {t u : ThreadId} {m : Machine K V α} {p : Program K V β}
  {f : β → Program K V α} {τ : List ThreadId}

/-- What is left of the part `p` of thread `t` after the steps of a schedule. -/
def remains (order : Enumeration K) (t : ThreadId) :
    Machine K V α → Program K V β → List ThreadId → Program K V β
  | _, p, [] => p
  | m, p, u :: τ =>
    remains order t (m.step order u) (if u = t then p.next order t m.shared else p) τ

/-- What `list` lists of each step that thread `t` takes in the part `p`. -/
def gather (order : Enumeration K) (t : ThreadId) (list : Program K V β → Shared K V → List γ) :
    Machine K V α → Program K V β → List ThreadId → List γ
  | _, _, [] => []
  | m, p, u :: τ => (if u = t then list p m.shared else []) ++
      gather order t list (m.step order u) (if u = t then p.next order t m.shared else p) τ

/-- What is left of the part after a schedule is found by following its parts. -/
theorem remains_append (order : Enumeration K) (t : ThreadId) (m : Machine K V α)
    (p : Program K V β) (σ τ : List ThreadId) : remains order t m p (σ ++ τ) =
      remains order t (m.follow order σ) (remains order t m p σ) τ := by
  induction σ generalizing m p with
  | nil => rfl
  | cons u σ ih => exact ih (m.step order u) _

/-- A turn of the thread itself takes the next step of the part. -/
theorem remains_concat_self (order : Enumeration K) (t : ThreadId) (m : Machine K V α)
    (p : Program K V β) (σ : List ThreadId) : remains order t m p (σ ++ [t]) =
      (remains order t m p σ).next order t (m.follow order σ).shared := by
  rw [remains_append, remains, if_pos rfl, remains]

/-- A turn of another thread leaves the part as it is. -/
theorem remains_concat_of_ne (order : Enumeration K) (m : Machine K V α) (p : Program K V β)
    (σ : List ThreadId) (hut : u ≠ t) :
    remains order t m p (σ ++ [u]) = remains order t m p σ := by
  rw [remains_append, remains, if_neg hut, remains]

theorem remains_done (m : Machine K V α) (x : β) (τ : List ThreadId) :
    remains order t m (.done x : Program K V β) τ = .done x := by
  induction τ generalizing m with
  | nil => rfl
  | cons u τ ih =>
      rw [remains, Program.next, Program.step, Option.map_none, Option.getD_none, ite_self]
      exact ih (m.step order u)

/-- A part that is done has nothing more to list. -/
theorem gather_done {list : Program K V β → Shared K V → List γ} (m : Machine K V α)
    (hlist : ∀ x s, list (.done x) s = []) (x : β) (τ : List ThreadId) :
    gather order t list m (.done x) τ = [] := by
  induction τ generalizing m with
  | nil => rfl
  | cons u τ ih =>
      rw [gather, Program.next, Program.step, Option.map_none, Option.getD_none, ite_self, hlist,
        ite_self, List.nil_append]
      exact ih (m.step order u)

/-- The part `p` of thread `t` is not done before the last step of the schedule. -/
def Occupied (order : Enumeration K) (t : ThreadId) :
    Machine K V α → Program K V β → List ThreadId → Prop
  | _, _, [] => True
  | m, p, u :: τ => (∀ x, p ≠ .done x) ∧
      Occupied order t (m.step order u) (if u = t then p.next order t m.shared else p) τ

/-- The part is not done in a schedule if it is not done in either of its parts. -/
theorem occupied_append (order : Enumeration K) (t : ThreadId) (m : Machine K V α)
    (p : Program K V β) (σ τ : List ThreadId) : Occupied order t m p (σ ++ τ) ↔
      Occupied order t m p σ ∧ Occupied order t (m.follow order σ) (remains order t m p σ) τ := by
  induction σ generalizing m p with
  | nil => exact (true_and _).symm.to_iff
  | cons u σ ih =>
      rw [List.cons_append, Occupied, Occupied, ih, and_assoc]
      rfl

/-- A part that is not done has not been done before. -/
theorem occupied_concat (h : (remains order t m p τ).result? = none) (u : ThreadId) :
    Occupied order t m p (τ ++ [u]) := by
  induction τ generalizing m p with
  | nil =>
      refine ⟨?_, trivial⟩
      rintro x rfl
      cases h
  | cons v τ ih =>
      refine ⟨?_, ih h⟩
      rintro x rfl
      rw [remains_done] at h
      cases h

omit [BEq K] in
/-- If the program of thread `t` begins with `p`, then the thread has to do `p` and then
something. -/
theorem thread_of_begins {q : Program K V α} (h : p.Begins q) (ht : m.threads[t]? = some q) :
    ∃ f, m.threads[t]? = some (p >>= f) := by
  obtain ⟨f, rfl⟩ := h.exists_bind
  exact ⟨f, ht⟩

/-- Thread `t` has to do `p` and then `f`, or it is done with `p`. -/
def Inside (m : Machine K V α) (t : ThreadId) (p : Program K V β) (f : β → Program K V α) : Prop :=
  (∃ x, p = .done x) ∨ m.threads[t]? = some (p >>= f)

/-- In a turn of another thread the part stays as it is. -/
theorem Inside.other (h : m.Inside t p f) (hut : u ≠ t) : (m.step order u).Inside t p f := by
  refine h.imp_right fun hp => ?_
  rcases m.step_cases order u with ⟨hsame, -⟩ | ⟨q, q', -, -, hthreads⟩
  · rwa [hsame]
  · rwa [hthreads t, if_neg (Ne.symm hut)]

/-- A step of the part is the step of the thread. -/
theorem Inside.turn (h : m.Inside t p f) {p' : Program K V β} {s' : Shared K V}
    (hstep : p.step order t m.shared = some (p', s')) : (m.step order t).shared = s' ∧
      (m.step order t).Inside t p' f ∧ m.installed t = p.installs t m.shared := by
  have hp : ∀ x, p ≠ .done x := by
    rintro x rfl
    cases hstep
  have hthread := h.resolve_left fun ⟨x, hx⟩ => hp x hx
  have hwhole : (p >>= f).step order t m.shared = some (p' >>= f, s') := by
    rw [Program.step_bind hp, hstep, Option.map_some]
  obtain ⟨ht, -⟩ := Array.getElem?_eq_some_iff.1 hthread
  have hm := step_of_step hthread hwhole
  refine ⟨by rw [hm], .inr ?_, ?_⟩
  · rw [hm]
    exact Array.getElem?_setIfInBounds_self_of_lt ht
  · rw [installed, hthread]
    exact Program.installs_bind hp f

end Machine

end ConcurrentMap
