import ConcurrentMap.Proofs.Cells.Access
import ConcurrentMap.Proofs.Cells.Supplies
import ConcurrentMap.Proofs.Parts
import Mathlib.Data.List.Induction

/-!
# What the answer of a write says

A write that goes without the mutex tells by its answer whether it has put its value into the cell
(`Cell.Access.Wrote`). If it has, it did so in the very step that it was answered in; if not, it has
put nothing anywhere. `Program.vouches` says so along the program, and `Machine.Answers` of a thread
among others: between the value and the answer there is no moment at which somebody else could come.
-/

namespace ConcurrentMap

variable {K V α β : Type}

/-- The program ends with an answer of which `S` holds if and only if it puts `x` into cell `c`,
which it does in its last step, and nothing before. -/
def Program.vouches (c : CellId) (x : Slot V) (S : α → Prop) : Program K V α → Prop
  | .done y => ¬S y
  | .act a next => a.slot? = none ∧ ∀ r, (next r).vouches c x S
  | .retry u next => (u.cell = c ∧ u.candidate = x) ∧
      (∀ seen, ∃ y, next (.installed seen) = .done y ∧ S y) ∧
      ∀ found, (next (.refused found)).vouches c x S

namespace Program

variable {c : CellId} {x : Slot V} {S : α → Prop} {p : Program K V α}

/-- An action that puts nothing into a cell may come before. -/
theorem vouches_action {a : Action K V} {f : a.Response → Program K V α} (ha : a.slot? = none)
    (h : ∀ r, (f r).vouches c x S) : (a.program >>= f).vouches c x S := ⟨ha, h⟩

/-- A retried exchange vouches if its success is the last step and its refusal puts in nothing. -/
theorem vouches_update {seen : Slot V} {accepts : Content V → Bool} {f : Outcome V → Program K V α}
    (hinstalled : ∀ seen, ∃ y, f (.installed seen) = .done y ∧ S y)
    (hrefused : ∀ found, (f (.refused found)).vouches c x S) :
    (Update.program ⟨c, seen, x, accepts⟩ >>= f).vouches c x S := by
  unfold Update.program
  split
  · exact ⟨⟨rfl, rfl⟩, hinstalled, hrefused⟩
  · exact hrefused seen

/-- The answer may be put in other words. -/
theorem vouches_map {g : α → β} {S' : β → Prop} (h : p.vouches c x S) (hg : ∀ y, S' (g y) ↔ S y) :
    (p >>= fun y => .done (g y)).vouches c x S' := by
  induction p with
  | done y => exact fun hy => h ((hg y).1 hy)
  | act a next ih => exact ⟨h.1, fun r => ih r (h.2 r)⟩
  | retry u next ih =>
      refine ⟨h.1, fun seen => ?_, fun found => ih _ (h.2.2 found)⟩
      obtain ⟨y, hy, hS⟩ := h.2.1 seen
      refine ⟨g y, ?_, (hg y).2 hS⟩
      show (next (.installed seen) >>= fun y => .done (g y)) = _
      rw [hy]
      rfl

/-- An action without a slot puts nothing into a cell. -/
theorem installs_of_slot? {a : Action K V} (ha : a.slot? = none) (t : ThreadId) (s : Shared K V) :
    a.installs t s = [] := by
  cases a with
  | newCell y | exchange d y | compareExchange d seen y => cases ha
  | _ => rfl

/-- A step puts nothing into a cell, or it is the last one. -/
theorem vouches_step [BEq K] {order : Enumeration K} {t : ThreadId} {s s' : Shared K V}
    {p' : Program K V α} (h : p.vouches c x S) (hstep : p.step order t s = some (p', s')) :
    p.installs t s = [] ∧ p'.vouches c x S ∨
      (∃ y, p' = .done y ∧ S y) ∧ (c < s.cells.size → p.installs t s = [⟨t, c, x⟩]) := by
  cases p with
  | done y => cases hstep
  | act a next =>
      obtain ⟨r, -, rfl, -⟩ := of_step_act hstep
      exact .inl ⟨installs_of_slot? h.1 t s, h.2 r.1⟩
  | retry u next =>
      obtain ⟨⟨rfl, rfl⟩, hinstalled, hrefused⟩ := h
      rcases step_retry_cases hstep with ⟨hstamp, rfl, -⟩ | ⟨hstamp, -, hgoes⟩
      · exact .inr ⟨hinstalled u.seen, fun hlt => if_pos ⟨hstamp, hlt⟩⟩
      · have hnone : (retry u next).installs t s = [] := if_neg fun hsame => hstamp hsame.1
        refine .inl ⟨hnone, ?_⟩
        rcases hgoes with ⟨-, rfl⟩ | ⟨-, rfl⟩
        · exact ⟨⟨rfl, rfl⟩, hinstalled, hrefused⟩
        · exact hrefused _

end Program

open Program

/-! ## Writes without the mutex -/

namespace Cell.Access

/-- The answer says that the value was put into the cell. -/
def Wrote : (x : Access V) → x.Result → Prop
  | tryStore _, stored => stored = true
  | trySwap _, previous => previous.isSome = true
  | tryLoadOrStore _, answer => ∃ held, answer = some (held, false)
  | compareAndSwap _ _, swapped => swapped = true
  | _, _ => False

variable [BEq V]

/-- The writes that go without the mutex vouch for their values. -/
theorem vouches (x : Access V) (hx : ¬x.Guarded) {new : Handle V} (hnew : x.candidate? = some new)
    (c : CellId) : (x.program c : Program K V _).vouches c new.slot x.Wrote := by
  -- An overwrite answers the previous content exactly if it succeeded.
  have htrySwap : ∀ new : Handle V, (Cell.trySwap c new : Program K V _).vouches c new.slot
      fun previous => previous.isSome = true := by
    refine fun new => vouches_action rfl fun seen => vouches_update (fun seen => ?_) fun found => ?_
    · exact ⟨_, rfl, rfl⟩
    · exact Bool.false_ne_true
  cases x with
  -- Neither the guarded operations nor those without a value are concerned.
  | store _ | swap _ | loadOrStore _ | revive | bury => exact absurd trivial hx
  | load | remove | compareAndDelete _ => cases hnew
  | tryStore _ =>
      obtain rfl := Option.some.inj hnew
      exact vouches_map (htrySwap _) fun previous => Iff.rfl
  | trySwap _ =>
      obtain rfl := Option.some.inj hnew
      exact htrySwap _
  | tryLoadOrStore candidate =>
      obtain rfl := Option.some.inj hnew
      refine vouches_action rfl fun seen => vouches_update (fun seen => ?_) fun found => ?_
      · exact ⟨_, rfl, candidate, rfl⟩
      · rintro ⟨held, hheld⟩
        obtain ⟨other, -, hother⟩ := Option.map_eq_some_iff.1 hheld
        cases hother
  | compareAndSwap old new =>
      obtain rfl := Option.some.inj hnew
      refine vouches_action rfl fun seen => vouches_update (fun seen => ?_) fun found => ?_
      · exact ⟨_, rfl, rfl⟩
      · exact Bool.false_ne_true

end Cell.Access

/-! ## Among other threads -/

namespace Machine

variable [BEq K] {order : Enumeration K} {m : Machine K V α} {t : ThreadId} {p : Program K V β}
  {f : β → Program K V α} {c : CellId} {x : Slot V} {S : β → Prop} {y : β} {ρ : List ThreadId}

/-- Thread `t` has to do `p` as a part of something, and the step that it takes after the steps of
`ρ` is the last one of that part, which is answered with `y`. -/
structure Answers (order : Enumeration K) (m : Machine K V α) (t : ThreadId) (p : Program K V β)
    (y : β) (ρ : List ThreadId) : Prop where
  begun : ∃ f, m.threads[t]? = some (p >>= f)
  pending : ∀ z, remains order t m p ρ ≠ .done z
  answered : remains order t m p (ρ ++ [t]) = .done y

/-- Until its last step, the thread has put nothing into a cell. -/
theorem Inside.vouches (h : m.Inside t p f) (hcells : p.OnCells) (hp : p.vouches c x S)
    (hpending : ∀ z, remains order t m p ρ ≠ .done z) :
    (m.follow order ρ).Inside t (remains order t m p ρ) f ∧ (remains order t m p ρ).OnCells ∧
      (remains order t m p ρ).vouches c x S ∧ ∀ e ∈ m.installs order ρ, e.thread ≠ t := by
  -- By induction on the end of the schedule.
  induction ρ using List.reverseRecOn with
  | nil => exact ⟨h, hcells, hp, fun e he => absurd he List.not_mem_nil⟩
  | append_singleton ρ u ih =>
      have hbefore : ∀ z, remains order t m p ρ ≠ .done z := by
        intro z hz
        refine hpending z ?_
        rw [remains_append, hz]
        exact remains_done _ z [u]
      obtain ⟨hinside, hcells, hvouches, hnothing⟩ := ih hbefore
      rw [follow_append, installs_concat]
      by_cases hut : u = t
      · subst hut
        rcases hcells.exists_step order u (m.follow order ρ).shared with ⟨z, hz⟩ | ⟨p', s', hstep⟩
        · exact absurd hz (hbefore z)
        · rw [remains_concat_self, Program.next_of_step hstep] at hpending ⊢
          obtain ⟨-, hinside', hins⟩ := hinside.turn hstep
          -- A step of the thread that puts something into a cell would be its last one.
          rcases vouches_step hvouches hstep with ⟨hnone, hvouches'⟩ | ⟨⟨z, hz, -⟩, -⟩
          · refine ⟨hinside', (hcells.step hstep).1, hvouches', fun e he => ?_⟩
            rw [hins, hnone, List.append_nil] at he
            exact hnothing e he
          · exact absurd hz (hpending z)
      -- What another thread puts into a cell is another thread's.
      · rw [remains_concat_of_ne order m p ρ hut]
        refine ⟨hinside.other hut, hcells, hvouches, fun e he => ?_⟩
        rcases List.mem_append.1 he with he | he
        · exact hnothing e he
        · rwa [thread_of_mem_installed he]

/-- The last step: what is answered with `S` has just been put into the cell, and otherwise nothing
has been put into any cell. -/
theorem Answers.vouches (h : m.Answers order t p y ρ) (hcells : p.OnCells) (hp : p.vouches c x S)
    (hlt : c < (m.sharedAt order ρ).cells.size) :
    (S y → (m.follow order ρ).installed t = [⟨t, c, x⟩]) ∧
      (¬S y → ∀ e ∈ m.installs order (ρ ++ [t]), e.thread ≠ t) := by
  obtain ⟨f, hbegun⟩ := h.begun
  have hbegun : m.Inside t p f := .inr hbegun
  obtain ⟨hinside, hcells, hvouches, hnothing⟩ := hbegun.vouches hcells hp h.pending
  rcases hcells.exists_step order t (m.follow order ρ).shared with ⟨z, hz⟩ | ⟨p', s', hstep⟩
  · exact absurd hz (h.pending z)
  · have hnext : p' = .done y := by
      rw [← h.answered, remains_concat_self, Program.next_of_step hstep]
    obtain ⟨-, -, hins⟩ := hinside.turn hstep
    rw [installs_concat, hins]
    rcases vouches_step hvouches hstep with ⟨hnone, hvouches'⟩ | ⟨⟨z, hz, hS⟩, hput⟩
    · rw [hnone, List.append_nil]
      rw [hnext] at hvouches'
      exact ⟨fun hS => absurd hS hvouches', fun _ => hnothing⟩
    · obtain rfl := Program.done.inj (hnext.symm.trans hz)
      exact ⟨fun _ => hput hlt, fun hnot => absurd hS hnot⟩

end Machine

end ConcurrentMap
