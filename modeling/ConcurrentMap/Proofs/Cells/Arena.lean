import ConcurrentMap.Proofs.Cells.Decisions
import ConcurrentMap.Proofs.Cells.Supplies
import Mathlib.Data.List.Basic
import Mathlib.Logic.Function.Basic

/-!
# Operations on one cell are atomic

An `Arena` is one cell and the mutex, shared by any number of threads that carry out operations on
the cell. What happens next is a `Turn`: a slot for a value is allocated, the mutex is taken or let
go, an operation is called, or a thread takes one atomic step. `Arena.Permits` is the contract of
the callers: they pass slots that were allocated, call the guarded operations while they hold the
mutex, and do not overwrite a tombstone under it.

`Arena.run_atomic` says that the operations that are done can be put into one order, each at an
instant inside its own interval, in which the sequential machine gives all their answers and leaves
the slot that the cell holds.
-/

namespace ConcurrentMap

namespace Cell

variable {K V α β : Type}

/-! ## Threads around a cell -/

/-- An operation that is done, and the times at which it was called and answered. -/
structure Report (V : Type) where
  access : Access V
  answer : access.Result
  called : Nat
  answered : Nat

/-- What can happen next. -/
inductive Turn (V : Type) where
  /-- A slot is allocated for a value. -/
  | allocate (value : V)
  /-- Thread `t` takes the mutex, if it is free. -/
  | acquire (t : ThreadId)
  /-- Thread `t` lets the mutex go. -/
  | release (t : ThreadId)
  /-- Thread `t` calls an operation. -/
  | call (t : ThreadId) (x : Access V)
  /-- Thread `t` takes its next atomic step, if it has one. -/
  | step (t : ThreadId)

/-- One cell, which is cell 0, and the threads that use it. -/
structure Arena (K V : Type) where
  shared : Shared K V
  /-- The slots that were allocated for values. -/
  allocated : List (Handle V)
  /-- The operation that a thread is in, when it was called, and what is left of it. -/
  running : ThreadId → Option (Σ x : Access V, Nat × Program K V x.Result)
  /-- The number of turns so far. -/
  now : Nat
  /-- The operations that are done. -/
  reports : List (Report V)

namespace Arena

/-- The cell holds a slot, and nothing has happened. -/
def start (x : Slot V) : Arena K V where
  shared := { (Shared.initial : Shared K V) with cells := #[x], clock := x.stamp + 1 }
  allocated := []
  running _ := none
  now := 0
  reports := []

variable [BEq K] [BEq V]

/-- What a turn leaves behind, but for the time. -/
def act (order : Enumeration K) (A : Arena K V) : Turn V → Arena K V
  | .allocate value =>
    { A with
      shared := A.shared.drawStamp.2
      allocated := A.allocated ++ [⟨A.shared.drawStamp.1, value⟩] }
  | .acquire t => { A with shared := (A.shared.acquire t).getD A.shared }
  | .release _ => { A with shared := A.shared.release }
  | .call t x =>
    { A with running := Function.update A.running t (some ⟨x, A.now, x.program 0⟩) }
  | .step t =>
    match A.running t with
    | none => A
    | some ⟨x, called, p⟩ =>
      match p.step order t A.shared with
      | none => A
      | some (p', s') =>
        match p'.result? with
        | none =>
          { A with
            shared := s'
            running := Function.update A.running t (some ⟨x, called, p'⟩) }
        | some answer =>
          { A with
            shared := s'
            running := Function.update A.running t none
            reports := A.reports ++ [⟨x, answer, called, A.now⟩] }

/-- One turn. -/
def turn (order : Enumeration K) (A : Arena K V) (x : Turn V) : Arena K V :=
  { A.act order x with now := A.now + 1 }

/-- All turns, one after the other. -/
def run (order : Enumeration K) (A : Arena K V) (turns : List (Turn V)) : Arena K V :=
  turns.foldl (turn order) A

omit [BEq K] [BEq V] in
/-- The turn is within the contract. A thread does one thing at a time. -/
def Permits (A : Arena K V) : Turn V → Prop
  | .allocate _ => True
  | .acquire t => A.running t = none
  | .release t => A.running t = none ∧ A.shared.holder = some t
  | .call t x => A.running t = none ∧ (∀ h, x.candidate? = some h → h ∈ A.allocated) ∧
      (x.Guarded → A.shared.holder = some t) ∧ x.Admits (A.shared.slot 0).state
  | .step _ => True

/-- All turns are within the contract. -/
def PermitsAll (order : Enumeration K) (A : Arena K V) : List (Turn V) → Prop
  | [] => True
  | x :: turns => A.Permits x ∧ (A.turn order x).PermitsAll order turns

end Arena

/-- The sequential machine goes from one slot to another by these operations, with these answers. -/
def Explains [BEq V] : Slot V → List (Report V) → Slot V → Prop
  | before, [], after => after = before
  | before, d :: ds, after =>
    ∃ slot, d.access.Fits d.answer before slot ∧ Explains slot ds after

/-- The operations that are done, each at an instant inside its own interval, explain the slot that
the cell holds. -/
def Arena.Atomic [BEq V] (x : Slot V) (A : Arena K V) : Prop :=
  ∃ line : List (Nat × Report V), (line.map Prod.snd).Perm A.reports ∧
    (line.map Prod.fst).Pairwise (· < ·) ∧
    (∀ d ∈ line, d.2.called < d.1 ∧ d.1 ≤ d.2.answered) ∧
    Explains x (line.map Prod.snd) (A.shared.slot 0)

/-! ## One turn -/

section Explains

variable [BEq V]

/-- One more operation may follow, if it fits the slot that the others have left. -/
theorem explains_append {before after : Slot V} {ds : List (Report V)} {d : Report V} {slot : Slot V}
    (h : Explains before ds slot) (hd : d.access.Fits d.answer slot after) :
    Explains before (ds ++ [d]) after := by
  induction ds generalizing before with
  | nil =>
      obtain rfl : slot = before := h
      exact ⟨after, hd, rfl⟩
  | cons e ds ih =>
      obtain ⟨middle, hfits, hrest⟩ := h
      exact ⟨middle, hfits, ih hrest⟩

end Explains

variable [BEq K] [BEq V] {order : Enumeration K} {known known' : Slot V → Prop} {s s' : Shared K V}
  {now now' : Nat} {t u : ThreadId} {called : Nat}

/-- An operation that was called, and is not done. -/
structure Pending (order : Enumeration K) (known : Slot V → Prop) (s : Shared K V) (now : Nat)
    (t : ThreadId) (x : Access V) (called : Nat) (p : Program K V x.Result) : Prop where
  decides : p.Decides order t 0 x ⟨s, known⟩
  supplied : p.Supplied known
  onCells : p.OnCells
  called : called < now
  holder : x.Guarded → s.holder = some t

/-- It stays so while others take their turns. -/
theorem Pending.spares {x : Access V} {p : Program K V x.Result}
    (h : Pending order known s now t x called p) (hnow : now ≤ now')
    (hs : Setting.Spares 0 x.Guarded ⟨s, known⟩ ⟨s', known'⟩)
    (hholder : x.Guarded → s'.holder = some t) : Pending order known' s' now' t x called p where
  decides := h.decides.spares hs
  supplied := h.supplied.mono hs.known
  onCells := h.onCells
  called := Nat.lt_of_lt_of_le h.called hnow
  holder := hholder

namespace Arena

variable {A : Arena K V} {x₀ : Slot V}

/-- A thread that is in an operation takes the next step of it, which may be the last. -/
theorem act_step_cases (order : Enumeration K) (A : Arena K V) (t : ThreadId) :
    A.act order (.step t) = A ∨ ∃ x called p p' s', A.running t = some ⟨x, called, p⟩ ∧
      p.step order t A.shared = some (p', s') ∧
      ((∃ answer, p' = .done answer ∧ A.act order (.step t) =
          { A with
            shared := s'
            running := Function.update A.running t none
            reports := A.reports ++ [⟨x, answer, called, A.now⟩] }) ∨
        (∀ answer, p' ≠ .done answer) ∧ A.act order (.step t) =
          { A with
            shared := s'
            running := Function.update A.running t (some ⟨x, called, p'⟩) }) := by
  cases hp : A.running t with
  | none => exact .inl (by simp only [act, hp])
  | some call =>
      obtain ⟨x, called, p⟩ := call
      cases hstep : p.step order t A.shared with
      | none => exact .inl (by simp only [act, hp, hstep])
      | some result =>
          obtain ⟨p', s'⟩ := result
          refine .inr ⟨x, called, p, p', s', rfl, hstep, ?_⟩
          -- The step was the last one of the operation, or there is more to do.
          cases hanswer : p'.result? with
          | some answer =>
              refine .inl ⟨answer, Program.eq_done_of_result? hanswer, ?_⟩
              simp only [act, hp, hstep, hanswer]
          | none =>
              refine .inr ⟨fun answer hdone => ?_, ?_⟩
              · rw [hdone] at hanswer
                cases hanswer
              · simp only [act, hp, hstep, hanswer]

/-- The operations that are done happened in the order of their answers, and those that are not have
left no trace. `known` are the slots that were allocated so far. -/
structure Ordered (order : Enumeration K) (x₀ : Slot V) (known : Slot V → Prop) (A : Arena K V) :
    Prop where
  minted : Minted A.shared.clock known
  bounded : 0 < A.shared.cells.size
  current : known (A.shared.slot 0)
  allocated : ∀ h ∈ A.allocated, known h.slot
  pending : ∀ t x called p, A.running t = some ⟨x, called, p⟩ →
    Pending order known A.shared A.now t x called p
  past : ∀ d ∈ A.reports, d.called < d.answered ∧ d.answered < A.now
  sorted : A.reports.Pairwise fun d e => d.answered < e.answered
  explained : Explains x₀ A.reports (A.shared.slot 0)

/-- What a thread is in after another one, or itself, was given something else to do. -/
private theorem of_update (f : ThreadId → Option β) (t : ThreadId) (o : Option β) {z : β}
    (h : Function.update f t o u = some z) : u = t ∧ o = some z ∨ u ≠ t ∧ f u = some z := by
  by_cases hut : u = t
  · subst hut
    rw [Function.update_self] at h
    exact .inl ⟨rfl, h⟩
  · rw [Function.update_of_ne hut] at h
    exact .inr ⟨hut, h⟩

namespace Ordered

/-- The cell holds a known slot, and stamps tell the known slots apart. -/
theorem sound (h : A.Ordered order x₀ known) : Setting.Sound 0 ⟨A.shared, known⟩ :=
  ⟨h.bounded, h.current, h.minted.coherent⟩

/-- There is an order to begin with. -/
theorem start (order : Enumeration K) (x₀ : Slot V) :
    (start x₀ : Arena K V).Ordered order x₀ fun x => x = x₀ where
  minted := ⟨fun x hx => hx ▸ Nat.lt_succ_self x₀.stamp, fun x y hx hy _ => hx.trans hy.symm⟩
  bounded := Nat.zero_lt_one
  current := rfl
  allocated h hh := absurd hh List.not_mem_nil
  pending t x called p hp := by cases hp
  past d hd := absurd hd List.not_mem_nil
  sorted := .nil
  explained := rfl

/-- A turn that leaves the cell alone, and the calls as they are. -/
theorem leave (h : A.Ordered order x₀ known) {A' : Arena K V} (hnow : A'.now = A.now + 1)
    (hslot : A'.shared.slot 0 = A.shared.slot 0)
    (hsize : A'.shared.cells.size = A.shared.cells.size) (hreports : A'.reports = A.reports)
    (hminted : Minted A'.shared.clock known') (hknown : ∀ x, known x → known' x)
    (hallocated : ∀ h ∈ A'.allocated, known' h.slot)
    (hrunning : ∀ t x called p, A'.running t = some ⟨x, called, p⟩ →
      (A.running t = some ⟨x, called, p⟩ ∧ (x.Guarded → A'.shared.holder = some t)) ∨
        Pending order known' A'.shared A'.now t x called p) :
    A'.Ordered order x₀ known' where
  minted := hminted
  bounded := hsize ▸ h.bounded
  current := hslot ▸ hknown _ h.current
  allocated := hallocated
  pending t x called p hp := by
    rcases hrunning t x called p hp with ⟨hp, hholder⟩ | hnew
    · apply (h.pending t x called p hp).spares (hnow ▸ Nat.le_succ A.now) ?_ hholder
      exact ⟨⟨hsize ▸ h.bounded, hslot ▸ hknown _ h.current, hminted.coherent⟩, hknown,
        fun _ => congrArg (·.content.isTombstoned) hslot, fun _ _ => hslot⟩
    · exact hnew
  past d hd := by
    obtain ⟨hcalled, hanswered⟩ := h.past d (hreports ▸ hd)
    exact ⟨hcalled, by omega⟩
  sorted := hreports ▸ h.sorted
  explained := by rw [hreports, hslot]; exact h.explained

/-- What is pending under the mutex is called by its holder. -/
theorem holder_eq (h : A.Ordered order x₀ known) {x : Access V} {p : Program K V x.Result}
    (hp : A.running t = some ⟨x, called, p⟩) (hx : x.Guarded) : A.shared.holder = some t :=
  (h.pending t x called p hp).holder hx

/-- After a step the cell holds a slot that is known by then. -/
theorem known_slot (h : A.Ordered order x₀ known) (hs : A.shared.Furnished known s' known') :
    known' (s'.slot 0) := by
  rcases hs.slots 0 h.bounded with hsame | hnew
  · exact hsame ▸ hs.known _ h.current
  · exact hnew

/-- A step of thread `t` that leaves `s'` is no disturbance for the operations of the others. -/
theorem spares (h : A.Ordered order x₀ known) {x y : Access V} {p : Program K V x.Result}
    {q : Program K V y.Result} {called' : Nat} (hp : A.running t = some ⟨x, called, p⟩)
    (hq : A.running u = some ⟨y, called', q⟩) (hut : u ≠ t)
    (hfurnished : A.shared.Furnished known s' known') (hsize : s'.cells.size = A.shared.cells.size)
    (hslot : s'.slot 0 = A.shared.slot 0 ∨ ∃ answer, x.Fits answer (A.shared.slot 0) (s'.slot 0)) :
    Setting.Spares 0 y.Guarded ⟨A.shared, known⟩ ⟨s', known'⟩ := by
  have hsound : Setting.Sound 0 ⟨s', known'⟩ :=
    ⟨hsize ▸ h.bounded, h.known_slot hfurnished, hfurnished.minted.coherent⟩
  have hkeeps : y.Guarded → s'.tombstoned 0 = A.shared.tombstoned 0 ∧
      (A.shared.tombstoned 0 = true → s'.slot 0 = A.shared.slot 0) := by
    intro hy
    rcases hslot with hsame | ⟨answer, hfits⟩
    · exact ⟨congrArg (·.content.isTombstoned) hsame, fun _ => hsame⟩
    · -- only one of the two threads holds the mutex
      apply hfits.tombstoned
      intro hx
      have hsame := (h.holder_eq hp hx).symm.trans (h.holder_eq hq hy)
      exact hut (Option.some.inj hsame).symm
  exact ⟨hsound, hfurnished.known, fun hy => (hkeeps hy).1, fun hy => (hkeeps hy).2⟩

/-- A turn that changes nothing but the time. -/
theorem pass (h : A.Ordered order x₀ known) :
    { A with now := A.now + 1 : Arena K V }.Ordered order x₀ known :=
  h.leave rfl rfl rfl rfl h.minted (fun _ hx => hx) h.allocated
    fun _ _ _ _ hp => .inl ⟨hp, h.holder_eq hp⟩

/-- An operation that is answered comes last in the order, and its instant is now. -/
theorem answer (h : A.Ordered order x₀ known) {x : Access V} {p : Program K V x.Result}
    (hp : A.running t = some ⟨x, called, p⟩) (hfurnished : A.shared.Furnished known s' known')
    (hsize : s'.cells.size = A.shared.cells.size) {answer : x.Result}
    (hfits : x.Fits answer (A.shared.slot 0) (s'.slot 0))
    (hothers : ∀ u y called' q, u ≠ t → A.running u = some ⟨y, called', q⟩ →
      Pending order known' s' (A.now + 1) u y called' q) :
    ({ A with
      shared := s'
      running := Function.update A.running t none
      reports := A.reports ++ [⟨x, answer, called, A.now⟩]
      now := A.now + 1 } : Arena K V).Ordered order x₀ known' where
  minted := hfurnished.minted
  bounded := hsize ▸ h.bounded
  current := h.known_slot hfurnished
  allocated new hnew := hfurnished.known _ (h.allocated new hnew)
  pending u y called' q hq := by
    -- The thread itself is free now; the others are where they were.
    rcases of_update A.running t none hq with ⟨-, hq⟩ | ⟨hut, hq⟩
    · cases hq
    · exact hothers u y called' q hut hq
  past d hd := by
    rcases List.mem_append.1 hd with hd | hd
    · obtain ⟨hcalled, hanswered⟩ := h.past d hd
      exact ⟨hcalled, Nat.lt_succ_of_lt hanswered⟩
    · obtain rfl := List.mem_singleton.1 hd
      exact ⟨(h.pending t x called p hp).called, Nat.lt_succ_self A.now⟩
  sorted := by
    -- All earlier answers came before this turn.
    refine List.pairwise_append.2 ⟨h.sorted, List.pairwise_singleton _ _, fun d hd e he => ?_⟩
    obtain rfl := List.mem_singleton.1 he
    exact (h.past d hd).2
  explained := explains_append h.explained hfits

/-- A step of an operation decides it, or leaves the cell alone. -/
theorem step (h : A.Ordered order x₀ known) (t : ThreadId) :
    ∃ known', (A.turn order (.step t)).Ordered order x₀ known' := by
  unfold turn
  rcases A.act_step_cases order t with hsame | ⟨x, called, p, p', s', hp, hstep, hact⟩
  · rw [hsame]
    exact ⟨known, h.pass⟩
  · have hpending := h.pending t x called p hp
    obtain ⟨honCells, hsteady⟩ := hpending.onCells.step hstep
    obtain ⟨known', hsupplied, hfurnished⟩ := hpending.supplied.step h.minted hstep
    obtain ⟨hsize, hdecided⟩ := hpending.decides.step h.sound hstep
    -- For the others it makes no difference whether the step decides the operation.
    have hothers : ∀ u y called' q, u ≠ t → A.running u = some ⟨y, called', q⟩ →
        Pending order known' s' (A.now + 1) u y called' q := by
      intro u y called' q hut hq
      apply (h.pending u y called' q hq).spares (Nat.le_succ A.now)
      · apply h.spares hp hq hut hfurnished hsize
        rcases hdecided with ⟨answer, -, hfits⟩ | ⟨hslot, -⟩
        · exact .inr ⟨answer, hfits⟩
        · exact .inl hslot
      · exact fun hy => hsteady.holder.trans (h.holder_eq hq hy)
    refine ⟨known', ?_⟩
    rcases hact with ⟨answer, rfl, hact⟩ | ⟨hnot, hact⟩
    -- The operation is answered, in the very step that decides it.
    · obtain ⟨answer', hanswer, hfits⟩ := hdecided.resolve_right fun hgoes => hgoes.2
      obtain rfl := Program.done.inj hanswer
      rw [hact]
      exact h.answer hp hfurnished hsize hfits hothers
    -- The cell stays as it is, and the thread goes on with the rest of the operation.
    · obtain ⟨hslot, hdecides⟩ := hdecided.resolve_left fun ⟨answer, hdone, _⟩ => hnot answer hdone
      rw [hact]
      refine h.leave rfl hslot hsize rfl hfurnished.minted hfurnished.known ?_ ?_
      · exact fun new hnew => hfurnished.known _ (h.allocated new hnew)
      · intro u y called' q hq
        right
        rcases of_update A.running t (some ⟨x, called, p'⟩) hq with ⟨rfl, hcall⟩ | ⟨hut, hq⟩
        · cases hcall
          have hsound : Setting.Sound 0 ⟨s', known'⟩ :=
            ⟨hsize ▸ h.bounded, h.known_slot hfurnished, hfurnished.minted.coherent⟩
          exact {
            decides := hdecides.spares ⟨hsound, hfurnished.known, fun _ => rfl, fun _ _ => rfl⟩
            supplied := hsupplied
            onCells := honCells
            called := Nat.lt_succ_of_lt hpending.called
            holder := fun hx => hsteady.holder.trans (hpending.holder hx) }
        · exact hothers u y called' q hut hq

/-- A turn within the contract keeps the order. -/
theorem turn (h : A.Ordered order x₀ known) {τ : Turn V} (hτ : A.Permits τ) :
    ∃ known', (A.turn order τ).Ordered order x₀ known' := by
  cases τ with
  | allocate value =>
      refine ⟨_, h.leave rfl rfl rfl rfl (h.minted.draw (.present value)) (fun _ hx => .inl hx) ?_
        fun _ _ _ _ hp => .inl ⟨hp, h.holder_eq hp⟩⟩
      intro new hnew
      rcases List.mem_append.1 hnew with hnew | hnew
      · exact .inl (h.allocated new hnew)
      · obtain rfl := List.mem_singleton.1 hnew
        exact .inr rfl
  | acquire t =>
      cases hheld : A.shared.holder with
      | some u =>
          have hsame : (A.shared.acquire t).getD A.shared = A.shared := by
            simp only [Shared.acquire, hheld, Option.getD_none]
          refine ⟨known, ?_⟩
          simp only [Arena.turn, act, hsame]
          exact h.pass
      | none =>
          -- nobody is in a guarded operation while the mutex is free
          have htaken : (A.shared.acquire t).getD A.shared = { A.shared with holder := some t } := by
            simp only [Shared.acquire, hheld, Option.getD_some]
          refine ⟨known, ?_⟩
          simp only [Arena.turn, act, htaken]
          refine h.leave rfl rfl rfl rfl h.minted (fun _ hx => hx) h.allocated
            fun u y called q hq => .inl ⟨hq, fun hy => ?_⟩
          have hu := h.holder_eq hq hy
          rw [hheld] at hu
          cases hu
  | release t =>
      obtain ⟨hidle, hheld⟩ := hτ
      refine ⟨known, h.leave rfl rfl rfl rfl h.minted (fun _ hx => hx) h.allocated
        fun u y called q hq => .inl ⟨hq, fun hy => ?_⟩⟩
      -- the only one who could be in a guarded operation lets the mutex go
      have hu := h.holder_eq hq hy
      rw [hheld] at hu
      obtain rfl := Option.some.inj hu
      have hq : A.running t = some ⟨y, called, q⟩ := hq
      rw [hidle] at hq
      cases hq
  | call t x =>
      obtain ⟨hidle, hcandidate, hguarded, hadmits⟩ := hτ
      refine ⟨known, h.leave rfl rfl rfl rfl h.minted (fun _ hx => hx) h.allocated ?_⟩
      intro u y called q hq
      rcases of_update A.running t (some ⟨x, A.now, x.program 0⟩) hq with ⟨rfl, hcall⟩ | ⟨hut, hq⟩
      · cases hcall
        exact .inr {
          decides := x.decides hadmits
          supplied := x.supplied 0 fun new hnew => h.allocated new (hcandidate new hnew)
          onCells := x.onCells 0
          called := Nat.lt_succ_self A.now
          holder := hguarded }
      · exact .inl ⟨hq, fun hy => h.holder_eq hq hy⟩
  | step t => exact h.step t

/-- So do all turns. -/
theorem run (h : A.Ordered order x₀ known) {turns : List (Turn V)}
    (hturns : A.PermitsAll order turns) :
    ∃ known', (A.run order turns).Ordered order x₀ known' := by
  induction turns generalizing A known with
  | nil => exact ⟨known, h⟩
  | cons τ turns ih =>
      obtain ⟨hτ, hturns⟩ := hturns
      obtain ⟨known₁, h₁⟩ := h.turn hτ
      exact ih h₁ hturns

/-- Each operation that is done takes its instant when it answers. -/
theorem atomic (h : A.Ordered order x₀ known) : A.Atomic x₀ := by
  have hreports : (A.reports.map fun d => (d.answered, d)).map Prod.snd = A.reports := by
    rw [List.map_map]
    exact List.map_id _
  refine ⟨A.reports.map fun d => (d.answered, d), ?_, ?_, ?_, ?_⟩
  · rw [hreports]
  · rw [List.map_map]
    exact List.pairwise_map.2 h.sorted
  · intro e he
    obtain ⟨d, hd, rfl⟩ := List.mem_map.1 he
    exact ⟨(h.past d hd).1, Nat.le_refl _⟩
  · rw [hreports]
    exact h.explained

end Ordered

/-- Operations on one cell are atomic: whichever operations any number of threads call within the
contract, and however their steps are interleaved, those that are done can be ordered by one instant
each inside their own interval, and in this order the sequential machine gives all their answers and
leaves the slot that the cell holds. -/
theorem run_atomic (order : Enumeration K) (x : Slot V) {turns : List (Turn V)}
    (h : (start x : Arena K V).PermitsAll order turns) :
    ((start x : Arena K V).run order turns).Atomic x := by
  obtain ⟨known, hordered⟩ := (Ordered.start order x).run h
  exact hordered.atomic

/-- Two threads try to put their values into an absent cell, and a third one to bury it. The first
exchange of thread 0 is overtaken by that of thread 1, and goes on from it. -/
def overtaken : List (Turn Nat) :=
  [.allocate 10, .allocate 20, .call 0 (.trySwap ⟨6, 10⟩), .call 1 (.tryLoadOrStore ⟨7, 20⟩),
    .step 0, .step 1, .step 1, .acquire 2, .call 2 .bury, .step 2, .step 0, .step 0, .release 2]

/-- The operation of thread 1 takes effect first, although that of thread 0 was called before it. -/
theorem run_atomic_overtaken :
    (start ⟨5, .absent⟩ : Arena Nat Nat).PermitsAll .insertion overtaken ∧
      ((start ⟨5, .absent⟩ : Arena Nat Nat).run .insertion overtaken).reports.map
        (fun d => (d.called, d.answered)) = [(3, 6), (8, 9), (2, 11)] ∧
      ((start ⟨5, .absent⟩ : Arena Nat Nat).run .insertion overtaken).Atomic ⟨5, .absent⟩ := by
  have hpermits : (start ⟨5, .absent⟩ : Arena Nat Nat).PermitsAll .insertion overtaken := by
    refine ⟨trivial, trivial, ⟨rfl, ?_, fun h => h.elim, trivial⟩, ⟨rfl, ?_, fun h => h.elim, trivial⟩,
      trivial, trivial, trivial, rfl, ⟨rfl, ?_, fun _ => rfl, trivial⟩, trivial, trivial, trivial,
      ⟨rfl, rfl⟩, trivial⟩
    · intro h hh
      obtain rfl := Option.some.inj hh
      exact List.mem_cons_self
    · intro h hh
      obtain rfl := Option.some.inj hh
      exact List.mem_cons_of_mem _ List.mem_cons_self
    · intro h hh
      cases hh
  exact ⟨hpermits, rfl, run_atomic .insertion ⟨5, .absent⟩ hpermits⟩

end Arena

end Cell

end ConcurrentMap
