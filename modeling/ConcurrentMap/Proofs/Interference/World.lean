import ConcurrentMap.Proofs.Representation
import ConcurrentMap.Proofs.Interference.Chronicle

/-!
# What holds while threads interleave

A `World` is the shared state together with what only the proofs know of it: the phase the holder of
the mutex is in, which key each cell serves or served, who drew which stamp for which content, the
chronicle of the calls, and each thread's current call. `World.Sound` is the invariant of every
single step.

* `Roster` ties the standing of the cells to the two tables.
* `Ledger` ties the chronicle to the cells: what a cell holds is what its key has in the chronicle,
  in the current era or in the one in which the cell was retired.
* `Docket` keeps the names of the calls apart and their order in line with the order of calling.
-/

namespace ConcurrentMap

/-- Why a cell ceased to serve its key. -/
inductive Fate where
  /-- A promotion left it out. -/
  | dropped
  /-- A deletion took it from the staged table, before any snapshot had it. -/
  | withdrawn
  /-- The map was cleared. -/
  | discarded

/-- What a cell is to the keys. -/
inductive Standing (K : Type) where
  /-- No table ever had it. -/
  | unused
  /-- It serves `key`; once it is published, snapshots lead to it. -/
  | serving (key : K) (published : Bool)
  /-- It ceased to serve `key` when the era ended. -/
  | retired (key : K) (era : Nat) (fate : Fate)

namespace Standing

variable {K : Type}

/-- The key that the cell serves or served. -/
def key? : Standing K → Option K
  | unused => none
  | serving key _ => some key
  | retired key _ _ => some key

/-- The era in which a call on the cell counts. -/
def site (now : Nat) : Standing K → Nat
  | retired _ era _ => era
  | serving _ _ => now
  | unused => now

/-- How the standing of a cell may change from era `now` on. -/
def Leads (now : Nat) : Standing K → Standing K → Prop
  | unused, _ => True
  | serving key p, serving key' p' => key' = key ∧ (p = true → p' = true)
  | serving key p, retired key' era fate =>
    key' = key ∧ now ≤ era ∧ (p = true → fate ≠ .withdrawn)
  | serving _ _, unused => False
  | retired key era fate, x => x = retired key era fate

theorem Leads.refl (now : Nat) (x : Standing K) : x.Leads now x := by
  cases x <;> simp [Leads]

/-- Changes in a row are a change, if the second one begins no earlier than the first. -/
theorem Leads.trans {now later : Nat} (hnow : now ≤ later) {x y z : Standing K}
    (hxy : x.Leads now y) (hyz : y.Leads later z) : x.Leads now z := by
  cases x with
  | unused => trivial
  -- A retired cell stays as it is.
  | retired key era fate =>
      have hy : y = retired key era fate := hxy
      subst hy
      exact hyz
  -- A cell in service may be published and later be retired, but not the other way round.
  | serving key p =>
      cases y with
      | unused => exact hxy.elim
      | retired key' era fate =>
          have hz : z = retired key' era fate := hyz
          subst hz
          exact hxy
      | serving key' p' =>
          obtain ⟨rfl, hp⟩ := hxy
          cases z with
          | unused => exact hyz.elim
          | serving key'' p'' => exact ⟨hyz.1, fun h => hyz.2 (hp h)⟩
          | retired key'' era fate =>
              exact ⟨hyz.1, Nat.le_trans hnow hyz.2.1, fun h => hyz.2.2 (hp h)⟩

/-- A cell keeps its key. -/
theorem Leads.key? {now : Nat} {x y : Standing K} (h : x.Leads now y) {key : K}
    (hx : x.key? = some key) : y.key? = some key := by
  cases x with
  | unused => simp [Standing.key?] at hx
  | retired key' era fate =>
      have hy : y = retired key' era fate := h
      rwa [hy]
  | serving key' p =>
      cases y with
      | unused => exact h.elim
      | serving key'' p' => rw [← hx]; exact congrArg some h.1
      | retired key'' era fate => rw [← hx]; exact congrArg some h.1

end Standing

/-- How far a call has come. -/
inductive Progress (V : Type) where
  /-- It has not taken effect. -/
  | pending
  /-- It ended an era by taking the key from the staged table, and is yet to act on the cell. -/
  | withdrawing (era : Nat)
  /-- It has taken effect, and this is the answer. -/
  | answered (answer : Answer V)

/-- The call that a thread is in. -/
structure Ticket (K V : Type) where
  id : CallId
  request : Request K V
  progress : Progress V
  /-- The calls that the thread made before. -/
  past : List CallId

namespace Ticket

variable {K V : Type}

/-- All calls that the thread made. -/
def calls (k : Ticket K V) : List CallId := k.past ++ [k.id]

theorem id_mem_calls (k : Ticket K V) : k.id ∈ k.calls :=
  List.mem_append_right _ (List.mem_singleton_self _)

/-- The same call, further on. -/
def become (k : Ticket K V) (progress : Progress V) : Ticket K V := { k with progress := progress }

/-- The call has taken effect with this answer. -/
def closed (k : Ticket K V) (answer : Answer V) : Ticket K V := k.become (.answered answer)

end Ticket

/-- What the threads may ask for, and how they come to do so. -/
structure Rules (K V : Type) where
  /-- The requests that are made. -/
  allowed : Request K V → Prop
  /-- The calls are given to the threads, which make none in their own steps. -/
  driven : Prop

/-- The shared state and what the proofs know of it. -/
structure World (K V : Type) where
  shared : Shared K V
  phase : Phase K
  standing : CellId → Standing K
  /-- What a stamp stands for, and the call that drew it. -/
  mint : Stamp → Content V × CallId
  chronicle : Chronicle K V
  tickets : ThreadId → Option (Ticket K V)
  rules : Rules K V

variable {K V : Type}

/-- The call was made before its era ended, and took effect after the era had begun. -/
structure Deed.Listed (C : Chronicle K V) (d : Deed K V) : Prop where
  era : d.era ≤ C.era
  id : d.id < C.limit d.era
  asked : C.asked d.id = d.request
  horizon : d.horizon ≤ C.issued
  late : ∀ i < d.era, C.limit i ≤ d.horizon

namespace Chronicle

/-- The call has taken effect with this answer and this horizon. -/
def Recorded (C : Chronicle K V) (id : CallId) (answer : Answer V) (horizon : CallId) : Prop :=
  (∃ d ∈ C.deeds, d.id = id ∧ d.answer = answer ∧ d.horizon = horizon) ∨
    ∃ j, C.ended j = some (id, .clear) ∧ answer = .finished ∧ horizon = C.limit j

/-- The call has not been entered. -/
def Unentered (C : Chronicle K V) (id : CallId) : Prop := ∀ d ∈ C.deeds, d.id ≠ id

end Chronicle

/-- What the chronicle says of a call that has come so far. -/
def Ticket.Holds (C : Chronicle K V) (k : Ticket K V) : Prop :=
  match k.progress with
  | .pending => C.Unentered k.id ∧ ∀ j r, C.ended j ≠ some (k.id, r)
  | .withdrawing era => C.Unentered k.id ∧ C.ended era = some (k.id, k.request)
  | .answered answer => ∃ horizon ≤ C.issued, C.Recorded k.id answer horizon

/-- The call that ended an era fits the fate of the cells that it retired. -/
def Fate.Fits [BEq K] (key : K) (ending : Option (CallId × Request K V)) : Fate → Prop
  | .dropped => ending = none
  | .withdrawn => ∃ id r key', ending = some (id, r) ∧ r.removes? = some key' ∧ (key == key') = true
  | .discarded => ∃ id, ending = some (id, .clear)

namespace World

/-- The current era. -/
def era (w : World K V) : Nat := w.chronicle.era

/-- The era in which a call on the cell counts. -/
def site (w : World K V) (c : CellId) : Nat := (w.standing c).site w.era

/-- The slot was made by the call that drew its stamp. -/
def Genuine (w : World K V) (x : Slot V) : Prop :=
  x.stamp < w.shared.clock ∧ (w.mint x.stamp).1 = x.content

/-- The cell serves or served the key, and the call was made in time to count there. -/
def Knows [BEq K] (w : World K V) (id : CallId) (key : K) (c : CellId) : Prop :=
  ∃ own, (w.standing c).key? = some own ∧ (own == key) = true ∧ id < w.chronicle.limit (w.site c)

/-- The thread may put a value into the cell: a snapshot led to it once, or the thread holds the
mutex and the cell serves its key. -/
def MayInstall (w : World K V) (t : ThreadId) (c : CellId) : Prop :=
  match w.standing c with
  | .unused => False
  | .serving _ published => published = true ∨ w.shared.holder = some t
  | .retired _ _ fate => fate ≠ .withdrawn

/-! ## The invariant -/

variable [BEq K]

/-- The tables lead to the cells that serve the keys. -/
structure Roster (w : World K V) : Prop where
  serves : ∀ key c, w.shared.find? key = some c ↔
    ∃ own p, w.standing c = .serving own p ∧ (own == key) = true
  published : ∀ key c, w.shared.snapshot.find? key = some c ↔
    ∃ own, w.standing c = .serving own true ∧ (own == key) = true
  used : ∀ c, w.standing c ≠ .unused → c < w.shared.cells.size
  dropped : ∀ c own j, w.standing c = .retired own j .dropped → w.shared.tombstoned c = true

variable [BEq V]

/-- What the cells hold is what the chronicle says. -/
structure Ledger (w : World K V) : Prop where
  explained : ∀ j ≤ w.era, (w.chronicle.opening j).Explains (w.chronicle.calls j)
  current : ∀ j, w.era ≤ j → w.chronicle.ended j = none
  held : ∀ c own, (w.standing c).key? = some own →
    w.chronicle.state (w.site c) own = (w.shared.slot c).handle?
  missing : ∀ key, w.shared.find? key = none → w.chronicle.state w.era key = none
  fates : ∀ c own j fate, w.standing c = .retired own j fate →
    j < w.era ∧ fate.Fits own (w.chronicle.ended j)
  alone : ∀ c d own own' j fate fate', w.standing c = .retired own j fate →
    w.standing d = .retired own' j fate' → (own == own') = true → c = d
  endings : ∀ j id r, w.chronicle.ended j = some (id, r) →
    r = .clear ∨ ∃ key, r.removes? = some key

/-- The names of the calls. -/
structure Docket (w : World K V) : Prop where
  limits : ∀ i j, i ≤ j → j ≤ w.era → w.chronicle.limit i ≤ w.chronicle.limit j
  deeds : ∀ d ∈ w.chronicle.deeds, d.Listed w.chronicle
  distinct : w.chronicle.deeds.Pairwise fun x y => x.id ≠ y.id ∧ x.id < y.horizon
  stamps : ∀ d ∈ w.chronicle.deeds, ∀ v, d.request.value? = some v →
    d.stamp < w.shared.clock ∧ (w.mint d.stamp).2 = d.id
  ended : ∀ j id r, w.chronicle.ended j = some (id, r) →
    id < w.chronicle.limit j ∧ w.chronicle.asked id = r
  once : ∀ i j id r r', w.chronicle.ended i = some (id, r) → w.chronicle.ended j = some (id, r') →
    i = j
  unentered : ∀ j id r, w.chronicle.ended j = some (id, r) →
    (∀ key, r.key? = some key → (w.chronicle.state j key).isSome = true) → w.chronicle.Unentered id
  tickets : ∀ t k, w.tickets t = some k →
    k.id < w.chronicle.issued ∧ w.chronicle.asked k.id = k.request ∧ k.Holds w.chronicle
  owners : ∀ t u k k', w.tickets t = some k → w.tickets u = some k' →
    ∀ id ∈ k.calls, id ∈ k'.calls → t = u
  callers : ∀ id, id < w.chronicle.issued ↔ ∃ t k, w.tickets t = some k ∧ id ∈ k.calls
  allowed : ∀ id < w.chronicle.issued, w.rules.allowed (w.chronicle.asked id)

/-- The invariant of every single step. -/
structure Sound (w : World K V) : Prop where
  tidy : Tidy w.phase w.shared
  free : w.shared.holder = none → w.phase = .rest
  minted : ∀ c, w.Genuine (w.shared.slot c)
  roster : w.Roster
  ledger : w.Ledger
  docket : w.Docket

end World

end ConcurrentMap
