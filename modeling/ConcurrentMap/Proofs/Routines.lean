import ConcurrentMap.Proofs.Renaming
import ConcurrentMap.Proofs.Traversal

/-!
# Routines of threads with keys of their own

A routine is what a thread does that has some of the keys to itself: requests, each decided upon by
what the thread has found before, and surveys, which are traversals with a visitor that is never
done. A survey shows the other threads' keys as well, but it is only reported what was shown for the
thread's own keys, and what the visitor found there; the visitor may load keys and make surveys of
its own. `Routine.program` is the program of a routine.

`Routine.replay` is what a routine would find in a plain map that nobody else uses. Its findings
name identities, and which ones depends on `supply`. A routine that does not tell identities apart
by their names (`Routine.Uniform`) finds the same under any renaming (`Routine.replay_rename`).
-/

namespace ConcurrentMap

variable {K V : Type}

/-- What a thread finds, in the order in which it does. -/
inductive Findings (K V : Type) where
  /-- Nothing more was found. -/
  | nil
  /-- A request was answered. -/
  | answered (answer : Answer V) (rest : Findings K V)
  /-- A survey was made: the handles that were shown for each key, and what the visitor found
  there. -/
  | surveyed (shown : K → List (Handle V)) (told : K → Findings K V) (rest : Findings K V)

namespace Findings

/-- The findings with the new identities. -/
def rename (ρ : Renaming) : Findings K V → Findings K V
  | nil => nil
  | answered answer rest => answered (answer.rename ρ) (rest.rename ρ)
  | surveyed shown told rest =>
    surveyed (fun key => (shown key).map (Handle.rename ρ)) (fun key => (told key).rename ρ)
      (rest.rename ρ)

@[simp] theorem rename_symm (ρ : Renaming) (found : Findings K V) :
    (found.rename ρ).rename ρ.symm = found := by
  induction found with
  | nil => rfl
  | answered answer rest ih => simp only [rename, Answer.rename_symm, ih]
  | surveyed shown told rest ihtold ih =>
      simp only [rename, Handle.map_rename_symm, ihtold, ih]

end Findings

/-- A visit of a survey. -/
structure Visit (K V : Type) where
  key : K
  held : Handle V
  /-- What the visitor found. -/
  found : Findings K V

namespace Visit

variable [BEq K] (mine : K → Bool) (visits : List (Visit K V))

/-- What was shown for the thread's own keys. -/
def shown (key : K) : List (Handle V) :=
  if mine key then (visits.filter (·.key == key)).map (·.held) else []

/-- What the visitor found at the thread's own keys. -/
def told (key : K) : Findings K V :=
  if mine key then ((visits.find? (·.key == key)).map (·.found)).getD .nil else .nil

end Visit

/-- What a thread does. -/
inductive Routine (K V : Type) where
  /-- Nothing is left to do. -/
  | stop
  /-- Make a request and go on from its answer. -/
  | request (r : Request K V) (next : Answer V → Routine K V)
  /-- Visit every key that holds a value, and go on from what is reported of the thread's own
  keys. -/
  | survey (visit : K → Handle V → Routine K V)
      (next : (K → List (Handle V)) → (K → Findings K V) → Routine K V)

/-- What is left of a supply of identities after a request. -/
def Request.spend (r : Request K V) (supply : Nat → Stamp) : Nat → Stamp :=
  if r.value?.isSome then fun n => supply (n + 1) else supply

namespace Routine

section Program

variable [BEq K] [BEq V]

/-- The program of the thread to which the keys `mine` belong. -/
def program (mine : K → Bool) : Routine K V → Program K V (Findings K V)
  | stop => return .nil
  | request r next => do
    let answer ← r.program
    let rest ← (next answer).program mine
    return .answered answer rest
  | survey visit next => do
    let visits ← Map.traverse (fun p => p) (fun key held visits => do
      let found ← (visit key held).program mine
      return .yield (visits ++ [⟨key, held, found⟩])) []
    let rest ← (next (Visit.shown mine visits) (Visit.told mine visits)).program mine
    return .surveyed (Visit.shown mine visits) (Visit.told mine visits) rest

/-- The program of the visits to some entries. -/
def visits (mine : K → Bool) (visit : K → Handle V → Routine K V) (entries : List (K × CellId))
    (seen : List (Visit K V)) : Program K V (List (Visit K V)) :=
  Map.visitEach (fun p => p) (fun key held seen => do
    let found ← (visit key held).program mine
    return .yield (seen ++ [⟨key, held, found⟩])) entries seen

theorem program_survey (mine : K → Bool) (visit : K → Handle V → Routine K V)
    (next : (K → List (Handle V)) → (K → Findings K V) → Routine K V) :
    (survey visit next).program mine = Map.itinerary >>= fun entries =>
      visits mine visit entries [] >>= fun seen =>
        (next (Visit.shown mine seen) (Visit.told mine seen)).program mine >>= fun rest =>
          .done (.surveyed (Visit.shown mine seen) (Visit.told mine seen) rest) :=
  Program.bind_assoc _ _ _

theorem visits_cons (mine : K → Bool) (visit : K → Handle V → Routine K V) (key : K) (c : CellId)
    (rest : List (K × CellId)) (seen : List (Visit K V)) :
    visits mine visit ((key, c) :: rest) seen = Cell.load c >>= fun
      | none => visits mine visit rest seen
      | some held => (visit key held).program mine >>= fun found =>
          visits mine visit rest (seen ++ [⟨key, held, found⟩]) := by
  refine congrArg (Cell.load c >>= ·) (funext fun found => ?_)
  cases found with
  | none => rfl
  | some held => exact Program.bind_assoc _ _ _

end Program

/-- The routine makes only requests that satisfy `P`, and its visitors write nothing. -/
def Only (P : Request K V → Prop) : Routine K V → Prop
  | stop => True
  | request r next => P r ∧ ∀ answer, (next answer).Only P
  | survey visit next =>
    (∀ key held, (visit key held).Only fun r => P r ∧ r.Reads) ∧
      ∀ shown told, (next shown told).Only P

/-- Visitors do not tell equal keys apart. -/
def Respects [BEq K] : Routine K V → Prop
  | stop => True
  | request _ next => ∀ answer, (next answer).Respects
  | survey visit next =>
    (∀ a b held, (a == b) = true → visit a held = visit b held) ∧
      (∀ key held, (visit key held).Respects) ∧ ∀ shown told, (next shown told).Respects

/-- There is nothing to tell apart if equal keys are the same. -/
theorem respects [BEq K] [LawfulBEq K] (c : Routine K V) : c.Respects := by
  induction c with
  | stop => trivial
  | request r next ih => exact ih
  | survey visit next ihvisit ih =>
      exact ⟨fun a b held hab => by rw [eq_of_beq hab], ihvisit, ih⟩

/-- The routine that does under the new identities what this one does under the old ones. -/
def rename (ρ : Renaming) : Routine K V → Routine K V
  | stop => stop
  | request r next => request r fun answer => (next (answer.rename ρ.symm)).rename ρ
  | survey visit next =>
    survey (fun key held => (visit key (held.rename ρ.symm)).rename ρ) fun shown told =>
      (next (fun key => (shown key).map (Handle.rename ρ.symm))
        fun key => (told key).rename ρ.symm).rename ρ

/-- The routine treats all identities alike, except those that the plain map `m` has, and all equal
keys. -/
structure Uniform [BEq K] (m : Plain K V) (c : Routine K V) : Prop where
  identities : ∀ ρ : Renaming, m.rename ρ = m → c.rename ρ = c
  keys : c.Respects

/-! ## Without other threads -/

section Replay

variable [BEq K] [BEq V]

/-- What a routine finds in a plain map that nobody else uses, and the map that it leaves behind.
The values that it installs get their identities from `supply`. -/
def replay (mine : K → Bool) :
    Routine K V → Plain K V → (Nat → Stamp) → Findings K V × Plain K V
  | stop, m, _ => (.nil, m)
  | request r next, m, supply =>
    let answered := m.apply (supply 0) r
    let rest := (next answered.1).replay mine answered.2 (r.spend supply)
    (.answered answered.1 rest.1, rest.2)
  | survey visit next, m, supply =>
    let shown := fun key => if mine key then (m key).toList else []
    let told := fun key =>
      if mine key then
        ((m key).map fun held => ((visit key held).replay mine m supply).1).getD .nil
      else .nil
    let rest := (next shown told).replay mine m supply
    (.surveyed shown told rest.1, rest.2)

/-- Under new identities a routine finds what it found before. -/
theorem replay_rename (ρ : Renaming) (mine : K → Bool) (c : Routine K V) (m : Plain K V)
    (supply : Nat → Stamp) :
    (c.rename ρ).replay mine (m.rename ρ) (ρ ∘ supply) =
      ((c.replay mine m supply).1.rename ρ, (c.replay mine m supply).2.rename ρ) := by
  induction c generalizing m supply with
  | stop => rfl
  | request r next ih =>
      have happly := m.apply_rename ρ (supply 0) r
      have hspend : r.spend (ρ ∘ supply) = ρ ∘ r.spend supply := by
        unfold Request.spend
        split <;> rfl
      simp only [rename, replay, Function.comp_apply, happly, hspend, Answer.rename_symm, ih,
        Findings.rename]
  | survey visit next ihvisit ih =>
      have hshown : ∀ key, (if mine key then (m.rename ρ key).toList else []) =
          (if mine key then (m key).toList else []).map (Handle.rename ρ) := by
        intro key
        cases hkey : m key <;> split <;> simp [Plain.rename, hkey]
      have htold : ∀ key, (if mine key then ((m.rename ρ key).map fun held =>
            (((visit key (held.rename ρ.symm)).rename ρ).replay mine (m.rename ρ)
              (ρ ∘ supply)).1).getD .nil else .nil) =
          (if mine key then ((m key).map fun held =>
            ((visit key held).replay mine m supply).1).getD .nil else .nil).rename ρ := by
        intro key
        cases hkey : m key <;> split <;> simp [Plain.rename, hkey, ihvisit, Findings.rename]
      simp only [rename, replay, hshown, htold, Handle.map_rename_symm, Findings.rename_symm, ih,
        Findings.rename]

end Replay

end Routine

end ConcurrentMap
