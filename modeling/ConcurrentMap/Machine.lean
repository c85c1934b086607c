import ConcurrentMap.Program

/-! # Threads that share a map

A machine is the shared state and, for each thread, the program it still has to perform. One step
of the machine is one atomic step of one thread, and a schedule says whose turn it is: any
interleaving of the threads' actions is the run of some schedule, and a turn of a thread that is
done, or that waits for the mutex, changes nothing.

Schedules are finite, and a machine may stop in the middle of things. `Machine.finish` runs what is
left, one thread after the other and the holder of the mutex first.
-/

namespace ConcurrentMap

/-- The shared state and what each thread still has to do. -/
structure Machine (K V α : Type) where
  shared : Shared K V
  threads : Array (Program K V α)

namespace Machine

variable {K V α : Type} [BEq K]

/-- One atomic step of thread `t`, if it has one. -/
def step (order : Enumeration K) (m : Machine K V α) (t : ThreadId) : Machine K V α :=
  match m.threads[t]? with
  | none => m
  | some p =>
    match p.step order t m.shared with
    | none => m
    | some (p', s') => ⟨s', m.threads.setIfInBounds t p'⟩

/-- The steps of a whole schedule. -/
def follow (order : Enumeration K) (m : Machine K V α) (schedule : List ThreadId) :
    Machine K V α :=
  schedule.foldl (step order) m

/-- All threads are done, with these results. -/
def Finished (m : Machine K V α) (results : List α) : Prop :=
  m.threads.toList.map Program.result? = results.map some

/-- Run the programs one after the other, the first one as thread `t`, and list their results. -/
def runEach (order : Enumeration K) :
    ThreadId → List (Program K V α) → Shared K V → Option (List α × Shared K V)
  | _, [], s => some ([], s)
  | t, p :: rest, s => do
    let (x, s) ← p.run order t s
    let (xs, s) ← runEach order (t + 1) rest s
    return (x :: xs, s)

/-- Let the holder of the mutex, if there is one, run to its end. -/
def finishHolder (order : Enumeration K) (m : Machine K V α) : Option (Machine K V α) :=
  match m.shared.holder with
  | none => some m
  | some t =>
    match m.threads[t]? with
    | none => some m
    | some p => do
      let (x, s) ← p.run order t m.shared
      return ⟨s, m.threads.setIfInBounds t (.done x)⟩

/-- Run every thread to its end, the holder of the mutex first, and list the results. -/
def finish (order : Enumeration K) (m : Machine K V α) : Option (List α × Shared K V) := do
  let m ← m.finishHolder order
  runEach order 0 m.threads.toList m.shared

end Machine

/-! ## Schedules -/

namespace Schedule

/-- A step of a linear congruence, whose high bits look random. -/
def mix (n : Nat) : Nat := (n * 6364136223846793005 + 1442695040888963407) % (1 <<< 64)

/-- As many turns as asked for, scattered over the threads `0` to `threads - 1`. -/
def scattered (threads turns : Nat) : List ThreadId :=
  (List.range turns).map fun i => (mix (mix i) >>> 33) % threads

end Schedule

namespace Machine

variable {K V α : Type} [BEq K]

/-- Interleave the programs for `turns` scattered turns, then run them to their ends. -/
def interleave (order : Enumeration K) (programs : List (Program K V α)) (turns : Nat)
    (s : Shared K V) : Option (List α × Shared K V) :=
  let start : Machine K V α := ⟨s, programs.toArray⟩
  (start.follow order (Schedule.scattered programs.length turns)).finish order

end Machine

end ConcurrentMap
