import ConcurrentMap.Script.Concurrent

/-! # Contests

In a contest all threads make the same calls on the same keys. Which call of which thread gets
which answer depends on the interleaving, but some sums do not: of any number of racing deletions
of a key one removes its value, no increment is lost, every value that was stored is replaced
exactly once or is there at the end. A contest reports only such sums.
-/

namespace ConcurrentMap

namespace Script

/-- What the threads of a contest do with each key. -/
inductive Contest where
  /-- Add one to the integer held, starting at zero. -/
  | count
  | loadOrStore
  | swap
  | loadAndDelete
  | compareAndDelete (old : Value)
  | compareAndSwap (old : Value)

namespace Contest

/-- Marks the values that a won `compareAndSwap` stores. -/
def winnerMark : Int := 1000000

/-- The integer above, and any other value itself. -/
def successor (v : Value) : Value :=
  match v with
  | .int n => .int (n + 1)
  | v => v

/-- Load the integer of a key, or let it be zero, and replace it by the one above; begin again if
it has changed in between, at most as often as given. -/
def increment (key : Key) : Nat → Program Key Value Unit
  | 0 => return ()
  | attempts + 1 => do
    let held ←
      match ← Map.load key with
      | some held => pure held.value
      | none => do
        let (held, _) ← Map.loadOrStore key (.ofInt 0)
        pure held.value
    if ← Map.compareAndSwap key held (successor held) then
      return ()
    else
      increment key attempts

/-- How often an increment has to be tried at most. An attempt fails only if somebody else has
incremented the same key, or given it its first value, in between; every call of every thread does
so at most once, and the same key may be on the list of keys any number of times. -/
def attempts (threads calls : Nat) (keys : List Key) : Nat := threads * calls * keys.length + 2

/-- One call of a thread on one of the keys; answers what it records, if anything. -/
def call (contest : Contest) (attempts : Nat) (key : Key) (t i : Nat) :
    Program Key Value (Option Value) :=
  match contest with
  | count => do
    increment key attempts
    return none
  | loadOrStore => do
    let (held, loaded) ← Map.loadOrStore key (.ofInt t)
    return if loaded then none else some held.value
  | swap => return (← Map.swap key (.ofInt (1000 * (t + 1) + i))).map Handle.value
  | loadAndDelete => return (← Map.loadAndDelete key).map Handle.value
  | compareAndDelete old =>
    return if ← Map.compareAndDelete key old then some (.ofInt 1) else none
  | compareAndSwap old =>
    return if ← Map.compareAndSwap key old (.ofInt (winnerMark + t)) then some (.ofInt 1) else none

/-- The calls of a thread on one key; answers what was recorded. -/
def callsOn (contest : Contest) (attempts calls : Nat) (key : Key) (t : Nat) :
    Program Key Value (List (Option Value)) := do
  let reversed ← (List.range calls).foldlM
    (fun seen i => return (← contest.call attempts key t i) :: seen) []
  return reversed.reverse

/-- All calls of a thread; answers what was recorded for each key, in the order of the keys. -/
def thread (contest : Contest) (threads calls : Nat) (keys : List Key) (t : Nat) :
    Program Key Value (List (List (Option Value))) := do
  let reversed ← keys.foldlM
    (fun seen key =>
      return (← contest.callsOn (attempts threads calls keys) calls key t) :: seen) []
  return reversed.reverse

/-- What a contest reports of a key at its end. -/
inductive Verdict where
  | value (v : Value)
  | flag (b : Bool)

/-- The report of a contest on one key: the values recorded by all threads, the number of calls
that recorded none, and the verdict. -/
structure Report where
  key : Key
  recorded : List Value
  silent : Nat
  verdict : Verdict

/-- List values by the integers that they are. -/
def sortValues (vs : List Value) : List Value :=
  vs.mergeSort fun a b => decide (a.int?.getD 0 ≤ b.int?.getD 0)

/-- The value if it is an integer, else null. -/
def integerOrNull (v : Value) : Value :=
  match v with
  | .int n => .int n
  | _ => .null

/-- The value with the name of the winner removed from it. -/
def anonymous (v : Value) : Value :=
  match v.int? with
  | some n => if winnerMark ≤ n then .ofInt winnerMark else v
  | none => v

/-- The report on a key, given everything that was recorded for it and what it holds last. -/
def report (contest : Contest) (key : Key) (recorded : List (Option Value))
    (last : Option Value) : Report :=
  let values := recorded.filterMap id
  let silent := recorded.length - values.length
  let held := last.getD .null
  match contest with
  | count => ⟨key, sortValues values, silent, .value (integerOrNull held)⟩
  | loadAndDelete => ⟨key, sortValues values, silent, .value (integerOrNull held)⟩
  | compareAndDelete _ => ⟨key, sortValues values, silent, .value (integerOrNull held)⟩
  | compareAndSwap _ => ⟨key, sortValues values, silent, .value (anonymous held)⟩
  | loadOrStore =>
    let lost :=
      match values with
      | [stored] => !last.any (stored == ·)
      | _ => false
    ⟨key, values.map fun _ => .ofInt 0, silent, .flag (!lost)⟩
  | swap => ⟨key, sortValues (values ++ last.toList), silent, .flag last.isSome⟩

/-- The values that the keys hold, last key first. -/
def lasts (keys : List Key) : Program Key Value (List (Option Value)) :=
  keys.foldlM (fun seen key => return (← Map.load key).map Handle.value :: seen) []

/-- Prepare a map, let the threads contend for its keys, and report on each key. There is no
answer if some thread waits for ever. -/
def hold (contest : Contest) (setup : List Command) (keys : List Key) (threads calls : Nat) :
    Option (List Report) := do
  let (_, s) ← (Script.thread setup).run .insertion 0 .initial
  let programs := (List.range threads).map (contest.thread threads calls keys)
  let turns := turnsPerCommand * threads * calls * keys.length
  let (recorded, s) ← Machine.interleave .insertion programs turns s
  let (reversed, _) ← (lasts keys).run .insertion 0 s
  return (keys.zip reversed.reverse).zipIdx.map fun ((key, last), i) =>
    contest.report key (recorded.flatMap fun ofThread => ofThread[i]?.getD []) last

end Contest

/-! ## Traversals among changes -/

namespace Churn

/-- What traversals saw while other threads kept changing some of the keys: how often one visited
a key twice, how many did not show exactly the pairs that nobody changed, and the pairs at the
end. -/
structure Report where
  duplicates : Nat
  lost : Nat
  remaining : List (Key × Value)

/-- The pairs visited by one traversal. -/
def pairs : Program Key Value (List (Key × Value)) :=
  return (← Map.contents).map fun e => (e.1, e.2.value)

/-- The pairs that a traversal of a prepared map shows, without the keys that will change. -/
def stable (changing : List Key) (seen : List (Key × Value)) : List (Key × Value) :=
  sortByKey (seen.filter fun e => !changing.contains e.1)

/-- The number of visits of keys that were visited before. -/
def repeats : List (Key × Value) → Nat
  | [] => 0
  | e :: rest => (if rest.any (·.1 == e.1) then 1 else 0) + repeats rest

/-- Traverse the map the given number of times; answers how many visits repeated a key, and how
many traversals did not show the very pairs that are expected of the keys that do not change. A
pair is expected to be identical, not just equal: a NaN has to show as the NaN that it is. -/
def observe (changing : List Key) (expected : List (Key × Value)) (rounds : Nat) :
    Program Key Value (Nat × Nat) :=
  (List.range rounds).foldlM
    (fun (duplicates, lost) _ => do
      let seen ← pairs
      let missed := if stable changing seen = expected then 0 else 1
      return (duplicates + repeats seen, lost + missed))
    (0, 0)

/-- Change each key in the given rounds, in one of three ways in turn. -/
def disturb (changing : List Key) (t rounds : Nat) : Program Key Value (Nat × Nat) := do
  (List.range rounds).forM fun i =>
    changing.forM fun key => do
      match (i + t) % 3 with
      | 0 => Map.delete key
      | 1 =>
        let _ ← Map.swap key (.ofInt i)
        return ()
      | _ => Map.store key (.ofInt i)
  return (0, 0)

/-- Prepare a map, traverse it again and again while the other threads change some of its keys,
then delete those keys and traverse it once more. -/
def hold (setup : List Command) (changing : List Key) (threads rounds : Nat) : Option Report := do
  let (_, s) ← (Script.thread setup).run .insertion 0 .initial
  let (before, s) ← Program.run .insertion 0 pairs s
  let expected := stable changing before
  let programs := (List.range threads).map fun t =>
    if t = 0 then observe changing expected rounds else disturb changing t rounds
  let turns := turnsPerCommand * threads * rounds * (changing.length + 1)
  let (tallies, s) ← Machine.interleave .insertion programs turns s
  let (_, s) ← Program.run .insertion 0 (changing.forM Map.delete) s
  let (after, _) ← Program.run .insertion 0 pairs s
  let duplicates := (tallies.map Prod.fst).foldl (· + ·) 0
  let lost := (tallies.map Prod.snd).foldl (· + ·) 0
  return ⟨duplicates, lost, sortByKey after⟩

end Churn

end Script

end ConcurrentMap
