import ConcurrentMap.Machine
import ConcurrentMap.Script.Interpreter

/-! # Scripts on several threads

Each thread carries its own script out, with its own registers, on one map that all share. One
script prepares the map before the threads start, another one looks at it after they are done.

The threads' programs are interleaved action by action. The replies of scripts that keep to their
own keys do not depend on how.
-/

namespace ConcurrentMap

namespace Script

/-- The program of a thread that carries a script out. -/
def thread (commands : List Command) : Program Key Value (List Reply) :=
  (replies commands).run' []

/-- The number of turns for which threads are interleaved, for each command that they have. -/
def turnsPerCommand : Nat := 24

/-- What the scripts reply. There is no answer if some thread waits for ever. -/
def concurrently (setup : List Command) (threads : List (List Command)) (after : List Command) :
    Option (List Reply × List (List Reply) × List Reply) := do
  let (before, s) ← (thread setup).run .insertion 0 .initial
  let turns := turnsPerCommand * (threads.map List.length).foldl (· + ·) 0
  let (during, s) ← Machine.interleave .insertion (threads.map thread) turns s
  let (afterwards, _) ← (thread after).run .insertion 0 s
  return (before, during, afterwards)

end Script

end ConcurrentMap
