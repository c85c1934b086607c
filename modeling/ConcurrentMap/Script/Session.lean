import ConcurrentMap.Script.Interpreter

/-! # Sessions

A session carries a script out on a growing pool of maps, with nobody else around, and records
after each line what the map looks like from outside and which events were logged. It starts with
one map, number 0, that was never written.
-/

namespace ConcurrentMap

namespace Script

/-- The maps of a session, and the events of all of them, newest first. -/
structure Pool where
  maps : Array (Shared Key Value)
  log : List Event

namespace Pool

/-- One map that was never written. -/
def initial : Pool := ⟨#[.initial], []⟩

/-- Carry a program out on one of the maps, and move what it logs to the log of the pool. There is
no result if there is no such map, or if the program waits for ever. -/
def carryOut {α : Type} (map : Nat) (p : Program Key Value α) (pool : Pool) :
    Option (α × Pool) := do
  let s ← pool.maps[map]?
  let (x, s) ← p.run .insertion 0 s
  return (x, ⟨pool.maps.setIfInBounds map { s with log := [] }, s.log ++ pool.log⟩)

/-- Add a map that was never written, and answer its number. -/
def add (pool : Pool) : Nat × Pool :=
  (pool.maps.size, { pool with maps := pool.maps.push .initial })

end Pool

instance : MapHost (StateT Pool Option) := ⟨fun map p pool => pool.carryOut map p⟩

/-- A line of a session. -/
inductive Line where
  /-- Add a map that holds the given values, stored one after the other. -/
  | create (items : List (Key × Value))
  /-- Store the given values one after the other. -/
  | extend (map : Nat) (items : List (Key × Value))
  /-- Carry out a command. -/
  | command (command : Command)

/-- What a session records of a line: the reply, the size of the snapshot and its flag, and the
events logged, oldest first. -/
structure LineRecord where
  reply : Reply
  size : Nat
  amended : Bool
  events : List Event

/-- The computations of a session. -/
abbrev SessionM := StateT Registers (StateT Pool Option)

/-- Carry a line out; answer its reply and the number of the map it was for. -/
def Line.carryOut : Line → SessionM (Reply × Nat)
  | create items => do
    let map ← StateT.lift (modifyGet Pool.add)
    StateT.lift (MapHost.carryOut map (Map.extend items))
    return (.number map, map)
  | extend map items => do
    StateT.lift (MapHost.carryOut map (Map.extend items))
    return (.nothing, map)
  | command c => return (← c.toplevel, c.map)

/-- Carry a line out and record it. -/
def Line.record (line : Line) : SessionM LineRecord := do
  StateT.lift (modify fun pool => { pool with log := [] })
  let (reply, map) ← line.carryOut
  let snapshot ← StateT.lift (MapHost.carryOut map Action.readSnapshot.program)
  let pool ← StateT.lift get
  return ⟨reply, snapshot.size, snapshot.amended, pool.log.reverse⟩

/-- Record the lines one after the other. -/
def recordAll (lines : List Line) : SessionM (List LineRecord) := do
  let reversed ← lines.foldlM
    (fun (seen : List LineRecord) line => return (← line.record) :: seen) []
  return reversed.reverse

/-- The records of all lines. There are none if some line waits for ever, or is for a map that
does not exist. -/
def session (lines : List Line) : Option (List LineRecord) :=
  ((recordAll lines).run' []).run' .initial

end Script

end ConcurrentMap
