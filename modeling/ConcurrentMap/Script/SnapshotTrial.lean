import ConcurrentMap.Script.CellTrial

/-! # Trials of snapshots

A trial makes snapshots, numbered from zero, and looks at them and at the cells they share. An
operation on a cell through one snapshot is seen through every other one that leads to that cell.
-/

namespace ConcurrentMap

namespace Script

/-- A line of a trial; snapshots are given by their numbers. -/
inductive SnapshotLine where
  /-- Add a snapshot without entries. -/
  | empty
  /-- Add a snapshot of new cells. -/
  | ofEntries (pairs : List (Key × Content Value))
  /-- Add the snapshot with the same cells that is announced as incomplete. -/
  | markAmended (snapshot : Nat)
  | amended (snapshot : Nat)
  | size (snapshot : Nat)
  /-- The written form of the cell of a key. -/
  | find (snapshot : Nat) (key : Key)
  /-- The written forms of all cells. -/
  | entries (snapshot : Nat)
  /-- Ask whether a key leads to one cell in both snapshots. -/
  | same (snapshot other : Nat) (key : Key)
  /-- Carry out an operation on the cell of a key. -/
  | request (snapshot : Nat) (key : Key) (request : CellRequest)

/-- What a line replies. -/
inductive SnapshotReply where
  | reply (r : Reply)
  /-- The keys and the written forms of their cells. -/
  | entries (pairs : List (Key × String))

/-- The cells that snapshots lead to, and the snapshots made so far. -/
structure SnapshotTrial where
  shared : Shared Key Value
  snapshots : Array (Snapshot Key)

namespace SnapshotTrial

/-- No cells and no snapshots. -/
def initial : SnapshotTrial := ⟨.initial, #[]⟩

/-- Add a snapshot, and answer its number. -/
def add (trial : SnapshotTrial) (snapshot : Snapshot Key) : Reply × SnapshotTrial :=
  (.number trial.snapshots.size, { trial with snapshots := trial.snapshots.push snapshot })

/-- A table of new cells with the given contents. -/
def makeCells : List (Key × Content Value) → Table Key → Shared Key Value →
    Table Key × Shared Key Value
  | [], table, s => (table, s)
  | (key, content) :: rest, table, s =>
    let (stamp, s) := s.drawStamp
    let (c, s) := s.addCell ⟨stamp, content⟩
    makeCells rest (table.insert key c) s

/-- The written form of a cell. -/
def written (trial : SnapshotTrial) (c : CellId) : String :=
  (trial.shared.slot c).content.written .compact

end SnapshotTrial

/-- Carry a line out. There is no result if there is no such snapshot. -/
def SnapshotLine.carryOut (trial : SnapshotTrial) :
    SnapshotLine → Option (SnapshotReply × SnapshotTrial)
  | empty =>
    let (r, trial) := trial.add .empty
    some (.reply r, trial)
  | ofEntries pairs =>
    let (table, s) := SnapshotTrial.makeCells pairs .empty trial.shared
    let (r, trial) := { trial with shared := s }.add (.ofTable table)
    some (.reply r, trial)
  | markAmended i => do
    let (r, trial) := trial.add (← trial.snapshots[i]?).markAmended
    return (.reply r, trial)
  | amended i => return (.reply (.flag (← trial.snapshots[i]?).amended), trial)
  | size i => return (.reply (.number (← trial.snapshots[i]?).size), trial)
  | find i key => do
    let cell := (← trial.snapshots[i]?).find? key
    return (.reply (cell.elim .nothing fun c => .text (trial.written c)), trial)
  | entries i => do
    let snapshot ← trial.snapshots[i]?
    let pairs := snapshot.table.entries.map fun e => (e.1, trial.written e.2)
    return (.entries (sortByKey pairs), trial)
  | same i j key => do
    match (← trial.snapshots[i]?).find? key, (← trial.snapshots[j]?).find? key with
    | some c, some d => return (.reply (.flag (c == d)), trial)
    | _, _ => return (.reply .nothing, trial)
  | request i key r => do
    match (← trial.snapshots[i]?).find? key with
    | none => return (.reply .nothing, trial)
    | some c =>
      let ((reply, _), s) ← (r.program c).run .insertion 0 trial.shared
      return (.reply reply, { trial with shared := s })

/-- The replies to all lines. -/
def snapshotTrial (lines : List SnapshotLine) : Option (List SnapshotReply) := do
  let (reversed, _) ← lines.foldlM
    (fun ((seen : List SnapshotReply), (trial : SnapshotTrial)) line => do
      let (reply, trial) ← line.carryOut trial
      return (reply :: seen, trial))
    ([], .initial)
  return reversed.reverse

end Script

end ConcurrentMap
