import ConcurrentMap.Script.Interpreter

/-! # Trials of a single cell

A trial carries operations out on one cell, with registers for the handles that they yield, and
records after each the written form of what the cell holds. The operations that belong under the
mutex are carried out without it, since nobody else is around.

Any line may name a register to be set to what the line yields. A line that yields no handle
empties it, whatever kind of line it is.
-/

namespace ConcurrentMap

namespace Script

/-- An operation on a cell that may be kept in a register. -/
inductive CellRequest where
  | load
  | tryStore (value : Value)
  | trySwap (value : Value)
  | store (value : Value)
  | swap (value : Value)
  | revive
  | tryLoadOrStore (value : Value)
  | loadOrStore (value : Value)
  | remove
  | bury
  | compareAndSwap (old new : Value)
  | compareAndDelete (old : Value)

/-- What a line of a trial does. -/
inductive CellCommand where
  /-- Carry out an operation. -/
  | request (request : CellRequest)
  /-- Look at the value of a handle. -/
  | read (name : String)
  /-- Ask whether two handles come from one write. -/
  | same (name other : String)
  /-- The written form of what the cell holds. -/
  | describe (layout : Layout)

/-- A line of a trial. -/
structure CellLine where
  command : CellCommand
  /-- The register that is set to the handle yielded, or emptied if there is none. -/
  keep : Option String

/-- What is replied when a cell is tombstoned. -/
def tombstonedReply : Reply := .text "tombstoned"

/-- A new handle to a value. -/
def newHandle {K : Type} (value : Value) : Program K Value (Handle Value) :=
  return ⟨← Action.drawStamp.program, value⟩

/-- Carry an operation on a cell out; answers the reply and the handle it yields. -/
def CellRequest.program {K : Type} (c : CellId) :
    CellRequest → Program K Value (Reply × Option (Handle Value))
  | load => do
    let held ← Cell.load c
    return (.held (held.map Handle.value), held)
  | tryStore value => return (.flag (← Cell.tryStore c (← newHandle value)), none)
  | trySwap value => do
    match ← Cell.trySwap c (← newHandle value) with
    | some previous => return (.held (previous.map Handle.value), previous)
    | none => return (tombstonedReply, none)
  | store value => do
    Cell.store c (← newHandle value)
    return (.nothing, none)
  | swap value => do
    let previous ← Cell.swap c (← newHandle value)
    return (.held (previous.map Handle.value), previous)
  | revive => return (.flag (← Cell.revive c), none)
  | tryLoadOrStore value => do
    match ← Cell.tryLoadOrStore c (← newHandle value) with
    | some (held, loaded) => return (.settled held.value loaded, some held)
    | none => return (tombstonedReply, none)
  | loadOrStore value => do
    let (held, loaded) ← Cell.loadOrStore c (← newHandle value)
    return (.settled held.value loaded, some held)
  | remove => do
    let removed ← Cell.remove c
    return (.held (removed.map Handle.value), removed)
  | bury => return (.flag (← Cell.bury c), none)
  | compareAndSwap old new =>
    return (.flag (← Cell.compareAndSwap c old (← newHandle new)), none)
  | compareAndDelete old => return (.flag (← Cell.compareAndDelete c old), none)

/-- A trial of several cells in one state: what all of them hold, and the handles kept. -/
abbrev Trial := Shared Key Value × Registers

/-- Carry a command out on a cell; answers the reply, the handle yielded, and the state left. Only
operations yield handles. -/
def CellCommand.carryOut (c : CellId) (trial : Trial) :
    CellCommand → Option ((Reply × Option (Handle Value)) × Shared Key Value)
  | request r => (r.program c).run .insertion 0 trial.1
  | read name =>
    some ((.held ((trial.2.find? name).map fun kept => kept.handle.value), none), trial.1)
  | same name other =>
    match trial.2.find? name, trial.2.find? other with
    | some a, some b => some ((.flag (a.same b), none), trial.1)
    | _, _ => some ((.nothing, none), trial.1)
  | describe layout =>
    some ((.text ((trial.1.slot c).content.written layout), none), trial.1)

/-- Carry a line out on a cell; answers the reply and what is left. -/
def CellLine.carryOut (c : CellId) (trial : Trial) (line : CellLine) : Option (Reply × Trial) := do
  let ((reply, handle), s) ← line.command.carryOut c trial
  let regs := line.keep.elim trial.2 fun name => trial.2.set name (handle.map fun h => ⟨0, h⟩)
  return (reply, (s, regs))

/-- Carry the lines out on one cell that starts with the given content. For each line there is the
reply and the written form of the cell after it. -/
def cellTrial (start : Content Value) (lines : List CellLine) : Option (List (Reply × String)) := do
  let (stamp, s) := Shared.drawStamp (.initial : Shared Key Value)
  let (c, s) := s.addCell ⟨stamp, start⟩
  let (reversed, _) ← lines.foldlM
    (fun ((seen : List (Reply × String)), (trial : Trial)) line => do
      let (reply, trial) ← line.carryOut c trial
      return ((reply, (trial.1.slot c).content.written .compact) :: seen, trial))
    ([], (s, []))
  return reversed.reverse

end Script

end ConcurrentMap
