import ConcurrentMap.Script.Command

/-! # Carrying scripts out

The interpreter only needs to know where the maps of a script are: a `MapHost` carries the
programs of the map with a given number out. The same script then runs against a pool of maps that
it has for itself, or as one thread among others on a single map, where the host is the program of
the thread.

A visitor that fails ends the whole command it belongs to, however deeply it is nested. What was
done before stays done, in the maps and in the registers.
-/

namespace ConcurrentMap

namespace Script

/-- A monad that has some maps, and carries programs out on the one of a given number. -/
class MapHost (n : Type → Type) where
  carryOut : {α : Type} → Nat → Program Key Value α → n α

/-- A program has a single map: the one it runs on. -/
instance : MapHost (Program Key Value) := ⟨fun _ p => p⟩

/-! ## Registers -/

/-- A handle, and the number of the map it comes from. -/
structure Kept where
  map : Nat
  handle : Handle Value

/-- Both handles come from the same write to the same map. -/
def Kept.same (a b : Kept) : Bool := a.map == b.map && a.handle.same b.handle

/-- The registers in use. -/
abbrev Registers := List (String × Kept)

namespace Registers

/-- The handle in a register, if it holds one. -/
def find? (regs : Registers) (name : String) : Option Kept := regs.lookup name

/-- Empty a register. -/
def drop (regs : Registers) (name : String) : Registers := regs.filter fun r => !(r.1 == name)

/-- Put a handle into a register, or empty it. -/
def set (regs : Registers) (name : String) : Option Kept → Registers
  | some kept => (name, kept) :: regs.drop name
  | none => regs.drop name

end Registers

/-- What `command` replies and how it leaves the registers. The pair being visited, if any, is
`visited`. -/
def RegisterCommand.carryOut (visited : Option Value) (regs : Registers) :
    RegisterCommand → Reply × Registers
  | read name =>
    match regs.find? name with
    | some kept => (.held (some kept.handle.value), regs)
    | none => (.emptyRegister name, regs)
  | copy name target =>
    match regs.find? name with
    | some kept =>
      (.held (some kept.handle.value), (target.map (regs.set · (some kept))).getD regs)
    | none => (.emptyRegister name, regs)
  | drop name => (.flag (regs.find? name).isSome, regs.drop name)
  | same name other =>
    match regs.find? name, regs.find? other with
    | some a, some b => (.flag (a.same b), regs)
    | none, _ => (.emptyRegister name, regs)
    | _, none => (.emptyRegister other, regs)
  | equals name value =>
    let value := match value with
      | .given v => v
      | .visited => visited.getD .null
    match regs.find? name with
    | some kept => (.flag (kept.handle.value == value), regs)
    | none => (.emptyRegister name, regs)
  | describe name layout =>
    match regs.find? name with
    | some kept => (.text (kept.handle.written layout), regs)
    | none => (.emptyRegister name, regs)
  | display name =>
    match regs.find? name with
    | some kept => (.text kept.handle.value.shown, regs)
    | none => (.emptyRegister name, regs)

/-! ## Commands -/

/-- A visitor failed. -/
structure VisitorFailed where

/-- Computations with registers, which a failing visitor ends. -/
abbrev ScriptT (n : Type → Type) := ExceptT VisitorFailed (StateT Registers n)

/-- The key that a term stands for during a visit. -/
def KeyTerm.key (visited : Option (Key × Value)) : KeyTerm → Key
  | given key => key
  | visitedWith suffix =>
    match visited with
    | some (key, _) => key.append suffix
    | none => suffix

/-- The value that a term stands for during a visit. -/
def ValueTerm.value (pair : Option (Key × Value)) : ValueTerm → Value
  | given value => value
  | visited => (pair.map Prod.snd).getD .null

/-- What a script reports of an answer. -/
def Reply.ofAnswer : Answer Value → Reply
  | .finished => .nothing
  | .found handle => .held (handle.map Handle.value)
  | .settled handle loaded => .settled handle.value loaded
  | .decided changed => .flag changed

/-- Keep the handle that an answer yields. An answer that may yield one and does not empties the
register. -/
def Registers.keep (regs : Registers) (map : Nat) (name : String) (answer : Answer Value) :
    Registers :=
  match answer with
  | .found held => regs.set name (held.map fun h => ⟨map, h⟩)
  | .settled held _ => regs.set name (some ⟨map, held⟩)
  | .finished => regs
  | .decided _ => regs

/-- What a traversal has seen so far, latest first. -/
structure Progress where
  visits : Nat := 0
  items : List (Key × Value) := []
  byKey : List (Key × List Reply) := []
  byVisit : List (Nat × List Reply) := []

/-- What a traversal reports at its end. -/
def Progress.report (p : Progress) (options : TraversalOptions) : Reply :=
  let inScope (key : Key) : Bool := options.scope.all key.beginsWith
  .traversed
    (if options.scope.isNone then some p.visits else none)
    (if options.stopAt.isNone then
      some (sortByKey (p.items.reverse.filter fun e => inScope e.1)) else none)
    (if options.tellsByKey then
      some (sortByKey (p.byKey.reverse.filter fun e => inScope e.1)) else none)
    (if options.tellsByVisit then some p.byVisit.reverse else none)

/-- The condition holds at the given visit. -/
def Condition.holds (key : Key) (visit : Nat) : Condition → Bool
  | always => true
  | atKey k => k == key
  | atVisit n => n == visit

/-- The replies to the commands of the clause are reported by the number of the visit. -/
def Condition.isAtVisit : Condition → Bool
  | atVisit _ => true
  | always => false
  | atKey _ => false

section Interpreter

variable {n : Type → Type} [Monad n] [MapHost n]

/-- Carry a program out on the map of the given number. -/
def useMap {α : Type} (map : Nat) (p : Program Key Value α) : ScriptT n α :=
  ExceptT.lift (StateT.lift (MapHost.carryOut map p))

/-- One visit of a traversal, given the replies of its clauses by key and by visit. -/
def Progress.visit (p : Progress) (options : TraversalOptions) (known : Bool) (key : Key)
    (value : Value) (replies : List Reply × List Reply) : ScriptT n (ForInStep Progress) :=
  let visit := p.visits + 1
  let p : Progress :=
    { visits := visit
      items := (key, value) :: p.items
      byKey := (key, replies.1) :: p.byKey
      byVisit := if known then (visit, replies.2) :: p.byVisit else p.byVisit }
  if options.failAt = some visit then
    throw ⟨⟩
  else if options.stopAt = some visit then
    return .done p
  else
    return .yield p

mutual

/-- Carry a command out. The innermost visit that it is part of has reached `visited`. -/
def Command.carryOut (visited : Option (Key × Value)) : Command → ScriptT n Reply
  | .request map r keep => do
    let answer ← useMap map (r.map (·.key visited) (·.value visited)).program
    match keep with
    | none => pure ()
    | some name => modifyThe Registers (·.keep map name answer)
    return .ofAnswer answer
  | .register _ command => do
    let (reply, regs) := command.carryOut (visited.map Prod.snd) (← getThe Registers)
    set regs
    return reply
  | .describe map layout => do
    let snapshot ← useMap map Action.readSnapshot.program
    return .text (snapshot.written layout)
  | .traverse map options clauses => do
    let seen ← Map.traverse (useMap map)
      (fun key held (p : Progress) => do
        let visit := p.visits + 1
        let replies ← visitClauses key held.value visit clauses
        let known := clauses.any fun c => c.1 == .atVisit visit
        p.visit options known key held.value replies)
      {}
    return seen.report options

/-- Carry the commands of a list out, one after the other. -/
def carryOutAll (visited : Option (Key × Value)) : List Command → ScriptT n (List Reply)
  | [] => return []
  | command :: rest => do
    let reply ← command.carryOut visited
    let replies ← carryOutAll visited rest
    return reply :: replies

/-- Carry the commands of those clauses out whose condition holds at a visit; answer the replies
reported by key and those reported by visit. -/
def visitClauses (key : Key) (value : Value) (visit : Nat) :
    List (Condition × List Command) → ScriptT n (List Reply × List Reply)
  | [] => return ([], [])
  | (condition, commands) :: rest => do
    let replies ←
      if condition.holds key visit then carryOutAll (some (key, value)) commands
      else pure []
    let (byKey, byVisit) ← visitClauses key value visit rest
    return if condition.isAtVisit then (byKey, replies ++ byVisit) else (replies ++ byKey, byVisit)

end

/-- Carry a command out that is part of no visit. A failing visitor ends it with the reply
`Reply.failed`. -/
def Command.toplevel (command : Command) : StateT Registers n Reply := do
  match ← (command.carryOut none).run with
  | .ok reply => return reply
  | .error _ => return .failed

/-- Carry the commands of a script out, and list the replies. -/
def replies (commands : List Command) : StateT Registers n (List Reply) := do
  let reversed ← commands.foldlM (fun seen command => return (← command.toplevel) :: seen) []
  return reversed.reverse

end Interpreter

end Script

end ConcurrentMap
