import ConcurrentMap.Request
import ConcurrentMap.Text

/-! # Scripts

A script is a list of commands for one or more maps. Handles that a command yields can be kept in
registers, under a name, and looked at by later commands.

The visitor of a traversal is a script as well: a list of clauses, each a list of commands and the
condition under which a visit carries them out. So traversals nest to any depth.
-/

namespace ConcurrentMap

namespace Script

/-- A key, as a command spells it. -/
inductive KeyTerm where
  | given (key : Key)
  /-- The key that is being visited, with another one appended or added. -/
  | visitedWith (suffix : Key)
  deriving Repr, DecidableEq

/-- A value, as a command spells it. -/
inductive ValueTerm where
  | given (value : Value)
  /-- The value that is being visited, as it was when its key was reached. -/
  | visited
  deriving Repr

/-- Commands that look at the handles in the registers. -/
inductive RegisterCommand where
  /-- Look at the value. -/
  | read (name : String)
  /-- Copy the handle to another register. -/
  | copy (name : String) (target : Option String)
  /-- Empty the register. -/
  | drop (name : String)
  /-- Ask whether two handles come from one write. -/
  | same (name other : String)
  /-- Compare the value of the handle, which stands on the left. -/
  | equals (name : String) (value : ValueTerm)
  /-- The written form of the handle. -/
  | describe (name : String) (layout : Layout)
  /-- The value as it is shown to a reader. -/
  | display (name : String)
  deriving Repr

/-- When a visit carries out the commands of a clause. -/
inductive Condition where
  /-- At each visit. -/
  | always
  /-- When the visited key equals this one. -/
  | atKey (key : Key)
  /-- At the visit of this number, counting from one. -/
  | atVisit (n : Nat)
  deriving Repr, DecidableEq

/-- How a traversal ends early, and what it reports. -/
structure TraversalOptions where
  /-- The visitor fails at the end of this visit. -/
  failAt : Option Nat
  /-- The visitor is done at the end of this visit. -/
  stopAt : Option Nat
  /-- Only keys that begin like this are reported, and the number of visits is not. -/
  scope : Option String
  /-- Report the replies of the clauses for all visits and for single keys. -/
  tellsByKey : Bool
  /-- Report the replies of the clauses for single visits. -/
  tellsByVisit : Bool
  deriving Repr, DecidableEq

/-- One command, for the map of the given number. -/
inductive Command where
  /-- Carry out a request, and keep the handle that it yields in a register. -/
  | request (map : Nat) (request : Request KeyTerm ValueTerm) (keep : Option String)
  /-- Look at a register. -/
  | register (map : Nat) (command : RegisterCommand)
  /-- The written form of the map. -/
  | describe (map : Nat) (layout : Layout)
  /-- Visit the keys of the map. -/
  | traverse (map : Nat) (options : TraversalOptions) (clauses : List (Condition × List Command))

/-- The number of the map that a command is for. -/
def Command.map : Command → Nat
  | request map _ _ => map
  | register map _ => map
  | describe map _ => map
  | traverse map _ _ => map

/-- What a command reports. -/
inductive Reply where
  /-- Nothing to report. -/
  | nothing
  | flag (b : Bool)
  | number (n : Nat)
  | text (s : String)
  /-- The value of a handle, if there is one. -/
  | held (value : Option Value)
  /-- The value that is in the map, and whether it was there before. -/
  | settled (value : Value) (loaded : Bool)
  /-- What was seen by a traversal: the number of visits, the pairs visited, the replies by key,
  and the replies by number of the visit. -/
  | traversed (visits : Option Nat) (items : Option (List (Key × Value)))
      (byKey : Option (List (Key × List Reply))) (byVisit : Option (List (Nat × List Reply)))
  /-- The register is empty. -/
  | emptyRegister (name : String)
  /-- A visitor failed. -/
  | failed

end Script

end ConcurrentMap
