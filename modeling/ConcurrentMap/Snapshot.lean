import ConcurrentMap.Table

/-! # Published snapshots

A snapshot is the table that readers consult without the mutex, together with a flag. A snapshot
is immutable: the map publishes another one in its place. `amended` says that there is a staged
table beside it, in which a key that the snapshot lacks may still be found.
-/

namespace ConcurrentMap

/-- An immutable table and the flag that announces a staged table beside it. -/
structure Snapshot (K : Type) where
  table : Table K
  amended : Bool
  deriving Repr, DecidableEq

namespace Snapshot

variable {K : Type}

/-- The snapshot of a map that was never written. -/
def empty : Snapshot K := ⟨.empty, false⟩

/-- A table that nothing amends. -/
def ofTable (t : Table K) : Snapshot K := ⟨t, false⟩

/-- The same table, announced as incomplete. -/
def markAmended (s : Snapshot K) : Snapshot K := { s with amended := true }

/-- The number of entries, those without a value included. -/
def size (s : Snapshot K) : Nat := s.table.size

/-- The cell of `key`, if the snapshot has one. -/
def find? [BEq K] (s : Snapshot K) (key : K) : Option CellId := s.table.find? key

instance : Inhabited (Snapshot K) := ⟨empty⟩

@[simp] theorem find?_empty [BEq K] (key : K) : (empty : Snapshot K).find? key = none := rfl

/-- The mark of a snapshot makes no difference to lookups. -/
@[simp] theorem find?_markAmended [BEq K] (s : Snapshot K) (key : K) :
    s.markAmended.find? key = s.find? key := rfl

@[simp] theorem size_markAmended (s : Snapshot K) : s.markAmended.size = s.size := rfl

@[simp] theorem amended_markAmended (s : Snapshot K) : s.markAmended.amended = true := rfl

/-- A snapshot leads where its table leads. -/
@[simp] theorem find?_ofTable [BEq K] (t : Table K) (key : K) :
    (ofTable t).find? key = t.find? key := rfl

@[simp] theorem amended_ofTable (t : Table K) : (ofTable t).amended = false := rfl

end Snapshot

end ConcurrentMap
