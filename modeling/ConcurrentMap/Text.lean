import ConcurrentMap.Shared
import ConcurrentMap.Value

/-! # Written forms

Handles, cells and whole maps have a written form for people. Each comes in two layouts, on one
line or spread over several, where what is inside stands four columns to the right.
-/

namespace ConcurrentMap

/-- How much room a written form takes. -/
inductive Layout where
  /-- Everything on one line. -/
  | compact
  /-- One line for each part. -/
  | spread
  deriving Repr, DecidableEq

namespace Layout

/-- Move every line of a text but its first one to the right. -/
def indent (s : String) : String :=
  "\n    ".intercalate (s.splitOn "\n")

/-- A name with one part in parentheses. -/
def wrap (l : Layout) (name inner : String) : String :=
  match l with
  | compact => name ++ "(" ++ inner ++ ")"
  | spread => name ++ "(\n    " ++ indent inner ++ ",\n)"

end Layout

/-- The written form of a handle. -/
def Handle.written (h : Handle Value) (l : Layout) : String := l.wrap "Ref" h.value.written

/-- The written form of what a cell holds. -/
def Content.written (c : Content Value) (l : Layout) : String :=
  match c with
  | absent => "Absent"
  | tombstoned => "Tombstoned"
  | present v => l.wrap "Present" v.written

/-- The written form of a map shows its structure and none of its entries. -/
def Snapshot.written {K : Type} (s : Snapshot K) (l : Layout) : String :=
  let size := "read_len: " ++ toString s.size
  let flag := "amended: " ++ toString s.amended
  match l with
  | .compact => "SyncHashMap \x7b " ++ size ++ ", " ++ flag ++ ", .. \x7d"
  | .spread => "SyncHashMap \x7b\n    " ++ size ++ ",\n    " ++ flag ++ ",\n    ..\n\x7d"

end ConcurrentMap
