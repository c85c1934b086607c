/-! # Log events

The map logs the three changes of its structure: a staged table is rebuilt from the snapshot, a
staged table is promoted to be the next snapshot, and everything is dropped. `Event` is the fact,
`Event.record` its written form: a level, a message and named fields.
-/

namespace ConcurrentMap

/-- Why a staged table was promoted. -/
inductive PromotionReason where
  /-- Enough lookups had to consult it. -/
  | misses
  /-- A traversal needs a complete snapshot. -/
  | traversal
  deriving Repr, DecidableEq

/-- A change of the map's structure. -/
inductive Event where
  /-- A staged table was built from the snapshot: `copied` entries went into it, `expunged` ones
  are tombstoned and were left out. -/
  | rebuilt (copied expunged : Nat)
  /-- A staged table of `entries` keys became the snapshot after `misses` recorded misses. -/
  | promoted (entries misses : Nat) (reason : PromotionReason)
  /-- Every key was dropped. -/
  | cleared
  deriving Repr, DecidableEq

/-- How much an event matters to somebody who reads the log. -/
inductive Severity where
  | trace
  | debug
  deriving Repr, DecidableEq

/-- The name of a severity in a written record. -/
def Severity.name : Severity → String
  | trace => "TRACE"
  | debug => "DEBUG"

/-- The word for a reason in a written record. -/
def PromotionReason.word : PromotionReason → String
  | misses => "misses"
  | traversal => "range"

/-- The value of a field of a written record. -/
inductive Field where
  | count (n : Nat)
  | word (text : String)
  deriving Repr, DecidableEq

/-- The written form of an event. -/
structure LogRecord where
  severity : Severity
  message : String
  fields : List (String × Field)
  deriving Repr, DecidableEq

/-- Structural changes that readers pay for are traced, a reset is a debug message. -/
def Event.record : Event → LogRecord
  | rebuilt copied expunged =>
    ⟨.trace, "sync_hashmap_dirty_rebuild",
      [("copied", .count copied), ("expunged", .count expunged)]⟩
  | promoted entries misses reason =>
    ⟨.trace, "sync_hashmap_promote",
      [("entries", .count entries), ("misses", .count misses), ("reason", .word reason.word)]⟩
  | cleared => ⟨.debug, "sync_hashmap_clear", []⟩

end ConcurrentMap
