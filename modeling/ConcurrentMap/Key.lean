/-! # Keys

Keys are texts, numbers, or texts whose ASCII letter case does not matter. Two keys are equal if
their canonical forms are the same, so equality is an equivalence that is coarser than identity:
`"Ab"` and `"aB"` are one key in two spellings, and a table shows the spelling that it holds.
-/

namespace ConcurrentMap

/-- A text with its ASCII capitals made small. -/
def foldCase (s : String) : String := s.map Char.toLower

/-- A key. -/
inductive Key where
  | text (s : String)
  | number (n : Int64)
  /-- A text in which the case of ASCII letters does not matter. -/
  | caseless (s : String)
  deriving Repr, DecidableEq

namespace Key

/-- The spelling that stands for all equal keys. -/
def canonical : Key → Key
  | text s => text s
  | number n => number n
  | caseless s => caseless (foldCase s)

instance : BEq Key := ⟨fun a b => decide (a.canonical = b.canonical)⟩

/-- Two keys are equal if one spelling stands for both. -/
theorem beq_iff {a b : Key} : (a == b) = true ↔ a.canonical = b.canonical := by
  simp [BEq.beq]

instance : EquivBEq Key where
  rfl := beq_iff.2 rfl
  symm h := beq_iff.2 (beq_iff.1 h).symm
  trans h k := beq_iff.2 ((beq_iff.1 h).trans (beq_iff.1 k))

/-- The key with another one appended, or, for numbers, added with wrap-around. Of two different
kinds the first one counts. -/
def append : Key → Key → Key
  | text s, text t => text (s ++ t)
  | number m, number n => number (m + n)
  | caseless s, caseless t => caseless (s ++ t)
  | k, _ => k

/-- The spelling of a text key begins with `start`. -/
def beginsWith (k : Key) (start : String) : Bool :=
  match k with
  | text s => s.startsWith start
  | caseless s => s.startsWith start
  | number _ => false

/-- Numbers come before texts and are ordered by size; texts are ordered by the code points of
their spelling. -/
def le : Key → Key → Bool
  | number m, number n => m ≤ n
  | number _, _ => true
  | text s, text t => decide (s ≤ t)
  | caseless s, caseless t => decide (s ≤ t)
  | text _, caseless _ => true
  | _, _ => false

end Key

/-- List pairs by their keys. -/
def sortByKey {α : Type} (pairs : List (Key × α)) : List (Key × α) :=
  pairs.mergeSort fun a b => a.1.le b.1

/-- Sorting neither loses a pair nor adds one. -/
theorem sortByKey_perm {α : Type} (pairs : List (Key × α)) : (sortByKey pairs).Perm pairs :=
  List.mergeSort_perm _ _

end ConcurrentMap
