import ConcurrentMap.Double
import ConcurrentMap.Key

/-! # Values

The values that scripts put into a map. Values of different kinds are never equal, and equality
need not be reflexive: a double compares as a number, so a NaN differs from itself and the two
zeros are equal. Lists are compared item by item.

Equality is not identity. Whether two values are the very same one, bit by bit and letter by
letter, is decided by `identical` (`identical_iff`).
-/

namespace ConcurrentMap

/-- A value that a key can hold. -/
inductive Value where
  | null
  | bool (b : Bool)
  | int (n : Int64)
  | text (s : String)
  | list (items : List Value)
  | double (d : Double)
  /-- A text in which the case of ASCII letters does not matter. -/
  | caseless (s : String)
  deriving Repr

instance : Inhabited Value := ⟨.null⟩

namespace Value

mutual

/-- The comparison of two values that the map is given. -/
def equal : Value → Value → Bool
  | null, null => true
  | bool a, bool b => a == b
  | int a, int b => a == b
  | text a, text b => a == b
  | list a, list b => equalAll a b
  | double a, double b => a.equal b
  | caseless a, caseless b => foldCase a == foldCase b
  | _, _ => false

/-- Two lists have equal items in the same places. -/
def equalAll : List Value → List Value → Bool
  | [], [] => true
  | a :: as, b :: bs => equal a b && equalAll as bs
  | _, _ => false

end

instance : BEq Value := ⟨equal⟩

/-! ## Identity -/

mutual

/-- Both values are the same one, down to the bits of doubles and the case of letters. -/
def identical : Value → Value → Bool
  | null, null => true
  | bool a, bool b => a == b
  | int a, int b => a == b
  | text a, text b => a == b
  | list a, list b => identicalAll a b
  | double a, double b => a == b
  | caseless a, caseless b => a == b
  | _, _ => false

/-- Two lists have the same items in the same places. -/
def identicalAll : List Value → List Value → Bool
  | [], [] => true
  | a :: as, b :: bs => identical a b && identicalAll as bs
  | _, _ => false

end

mutual

/-- Identity decides equality of values as terms, which `==` does not. -/
theorem identical_iff : ∀ a b : Value, a.identical b = true ↔ a = b
  | null, b => by cases b <;> simp [identical]
  | bool _, b => by cases b <;> simp [identical]
  | int _, b => by cases b <;> simp [identical]
  | text _, b => by cases b <;> simp [identical]
  | list as, b => by cases b <;> simp [identical, identicalAll_iff as]
  | double _, b => by cases b <;> simp [identical]
  | caseless _, b => by cases b <;> simp [identical]

/-- Likewise for lists of values, item by item. -/
theorem identicalAll_iff : ∀ as bs : List Value, identicalAll as bs = true ↔ as = bs
  | [], bs => by cases bs <;> simp [identicalAll]
  | a :: as, bs => by
      cases bs with
      | nil => simp [identicalAll]
      | cons b bs => simp [identicalAll, identical_iff a b, identicalAll_iff as bs]

end

instance : DecidableEq Value := fun a b => decidable_of_iff _ (identical_iff a b)

/-! ## Text -/

mutual

/-- The text of a value. The characters of a text are written as they are. -/
def written : Value → String
  | null => "null"
  | bool true => "true"
  | bool false => "false"
  | int n => toString n.toInt
  | text s => "\"" ++ s ++ "\""
  | list items => "[" ++ writtenAll items ++ "]"
  | double d => "f:" ++ d.hex
  | caseless s => "ci:\"" ++ s ++ "\""

/-- The texts of some values, with commas between them. -/
def writtenAll : List Value → String
  | [] => ""
  | [v] => written v
  | v :: rest => written v ++ ", " ++ writtenAll rest

end

/-- The text of a value as it is shown to a reader: a text stands for itself, without quotes. -/
def shown : Value → String
  | text s => s
  | v => v.written

/-- The integer held, if it is one. -/
def int? : Value → Option Int
  | int n => some n.toInt
  | _ => none

/-- The value that stands for an integer, modulo the range of the type. -/
def ofInt (n : Int) : Value := int n.toInt64

end Value

end ConcurrentMap
