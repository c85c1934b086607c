/-! # Doubles

A double is given by its bits and compared as a number: a NaN differs from everything, itself
included, and the two zeros are equal. Its written form is the bits in sixteen hexadecimal
digits, which tells all doubles apart, NaNs too: `ofHex?_hex` reads it back.
-/

namespace ConcurrentMap

/-! ## Hexadecimal digits -/

namespace Hex

/-- The last `width` digits of a number, the most significant one first. -/
def digits : Nat → Nat → List Nat
  | 0, _ => []
  | width + 1, n => digits width (n / 16) ++ [n % 16]

/-- The number that some digits make. -/
def value (ds : List Nat) : Nat := ds.foldl (fun n d => 16 * n + d) 0

/-- The number that the character of a digit stands for. Capitals stand for none. -/
def digit? (c : Char) : Option Nat :=
  if c.isDigit then some (c.toNat - '0'.toNat)
  else if 'a' ≤ c ∧ c ≤ 'f' then some (c.toNat - 'a'.toNat + 10)
  else none

/-- A digit is read back from its character. -/
theorem digit?_digitChar {n : Nat} (h : n < 16) : digit? (Nat.digitChar n) = some n :=
  (by decide : ∀ n ∈ List.range 16, digit? (Nat.digitChar n) = some n) n (List.mem_range.2 h)

/-- Digits are read back from their characters, one by one. -/
theorem mapM_digit?_map {ds : List Nat} (h : ∀ d ∈ ds, d < 16) :
    (ds.map Nat.digitChar).mapM digit? = some ds := by
  induction ds with
  | nil => rfl
  | cons d ds ih =>
      obtain ⟨hd, hds⟩ := List.forall_mem_cons.1 h
      simp [digit?_digitChar hd, ih hds]

/-- There are as many digits as were asked for. -/
@[simp] theorem length_digits (width n : Nat) : (digits width n).length = width := by
  induction width generalizing n with
  | zero => rfl
  | succ width ih => simp [digits, ih]

/-- Each digit is one of sixteen. -/
theorem lt_of_mem_digits {width n d : Nat} (h : d ∈ digits width n) : d < 16 := by
  induction width generalizing n with
  | zero => simp [digits] at h
  | succ width ih =>
      rcases List.mem_append.1 h with h | h
      · exact ih h
      · obtain rfl := List.mem_singleton.1 h
        exact Nat.mod_lt _ (by decide)

/-- As many digits make the number, less what needs more digits. -/
theorem value_digits (width n : Nat) : value (digits width n) = n % Nat.pow 16 width := by
  induction width generalizing n with
  | zero => simp [digits, value, Nat.mod_one]
  | succ width ih =>
      have hpow : Nat.pow 16 (width + 1) = 16 * Nat.pow 16 width := Nat.pow_succ'
      rw [digits, value, List.foldl_append, ← value, ih, hpow, Nat.mod_mul]
      simp [Nat.add_comm]

end Hex

/-! ## The numbers -/

/-- An IEEE 754 double, given by its bits. -/
structure Double where
  bits : UInt64
  deriving Repr, DecidableEq

namespace Double

/-- The bits without the sign. -/
def magnitude (d : Double) : UInt64 := d.bits &&& 0x7fffffffffffffff

/-- The exponent is all ones and the fraction is not zero. -/
def isNaN (d : Double) : Bool := 0x7ff0000000000000 < d.magnitude

/-- Equality of numbers: no NaN equals anything, and the two zeros are equal. -/
def equal (d e : Double) : Bool :=
  !d.isNaN && !e.isNaN && (d.bits == e.bits || (d.magnitude == 0 && e.magnitude == 0))

/-- Only a NaN differs from itself. -/
theorem equal_self (d : Double) : d.equal d = !d.isNaN := by simp [equal]

/-- The bits in sixteen hexadecimal digits. -/
def hex (d : Double) : String :=
  String.ofList ((Hex.digits 16 d.bits.toNat).map Nat.digitChar)

/-- The double with the bits that sixteen hexadecimal digits spell. -/
def ofHex? (s : String) : Option Double := do
  let ds ← s.toList.mapM Hex.digit?
  if ds.length = 16 then
    return ⟨(Hex.value ds).toUInt64⟩
  else
    none

/-- What is written is read back, bit by bit. -/
theorem ofHex?_hex (d : Double) : ofHex? d.hex = some d := by
  obtain ⟨b⟩ := d
  have hb : b.toNat % Nat.pow 16 16 = b.toNat := Nat.mod_eq_of_lt b.toNat_lt
  have hread : ((Hex.digits 16 b.toNat).map Nat.digitChar).mapM Hex.digit? =
      some (Hex.digits 16 b.toNat) := Hex.mapM_digit?_map fun _ => Hex.lt_of_mem_digits
  rw [ofHex?, hex, String.toList_ofList, hread, Option.bind_eq_bind, Option.bind_some,
    Hex.length_digits, if_pos rfl, Hex.value_digits, hb]
  simp

end Double

end ConcurrentMap
