/-! # Tables from keys to cells

A hash table is a finite map from keys to cells. Which order its entries are walked in is not a
property of the table: `Enumeration` supplies it, and every result of the map is meant to be
independent of it. So a table is kept as the list of its entries, and equality of keys is the
only thing that lookups consult.

Keys that are equal need not be identical. The table keeps the key object that came first:
inserting an equal key replaces the cell and leaves the key object alone (`find?_insert`,
`keys_insert`).
-/

namespace ConcurrentMap

/-- The name of a cell. Cells are never reused. -/
abbrev CellId := Nat

/-- A finite map from keys to cells. -/
structure Table (K : Type) where
  entries : List (K × CellId)
  deriving Repr, DecidableEq

namespace Table

variable {K : Type}

/-- The table without entries. -/
def empty : Table K := ⟨[]⟩

/-- The number of entries. -/
def size (t : Table K) : Nat := t.entries.length

/-- The key objects held, in the order of their first insertion. -/
def keys (t : Table K) : List K := t.entries.map Prod.fst

@[simp] theorem size_empty : (empty : Table K).size = 0 := rfl

variable [BEq K]

/-- The cell of `key`, if the table has one. -/
def find? (t : Table K) (key : K) : Option CellId :=
  (t.entries.find? (·.1 == key)).map Prod.snd

/-- Some key of the table equals `key`. -/
def contains (t : Table K) (key : K) : Bool := t.entries.any (·.1 == key)

/-- Let `key` lead to `cell`. An equal key that is already there keeps its key object. -/
def insert (t : Table K) (key : K) (cell : CellId) : Table K :=
  if t.contains key then
    ⟨t.entries.map fun e => if e.1 == key then (e.1, cell) else e⟩
  else
    ⟨t.entries ++ [(key, cell)]⟩

/-- Drop the entry of `key`. -/
def erase (t : Table K) (key : K) : Table K := ⟨t.entries.filter fun e => !(e.1 == key)⟩

/-- No two keys of the table are equal. -/
def KeysDistinct (t : Table K) : Prop := t.entries.Pairwise fun a b => (a.1 == b.1) = false

/-! ## Lookups after one change -/

@[simp] theorem find?_empty (key : K) : (empty : Table K).find? key = none := rfl

@[simp] theorem contains_empty (key : K) : (empty : Table K).contains key = false := rfl

/-- A table has a key exactly if a lookup of it finds a cell. -/
theorem contains_eq_isSome_find? (t : Table K) (key : K) :
    t.contains key = (t.find? key).isSome := by
  simp only [contains, find?, Option.isSome_map]
  rw [Bool.eq_iff_iff, List.find?_isSome, List.any_eq_true]

/-- The keys stay as they are, in their spelling and order; only a new key is added, at the end. -/
theorem keys_insert (t : Table K) (key : K) (cell : CellId) :
    (t.insert key cell).keys = if t.contains key then t.keys else t.keys ++ [key] := by
  unfold insert
  split
  · simp only [keys, List.map_map]
    refine List.map_congr_left fun e _ => ?_
    simp only [Function.comp]
    split <;> rfl
  · simp [keys]

/-- The table grows by a key that it did not have. -/
theorem size_insert (t : Table K) (key : K) (cell : CellId) :
    (t.insert key cell).size = if t.contains key then t.size else t.size + 1 := by
  have h := congrArg List.length (keys_insert t key cell)
  simp only [keys, List.length_map, apply_ite List.length, List.length_append,
    List.length_singleton] at h
  exact h

/-- What is left after an erasure is distinct. -/
theorem KeysDistinct.erase {t : Table K} (h : t.KeysDistinct) (key : K) :
    (t.erase key).KeysDistinct := List.Pairwise.filter _ h

/-- An insertion never makes a second entry of a key. -/
theorem KeysDistinct.insert {t : Table K} (h : t.KeysDistinct) (key : K) (cell : CellId) :
    (t.insert key cell).KeysDistinct := by
  unfold Table.insert
  split
  · refine List.pairwise_map.2 (List.Pairwise.imp (fun {a b} hab => ?_) h)
    split <;> split <;> exact hab
  · rename_i hnew
    refine List.pairwise_append.2 ⟨h, List.pairwise_singleton _ _, fun a ha b hb => ?_⟩
    obtain rfl := List.mem_singleton.1 hb
    simp only [Table.contains, List.any_eq_true, not_exists, not_and, Bool.not_eq_true] at hnew
    exact hnew a ha

variable [EquivBEq K]

/-- A lookup does not tell the spellings of one key apart. -/
theorem find?_congr (t : Table K) {a b : K} (h : a == b) : t.find? a = t.find? b := by
  simp only [find?]
  congr 2
  funext e
  exact BEq.congr_right h

/-- An erased key is not found, and all others are found as before. -/
theorem find?_erase (t : Table K) (key query : K) :
    (t.erase key).find? query = if key == query then none else t.find? query := by
  obtain ⟨es⟩ := t
  simp only [erase, find?]
  induction es with
  | nil => simp
  | cons e es ih =>
      -- an entry stays or goes with its key, so the query is compared with the erased key first
      by_cases hk : e.1 == key
      · simp only [List.filter_cons, hk, Bool.not_true, Bool.false_eq_true, if_false, ih]
        by_cases hq : key == query
        · simp [hq]
        · have : (e.1 == query) = false := by
            rw [BEq.congr_left hk]; simpa using hq
          simp [hq, this]
      · simp only [List.filter_cons, hk, Bool.not_false, if_true, List.find?_cons]
        by_cases hq : e.1 == query
        · have : (key == query) = false := by
            rw [Bool.eq_false_iff]
            intro hkq
            exact hk (PartialEquivBEq.trans hq (BEq.symm hkq))
          simp [hq, this]
        · simp only [hq, ih]

/-- An inserted key leads to its new cell, and all others lead where they did. -/
theorem find?_insert (t : Table K) (key query : K) (cell : CellId) :
    (t.insert key cell).find? query = if key == query then some cell else t.find? query := by
  obtain ⟨es⟩ := t
  unfold insert
  split
  -- the key is there: its entry is rewritten where it stands
  · rename_i hin
    simp only [contains, find?] at hin ⊢
    induction es with
    | nil => simp at hin
    | cons e es ih =>
        by_cases hk : e.1 == key
        · by_cases hq : key == query
          · have : e.1 == query := PartialEquivBEq.trans hk hq
            simp [hk, hq, this]
          · have : (e.1 == query) = false := by
              rw [BEq.congr_left hk]; simpa using hq
            simp only [List.map_cons, hk, if_true, List.find?_cons, this, hq]
            -- no second entry has the key, so the rest of the list is left alone
            by_cases hin' : es.any (·.1 == key)
            · simpa [hq] using ih hin'
            · have hmap : (es.map fun e => if e.1 == key then (e.1, cell) else e) = es := by
                refine (List.map_congr_left fun a ha => ?_).trans (List.map_id _)
                have := hin'
                simp only [List.any_eq_true, not_exists, not_and, Bool.not_eq_true] at this
                simp [this a ha]
              simp [hmap]
        · have hin' : es.any (·.1 == key) := by simpa [hk] using hin
          simp only [List.map_cons, hk, Bool.false_eq_true, if_false, List.find?_cons]
          by_cases hq : e.1 == query
          · have : (key == query) = false := by
              rw [Bool.eq_false_iff]
              intro hkq
              exact hk (PartialEquivBEq.trans hq (BEq.symm hkq))
            simp [hq, this]
          · simpa only [hq] using ih hin'
  -- the key is new: its entry comes last
  · rename_i hout
    simp only [contains, List.any_eq_true, not_exists, not_and, Bool.not_eq_true] at hout
    simp only [find?, List.find?_append]
    by_cases hq : key == query
    · have : es.find? (·.1 == query) = none := by
        rw [List.find?_eq_none]
        intro e he
        rw [← BEq.congr_right hq, hout e he]
        simp
      simp [this, hq]
    · cases es.find? (·.1 == query) <;> simp [hq]

end Table

/-- The order in which tables are walked. The `n`-th walk of a run visits `arrange n entries`
instead of `entries`, and nothing is known of it but that it visits each entry exactly once. -/
structure Enumeration (K : Type) where
  arrange : Nat → List (K × CellId) → List (K × CellId)
  perm : ∀ n entries, (arrange n entries).Perm entries

/-- Tables are walked in the order in which their keys were first inserted. -/
def Enumeration.insertion {K : Type} : Enumeration K := ⟨fun _ es => es, fun _ es => .refl es⟩

instance {K : Type} : Inhabited (Enumeration K) := ⟨.insertion⟩

end ConcurrentMap
