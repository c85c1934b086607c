import ConcurrentMap.Proofs.Plain
import Mathlib.Logic.Equiv.Basic

/-!
# Renaming identities

Which identity a value gets depends on what else was installed before, but no operation looks at it:
operations compare values. So if the identities are renamed, no two of them to the same one, every
request does what it did before (`Plain.apply_rename`).

Two runs draw identities of their own. `Renaming.exists_extending` is how they are compared: any
matching of the identities of one run with those of the other extends to a renaming, and that one
keeps whatever identities both runs began with.
-/

namespace ConcurrentMap

variable {K V : Type}

/-- Every identity gets another name, and no two get the same. -/
abbrev Renaming := Equiv.Perm Stamp

/-- The same value under its new identity. -/
def Handle.rename (ρ : Renaming) (held : Handle V) : Handle V := ⟨ρ held.stamp, held.value⟩

/-- A renaming is undone by its inverse. -/
@[simp] theorem Handle.rename_symm (ρ : Renaming) (held : Handle V) :
    (held.rename ρ).rename ρ.symm = held := by
  simp [rename]

@[simp] theorem Handle.rename_refl (held : Handle V) :
    held.rename (Equiv.refl Stamp) = held := rfl

@[simp] theorem Handle.rename_refl_eq_id : Handle.rename (V := V) (Equiv.refl Stamp) = id := rfl

/-- One renaming and then another. -/
theorem Handle.rename_comp (ρ σ : Renaming) :
    Handle.rename (V := V) σ ∘ Handle.rename ρ = Handle.rename (ρ.trans σ) := rfl

/-- A renaming of all handles of a list is undone by its inverse. -/
@[simp] theorem Handle.map_rename_symm (ρ : Renaming) (l : List (Handle V)) :
    (l.map (Handle.rename ρ)).map (Handle.rename ρ.symm) = l := by
  simp [Function.comp_def]

/-- The answer with the new identities. -/
def Answer.rename (ρ : Renaming) : Answer V → Answer V
  | finished => finished
  | found held => found (held.map (Handle.rename ρ))
  | settled held loaded => settled (held.rename ρ) loaded
  | decided changed => decided changed

/-- In an answer, a renaming is undone by its inverse. -/
@[simp] theorem Answer.rename_symm (ρ : Renaming) (answer : Answer V) :
    (answer.rename ρ).rename ρ.symm = answer := by
  cases answer with
  | found held => cases held <;> simp [rename]
  | _ => simp [rename]

/-- An answer stays as it is if no identity is renamed. -/
@[simp] theorem Answer.rename_refl (answer : Answer V) :
    answer.rename (Equiv.refl Stamp) = answer := by
  cases answer <;> simp [rename]

/-- To rename an answer twice is to rename it by both renamings in turn. -/
theorem Answer.rename_trans (ρ σ : Renaming) (answer : Answer V) :
    (answer.rename ρ).rename σ = answer.rename (ρ.trans σ) := by
  cases answer with
  | finished | decided => rfl
  | settled held loaded => rfl
  | found held => simp [rename, Handle.rename_comp]

/-! ## What requests do -/

section Request

variable [BEq V]

/-- A request that carries no value does not look at the identity it is given. -/
theorem Request.effect_of_value? {r : Request K V} (h : r.value? = none) (x y : Stamp)
    (held : Option (Handle V)) : r.effect x held = r.effect y held := by
  cases r with
  | load | loadAndDelete | delete | compareAndDelete | clear => rfl
  | store | swap | loadOrStore | compareAndSwap => simp [value?] at h

/-- The effect of a request under the new identities. -/
theorem Request.effect_rename (ρ : Renaming) (r : Request K V) (stamp : Stamp)
    (held : Option (Handle V)) :
    r.effect (ρ stamp) (held.map (Handle.rename ρ)) =
      ((r.effect stamp held).1.rename ρ, (r.effect stamp held).2.map (Handle.rename ρ)) := by
  have hvalue : ∀ old : V, (held.map (Handle.rename ρ)).any (·.value == old) =
      held.any (·.value == old) := by
    intro old
    cases held <;> rfl
  cases r with
  | loadOrStore key v => cases held <;> rfl
  | compareAndSwap key old new =>
      simp only [effect, hvalue]
      split <;> rfl
  | compareAndDelete key old =>
      simp only [effect, hvalue]
      split <;> rfl
  | load | store | swap | loadAndDelete | delete | clear => rfl

end Request

namespace Plain

/-- The plain map with the new identities. -/
def rename (ρ : Renaming) (m : Plain K V) : Plain K V := fun key => (m key).map (Handle.rename ρ)

/-- Nothing changes for a map whose identities are kept. -/
theorem rename_eq_self {ρ : Renaming} {m : Plain K V}
    (h : ∀ key held, m key = some held → ρ held.stamp = held.stamp) : m.rename ρ = m := by
  funext key
  cases hkey : m key with
  | none => simp [rename, hkey]
  | some held => simp [rename, hkey, Handle.rename, h key held hkey]

variable [BEq K] [BEq V]

/-- A request that carries no value changes the map in the same way, whatever identity it is
given. -/
theorem apply_of_value? (m : Plain K V) {r : Request K V} (h : r.value? = none) (x y : Stamp) :
    m.apply x r = m.apply y r := by
  unfold Plain.apply
  split
  · next key _ => rw [Request.effect_of_value? h x y]
  · rfl

/-- A request does what it did before, under the new identities. -/
theorem apply_rename (ρ : Renaming) (m : Plain K V) (stamp : Stamp) (r : Request K V) :
    (m.rename ρ).apply (ρ stamp) r =
      ((m.apply stamp r).1.rename ρ, (m.apply stamp r).2.rename ρ) := by
  cases hkey : r.key? with
  | none =>
      simp only [apply, hkey]
      rfl
  | some key =>
      rw [apply_of_key hkey, apply_of_key hkey, rename, Request.effect_rename]
      refine congrArg _ (funext fun query => ?_)
      simp only [set_apply, rename]
      split <;> rfl

end Plain

/-! ## Matching the identities of two runs -/

/-- A matching of identities that matches none of those to be kept extends to a renaming that keeps
them. -/
theorem Renaming.exists_extending {kept : Stamp → Prop} {matching : List (Stamp × Stamp)}
    (hleft : (matching.map Prod.fst).Nodup) (hright : (matching.map Prod.snd).Nodup)
    (hkept : ∀ z ∈ matching, ¬kept z.1 ∧ ¬kept z.2) :
    ∃ ρ : Renaming, (∀ x, kept x → ρ x = x) ∧ ∀ z ∈ matching, ρ z.1 = z.2 := by
  induction matching with
  | nil => exact ⟨Equiv.refl _, fun _ _ => rfl, fun z hz => absurd hz List.not_mem_nil⟩
  | cons z matching ih =>
      obtain ⟨a, b⟩ := z
      simp only [List.map_cons, List.nodup_cons, List.mem_map, not_exists, not_and] at hleft hright
      obtain ⟨ρ, hfix, hρ⟩ := ih hleft.2 hright.2 fun z hz => hkept z (List.mem_cons_of_mem _ hz)
      obtain ⟨ha, hb⟩ := hkept (a, b) List.mem_cons_self
      -- the new pair is matched by one exchange, which concerns no other pair
      refine ⟨ρ.trans (Equiv.swap (ρ a) b), fun x hx => ?_, fun z hz => ?_⟩
      · have hxa : ρ x ≠ ρ a := fun heq => ha (ρ.injective heq ▸ hx)
        have hxb : ρ x ≠ b := by
          rw [hfix x hx]
          rintro rfl
          exact hb hx
        rw [Equiv.trans_apply, Equiv.swap_apply_of_ne_of_ne hxa hxb, hfix x hx]
      · rcases List.mem_cons.1 hz with rfl | hz
        · rw [Equiv.trans_apply, Equiv.swap_apply_left]
        · have hza : ρ z.1 ≠ ρ a := fun heq => hleft.1 z hz (ρ.injective heq)
          have hzb : ρ z.1 ≠ b := by
            rw [hρ z hz]
            exact hright.1 z hz
          rw [Equiv.trans_apply, Equiv.swap_apply_of_ne_of_ne hza hzb, hρ z hz]

end ConcurrentMap
