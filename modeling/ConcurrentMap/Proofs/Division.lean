import ConcurrentMap.Proofs.Routines
import Mathlib.Data.List.Flatten
import Mathlib.Data.List.Nodup
import Mathlib.Data.List.Zip

/-!
# Keys that are divided among threads

If the keys are divided among the threads, the calls of one thread do not concern the others. In a
plain map this is a fact about lists of calls: leaving out those on other keys changes neither the
answers nor what one's own keys hold (`Plain.explains_filter`, `Plain.after_filter`).

`Division.Apart` says of the findings of all threads together that each thread found what it would
have found alone, up to the identities that its own values got. That leaves nothing to chance but
these identities: any two runs from one start that are `Apart` differ by a renaming
(`Division.Apart.exists_renaming`).
-/

namespace ConcurrentMap

variable {K V : Type}

/-- Which keys belong to which thread: no key to two, and equal keys to the same. -/
structure Division (K : Type) [BEq K] where
  owns : ThreadId → K → Bool
  respects : ∀ t a b, (a == b) = true → owns t a = owns t b
  disjoint : ∀ t u key, owns t key = true → owns u key = true → t = u

/-- The call is about one of the keys `mine`. -/
def Call.on (mine : K → Bool) (c : Call K V) : Bool := c.request.key?.any mine

/-! ## Calls on other keys -/

namespace Plain

/-- The maps agree on the keys `mine`. -/
def AgreeOn (mine : K → Bool) (m m' : Plain K V) : Prop := ∀ key, mine key = true → m key = m' key

variable [BEq K] [BEq V] {mine : K → Bool} {m m' : Plain K V} {r : Request K V} {key : K}

/-- A request for one of the keys gets the same answer, and the maps still agree. -/
theorem AgreeOn.apply (h : AgreeOn mine m m') (hr : r.key? = some key) (hkey : mine key = true)
    (stamp : Stamp) : (m.apply stamp r).1 = (m'.apply stamp r).1 ∧
      AgreeOn mine (m.apply stamp r).2 (m'.apply stamp r).2 := by
  rw [apply_of_key hr, apply_of_key hr, h key hkey]
  refine ⟨rfl, fun query hquery => ?_⟩
  simp only [set_apply, h query hquery]

/-- A request for another key does not concern these. -/
theorem AgreeOn.apply_left (h : AgreeOn mine m m')
    (hmine : ∀ a b, (a == b) = true → mine a = mine b) (hr : r.key? = some key)
    (hkey : mine key = false) (stamp : Stamp) : AgreeOn mine (m.apply stamp r).2 m' := by
  intro query hquery
  have hne : ¬(key == query) = true := fun heq => by
    rw [← hmine key query heq, hkey] at hquery
    exact absurd hquery (by simp)
  rw [apply_of_key hr]
  show m.set key _ query = m' query
  rw [set_apply, if_neg hne, h query hquery]

variable {calls : List (Call K V)}

/-- What the keys hold after some calls depends only on the calls on these keys. -/
theorem AgreeOn.after_filter (h : AgreeOn mine m m')
    (hmine : ∀ a b, (a == b) = true → mine a = mine b)
    (hkeyed : ∀ c ∈ calls, c.request.key?.isSome = true) :
    AgreeOn mine (m.after calls) (m'.after (calls.filter (Call.on mine))) := by
  induction calls generalizing m m' with
  | nil => exact h
  | cons c calls ih =>
      obtain ⟨hhead, hrest⟩ := List.forall_mem_cons.1 hkeyed
      obtain ⟨key, hkey⟩ := Option.isSome_iff_exists.1 hhead
      have hon : c.on mine = mine key := by simp [Call.on, hkey]
      cases hown : mine key with
      | true =>
          rw [List.filter_cons_of_pos (hon.trans hown)]
          exact ih (h.apply hkey hown c.stamp).2 hrest
      | false =>
          rw [List.filter_cons_of_neg (by simp [hon, hown])]
          exact ih (h.apply_left hmine hkey hown c.stamp) hrest

/-- Nor do the answers of the calls on these keys depend on the others. -/
theorem AgreeOn.explains_filter (h : AgreeOn mine m m')
    (hmine : ∀ a b, (a == b) = true → mine a = mine b)
    (hkeyed : ∀ c ∈ calls, c.request.key?.isSome = true) (hexplains : m.Explains calls) :
    m'.Explains (calls.filter (Call.on mine)) := by
  induction calls generalizing m m' with
  | nil => trivial
  | cons c calls ih =>
      obtain ⟨hanswer, hexplains⟩ := hexplains
      obtain ⟨hhead, hrest⟩ := List.forall_mem_cons.1 hkeyed
      obtain ⟨key, hkey⟩ := Option.isSome_iff_exists.1 hhead
      have hon : c.on mine = mine key := by simp [Call.on, hkey]
      cases hown : mine key with
      | true =>
          obtain ⟨hsame, hagree⟩ := h.apply hkey hown c.stamp
          rw [List.filter_cons_of_pos (hon.trans hown)]
          exact ⟨hanswer.trans hsame, ih hagree hrest hexplains⟩
      | false =>
          rw [List.filter_cons_of_neg (by simp [hon, hown])]
          exact ih (h.apply_left hmine hkey hown c.stamp) hrest hexplains

omit [BEq K] [BEq V] in
theorem AgreeOn.refl (mine : K → Bool) (m : Plain K V) : AgreeOn mine m m := fun _ _ => rfl

/-- Calls that read leave the map as it is. -/
theorem Respects.after_reads (h : m.Respects) (hreads : ∀ c ∈ calls, c.request.Reads) :
    m.after calls = m := by
  induction calls with
  | nil => rfl
  | cons c calls ih =>
      obtain ⟨key, hkey⟩ := hreads c List.mem_cons_self
      have hsame : (m.apply c.stamp c.request).2 = m := by
        rw [hkey]
        exact h.set_eq_self rfl
      show (m.apply c.stamp c.request).2.after calls = m
      rw [hsame]
      exact ih fun d hd => hreads d (List.mem_cons_of_mem c hd)

end Plain

/-! ## Identities that calls install -/

/-- The identities of the values that the calls carry. -/
def Call.stamps (calls : List (Call K V)) : List Stamp :=
  calls.filterMap fun c => c.request.value?.map fun _ => c.stamp

/-- The supply begins with these identities. -/
def Supplies (supply : Nat → Stamp) (stamps : List Stamp) : Prop :=
  ∀ n x, stamps[n]? = some x → supply n = x

theorem Call.stamps_append (calls calls' : List (Call K V)) :
    Call.stamps (calls ++ calls') = Call.stamps calls ++ Call.stamps calls' :=
  List.filterMap_append

theorem Supplies.nil (supply : Nat → Stamp) : Supplies supply [] := fun n x hx => by simp at hx

/-- Calls that read carry no value, and so no identity. -/
theorem Call.stamps_of_reads {calls : List (Call K V)} (h : ∀ c ∈ calls, c.request.Reads) :
    Call.stamps calls = [] := by
  refine List.filterMap_eq_nil_iff.2 fun c hc => ?_
  obtain ⟨key, hkey⟩ := h c hc
  simp [hkey, Request.value?]

/-- Calls that install values of different identities have no identity twice. -/
theorem Call.nodup_stamps {calls : List (Call K V)} (h : calls.Pairwise Call.Apart) :
    (Call.stamps calls).Nodup := by
  refine List.pairwise_filterMap.2 (h.imp fun {c d} hcd x hx y hy => ?_)
  obtain ⟨v, hv, rfl⟩ := Option.map_eq_some_iff.1 hx
  obtain ⟨v', hv', rfl⟩ := Option.map_eq_some_iff.1 hy
  exact hcd v v' hv hv'

/-- The first call takes the identity it needs from the supply, and leaves the others theirs. -/
theorem Supplies.spend {supply : Nat → Stamp} {c : Call K V} {calls : List (Call K V)}
    (h : Supplies supply (Call.stamps (c :: calls))) :
    Supplies (c.request.spend supply) (Call.stamps calls) ∧
      (c.request.value?.isSome = true → supply 0 = c.stamp) := by
  unfold Request.spend
  cases hvalue : c.request.value? with
  | none =>
      have hsame : Call.stamps (c :: calls) = Call.stamps calls := by simp [Call.stamps, hvalue]
      exact ⟨by simpa [hsame] using h, by simp⟩
  | some v =>
      have hfirst : Call.stamps (c :: calls) = c.stamp :: Call.stamps calls := by
        simp [Call.stamps, hvalue]
      rw [hfirst] at h
      exact ⟨fun n x hx => h (n + 1) x hx, fun _ => h 0 c.stamp rfl⟩

/-- The call does what it would do with the next identity of the supply. -/
theorem Supplies.apply [BEq K] [BEq V] {supply : Nat → Stamp} {c : Call K V}
    {calls : List (Call K V)} (h : Supplies supply (Call.stamps (c :: calls))) (m : Plain K V) :
    m.apply (supply 0) c.request = m.apply c.stamp c.request := by
  cases hvalue : c.request.value? with
  | none => exact m.apply_of_value? hvalue _ _
  | some v => rw [h.spend.2 (by simp [hvalue])]

/-- Two lists of identities can be supplied by one supply and its renaming. -/
theorem Supplies.exists_renamed {ρ : Renaming} {stamps stamps' : List Stamp}
    (h : ∀ z ∈ stamps.zip stamps', ρ z.1 = z.2) :
    ∃ supply, Supplies supply stamps ∧ Supplies (ρ ∘ supply) stamps' := by
  refine ⟨fun n => stamps[n]?.getD (ρ.symm (stamps'[n]?.getD 0)), fun n x hx => by simp [hx],
    fun n y hy => ?_⟩
  cases hx : stamps[n]? with
  | none => simp [hx, hy]
  | some x =>
      have hmem : (x, y) ∈ stamps.zip stamps' :=
        List.mem_of_getElem? (List.getElem?_zip_eq_some.2 ⟨hx, hy⟩)
      simpa [hx] using h (x, y) hmem

/-! ## Findings of threads that do not interfere -/

variable [BEq K] [BEq V]

/-- From the map `start`, each thread found what it would have found alone, with the identities
`stamps` for its values, and its keys hold in the end what it left there. -/
structure Division.Apart (division : Division K) (routines : List (Routine K V)) (start : Plain K V)
    (stamps : ThreadId → List Stamp) (results : List (Findings K V)) (final : Plain K V) :
    Prop where
  length : results.length = routines.length
  found : ∀ t c found, routines[t]? = some c → results[t]? = some found → ∀ supply,
    Supplies supply (stamps t) → (c.replay (division.owns t) start supply).1 = found
  own : ∀ t c key, routines[t]? = some c → division.owns t key = true → ∀ supply,
    Supplies supply (stamps t) → final key = (c.replay (division.owns t) start supply).2 key
  others : ∀ key, (∀ t < routines.length, division.owns t key = false) → final key = start key
  new : ∀ t, ∀ x ∈ stamps t, ∀ key held, start key = some held → held.stamp ≠ x
  nodup : ((List.range routines.length).flatMap stamps).Nodup

private theorem map_fst_zip_sublist {β γ : Type} :
    ∀ (l : List β) (l' : List γ), ((l.zip l').map Prod.fst).Sublist l
  | [], _ => List.nil_sublist _
  | _ :: _, [] => List.nil_sublist _
  | x :: l, _ :: l' => (map_fst_zip_sublist l l').cons_cons x

private theorem map_snd_zip_sublist {β γ : Type} (l : List β) (l' : List γ) :
    ((l.zip l').map Prod.snd).Sublist l' := by
  have h := map_fst_zip_sublist l' l
  rw [← List.zip_swap, List.map_map] at h
  exact h

/-- A routine can be replayed with the identities of one run and, renamed, with those of another. -/
theorem Routine.Uniform.exists_replays {c : Routine K V} {start : Plain K V}
    (hc : c.Uniform start) {ρ : Renaming} (hstart : start.rename ρ = start)
    {stamps stamps' : List Stamp} (hmatch : ∀ z ∈ stamps.zip stamps', ρ z.1 = z.2)
    (mine : K → Bool) :
    ∃ supply, Supplies supply stamps ∧ Supplies (ρ ∘ supply) stamps' ∧
      c.replay mine start (ρ ∘ supply) =
        ((c.replay mine start supply).1.rename ρ, (c.replay mine start supply).2.rename ρ) := by
  obtain ⟨supply, hsupply, hsupply'⟩ := Supplies.exists_renamed hmatch
  have hrename := c.replay_rename ρ mine start supply
  rw [hc.identities ρ hstart, hstart] at hrename
  exact ⟨supply, hsupply, hsupply', hrename⟩

namespace Division.Apart

variable {division : Division K} {routines : List (Routine K V)} {start final final' : Plain K V}
  {stamps stamps' : ThreadId → List Stamp} {results results' : List (Findings K V)}

/-- The identities that one run installed can be renamed to those of another one, thread by thread
and in their order, without touching those that were there before. -/
theorem exists_matching (h : division.Apart routines start stamps results final)
    (h' : division.Apart routines start stamps' results' final') :
    ∃ ρ : Renaming, start.rename ρ = start ∧
      ∀ t < routines.length, ∀ z ∈ (stamps t).zip (stamps' t), ρ z.1 = z.2 := by
  -- The identities are matched in their order; none of them was in the map before.
  let matching := (List.range routines.length).flatMap fun t => (stamps t).zip (stamps' t)
  have hleft : (matching.map Prod.fst).Nodup := by
    rw [List.map_flatMap]
    exact h.nodup.sublist (.flatMap_right _ fun t _ => map_fst_zip_sublist _ _)
  have hright : (matching.map Prod.snd).Nodup := by
    rw [List.map_flatMap]
    exact h'.nodup.sublist (.flatMap_right _ fun t _ => map_snd_zip_sublist _ _)
  let kept : Stamp → Prop := fun x => ∃ key held, start key = some held ∧ held.stamp = x
  have hkept : ∀ z ∈ matching, ¬kept z.1 ∧ ¬kept z.2 := by
    intro z hz
    obtain ⟨t, -, hz⟩ := List.mem_flatMap.1 hz
    obtain ⟨hfst, hsnd⟩ := List.of_mem_zip hz
    refine ⟨fun ⟨key, held, hheld, hx⟩ => ?_, fun ⟨key, held, hheld, hx⟩ => ?_⟩
    · exact h.new t z.1 hfst key held hheld hx
    · exact h'.new t z.2 hsnd key held hheld hx
  obtain ⟨ρ, hfix, hmatch⟩ := Renaming.exists_extending hleft hright hkept
  refine ⟨ρ, Plain.rename_eq_self fun key held hkey => hfix _ ⟨key, held, hkey, rfl⟩, ?_⟩
  intro t ht z hz
  exact hmatch z (List.mem_flatMap.2 ⟨t, List.mem_range.2 ht, hz⟩)

/-- Two runs of threads that did not interfere differ only by a renaming of the identities that
they installed. -/
theorem exists_renaming (huniform : ∀ c ∈ routines, c.Uniform start)
    (h : division.Apart routines start stamps results final)
    (h' : division.Apart routines start stamps' results' final') :
    ∃ ρ : Renaming, start.rename ρ = start ∧ results' = results.map (Findings.rename ρ) ∧
      final' = final.rename ρ := by
  obtain ⟨ρ, hstart, hmatch⟩ := h.exists_matching h'
  have hreplays : ∀ t c, routines[t]? = some c → ∃ supply, Supplies supply (stamps t) ∧
      Supplies (ρ ∘ supply) (stamps' t) ∧
        c.replay (division.owns t) start (ρ ∘ supply) =
          ((c.replay (division.owns t) start supply).1.rename ρ,
            (c.replay (division.owns t) start supply).2.rename ρ) := by
    intro t c hc
    obtain ⟨ht, -⟩ := List.getElem?_eq_some_iff.1 hc
    exact (huniform c (List.mem_of_getElem? hc)).exists_replays hstart (hmatch t ht) _
  refine ⟨ρ, hstart, List.ext_getElem? fun t => ?_, funext fun key => ?_⟩
  · rw [List.getElem?_map]
    -- A thread's findings are a replay in either run, and one replay is the renamed other.
    by_cases ht : t < routines.length
    · obtain ⟨c, hc⟩ : ∃ c, routines[t]? = some c := ⟨_, List.getElem?_eq_getElem ht⟩
      obtain ⟨found, hfound⟩ : ∃ found, results[t]? = some found :=
        ⟨_, List.getElem?_eq_getElem (h.length ▸ ht)⟩
      obtain ⟨found', hfound'⟩ : ∃ found', results'[t]? = some found' :=
        ⟨_, List.getElem?_eq_getElem (h'.length ▸ ht)⟩
      obtain ⟨supply, hsupply, hsupply', hrename⟩ := hreplays t c hc
      rw [hfound, hfound', ← h.found t c found hc hfound supply hsupply,
        ← h'.found t c found' hc hfound' _ hsupply', hrename]
      rfl
    · have hle : routines.length ≤ t := Nat.le_of_not_lt ht
      rw [List.getElem?_eq_none (by rwa [h'.length]), List.getElem?_eq_none (by rwa [h.length])]
      rfl
  -- A key of some thread holds what the replay leaves there, and any other key what it held.
  · by_cases hown : ∃ t, t < routines.length ∧ division.owns t key = true
    · obtain ⟨t, ht, hown⟩ := hown
      obtain ⟨c, hc⟩ : ∃ c, routines[t]? = some c := ⟨_, List.getElem?_eq_getElem ht⟩
      obtain ⟨supply, hsupply, hsupply', hrename⟩ := hreplays t c hc
      rw [h'.own t c key hc hown _ hsupply', hrename, Plain.rename,
        h.own t c key hc hown supply hsupply]
      rfl
    · have hnobody : ∀ t < routines.length, division.owns t key = false := fun t ht => by
        simpa using fun hkey => hown ⟨t, ht, hkey⟩
      rw [h'.others key hnobody, Plain.rename, h.others key hnobody]
      exact (congrFun hstart key).symm

end Division.Apart

end ConcurrentMap
