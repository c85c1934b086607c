import ConcurrentMap.Request

/-!
# Plain maps

A plain map is what the concurrent map stands for: each class of equal keys has at most one handle,
and an operation reads or replaces it at once. `Request.effect` says what an operation does to its
own key, `Plain.apply` what it does to the whole map. No tables, cells or threads take part.

A `Call` is an operation that was carried out, with its answer and with the identity that a value
installed by it has. `Plain.Explains` says that a list of calls, one after the other, got the
answers that the plain map gives, `Plain.after` how they leave the map.
-/

namespace ConcurrentMap

variable {K V : Type}

/-- The value that a request may put into the map. -/
def Request.value? : Request K V → Option V
  | .store _ v => some v
  | .swap _ v => some v
  | .loadOrStore _ v => some v
  | .compareAndSwap _ _ new => some new
  | .load _ => none
  | .loadAndDelete _ => none
  | .delete _ => none
  | .compareAndDelete _ _ => none
  | .clear => none

/-- What a request answers if its key holds `held`, and what the key holds afterwards. A value that
the request installs has the identity `stamp`. -/
def Request.effect [BEq V] (stamp : Stamp) (held : Option (Handle V)) :
    Request K V → Answer V × Option (Handle V)
  | .load _ => (.found held, held)
  | .store _ v => (.finished, some ⟨stamp, v⟩)
  | .swap _ v => (.found held, some ⟨stamp, v⟩)
  | .loadOrStore _ v =>
    match held with
    | some h => (.settled h true, some h)
    | none => (.settled ⟨stamp, v⟩ false, some ⟨stamp, v⟩)
  | .loadAndDelete _ => (.found held, none)
  | .delete _ => (.finished, none)
  | .compareAndSwap _ old new =>
    if held.any (·.value == old) then (.decided true, some ⟨stamp, new⟩) else (.decided false, held)
  | .compareAndDelete _ old =>
    if held.any (·.value == old) then (.decided true, none) else (.decided false, held)
  | .clear => (.finished, none)

/-- The key that a request deletes, whatever it holds. -/
def Request.removes? : Request K V → Option K
  | .loadAndDelete key => some key
  | .delete key => some key
  | .load _ => none
  | .store _ _ => none
  | .swap _ _ => none
  | .loadOrStore _ _ => none
  | .compareAndSwap _ _ _ => none
  | .compareAndDelete _ _ => none
  | .clear => none

/-- Only `clear` is about no key. -/
theorem Request.eq_clear_of_key? {r : Request K V} (h : r.key? = none) : r = .clear := by
  cases r <;> simp_all [key?]

/-- A request that deletes a key is about that key. -/
theorem Request.key?_of_removes? {r : Request K V} {key : K} (h : r.removes? = some key) :
    r.key? = some key := by
  cases r <;> simp_all [removes?, key?]

/-- After a deletion the key holds nothing. -/
theorem Request.effect_of_removes? [BEq V] {r : Request K V} {key : K} (h : r.removes? = some key)
    (stamp : Stamp) (held : Option (Handle V)) : (r.effect stamp held).2 = none := by
  cases r <;> simp_all [removes?, effect]

/-- A deletion carries no value. -/
theorem Request.value?_of_removes? {r : Request K V} {key : K} (h : r.removes? = some key) :
    r.value? = none := by
  cases r <;> simp_all [removes?, value?]

/-- A handle that a request answers or leaves behind was there before, or comes from the request. -/
theorem Request.origin_effect [BEq V] {r : Request K V} {stamp : Stamp}
    {held : Option (Handle V)} {h : Handle V}
    (hh : (r.effect stamp held).1.handle? = some h ∨ (r.effect stamp held).2 = some h) :
    held = some h ∨ r.value? = some h.value ∧ stamp = h.stamp := by
  have hnew : ∀ {v : V}, (⟨stamp, v⟩ : Handle V) = h → some v = some h.value ∧ stamp = h.stamp := by
    rintro v rfl
    exact ⟨rfl, rfl⟩
  cases r with
  | load key => exact .inl (hh.elim id id)
  | store key v => exact .inr (hnew (by simpa [effect, Answer.handle?] using hh))
  | swap key v =>
      -- a swap answers what was there, and leaves its own
      simp only [effect, Answer.handle?, Option.some.injEq] at hh
      exact hh.imp id hnew
  | loadOrStore key v =>
      cases held with
      | none =>
          simp only [effect, Answer.handle?, Option.some.injEq, or_self] at hh
          exact .inr (hnew hh)
      | some held =>
          simp only [effect, Answer.handle?, or_self] at hh
          exact .inl hh
  | loadAndDelete key => exact .inl (by simpa [effect, Answer.handle?] using hh)
  | delete key => simp [effect, Answer.handle?] at hh
  | compareAndSwap key old new =>
      -- a comparison leaves its own value behind, or what was there
      simp only [effect] at hh
      split at hh
      · simp only [Answer.handle?, reduceCtorEq, Option.some.injEq, false_or] at hh
        exact .inr (hnew hh)
      · simp only [Answer.handle?, reduceCtorEq, false_or] at hh
        exact .inl hh
  | compareAndDelete key old =>
      simp only [effect] at hh
      split at hh
      · simp [Answer.handle?] at hh
      · simp only [Answer.handle?, reduceCtorEq, false_or] at hh
        exact .inl hh
  | clear => simp [effect, Answer.handle?] at hh

/-- The handle that each key has, if any. -/
def Plain (K V : Type) := K → Option (Handle V)

/-- An operation that was carried out. -/
structure Call (K V : Type) where
  request : Request K V
  /-- The identity of the value that the call installs, if it installs one. -/
  stamp : Stamp
  answer : Answer V

/-- The calls do not both install a value under one identity. -/
def Call.Apart (c d : Call K V) : Prop :=
  ∀ v v', c.request.value? = some v → d.request.value? = some v' → c.stamp ≠ d.stamp

namespace Plain

/-- No key has a value. -/
def empty : Plain K V := fun _ => none

variable [BEq K]

/-- Let every key that equals `key` hold `held`. -/
def set (m : Plain K V) (key : K) (held : Option (Handle V)) : Plain K V :=
  fun query => if key == query then held else m query

/-- The answer to a request, and the map after it. -/
def apply [BEq V] (m : Plain K V) (stamp : Stamp) (r : Request K V) : Answer V × Plain K V :=
  match r.key? with
  | some key => ((r.effect stamp (m key)).1, m.set key (r.effect stamp (m key)).2)
  | none => (.finished, empty)

/-- The map after some calls, the first one first. -/
def after [BEq V] : Plain K V → List (Call K V) → Plain K V
  | m, [] => m
  | m, c :: cs => after (m.apply c.stamp c.request).2 cs

/-- Each call got the answer that the map gives at its turn. -/
def Explains [BEq V] : Plain K V → List (Call K V) → Prop
  | _, [] => True
  | m, c :: cs => c.answer = (m.apply c.stamp c.request).1 ∧
      Explains (m.apply c.stamp c.request).2 cs

/-- Equal keys hold the same handle. -/
def Respects (m : Plain K V) : Prop := ∀ ⦃a b : K⦄, (a == b) = true → m a = m b

/-- The pairs list the whole map: every pair is in the map, every key that has a handle is listed,
and no two listed keys are equal. -/
structure Lists (m : Plain K V) (pairs : List (K × Handle V)) : Prop where
  sound : ∀ p ∈ pairs, m p.1 = some p.2
  complete : ∀ key held, m key = some held → ∃ p ∈ pairs, (p.1 == key) = true
  distinct : pairs.Pairwise fun a b => (a.1 == b.1) = false

/-! ## One change -/

/-- A key holds what was written last to an equal key. -/
theorem set_apply (m : Plain K V) (key query : K) (held : Option (Handle V)) :
    m.set key held query = if key == query then held else m query := rfl

/-- Without any values, equal keys hold the same: none. -/
theorem respects_empty : (empty : Plain K V).Respects := fun _ _ _ => rfl

/-- Writing back what a key holds changes nothing. -/
theorem Respects.set_eq_self {m : Plain K V} (h : m.Respects) {key : K} {held : Option (Handle V)}
    (hk : m key = held) : m.set key held = m := by
  funext query
  rw [set_apply]
  split
  · next hq => rw [← hk, h hq]
  · rfl

section Apply

variable [BEq V]

/-- A request about a key reads and replaces what that key holds, and nothing else. -/
theorem apply_of_key {m : Plain K V} {r : Request K V} {key : K} (hr : r.key? = some key)
    (stamp : Stamp) :
    m.apply stamp r = ((r.effect stamp (m key)).1, m.set key (r.effect stamp (m key)).2) := by
  simp only [apply, hr]

/-- After `clear` no key holds anything. -/
theorem apply_clear (m : Plain K V) (stamp : Stamp) : m.apply stamp .clear = (.finished, empty) :=
  rfl

/-! ## Many calls -/

@[simp] theorem after_nil (m : Plain K V) : m.after [] = m := rfl

/-- Calls that come later start from the map that the earlier ones left. -/
theorem after_append (m : Plain K V) (cs ds : List (Call K V)) :
    m.after (cs ++ ds) = (m.after cs).after ds := by
  induction cs generalizing m with
  | nil => rfl
  | cons c cs ih => exact ih _

/-- The last call is applied to the map that all others left. -/
theorem after_concat (m : Plain K V) (cs : List (Call K V)) (c : Call K V) :
    m.after (cs ++ [c]) = ((m.after cs).apply c.stamp c.request).2 :=
  after_append m cs [c]

/-- A history is explained piece by piece. -/
theorem explains_append {m : Plain K V} {cs ds : List (Call K V)} :
    m.Explains (cs ++ ds) ↔ m.Explains cs ∧ (m.after cs).Explains ds := by
  induction cs generalizing m with
  | nil => simp [Explains]
  | cons c cs ih => simp only [List.cons_append, Explains, ih, after, and_assoc]

/-- The last call has to get the answer that the map gives after all others. -/
theorem explains_concat {m : Plain K V} {cs : List (Call K V)} {c : Call K V} :
    m.Explains (cs ++ [c]) ↔
      m.Explains cs ∧ c.answer = ((m.after cs).apply c.stamp c.request).1 := by
  rw [explains_append]
  simp [Explains]

/-- A handle that an operation answers or leaves behind was there before, or is its own. -/
theorem origin_apply {m : Plain K V} {stamp : Stamp} {r : Request K V} {held : Handle V}
    (h : (m.apply stamp r).1.handle? = some held ∨ ∃ key, (m.apply stamp r).2 key = some held) :
    (∃ key, m key = some held) ∨ r.value? = some held.value ∧ stamp = held.stamp := by
  cases hk : r.key? with
  -- only `clear` has no key, and it leaves nothing behind
  | none => simp [apply, hk, Answer.handle?, empty] at h
  | some key =>
      rw [apply_of_key hk] at h
      have horigin : ((r.effect stamp (m key)).1.handle? = some held ∨
          (r.effect stamp (m key)).2 = some held) ∨ ∃ query, m query = some held := by
        -- what a key holds afterwards was written just now, or was there before
        rcases h with h | ⟨query, h⟩
        · exact .inl (.inl h)
        · change m.set key _ query = some held at h
          rw [set_apply] at h
          split at h
          · exact .inl (.inr h)
          · exact .inr ⟨query, h⟩
      rcases horigin with horigin | hold
      · exact (Request.origin_effect horigin).imp (fun hheld => ⟨key, hheld⟩) id
      · exact .inl hold

/-- A handle that some calls leave behind was there before, or is that of one of them. -/
theorem origin_after {m : Plain K V} {cs : List (Call K V)} {key : K} {held : Handle V}
    (h : m.after cs key = some held) : (∃ key, m key = some held) ∨
      ∃ c ∈ cs, c.request.value? = some held.value ∧ c.stamp = held.stamp := by
  induction cs generalizing m with
  | nil => exact .inl ⟨key, h⟩
  | cons c cs ih =>
      rcases ih h with hfirst | ⟨d, hd, horigin⟩
      · exact (origin_apply (.inr hfirst)).imp id fun hown => ⟨c, List.mem_cons_self, hown⟩
      · exact .inr ⟨d, List.mem_cons_of_mem c hd, horigin⟩

/-- Every handle that a call answers was installed by a call. -/
theorem Explains.origin {m : Plain K V} {made cs : List (Call K V)} (h : m.Explains cs)
    (hm : ∀ key held, m key = some held →
      ∃ d ∈ made, d.request.value? = some held.value ∧ d.stamp = held.stamp)
    {c : Call K V} (hc : c ∈ cs) {held : Handle V} (hheld : c.answer.handle? = some held) :
    ∃ d ∈ made ++ cs, d.request.value? = some held.value ∧ d.stamp = held.stamp := by
  -- `made` are the calls so far, which account for every handle that the map has
  induction cs generalizing m made with
  | nil => exact absurd hc List.not_mem_nil
  | cons e cs ih =>
      have hfirst : ∀ held, ((m.apply e.stamp e.request).1.handle? = some held ∨
          ∃ key, (m.apply e.stamp e.request).2 key = some held) →
            ∃ d ∈ made ++ [e], d.request.value? = some held.value ∧ d.stamp = held.stamp := by
        intro held hh
        rcases origin_apply hh with ⟨key, hold⟩ | hown
        · obtain ⟨d, hd, horigin⟩ := hm key held hold
          exact ⟨d, List.mem_append_left _ hd, horigin⟩
        · exact ⟨e, List.mem_append_right _ (List.mem_singleton_self e), hown⟩
      have happend : made ++ e :: cs = made ++ [e] ++ cs := by simp
      rw [happend]
      rcases List.mem_cons.1 hc with rfl | hc
      · obtain ⟨d, hd, horigin⟩ := hfirst held (.inl (h.1 ▸ hheld))
        exact ⟨d, List.mem_append_left _ hd, horigin⟩
      · exact ih h.2 (fun key held hkey => hfirst held (.inr ⟨key, hkey⟩)) hc

end Apply

/-! ## Equal keys -/

variable [EquivBEq K]

/-- A key holds what was just written to it. -/
@[simp] theorem set_self (m : Plain K V) (key : K) (held : Option (Handle V)) :
    m.set key held key = held := by
  simp [set]

/-- Of two writes to equal keys the second one counts. -/
theorem set_set (m : Plain K V) {a b : K} (hab : (a == b) = true) (x y : Option (Handle V)) :
    (m.set a x).set b y = m.set b y := by
  funext query
  simp only [set_apply, BEq.congr_left hab]
  split <;> rfl

/-- A write keeps it up that equal keys hold the same. -/
theorem Respects.set {m : Plain K V} (h : m.Respects) (key : K) (held : Option (Handle V)) :
    (m.set key held).Respects := by
  intro a b hab
  simp only [set_apply, BEq.congr_right hab, h hab]

variable [BEq V]

/-- A request keeps it up that equal keys hold the same. -/
theorem Respects.apply {m : Plain K V} (h : m.Respects) (stamp : Stamp) (r : Request K V) :
    (m.apply stamp r).2.Respects := by
  unfold Plain.apply
  split
  · exact h.set _ _
  · exact respects_empty

/-- Calls keep it up that equal keys hold the same. -/
theorem Respects.after {m : Plain K V} (h : m.Respects) (cs : List (Call K V)) :
    (m.after cs).Respects := by
  induction cs generalizing m with
  | nil => exact h
  | cons c cs ih => exact ih (h.apply _ _)

end Plain

end ConcurrentMap
