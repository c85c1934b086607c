import ConcurrentMap.Proofs.Client
import ConcurrentMap.Proofs.Plain
import Mathlib.Data.List.Nodup
import Mathlib.Logic.Function.Iterate

/-!
# What calls put into a map and what they take out

A call installs at most one handle, and replaces or removes at most one. `Plain.deals` lists the
calls of a plain map together with what each of them took. If the map is never cleared, what was in
the map before and what was installed is what was taken and what is in the map afterwards: for one
call this is `Request.balance`, for many calls `Plain.balance` and, key by key, `Plain.balanceAt`.
`Deals.Conserved` is what follows for a map that starts out empty.

Two consequences are about a single key: `Plain.value_of_counter` says that a counter loses no
increment, `Plain.winner_of_race` that of the calls that put a value in place of none one is the
first.
-/

namespace ConcurrentMap

variable {K V : Type}

/-- The request is about the key, or about one that equals it. -/
def Request.about [BEq K] (key : K) (r : Request K V) : Bool := r.key?.any (· == key)

/-- The handle that a request replaces or removes if its key holds `held`. -/
def Request.taken? [BEq V] (held : Option (Handle V)) : Request K V → Option (Handle V)
  | .store _ _ => held
  | .swap _ _ => held
  | .loadAndDelete _ => held
  | .delete _ => held
  | .compareAndSwap _ old _ => held.filter (·.value == old)
  | .compareAndDelete _ old => held.filter (·.value == old)
  | .load _ => none
  | .loadOrStore _ _ => none
  | .clear => none

/-- The handle that a call put into the map, if it did. -/
def Call.installed? (c : Call K V) : Option (Handle V) :=
  match c.request, c.answer with
  | .store _ v, _ => some ⟨c.stamp, v⟩
  | .swap _ v, _ => some ⟨c.stamp, v⟩
  | .loadOrStore _ v, .settled _ false => some ⟨c.stamp, v⟩
  | .compareAndSwap _ _ new, .decided true => some ⟨c.stamp, new⟩
  | _, _ => none

/-- The request and the answer of a call. -/
def Call.entry (c : Call K V) : Request K V × Answer V := (c.request, c.answer)

/-- A call and the handle that it replaced or removed, if it did. -/
structure Deal (K V : Type) extends Call K V where
  taken : Option (Handle V)

namespace Deal

/-- The call took this handle. -/
def takes (d : Deal K V) (held : Handle V) : Bool := d.taken.any (·.same held)

/-- What the call took and installed is what its answer says, as far as it says anything. -/
def Honest [BEq V] (d : Deal K V) : Prop :=
  match d.request with
  | .store _ _ => True
  | .delete _ => True
  | .swap _ _ => d.answer = .found d.taken
  | .loadAndDelete _ => d.answer = .found d.taken
  | .compareAndSwap _ old _ => d.answer = .decided d.taken.isSome ∧ d.taken.all (·.value == old)
  | .compareAndDelete _ old => d.answer = .decided d.taken.isSome ∧ d.taken.all (·.value == old)
  | .load _ => d.taken = none
  | .loadOrStore _ _ =>
    d.taken = none ∧ ∀ held, d.answer = .settled held false → d.installed? = some held
  | .clear => d.taken = none

end Deal

/-- The handles that the calls put into the map. -/
def Deals.installed (deals : List (Deal K V)) : List (Handle V) :=
  deals.filterMap fun d => d.installed?

/-- The handles that the calls replaced or removed. -/
def Deals.taken (deals : List (Deal K V)) : List (Handle V) := deals.filterMap Deal.taken

/-- The calls about one key. -/
def Deals.about [BEq K] (key : K) (deals : List (Deal K V)) : List (Deal K V) :=
  deals.filter fun d => d.request.about key

/-- What the key of a request holds. -/
def Plain.holds (m : Plain K V) (r : Request K V) : Option (Handle V) :=
  match r.key? with
  | some key => m key
  | none => none

/-- The calls, one after the other, each with what it takes from the map at its turn. -/
def Plain.deals [BEq K] [BEq V] : Plain K V → List (Call K V) → List (Deal K V)
  | _, [] => []
  | m, c :: cs =>
    ⟨c, c.request.taken? (m.holds c.request)⟩ :: deals (m.apply c.stamp c.request).2 cs

/-- Every handle that was put into the map is accounted for: it was taken once, or the map holds
it. -/
structure Deals.Conserved [BEq K] [BEq V] (deals : List (Deal K V)) (final : Plain K V)
    (contents : List (K × Handle V)) : Prop where
  honest : ∀ d ∈ deals, d.Honest
  /-- No two calls install a handle of the same identity. -/
  identities : ((installed deals).map Handle.stamp).Nodup
  lists : final.Lists contents
  balanced : (installed deals).Perm (taken deals ++ contents.map Prod.snd)
  balancedAt : ∀ key,
    (installed (about key deals)).Perm (taken (about key deals) ++ (final key).toList)
  /-- No two calls take the same handle. -/
  takenOnce : ((taken deals).map Handle.stamp).Nodup
  /-- What was installed is either in the map or was taken by one call. -/
  once : ∀ d ∈ deals, ∀ held, d.installed? = some held →
    deals.countP (·.takes held) + contents.countP (·.2.same held) = 1

/-! ## One call -/

section Balance

variable [BEq V]

/-- What the key held and what is installed is what is taken and what the key holds afterwards. -/
theorem Request.balance {r : Request K V} (hr : r ≠ .clear) (stamp : Stamp)
    (held : Option (Handle V)) :
    (held.toList ++ (Call.installed? ⟨r, stamp, (r.effect stamp held).1⟩).toList).Perm
      ((r.taken? held).toList ++ (r.effect stamp held).2.toList) := by
  -- By cases on the request, and on what the key holds where that makes a difference.
  cases r with
  | load key => simp [effect, taken?, Call.installed?]
  | store key v => simp [effect, taken?, Call.installed?]
  | swap key v => simp [effect, taken?, Call.installed?]
  | loadOrStore key v => cases held <;> simp [effect, taken?, Call.installed?]
  | loadAndDelete key => simp [effect, taken?, Call.installed?]
  | delete key => simp [effect, taken?, Call.installed?]
  | compareAndSwap key old new =>
      cases held with
      | none => simp [effect, taken?, Call.installed?]
      | some h =>
          by_cases hcmp : h.value == old <;>
            simp [effect, taken?, Call.installed?, Option.filter, hcmp]
  | compareAndDelete key old =>
      cases held with
      | none => simp [effect, taken?, Call.installed?]
      | some h =>
          by_cases hcmp : h.value == old <;>
            simp [effect, taken?, Call.installed?, Option.filter, hcmp]
  | clear => exact absurd rfl hr

/-- What a call takes is what its answer says. -/
theorem Request.honest (r : Request K V) (stamp : Stamp) (held : Option (Handle V)) :
    (⟨⟨r, stamp, (r.effect stamp held).1⟩, r.taken? held⟩ : Deal K V).Honest := by
  cases r with
  | loadOrStore key v =>
      refine ⟨rfl, fun given hgiven => ?_⟩
      cases held <;> simp_all [effect, Call.installed?]
  | compareAndSwap key old new =>
      cases held with
      | none => simp [Deal.Honest, effect, taken?]
      | some h => by_cases hcmp : h.value == old <;> simp [Deal.Honest, effect, taken?, hcmp]
  | compareAndDelete key old =>
      cases held with
      | none => simp [Deal.Honest, effect, taken?]
      | some h => by_cases hcmp : h.value == old <;> simp [Deal.Honest, effect, taken?, hcmp]
  | _ => simp [Deal.Honest, effect, taken?]

/-- A request whose comparison fails changes nothing. -/
theorem Request.effect_of_refused {r : Request K V} {stamp : Stamp} {held : Option (Handle V)}
    (h : (r.effect stamp held).1 = .decided false) : (r.effect stamp held).2 = held := by
  cases r with
  | loadOrStore key v => cases held <;> simp [effect] at h
  | compareAndSwap key old new =>
      simp only [effect] at h ⊢
      split <;> simp_all
  | compareAndDelete key old =>
      simp only [effect] at h ⊢
      split <;> simp_all
  | _ => simp [effect] at h

omit [BEq V] in
/-- What a call installs carries the value of its request and the call's own identity. -/
theorem Call.of_installed? {c : Call K V} {held : Handle V} (h : c.installed? = some held) :
    c.request.value? = some held.value ∧ c.stamp = held.stamp := by
  unfold installed? at h
  split at h <;> simp_all [Request.value?] <;> subst h <;> simp

end Balance

section Lists

variable [BEq K]

theorem Request.about_of_key {key given : K} {r : Request K V} (hr : r.key? = some given) :
    r.about key = (given == key) := by
  simp [about, hr]

omit [BEq K] in
theorem Plain.holds_of_key {m : Plain K V} {r : Request K V} {key : K} (hr : r.key? = some key) :
    m.holds r = m key := by
  rw [holds, hr]

/-- A request that is not about a key leaves the key alone. -/
theorem Plain.apply_of_not_about [BEq V] {m : Plain K V} {key : K} {r : Request K V}
    (hr : r ≠ .clear) (stamp : Stamp) (h : r.about key = false) :
    (m.apply stamp r).2 key = m key := by
  cases hk : r.key? with
  | none => exact absurd (Request.eq_clear_of_key? hk) hr
  | some given =>
      rw [apply_of_key hk]
      rw [Request.about_of_key hk] at h
      simp [set_apply, h]

omit [BEq K] in
theorem Request.exists_key {r : Request K V} (hr : r ≠ .clear) : ∃ key, r.key? = some key :=
  Option.ne_none_iff_exists'.1 fun hkey => hr (eq_clear_of_key? hkey)

/-- What a request does to a key that it is about. -/
theorem Plain.Respects.apply_of_about [BEq V] {m : Plain K V} (hm : m.Respects) {key : K}
    {r : Request K V} (stamp : Stamp) (h : r.about key = true) :
    m.apply stamp r = ((r.effect stamp (m key)).1, (m.apply stamp r).2) ∧
      (m.apply stamp r).2 key = (r.effect stamp (m key)).2 ∧ m.holds r = m key := by
  cases hk : r.key? with
  | none => simp [Request.about, hk] at h
  | some given =>
      rw [Request.about_of_key hk] at h
      rw [apply_of_key hk, hm h]
      exact ⟨rfl, by simp [set_apply, h], (holds_of_key hk).trans (hm h)⟩

/-- The first of some calls, if it is about the key, answers what the key says. -/
theorem Plain.Respects.answer_of_about [BEq V] {m : Plain K V} (hm : m.Respects) {key : K}
    {c : Call K V} {calls : List (Call K V)} (hex : m.Explains (c :: calls))
    (h : c.request.about key = true) : c.answer = (c.request.effect c.stamp (m key)).1 :=
  hex.1.trans (congrArg Prod.fst (hm.apply_of_about c.stamp h).1)

variable [EquivBEq K]

/-- The pairs of a key list its value. -/
theorem Plain.Lists.values {m : Plain K V} (hm : m.Respects) {pairs : List (K × Handle V)}
    (h : m.Lists pairs) (key : K) :
    (pairs.filter fun p => p.1 == key).map Prod.snd = (m key).toList := by
  -- no two pairs are about the key, and one is if the key has a value
  have hequal : ∀ p ∈ pairs.filter fun p => p.1 == key, m key = some p.2 := by
    intro p hp
    obtain ⟨hp, heq⟩ := List.mem_filter.1 hp
    rw [← hm heq]
    exact h.sound p hp
  have hdistinct : (pairs.filter fun p => p.1 == key).Pairwise fun a b => False := by
    refine (h.distinct.filter _).imp_of_mem fun {a b} ha hb hab => ?_
    have heq := BEq.trans (List.mem_filter.1 ha).2 (BEq.symm (List.mem_filter.1 hb).2)
    simp [hab] at heq
  cases hpairs : pairs.filter fun p => p.1 == key with
  | nil =>
      cases hheld : m key with
      | none => rfl
      | some held =>
          obtain ⟨p, hp, heq⟩ := h.complete key held hheld
          have hmem : p ∈ pairs.filter fun p => p.1 == key := List.mem_filter.2 ⟨hp, heq⟩
          simp [hpairs] at hmem
  | cons p others =>
      rw [hpairs] at hequal hdistinct
      cases others with
      | nil => simp [hequal p List.mem_cons_self]
      | cons q others => exact ((List.pairwise_cons.1 hdistinct).1 q List.mem_cons_self).elim

/-- What the key holds now is listed in the place of its old pairs. -/
theorem Plain.Lists.put {m : Plain K V} {pairs : List (K × Handle V)} (h : m.Lists pairs) (key : K)
    (held : Option (Handle V)) :
    (m.set key held).Lists
      (held.toList.map (Prod.mk key) ++ pairs.filter fun p => !(p.1 == key)) where
  sound p hp := by
    rw [set_apply]
    rcases List.mem_append.1 hp with hp | hp
    · obtain ⟨new, hnew, rfl⟩ := List.mem_map.1 hp
      rw [if_pos BEq.rfl]
      exact Option.mem_toList.1 hnew
    · obtain ⟨hp, hne⟩ := List.mem_filter.1 hp
      rw [BEq.comm, Bool.not_eq_true'] at hne
      rw [hne]
      exact h.sound p hp
  complete query found hfound := by
    rw [set_apply] at hfound
    split at hfound
    · next heq => exact ⟨(key, found), by simp [hfound], heq⟩
    · next hne =>
      obtain ⟨p, hp, heq⟩ := h.complete query found hfound
      refine ⟨p, List.mem_append_right _ (List.mem_filter.2 ⟨hp, ?_⟩), heq⟩
      rw [BEq.congr_left heq, BEq.comm]
      simpa using hne
  distinct := by
    refine List.pairwise_append.2 ⟨?_, h.distinct.filter _, fun a ha b hb => ?_⟩
    · cases held <;> simp
    · obtain ⟨new, -, rfl⟩ := List.mem_map.1 ha
      rw [BEq.comm]
      simpa using (List.mem_filter.1 hb).2

/-- The pairs of a map, those of one key apart. Another value of the key is listed by putting it in
the place of the old one. -/
theorem Plain.Lists.set {m : Plain K V} (hm : m.Respects) {pairs : List (K × Handle V)}
    (h : m.Lists pairs) (key : K) :
    ∃ rest : List (Handle V), (pairs.map Prod.snd).Perm ((m key).toList ++ rest) ∧
      ∀ held, ∃ pairs', (m.set key held).Lists pairs' ∧
        pairs'.map Prod.snd = held.toList ++ rest := by
  refine ⟨(pairs.filter fun p => !(p.1 == key)).map Prod.snd, ?_, fun held => ⟨_, h.put key held, ?_⟩⟩
  · rw [← h.values hm, ← List.map_append]
    exact ((List.filter_append_perm _ pairs).map _).symm
  · rw [List.map_append, List.map_map]
    exact congrArg (· ++ _) (List.map_id _)

end Lists

/-! ## Many calls -/

section Many

variable [BEq K] [BEq V]

/-- The deals of a plain map are its calls. -/
theorem Plain.map_deals (m : Plain K V) (calls : List (Call K V)) :
    (m.deals calls).map Deal.toCall = calls := by
  induction calls generalizing m with
  | nil => rfl
  | cons c calls ih => rw [deals, List.map_cons, ih]

theorem Deals.installed_deals (m : Plain K V) (calls : List (Call K V)) :
    installed (m.deals calls) = calls.filterMap Call.installed? := by
  conv_rhs => rw [← m.map_deals calls]
  rw [List.filterMap_map]
  rfl

omit [BEq K] [BEq V] in
theorem Deals.installed_cons (d : Deal K V) (deals : List (Deal K V)) :
    installed (d :: deals) = d.installed?.toList ++ installed deals := by
  cases h : d.installed? <;> simp [installed, h]

omit [BEq K] [BEq V] in
theorem Deals.taken_cons (d : Deal K V) (deals : List (Deal K V)) :
    taken (d :: deals) = d.taken.toList ++ taken deals := by
  cases h : d.taken <;> simp [taken, h]

omit [BEq K] [BEq V] in
/-- An account that balances before a step and after it balances over both. -/
private theorem perm_relay {a b c i i' t t' : List (Handle V)} (h : (a ++ i).Perm (t ++ b))
    (h' : (b ++ i').Perm (t' ++ c)) : (a ++ (i ++ i')).Perm (t ++ t' ++ c) := by
  calc
    (a ++ (i ++ i')).Perm (a ++ i ++ i') := .of_eq (List.append_assoc _ _ _).symm
    List.Perm _ (t ++ b ++ i') := h.append_right i'
    List.Perm _ (t ++ (b ++ i')) := .of_eq (List.append_assoc _ _ _)
    List.Perm _ (t ++ (t' ++ c)) := h'.append_left t
    List.Perm _ (t ++ t' ++ c) := .of_eq (List.append_assoc _ _ _).symm

namespace Plain

variable {m : Plain K V} {calls : List (Call K V)}

/-- The answers of a plain map say what the calls have taken and installed. -/
theorem honest_deals (hm : m.Explains calls) (hclear : ∀ c ∈ calls, c.request ≠ .clear) :
    ∀ d ∈ m.deals calls, d.Honest := by
  induction calls generalizing m with
  | nil => exact fun d hd => absurd hd List.not_mem_nil
  | cons c calls ih =>
      intro d hd
      rcases List.mem_cons.1 hd with rfl | hd
      · obtain ⟨request, stamp, answer⟩ := c
        obtain ⟨key, hkey⟩ := Request.exists_key (hclear _ List.mem_cons_self)
        obtain rfl : answer = (request.effect stamp (m.holds request)).1 := by
          rw [holds_of_key hkey]
          exact hm.1.trans (by rw [apply_of_key hkey])
        exact request.honest stamp _
      · exact ih hm.2 (fun e he => hclear e (List.mem_cons_of_mem c he)) d hd

variable [EquivBEq K]

/-- What the map held and what is installed is what is taken and what the map holds afterwards. -/
theorem balance (hm : m.Respects) {pairs : List (K × Handle V)} (hpairs : m.Lists pairs)
    (hex : m.Explains calls) (hclear : ∀ c ∈ calls, c.request ≠ .clear) :
    ∃ contents, (m.after calls).Lists contents ∧
      (pairs.map Prod.snd ++ Deals.installed (m.deals calls)).Perm
        (Deals.taken (m.deals calls) ++ contents.map Prod.snd) := by
  induction calls generalizing m pairs with
  | nil => exact ⟨pairs, hpairs, by simp [deals, Deals.installed, Deals.taken]⟩
  | cons c calls ih =>
      obtain ⟨request, stamp, answer⟩ := c
      have hr := hclear _ List.mem_cons_self
      obtain ⟨key, hkey⟩ := Request.exists_key hr
      obtain ⟨rest, hrest, hset⟩ := hpairs.set hm key
      obtain ⟨pairs', hpairs', hsnd⟩ := hset (request.effect stamp (m key)).2
      obtain rfl : answer = (request.effect stamp (m key)).1 :=
        hex.1.trans (by rw [apply_of_key hkey])
      have hnext : (m.apply stamp request).2 = m.set key (request.effect stamp (m key)).2 := by
        rw [apply_of_key hkey]
      rw [← hnext] at hpairs'
      obtain ⟨contents, hcontents, hperm⟩ := ih (hm.apply stamp request) hpairs' hex.2
        fun e he => hclear e (List.mem_cons_of_mem _ he)
      refine ⟨contents, hcontents, ?_⟩
      rw [deals, Deals.installed_cons, Deals.taken_cons]
      refine perm_relay ?_ hperm
      -- the one key that changes is apart from the rest
      have hone := (Request.balance hr stamp (m key)).append_right rest
      rw [hsnd, holds_of_key hkey, ← List.append_assoc]
      refine .trans ?_ hone
      calc
        List.Perm _ ((m key).toList ++ rest ++ _) := hrest.append_right _
        List.Perm _ ((m key).toList ++ (rest ++ _)) := .of_eq (List.append_assoc _ _ _)
        List.Perm _ ((m key).toList ++ (_ ++ rest)) := List.perm_append_comm.append_left _
        List.Perm _ _ := .of_eq (List.append_assoc _ _ _).symm

/-- What a key held and what is installed there is what is taken there and what it holds
afterwards. -/
theorem balanceAt (hm : m.Respects) (hex : m.Explains calls)
    (hclear : ∀ c ∈ calls, c.request ≠ .clear) (key : K) :
    ((m key).toList ++ Deals.installed (Deals.about key (m.deals calls))).Perm
      (Deals.taken (Deals.about key (m.deals calls)) ++ (m.after calls key).toList) := by
  induction calls generalizing m with
  | nil => simp [deals, Deals.about, Deals.installed, Deals.taken]
  | cons c calls ih =>
      obtain ⟨request, stamp, answer⟩ := c
      obtain ⟨hr, hclear⟩ := List.forall_mem_cons.1 hclear
      have hrest := ih (hm.apply stamp request) hex.2 hclear
      rw [deals, Deals.about, List.filter_cons]
      -- A call on another key neither installs nor takes anything here.
      cases habout : request.about key with
      | false =>
          rw [apply_of_not_about hr stamp habout] at hrest
          exact hrest
      | true =>
          -- A call on this key balances by itself, and the accounts are joined.
          obtain ⟨-, hnext, hheld⟩ := hm.apply_of_about stamp habout
          obtain rfl : answer = (request.effect stamp (m key)).1 := hm.answer_of_about hex habout
          rw [if_pos rfl, Deals.installed_cons, Deals.taken_cons]
          refine perm_relay ?_ hrest
          rw [hnext, hheld]
          exact Request.balance hr stamp (m key)

/-- In a map that starts out empty and is not cleared, every handle is accounted for. -/
theorem conserved (hex : empty.Explains calls) (hclear : ∀ c ∈ calls, c.request ≠ .clear)
    (hapart : calls.Pairwise Call.Apart) :
    ∃ contents, Deals.Conserved (empty.deals calls) (empty.after calls) contents := by
  have hempty : (empty : Plain K V).Lists [] :=
    ⟨by simp, fun key held h => by simp [empty] at h, .nil⟩
  obtain ⟨contents, hlists, hperm⟩ := balance respects_empty hempty hex hclear
  rw [List.map_nil, List.nil_append] at hperm
  have hids : ((Deals.installed (empty.deals calls)).map Handle.stamp).Nodup := by
    rw [Deals.installed_deals, List.Nodup, List.pairwise_map, List.pairwise_filterMap]
    refine hapart.imp fun {c d} hcd held hheld held' hheld' => ?_
    obtain ⟨hv, hstamp⟩ := Call.of_installed? hheld
    obtain ⟨hv', hstamp'⟩ := Call.of_installed? hheld'
    rw [← hstamp, ← hstamp']
    exact hcd _ _ hv hv'
  have hstamps := hperm.map Handle.stamp
  rw [List.map_append] at hstamps
  refine ⟨contents, honest_deals hex hclear, hids, hlists, hperm, fun key => ?_,
    (List.nodup_append.1 (hstamps.nodup_iff.1 hids)).1, fun d hd held hheld => ?_⟩
  · simpa [empty] using balanceAt respects_empty hex hclear key
  · -- the identity occurs once among all that were installed
    have hmem : held.stamp ∈ (Deals.installed (empty.deals calls)).map Handle.stamp :=
      List.mem_map_of_mem (List.mem_filterMap.2 ⟨d, hd, hheld⟩)
    have hcount := List.count_eq_one_of_mem hids hmem
    rw [hstamps.count_eq, List.count_append, List.map_map] at hcount
    rw [← hcount, Deals.taken]
    congr 1
    · rw [List.count, List.countP_map, List.countP_filterMap]
      refine List.countP_congr fun e _ => ?_
      cases htaken : e.taken <;> simp [Deal.takes, htaken, Handle.same]
    · rw [List.count, List.countP_map]
      exact List.countP_congr fun e _ => by simp [Handle.same]

end Plain

end Many

end ConcurrentMap
