import ConcurrentMap.Proofs.Interference.Courses
import ConcurrentMap.Proofs.Interference.Sequels

/-!
# What a thread saw of its own keys

If all calls on some keys are those of one thread, they stand in the line in the order in which the
thread made them, and everything else in the line is without effect on these keys. So what the
thread was answered is what a plain map answers that has only these calls, and what a survey saw of
these keys is what that map had when the survey was made (`World.Survey.outcome_eq`). The record of
a routine is therefore its replay (`World.Course.replay`).
-/

namespace ConcurrentMap

variable {K V : Type}

/-! ## Visits -/

namespace Visit

variable [BEq K] {mine : K → Bool} {visits : List (Visit K V)} {key : K}

/-- What a report says of a key is the handle of its first visit. -/
theorem outcome_eq (visits : List (Visit K V)) (stopped : Bool) (key : K) :
    (Report.mk (visits.map pair) stopped).outcome key =
      (visits.find? (·.key == key)).map (·.held) := by
  rw [Report.outcome, List.find?_map, Option.map_map]
  rfl

/-- A key is shown once, if it is. -/
theorem shown_eq [EquivBEq K] (honce : visits.Pairwise fun a b => (a.key == b.key) = false)
    (hkey : mine key = true) :
    shown mine visits key = ((visits.find? (·.key == key)).map (·.held)).toList := by
  have hfilter := honce.filter (·.key == key)
  rw [shown, if_pos hkey, ← List.head?_filter]
  cases hvisits : visits.filter (·.key == key) with
  | nil => rfl
  | cons a rest =>
      cases rest with
      | nil => rfl
      | cons b rest =>
          -- both would be visits to the key
          have hmatch : ∀ v ∈ a :: b :: rest, (v.key == key) = true := fun v hv => by
            rw [← hvisits, List.mem_filter] at hv
            exact hv.2
          have ha := hmatch a List.mem_cons_self
          have hb := hmatch b (List.mem_cons_of_mem a List.mem_cons_self)
          rw [hvisits] at hfilter
          have hab := (List.pairwise_cons.1 hfilter).1 b List.mem_cons_self
          rw [BEq.congr_left ha, BEq.comm, hb] at hab
          exact absurd hab (by simp)

variable {m : Plain K V}

/-- What is shown for the thread's own keys is what a map has. -/
theorem shown_eq_of [EquivBEq K] (honce : visits.Pairwise fun a b => (a.key == b.key) = false)
    (hm : ∀ key, mine key = true → (visits.find? (·.key == key)).map (·.held) = m key) :
    shown mine visits = fun key => if mine key then (m key).toList else [] := by
  funext key
  cases hkey : mine key with
  | true => rw [shown_eq honce hkey, hm key hkey, if_pos rfl]
  | false => simp [shown, hkey]

/-- What the visitor found there is what it finds when that is shown. -/
theorem told_eq_of {f : K → Handle V → Findings K V}
    (hm : ∀ key, mine key = true → (visits.find? (·.key == key)).map (·.held) = m key)
    (hf : ∀ v ∈ visits, ∀ key, (v.key == key) = true → v.found = f key v.held) :
    told mine visits = fun key => if mine key then ((m key).map (f key)).getD .nil else .nil := by
  funext key
  cases hkey : mine key with
  | false => simp [told, hkey]
  | true =>
      rw [told, if_pos hkey, if_pos rfl, ← hm key hkey]
      cases hfind : visits.find? (·.key == key) with
      | none => rfl
      | some v =>
          have hmatch : (v.key == key) = true := by simpa using List.find?_some hfind
          simp [hf v (List.mem_of_find?_eq_some hfind) key hmatch]

end Visit

/-- A beginning of a list that has all of the first part and nothing of the third ends in the second
part. -/
private theorem exists_prefix_between {β : Type} {seen first second third : List β}
    (h : seen <+: first ++ (second ++ third)) (hnodup : (first ++ (second ++ third)).Nodup)
    (hfirst : ∀ x ∈ first, x ∈ seen) (hthird : ∀ x ∈ third, x ∉ seen) :
    ∃ part, part <+: second ∧ seen = first ++ part := by
  -- Either the list ends within the first part, and then it is all of it; or it reaches beyond.
  rcases List.prefix_or_prefix_of_prefix h (List.prefix_append first _) with hle | hle
  · obtain ⟨rest, hrest⟩ := hle
    have hnone : rest = [] := by
      refine List.eq_nil_iff_forall_not_mem.2 fun x hx => ?_
      have hseen : x ∈ seen := hfirst x (hrest ▸ List.mem_append_right seen hx)
      have hdisjoint := (List.nodup_append'.1 hnodup).1
      rw [← hrest] at hdisjoint
      exact List.disjoint_of_nodup_append hdisjoint hseen hx
    refine ⟨[], List.nil_prefix, ?_⟩
    rw [← hrest, hnone]
    simp
  · obtain ⟨part, rfl⟩ := hle
    refine ⟨part, ?_, rfl⟩
    have hpart := (List.prefix_append_right_inj first).1 h
    -- In the same way it ends within the second part, or reaches into the third, of which it has
    -- nothing.
    rcases List.prefix_or_prefix_of_prefix hpart (List.prefix_append second _) with hle | hle
    · exact hle
    · obtain ⟨rest, rfl⟩ := hle
      have hrest := (List.prefix_append_right_inj second).1 hpart
      have hnone : rest = [] := List.eq_nil_iff_forall_not_mem.2 fun x hx =>
        hthird x (hrest.subset hx) (List.mem_append_right _ (List.mem_append_right _ hx))
      simp [hnone]

variable [BEq K] [BEq V]

namespace World

/-- The calls on the keys `mine` that came after world `w₀`. -/
def share (w₀ w : World K V) (mine : K → Bool) : List (Deed K V) :=
  (w₀.sequel w).filter fun d => d.toCall.on mine

/-- After world `w₀`, in which all calls had been answered, nobody cleared the map. -/
structure Pointwise (w₀ w : World K V) : Prop where
  settled : w₀.Settled
  grows : w₀.Grows w
  sound : w.Sound
  keyed : ∀ d ∈ w₀.sequel w, d.request.key?.isSome = true

variable {w₀ w₁ w₂ w : World K V} {mine : K → Bool}

/-- The calls of a share are those of the sequel that are on its keys. -/
theorem map_share (w₀ w : World K V) (mine : K → Bool) :
    (w₀.share w mine).map Deed.toCall =
      ((w₀.sequel w).map Deed.toCall).filter (Call.on mine) := by
  rw [List.filter_map]
  rfl

/-- A share stands in the line, in the order of the line. -/
theorem share_sublist (w₀ w : World K V) (mine : K → Bool) :
    (w₀.share w mine).Sublist w.chronicle.line :=
  List.filter_sublist.trans (w₀.sequel_sublist w)

variable [EquivBEq K]

/-- What the tables and the cells show treats equal keys alike. -/
theorem Sound.respects_view (hw : w.Sound) : w.shared.view.Respects :=
  hw.view_eq ▸ w.chronicle.respects_state w.era

namespace Pointwise

omit [EquivBEq K] in
/-- Every call that came after the world is on a key. -/
theorem keyed_calls (h : w₀.Pointwise w) {calls : List (Call K V)}
    (hcalls : ∀ c ∈ calls, c ∈ (w₀.sequel w).map Deed.toCall) :
    ∀ c ∈ calls, c.request.key?.isSome = true := by
  intro c hc
  obtain ⟨d, hd, rfl⟩ := List.mem_map.1 (hcalls c hc)
  exact h.keyed d hd

/-- The calls on these keys are explained without the others. -/
theorem explains_share (h : w₀.Pointwise w) (hmine : ∀ a b, (a == b) = true → mine a = mine b) :
    w₀.shared.view.Explains ((w₀.share w mine).map Deed.toCall) := by
  rw [map_share]
  exact (Plain.AgreeOn.refl mine _).explains_filter hmine (h.keyed_calls fun c hc => hc)
    (h.settled.explains_sequel h.grows h.sound)

/-- They make these keys what they are. -/
theorem after_share (h : w₀.Pointwise w) (hmine : ∀ a b, (a == b) = true → mine a = mine b) :
    Plain.AgreeOn mine w.shared.view
      (w₀.shared.view.after ((w₀.share w mine).map Deed.toCall)) := by
  rw [map_share, ← h.settled.after_sequel h.grows h.sound]
  exact (Plain.AgreeOn.refl mine _).after_filter hmine (h.keyed_calls fun c hc => hc)

/-- What these keys have at a moment is what some of the calls left there: all that had been
answered before, and none that were made later. -/
theorem exists_seen (h : w₀.Pointwise w) (hmine : ∀ a b, (a == b) = true → mine a = mine b)
    (hg₁ : w₀.Grows w₁) (hg₂ : w₁.Grows w₂) (hg : w₂.Grows w) (hw₁ : w₁.Sound) (hw₂ : w₂.Sound)
    {j n : Nat} (hmoment : w₁.Moment w₂ j n) :
    ∃ seen, seen <+: w₀.share w mine ∧
      Plain.AgreeOn mine (w₂.chronicle.stateAt j n)
        (w₀.shared.view.after (seen.map Deed.toCall)) ∧
      (∀ d ∈ seen, d.id < w₂.chronicle.issued) ∧
      ∀ d ∈ w₀.share w mine, (∃ answer horizon, w₁.chronicle.Recorded d.id answer horizon) →
        d ∈ seen := by
  obtain ⟨seen, hprefix, hstate, hlate, hearly⟩ :=
    h.settled.exists_before hg₁ hg₂ hg hw₁ hw₂ h.sound hmoment
  refine ⟨seen.filter fun d => d.toCall.on mine, hprefix.filter _, ?_,
    fun d hd => hlate d (List.mem_filter.1 hd).1, fun d hd hrec => ?_⟩
  · have hmap : (seen.filter fun d => d.toCall.on mine).map Deed.toCall =
        (seen.map Deed.toCall).filter (Call.on mine) := by
      rw [List.filter_map]
      rfl
    rw [hstate, hmap]
    refine (Plain.AgreeOn.refl mine _).after_filter hmine (h.keyed_calls fun c hc => ?_)
    exact List.map_subset _ hprefix.subset hc
  · obtain ⟨hd, hon⟩ := List.mem_filter.1 hd
    exact List.mem_filter.2 ⟨hearly d hd hrec, hon⟩

end Pointwise

/-! ## Passages of the share -/

variable {before inner later made : List (Tag K V)} {fin limit : CallId}
  {first second third : List (Deed K V)}

/-- Of the calls on the keys `mine`, the first ones are those that the thread knows as `before`, the
second ones those that it knows as `made`, and the others were made from `fin` on. -/
structure Passage (w₀ w : World K V) (mine : K → Bool) (before made : List (Tag K V)) (fin : CallId)
    (first second third : List (Deed K V)) : Prop where
  share : w₀.share w mine = first ++ (second ++ third)
  first : first.map Deed.tag = before
  second : second.map Deed.tag = made
  third : ∀ d ∈ third, fin ≤ d.id

namespace Passage

omit [EquivBEq K] in
/-- The passage begins with a call. -/
theorem answered {x : Tag K V} (h : w₀.Passage w mine before (x :: made) fin first second third) :
    ∃ d rest, second = d :: rest ∧ d.tag = x ∧
      w₀.Passage w mine (before ++ [x]) made fin (first ++ [d]) rest third := by
  obtain ⟨d, rest, rfl, rfl, hmade⟩ := List.map_eq_cons_iff.1 h.second
  refine ⟨d, rest, rfl, rfl, ?_, ?_, hmade, h.third⟩
  · rw [h.share, List.cons_append, List.append_cons]
  · rw [List.map_append, h.first, List.map_singleton]

omit [EquivBEq K] in
/-- The passage has two parts, and what was made in the second part was made from `limit` on. -/
theorem split (h : w₀.Passage w mine before (inner ++ made) fin first second third)
    (hmade : ∀ x ∈ made, limit ≤ x.1) (hfin : limit ≤ fin) : ∃ reads rest, second = reads ++ rest ∧
      w₀.Passage w mine before inner limit first reads (rest ++ third) ∧
      w₀.Passage w mine (before ++ inner) made fin (first ++ reads) rest third := by
  obtain ⟨reads, rest, rfl, hinner, hrest⟩ := List.map_eq_append_iff.1 h.second
  have hshare := h.share
  rw [List.append_assoc] at hshare
  refine ⟨reads, rest, rfl, ⟨hshare, h.first, hinner, fun d hd => ?_⟩, ?_, ?_, hrest, h.third⟩
  · rcases List.mem_append.1 hd with hd | hd
    · exact hmade d.tag (hrest ▸ List.mem_map_of_mem hd)
    · exact Nat.le_trans hfin (h.third d hd)
  · rw [hshare, List.append_assoc]
  · rw [List.map_append, h.first, hinner]

omit [EquivBEq K] in
/-- The passage of one visit. -/
theorem visit {l m : List (Tag K V)} {mid : CallId}
    (h : w₀.Passage w mine before inner limit first second third)
    (hin : InVisit inner l m mid limit) : ∃ l' m' r', second = l' ++ (m' ++ r') ∧
      w₀.Passage w mine (before ++ l) m mid (first ++ l') m' (r' ++ third) := by
  obtain ⟨⟨later, rfl, hlater⟩, hlimit⟩ := hin
  obtain ⟨l', rest, rfl, -, hrest⟩ := h.split (fun x _ => Nat.zero_le x.1) (Nat.zero_le _)
  obtain ⟨m', r', rfl, hvisit, -⟩ := hrest.split hlater hlimit
  exact ⟨l', m', r', rfl, hvisit⟩

omit [EquivBEq K] in
/-- If all that the thread made there reads, so do the deeds of the second part. -/
theorem reads (h : w₀.Passage w mine before made fin first second third)
    (hreads : ∀ x ∈ made, x.2.1.Reads) : ∀ d ∈ second, d.request.Reads := fun d hd =>
  hreads d.tag (h.second ▸ List.mem_map_of_mem hd)

end Passage

/-! ## Surveys -/

variable {visits : List (Visit K V)} {key : K}

/-- Calls that read leave the map as it is. -/
theorem Pointwise.after_reads (h : w₀.Pointwise w) (hreads : ∀ d ∈ second, d.request.Reads) :
    w₀.shared.view.after ((first ++ second).map Deed.toCall) =
      w₀.shared.view.after (first.map Deed.toCall) := by
  rw [List.map_append, Plain.after_append]
  refine (h.settled.sound.respects_view.after _).after_reads fun c hc => ?_
  obtain ⟨d, hd, rfl⟩ := List.mem_map.1 hc
  exact hreads d hd

omit [BEq K] [BEq V] [EquivBEq K] in
/-- Calls that read use no stamps. -/
theorem stamps_of_reads (hreads : ∀ d ∈ first, d.request.Reads) :
    Call.stamps (first.map Deed.toCall) = [] := by
  refine Call.stamps_of_reads fun c hc => ?_
  obtain ⟨d, hd, rfl⟩ := List.mem_map.1 hc
  exact hreads d hd

/-- A survey shows of the thread's own keys what its calls had left there. -/
theorem Survey.outcome_eq (hsurvey : Survey w₀ w₁ w₂ w before inner later fin visits)
    (h : w₀.Pointwise w) (hmine : ∀ a b, (a == b) = true → mine a = mine b)
    (hpassage : w₀.Passage w mine before inner w₂.chronicle.issued first second third)
    (hkey : mine key = true) : (visits.find? (·.key == key)).map (·.held) =
      w₀.shared.view.after (first.map Deed.toCall) key := by
  obtain ⟨j, n, hmoment, hheld⟩ := hsurvey.reports.exists_moment key
  obtain ⟨seen, hprefix, hagree, hlate, hearly⟩ := h.exists_seen hmine hsurvey.since hsurvey.grows
    hsurvey.onward hsurvey.first hsurvey.last hmoment
  have hnodup : (w₀.share w mine).Nodup :=
    .of_map _ (h.sound.nodup_line.sublist ((w₀.share_sublist w mine).map _))
  rw [hpassage.share] at hprefix hnodup hearly
  have hall : ∀ d ∈ first, d ∈ seen := by
    intro d hd
    obtain ⟨horizon, hrec⟩ := hsurvey.answered d.tag (hpassage.first ▸ List.mem_map_of_mem hd)
    exact hearly d (List.mem_append_left _ hd) ⟨d.answer, horizon, hrec⟩
  obtain ⟨part, hpart, rfl⟩ := exists_prefix_between hprefix hnodup hall fun d hd hseen =>
    Nat.not_lt.2 (hpassage.third d hd) (hlate d hseen)
  rw [← Visit.outcome_eq visits false, ← hheld (.inl rfl), hagree key hkey,
    h.after_reads fun d hd => hpassage.reads hsurvey.reads d (hpart.subset hd)]

/-! ## Routines -/

/-- A call is answered as the calls before it have left the keys. -/
theorem Passage.apply_eq {x : Tag K V} {d : Deed K V}
    (hpassage : w₀.Passage w mine before (x :: made) fin first (d :: second) third)
    (h : w₀.Pointwise w) (hmine : ∀ a b, (a == b) = true → mine a = mine b) :
    (w₀.shared.view.after (first.map Deed.toCall)).apply d.stamp d.request =
      (d.answer, w₀.shared.view.after ((first ++ [d]).map Deed.toCall)) := by
  have hexplains := h.explains_share hmine
  rw [hpassage.share, List.map_append, Plain.explains_append] at hexplains
  have hanswer : d.answer =
      ((w₀.shared.view.after (first.map Deed.toCall)).apply d.stamp d.request).1 :=
    hexplains.2.1
  rw [List.map_append, hanswer]
  exact Prod.ext rfl (Plain.after_concat _ _ _).symm

/-- What a thread found when it followed its routine is what it would have found alone. -/
theorem Course.replay {c : Routine K V} {found : Findings K V}
    (hcourse : w₀.Course w mine c before made found fin) (hc : c.Respects) (h : w₀.Pointwise w)
    (hmine : ∀ a b, (a == b) = true → mine a = mine b)
    (hpassage : w₀.Passage w mine before made fin first second third) {supply : Nat → Stamp}
    (hsupply : Supplies supply (Call.stamps (second.map Deed.toCall))) :
    c.replay mine (w₀.shared.view.after (first.map Deed.toCall)) supply =
      (found, w₀.shared.view.after ((first ++ second).map Deed.toCall)) := by
  induction c generalizing before made found fin first second third supply with
  | stop =>
      obtain ⟨rfl, rfl⟩ := hcourse
      rw [List.map_eq_nil_iff.1 hpassage.second, List.append_nil]
      rfl
  | request r next ih =>
      obtain ⟨id, answer, made', found', rfl, rfl, hcourse⟩ := hcourse
      obtain ⟨d, rest, rfl, hd, hrest⟩ := hpassage.answered
      obtain ⟨-, rfl, rfl⟩ : d.id = id ∧ d.request = r ∧ d.answer = answer := by
        simpa [Deed.tag] using hd
      have happly : (w₀.shared.view.after (first.map Deed.toCall)).apply (supply 0) d.request =
          (d.answer, w₀.shared.view.after ((first ++ [d]).map Deed.toCall)) :=
        (hsupply.apply _).trans (hpassage.apply_eq h hmine)
      have hreplay := ih d.answer hcourse (hc d.answer) hrest hsupply.spend.1
      simp only [Routine.replay, happly, hreplay, List.append_cons first d rest]
  | survey visit next ihvisit ih =>
      obtain ⟨visits, inner, made', found', w₁, w₂, rfl, rfl, hsurvey, hvisits, hcourse⟩ := hcourse
      obtain ⟨reads, rest, rfl, hinner, hrest⟩ := hpassage.split hsurvey.later hsurvey.fin
      obtain ⟨hvisit, hcvisit, hcnext⟩ := hc
      have hread := hinner.reads hsurvey.reads
      have hout : ∀ key, mine key = true → (visits.find? (·.key == key)).map (·.held) =
          w₀.shared.view.after (first.map Deed.toCall) key := fun key hkey =>
        hsurvey.outcome_eq h hmine hinner hkey
      -- the visitor read what the survey shows, and nothing had changed
      have hfound : ∀ v ∈ visits, ∀ key, (v.key == key) = true → v.found =
          ((visit key v.held).replay mine (w₀.shared.view.after (first.map Deed.toCall))
            supply).1 := by
        intro v hv key hkey
        obtain ⟨l, m, mid, hin, hcourse⟩ := hvisits v hv
        obtain ⟨l', m', r', rfl, hvisited⟩ := hinner.visit hin
        have hnone : Call.stamps (m'.map Deed.toCall) = [] := stamps_of_reads fun d hd =>
          hread d (List.mem_append_right _ (List.mem_append_left _ hd))
        have hreplay := ihvisit v.key v.held hcourse (hcvisit _ _) hvisited
          (hnone ▸ Supplies.nil supply)
        rw [h.after_reads fun d hd => hread d (List.mem_append_left _ hd)] at hreplay
        rw [← hvisit v.key key v.held hkey, hreplay]
      have hshown := Visit.shown_eq_of (List.pairwise_map.1 hsurvey.reports.once) hout
      have htold := Visit.told_eq_of (f := fun key held => ((visit key held).replay mine
        (w₀.shared.view.after (first.map Deed.toCall)) supply).1) hout hfound
      have hspent : Supplies supply (Call.stamps (rest.map Deed.toCall)) := by
        rwa [List.map_append, Call.stamps_append, stamps_of_reads hread] at hsupply
      have hreplay := ih _ _ hcourse (hcnext _ _) hrest hspent
      rw [h.after_reads hread] at hreplay
      simp only [Routine.replay, ← hshown, ← htold, hreplay, List.append_assoc]

end World

end ConcurrentMap
