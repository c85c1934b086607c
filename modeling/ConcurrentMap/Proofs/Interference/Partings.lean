import ConcurrentMap.Proofs.Interference.Shares

/-!
# Threads with keys of their own

When all threads have followed their routines to the end, and each of them has kept to its own keys,
then the calls on the keys of a thread are the calls of that thread (`World.Parted.tags_share`). So
each thread's record is a replay, and together they are all that happened
(`World.Parted.apart`).
-/

namespace ConcurrentMap

variable {K V : Type} [BEq K] [BEq V]

namespace World

/-- Since world `w₀`, in which all calls had been answered, each thread has made the calls that
`made` says, on keys of its own. -/
structure Parted (division : Division K) (w₀ w : World K V) (made : ThreadId → List (Deed K V)) :
    Prop where
  settled : w₀.Settled
  grows : w₀.Grows w
  sound : w.Sound
  remembers : ∀ t, w.Remembers (made t)
  calls : ∀ t, w.callsOf t = w₀.callsOf t ++ (made t).map (·.id)
  later : ∀ t, ∀ d ∈ made t, w₀.chronicle.issued ≤ d.id
  own : ∀ t, ∀ d ∈ made t, ∃ key, d.request.key? = some key ∧ division.owns t key = true

variable {division : Division K} {w₀ w : World K V} {made : ThreadId → List (Deed K V)}
  {t u : ThreadId} {d e : Deed K V}

/-- Two calls that install values of one identity are the same. -/
theorem Sound.eq_of_stamp (hw : w.Sound) (hd : d ∈ w.chronicle.line) (he : e ∈ w.chronicle.line)
    {v v' : V} (hv : d.request.value? = some v) (hv' : e.request.value? = some v')
    (hstamp : d.stamp = e.stamp) : d = e := by
  refine List.inj_on_of_nodup_map hw.nodup_line hd he ?_
  by_contra hid
  exact hw.stamp_ne hd he hid hv hv' hstamp

/-- The identities that the calls on the keys of one thread install. -/
def shareStamps (w₀ w : World K V) (division : Division K) (t : ThreadId) : List Stamp :=
  Call.stamps ((w₀.share w (division.owns t)).map Deed.toCall)

omit [BEq K] [BEq V] in
/-- An identity that some calls install is that of one of them. -/
theorem exists_of_mem_stamps {calls : List (Deed K V)} {x : Stamp}
    (h : x ∈ Call.stamps (calls.map Deed.toCall)) :
    ∃ d ∈ calls, ∃ v, d.request.value? = some v ∧ d.stamp = x := by
  obtain ⟨c, hc, hx⟩ := List.mem_filterMap.1 h
  obtain ⟨d, hd, rfl⟩ := List.mem_map.1 hc
  obtain ⟨v, hv, rfl⟩ := Option.map_eq_some_iff.1 hx
  exact ⟨d, hd, v, hv, rfl⟩

namespace Parted

/-- Every call since then is one of a thread, on a key of its own. -/
theorem exists_made (h : Parted division w₀ w made) (hd : d ∈ w₀.sequel w) :
    ∃ t, ∃ e ∈ made t, e.id = d.id ∧
      ∃ key, d.request.key? = some key ∧ division.owns t key = true := by
  obtain ⟨hline, hnew⟩ := (h.settled.mem_sequel_iff h.grows h.sound).1 hd
  obtain ⟨t, hmem⟩ := h.sound.exists_caller hline
  rw [h.calls t] at hmem
  rcases List.mem_append.1 hmem with hold | hmem
  · exact absurd (h.settled.sound.docket.lt_of_mem_callsOf hold) (Nat.not_lt.2 hnew)
  · obtain ⟨e, he, hid⟩ := List.mem_map.1 hmem
    have hreq := (h.sound.line_same (h.remembers t) hline he hid.symm).1
    exact ⟨t, e, he, hid, hreq ▸ h.own t e he⟩

/-- Nobody has made a call without a key since then. -/
theorem keyed (h : Parted division w₀ w made) :
    ∀ d ∈ w₀.sequel w, d.request.key?.isSome = true := by
  intro d hd
  obtain ⟨-, -, -, -, key, hkey, -⟩ := h.exists_made hd
  simp [hkey]

/-- Nobody has cleared the map since then. -/
theorem pointwise (h : Parted division w₀ w made) : w₀.Pointwise w :=
  ⟨h.settled, h.grows, h.sound, h.keyed⟩

/-- The calls on the keys of a thread are its own. -/
theorem mem_share_iff (h : Parted division w₀ w made) :
    d ∈ w₀.share w (division.owns t) ↔ d ∈ w₀.sequel w ∧ d.id ∈ (made t).map (·.id) := by
  rw [share, List.mem_filter]
  refine and_congr_right fun hd => ?_
  obtain ⟨u, e, he, hid, key, hkey, hown⟩ := h.exists_made hd
  have hon : d.toCall.on (division.owns t) = division.owns t key := by simp [Call.on, hkey]
  rw [hon]
  constructor
  -- The owner of the call's key is the one thread to which the key belongs.
  · intro hmine
    obtain rfl := division.disjoint t u key hmine hown
    exact hid ▸ List.mem_map_of_mem he
  · intro hmem
    obtain ⟨e', he', hid'⟩ := List.mem_map.1 hmem
    -- What the line says of a call is what the thread remembers, so the key is the thread's own.
    have hline := ((h.settled.mem_sequel_iff h.grows h.sound).1 hd).1
    obtain ⟨key', hkey', hown'⟩ := h.own t e' he'
    rw [← (h.sound.line_same (h.remembers t) hline he' hid'.symm).1, hkey, Option.some.injEq]
      at hkey'
    exact hkey' ▸ hown'

/-- They stand in the line as the thread made them. -/
theorem tags_share (h : Parted division w₀ w made) (t : ThreadId) :
    (w₀.share w (division.owns t)).map Deed.tag = (made t).map Deed.tag := by
  refine h.sound.tags_eq (h.remembers t) (w₀.share_sublist w _) fun id => ?_
  refine ⟨fun hid => ?_, fun hid => ?_⟩
  · obtain ⟨d, hd, rfl⟩ := List.mem_map.1 hid
    exact (h.mem_share_iff.1 hd).2
  · obtain ⟨e, he, rfl⟩ := List.mem_map.1 hid
    obtain ⟨d, hd, hde⟩ := h.sound.exists_mem_line (h.remembers t) he
    have hnew : d ∈ w₀.sequel w :=
      (h.settled.mem_sequel_iff h.grows h.sound).2 ⟨hd, hde ▸ h.later t e he⟩
    rw [← hde] at hid ⊢
    exact List.mem_map_of_mem (h.mem_share_iff.2 ⟨hnew, hid⟩)

/-! ## What the threads found -/

variable [EquivBEq K] {c : Routine K V} {found : Findings K V} {fin : CallId}

/-- A thread found what it would have found alone. -/
theorem replay_eq (h : Parted division w₀ w made) (hc : c.Respects)
    (hcourse : w₀.Course w (division.owns t) c [] ((made t).map Deed.tag) found fin)
    {supply : Nat → Stamp} (hsupply : Supplies supply (w₀.shareStamps w division t)) :
    c.replay (division.owns t) w₀.shared.view supply =
      (found, w₀.shared.view.after ((w₀.share w (division.owns t)).map Deed.toCall)) := by
  have hpassage : w₀.Passage w (division.owns t) [] ((made t).map Deed.tag) fin []
      (w₀.share w (division.owns t)) [] :=
    ⟨by rw [List.append_nil, List.nil_append], rfl, h.tags_share t, by simp⟩
  exact hcourse.replay hc h.pointwise (division.respects t) hpassage hsupply

/-- Keys that belong to none of the threads hold what they held. -/
theorem others_eq (h : Parted division w₀ w made) {key : K}
    (hothers : ∀ t, division.owns t key = true → made t = []) :
    w.shared.view key = w₀.shared.view key := by
  have hkey : ∀ a b : K, (a == b) = true → (a == key) = (b == key) := fun a b => BEq.congr_left
  have hnone : w₀.share w (· == key) = [] := by
    refine List.filter_eq_nil_iff.2 fun d hd hon => ?_
    obtain ⟨t, e, he, -, own, hown, howns⟩ := h.exists_made hd
    have hmatch : (own == key) = true := by simpa [Call.on, hown] using hon
    rw [hothers t (division.respects t own key hmatch ▸ howns)] at he
    exact absurd he List.not_mem_nil
  have hafter := h.pointwise.after_share hkey key BEq.rfl
  rwa [hnone] at hafter

/-- No value that was there before has an identity that a call installed. -/
theorem stamp_ne_share (h : Parted division w₀ w made) {x : Stamp}
    (hx : x ∈ w₀.shareStamps w division t) {key : K} {held : Handle V}
    (hheld : w₀.shared.view key = some held) : held.stamp ≠ x := by
  rintro rfl
  obtain ⟨e, he, v, hv, hstamp⟩ := exists_of_mem_stamps hx
  rw [← h.settled.after_take h.grows h.sound] at hheld
  rcases Plain.origin_after hheld with ⟨key', hempty⟩ | ⟨c, hc, hvalue, hsame⟩
  · exact absurd hempty (by simp [Plain.empty])
  · obtain ⟨d, hd, rfl⟩ := List.mem_map.1 hc
    have hnew : e ∈ w₀.sequel w := (List.mem_filter.1 he).1
    obtain rfl := h.sound.eq_of_stamp (List.mem_of_mem_take hd) ((w₀.sequel_sublist w).subset hnew)
      hvalue hv (hsame.trans hstamp.symm)
    -- it would stand in the line both before and after the present of world `w₀`
    have hnodup := h.sound.nodup_line
    rw [← take_append_sequel w₀ w, List.map_append] at hnodup
    exact List.disjoint_of_nodup_append hnodup (List.mem_map_of_mem hd) (List.mem_map_of_mem hnew)

omit [EquivBEq K] in
/-- No identity was installed by two calls. -/
theorem nodup_shareStamps (h : Parted division w₀ w made) {threads : List ThreadId}
    (hthreads : threads.Nodup) : (threads.flatMap (w₀.shareStamps w division)).Nodup := by
  have hline : ∀ {t d}, d ∈ w₀.share w (division.owns t) → d ∈ w.chronicle.line :=
    fun hd => (w₀.share_sublist w _).subset hd
  refine List.nodup_flatMap.2 ⟨fun t _ => ?_, hthreads.imp fun {t u} hne x ht hu => hne ?_⟩
  · exact Call.nodup_stamps (h.sound.line_apart.sublist ((w₀.share_sublist w _).map _))
  · obtain ⟨d, hd, v, hv, hdx⟩ := exists_of_mem_stamps ht
    obtain ⟨e, he, v', hv', hex⟩ := exists_of_mem_stamps hu
    obtain rfl := h.sound.eq_of_stamp (hline hd) (hline he) hv hv' (hdx.trans hex.symm)
    obtain ⟨key, hkey⟩ := Option.isSome_iff_exists.1 (h.keyed d (List.mem_filter.1 hd).1)
    have hown : ∀ {t}, d ∈ w₀.share w (division.owns t) → division.owns t key = true :=
      fun hd => by simpa [Call.on, hkey] using (List.mem_filter.1 hd).2
    exact division.disjoint t u key (hown hd) (hown he)

/-- Together the threads found what they would have found apart. -/
theorem apart (h : Parted division w₀ w made) {routines : List (Routine K V)}
    {results : List (Findings K V)} (hlength : results.length = routines.length)
    (hothers : ∀ t, routines.length ≤ t → made t = [])
    (hrespects : ∀ c ∈ routines, c.Respects)
    (hcourse : ∀ t c found, routines[t]? = some c → results[t]? = some found → ∃ fin,
      w₀.Course w (division.owns t) c [] ((made t).map Deed.tag) found fin) :
    division.Apart routines w₀.shared.view (w₀.shareStamps w division) results w.shared.view where
  length := hlength
  -- Each record is the replay of its routine from the map as it stood before.
  found t c found hc hfound supply hsupply := by
    obtain ⟨fin, hcourse⟩ := hcourse t c found hc hfound
    rw [h.replay_eq (hrespects c (List.mem_of_getElem? hc)) hcourse hsupply]
  own t c key hc hkey supply hsupply := by
    obtain ⟨ht, -⟩ := List.getElem?_eq_some_iff.1 hc
    obtain ⟨found, hfound⟩ : ∃ found, results[t]? = some found :=
      ⟨_, List.getElem?_eq_getElem (hlength ▸ ht)⟩
    obtain ⟨fin, hcourse⟩ := hcourse t c found hc hfound
    rw [h.replay_eq (hrespects c (List.mem_of_getElem? hc)) hcourse hsupply]
    exact h.pointwise.after_share (division.respects t) key hkey
  -- A key of none of the threads belongs to a thread that made no call.
  others key hkey := by
    refine h.others_eq fun t ht => hothers t (Nat.le_of_not_lt fun hlt => ?_)
    rw [hkey t hlt] at ht
    exact absurd ht (by simp)
  new t x hx key held hheld := h.stamp_ne_share hx hheld
  nodup := h.nodup_shareStamps List.nodup_range

end Parted

end World

end ConcurrentMap
