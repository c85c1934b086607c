import ConcurrentMap.Proofs.Deals
import ConcurrentMap.Proofs.Interference.Line
import ConcurrentMap.Proofs.Interference.Runs
import Mathlib.Data.List.Sort

/-!
# What all threads were answered

When no thread has anything left to do, each call belongs to the thread that made it, and the thread
knows its answer. So the line of the chronicle has the entries of all traces and no others
(`World.Sound.line_perm`), in an order that no thread knows. But the calls of one thread stand there
in the order in which the thread made them (`World.Sound.tags_eq`).
-/

namespace ConcurrentMap

variable {K V ε α : Type} [BEq K] [BEq V]

/-- What a thread knows of a call: its name, what was asked for and the answer. -/
abbrev Tag (K V : Type) := CallId × Request K V × Answer V

omit [BEq K] [BEq V] in
/-- What the thread that made a call knows of it. -/
def Deed.tag (d : Deed K V) : Tag K V := (d.id, d.request, d.answer)

namespace World

variable {w w' : World K V} {t : ThreadId} {trace : Trace K V}

/-- The thread is outside the mutex, and what it was answered is on record. -/
structure Accounted (t : ThreadId) (trace : Trace K V) (w : World K V) : Prop where
  holder : w.shared.holder ≠ some t
  told : ∃ log, w.Remembers log ∧ log.map (·.id) = w.callsOf t ∧
    log.map (fun d => (d.request, d.answer)) = trace

/-- A thread between two calls has its answers on record. -/
theorem Idle.accounted {P : Request K V → Prop} (h : w.Idle t P trace) : w.Accounted t trace :=
  ⟨h.holder, h.told⟩

/-- What others do leaves the record of a thread alone. -/
theorem Accounted.rely (h : w.Accounted t trace) (hr : w.Rely t w') : w'.Accounted t trace := by
  obtain ⟨log, hlog, hids, htrace⟩ := h.told
  refine ⟨fun hheld => h.holder (hr.along.holder.1 hheld), log, hlog.grows hr.grows, ?_, htrace⟩
  rw [hids, callsOf, callsOf, hr.ticket]

variable {log : List (Deed K V)}

/-- What the line says of a call is what the thread that made it remembers. -/
theorem Sound.line_same (hw : w.Sound) (hlog : w.Remembers log) {d e : Deed K V}
    (he : e ∈ w.chronicle.line) (hd : d ∈ log) (hid : e.id = d.id) :
    e.request = d.request ∧ e.answer = d.answer ∧ e.horizon = d.horizon := by
  have hrec := (hlog.recorded d hd).2
  rw [← hid] at hrec
  refine ⟨?_, hw.recorded_eq he hrec⟩
  rw [← (hw.listed_of_mem_line he).asked, hid, (hlog.made d hd).2]

/-- What a thread remembers stands in the line. -/
theorem Sound.exists_mem_line (hw : w.Sound) (hlog : w.Remembers log) {d : Deed K V}
    (hd : d ∈ log) : ∃ e ∈ w.chronicle.line, e.id = d.id := by
  obtain ⟨e, he, hid, -⟩ := (hlog.recorded d hd).2.exists_mem_line
    (fun d hd => (hw.docket.deeds d hd).era) hw.ledger.current
  exact ⟨e, he, hid⟩

/-- Lists with the same keys have the same values, if the values depend on the keys. -/
private theorem map_eq_of_map_eq {β γ δ : Type} {f : β → γ} {g : β → δ} {l l' : List β}
    (hf : l.map f = l'.map f) (hg : ∀ x ∈ l, ∀ y ∈ l', f x = f y → g x = g y) :
    l.map g = l'.map g := by
  induction l generalizing l' with
  | nil =>
      obtain rfl := List.map_eq_nil_iff.1 hf.symm
      rfl
  | cons x l ih =>
      obtain ⟨y, l', rfl, hxy, hrest⟩ := List.map_eq_cons_iff.1 hf.symm
      rw [List.map_cons, List.map_cons, ih hrest.symm fun a ha b hb =>
        hg a (List.mem_cons_of_mem x ha) b (List.mem_cons_of_mem y hb)]
      rw [hg x List.mem_cons_self y List.mem_cons_self hxy.symm]

omit [BEq K] [BEq V] in
/-- A call was answered before any later call of the same thread was made. -/
theorem Remembers.horizon_le (h : w.Remembers log) {x y : Deed K V} (hx : x ∈ log) (hy : y ∈ log)
    (hlt : x.id < y.id) : x.horizon ≤ y.id := by
  have hforth : log.Pairwise fun a b => a.id < b.id → a.horizon ≤ b.id :=
    h.ordered.imp fun hab _ => hab.2
  have hback : log.Pairwise (flip fun a b => a.id < b.id → a.horizon ≤ b.id) :=
    h.ordered.imp fun hab hba => absurd hab.1 (Nat.lt_asymm hba)
  exact hforth.forall_of_forall_of_flip (fun a _ ha => absurd ha (Nat.lt_irrefl _)) hback hx hy hlt

/-- The calls of one thread stand in the line as the thread remembers them, in the order in which
it made them. -/
theorem Sound.tags_eq (hw : w.Sound) (hlog : w.Remembers log) {own : List (Deed K V)}
    (hown : own.Sublist w.chronicle.line)
    (hmem : ∀ id, id ∈ own.map (·.id) ↔ id ∈ log.map (·.id)) :
    own.map Deed.tag = log.map Deed.tag := by
  -- what was answered first was called first, so the line is in the order of calling
  have hordered : own.Pairwise fun x y => x.id < y.id := by
    refine (hw.line_pairwise.sublist hown).imp_of_mem fun {x y} hx hy hxy => ?_
    obtain ⟨d, hd, hdx⟩ := List.mem_map.1 ((hmem x.id).1 (List.mem_map_of_mem hx))
    obtain ⟨e, he, hey⟩ := List.mem_map.1 ((hmem y.id).1 (List.mem_map_of_mem hy))
    have hhor := (hw.line_same hlog (hown.subset hy) he hey.symm).2.2
    rcases Nat.lt_or_gt_of_ne hxy.1 with hlt | hgt
    · exact hlt
    · have hle := hlog.horizon_le he hd (by rwa [hdx, hey])
      rw [hdx, ← hhor] at hle
      exact absurd hxy.2 (Nat.not_lt.2 hle)
  have hids : own.map (·.id) = log.map (·.id) :=
    (List.pairwise_map.2 hordered).eq_of_mem_iff
      (List.pairwise_map.2 (hlog.ordered.imp fun hab => hab.1)) hmem
  refine map_eq_of_map_eq hids fun e he d hd hid => ?_
  obtain ⟨hreq, hans, -⟩ := hw.line_same hlog (hown.subset he) hd hid
  rw [Deed.tag, Deed.tag, hid, hreq, hans]

/-- Some thread made the call. -/
theorem Sound.exists_caller (hw : w.Sound) {d : Deed K V} (hd : d ∈ w.chronicle.line) :
    ∃ t, d.id ∈ w.callsOf t := by
  have hlisted := hw.listed_of_mem_line hd
  exact hw.docket.lt_issued_iff.1 (hw.docket.lt_issued hlisted.era hlisted.id)

/-- If every thread remembers its calls, all calls that were made are remembered. -/
theorem Sound.exists_mem_log (hw : w.Sound) {logs : ThreadId → List (Deed K V)}
    (hids : ∀ t, (logs t).map (·.id) = w.callsOf t) {e : Deed K V} (he : e ∈ w.chronicle.line) :
    ∃ t, ∃ d ∈ logs t, d.id = e.id := by
  obtain ⟨t, hmem⟩ := hw.exists_caller he
  obtain ⟨d, hd, hid⟩ := List.mem_map.1 ((hids t).symm ▸ hmem)
  exact ⟨t, d, hd, hid⟩

/-- If each of `n` threads remembers its calls and nobody else made any, the line has the entries of
all of them. -/
theorem Sound.line_perm (hw : w.Sound) {n : Nat} {logs : ThreadId → List (Deed K V)}
    (hlog : ∀ t, w.Remembers (logs t)) (hids : ∀ t, (logs t).map (·.id) = w.callsOf t)
    (hothers : ∀ t, n ≤ t → logs t = []) :
    ((w.chronicle.line.map Deed.toCall).map Call.entry).Perm
      ((List.range n).flatMap fun t => (logs t).map fun d => (d.request, d.answer)) := by
  -- with their names, the entries are told apart
  have hnodup : ((List.range n).flatMap fun t => (logs t).map Deed.tag).Nodup := by
    refine List.Nodup.of_map Prod.fst ?_
    rw [List.map_flatMap, List.nodup_flatMap]
    simp only [List.map_map]
    refine ⟨fun t _ => ?_, List.nodup_range.imp fun {t u} hne id ht hu => hne ?_⟩
    · exact List.pairwise_map.2 ((hlog t).ordered.imp fun hab => Nat.ne_of_lt hab.1)
    · have hmem : ∀ t, id ∈ (logs t).map (Prod.fst ∘ Deed.tag) → id ∈ w.callsOf t :=
        fun t h => hids t ▸ h
      exact hw.docket.thread_eq (hmem t ht) (hmem u hu)
  have hline : (w.chronicle.line.map Deed.tag).Nodup := .of_map Prod.fst (by
    rw [List.map_map]
    exact hw.nodup_line)
  have hsame : ∀ {t} {e d : Deed K V}, e ∈ w.chronicle.line → d ∈ logs t → e.id = d.id →
      e.tag = d.tag := by
    intro t e d he hd hid
    obtain ⟨hreq, hans, -⟩ := hw.line_same (hlog t) he hd hid
    simp only [Deed.tag, hid, hreq, hans]
  have hperm : (w.chronicle.line.map Deed.tag).Perm
      ((List.range n).flatMap fun t => (logs t).map Deed.tag) := by
    refine (List.perm_ext_iff_of_nodup hline hnodup).2 fun x => ⟨fun hx => ?_, fun hx => ?_⟩
    · obtain ⟨e, he, rfl⟩ := List.mem_map.1 hx
      obtain ⟨t, d, hd, hid⟩ := hw.exists_mem_log hids he
      have ht : t < n := by
        by_contra hle
        simp [hothers t (Nat.le_of_not_lt hle)] at hd
      exact List.mem_flatMap.2 ⟨t, List.mem_range.2 ht,
        List.mem_map.2 ⟨d, hd, (hsame he hd hid.symm).symm⟩⟩
    · obtain ⟨t, -, hx⟩ := List.mem_flatMap.1 hx
      obtain ⟨d, hd, rfl⟩ := List.mem_map.1 hx
      obtain ⟨e, he, hid⟩ := hw.exists_mem_line (hlog t) hd
      exact List.mem_map.2 ⟨e, he, hsame he hd hid⟩
  have hentries := hperm.map Prod.snd
  simp only [List.map_flatMap, List.map_map] at hentries ⊢
  exact hentries

end World

open World

namespace Machine

variable [EquivBEq K] {order : Enumeration K} {P : Request K V → Prop} {w : World K V}

/-- Clients that start where every thread is idle end with their traces on record. -/
theorem attended_ofClients {clients : List (Client K V ε α)} (honly : ∀ c ∈ clients, c.Only P)
    (hw : w.Sound) {made : ThreadId → Trace K V} (hidle : ∀ t, w.Idle t P (made t)) :
    (ofClients w.shared clients).Attended order (fun t x w' => w'.Accounted t (made t ++ x.2)) w := by
  refine ⟨rfl, hw, fun t p hp => ?_⟩
  obtain ⟨c, hc, rfl⟩ := exists_client hp
  have hstart : w.Idle t P (made t ++ []) := by
    rw [List.append_nil]
    exact hidle t
  exact Program.wp_mono (Program.wp_client hstart (honly c hc)) fun x w' h => h.accounted

end Machine

end ConcurrentMap
