import ConcurrentMap.Proofs.Interference.Calling
import ConcurrentMap.Proofs.Interference.Line

/-!
# Linearizability

A `System` is a map that any number of threads share, together with what an observer sees of it:
when an operation was called and when it was answered. The observer chooses the turns, so a list of
turns is any interleaving of the atomic steps of any programs.

`System.run_linearizable` says that every history is linearizable: the calls that were answered, and
possibly some that were not, can be put into one order that contradicts neither the real-time order
nor the answers of a plain map.
-/

namespace ConcurrentMap

/-- What an observer sees. -/
inductive Occurrence (K V : Type) where
  /-- Thread `t` makes a call, which is named `id`. -/
  | invoked (id : CallId) (t : ThreadId) (r : Request K V)
  /-- The call is answered. -/
  | answered (id : CallId) (answer : Answer V)
  deriving DecidableEq

/-- What can happen next. -/
inductive Turn (K V : Type) where
  /-- Thread `t` makes a call, unless it is in one. -/
  | invoke (t : ThreadId) (r : Request K V)
  /-- Thread `t` takes its next atomic step, if it has one. -/
  | step (t : ThreadId)

/-- Threads that share a map. -/
structure System (K V : Type) where
  shared : Shared K V
  /-- The call that a thread is in, and what it still has to do for it. -/
  running : ThreadId → Option (CallId × Program K V (Answer V))
  /-- The number of calls made so far, which is the name of the next one. -/
  made : CallId
  /-- What the observer has seen, the first occurrence first. -/
  history : List (Occurrence K V)

namespace System

variable {K V : Type}

/-- No call was made. -/
def start : System K V := ⟨.initial, fun _ => none, 0, []⟩

variable [BEq K] [BEq V] (order : Enumeration K)

/-- A call is answered together with its last atomic step. -/
def turn (S : System K V) : Turn K V → System K V
  | .invoke t r =>
    match S.running t with
    | some _ => S
    | none =>
      { S with
        running := Function.update S.running t (some (S.made, r.program))
        made := S.made + 1
        history := S.history ++ [.invoked S.made t r] }
  | .step t =>
    match S.running t with
    | none => S
    | some (id, p) =>
      match p.step order t S.shared with
      | none => S
      | some (p', s') =>
        match p'.result? with
        | none => { S with shared := s', running := Function.update S.running t (some (id, p')) }
        | some answer =>
          { S with
            shared := s'
            running := Function.update S.running t none
            history := S.history ++ [.answered id answer] }

/-- All turns, one after the other. -/
def run (turns : List (Turn K V)) : System K V := turns.foldl (turn order) start

end System

/-! ## Linearizable histories -/

section Linearizable

variable {K V : Type}

/-- In the history, call `a` was answered before call `b` was made. -/
def Precedes (history : List (Occurrence K V)) (a b : CallId) : Prop :=
  ∃ answer t r, [.answered a answer, .invoked b t r].Sublist history

variable [BEq K] [BEq V]

/-- The calls in `line` are those of the history, one after the other: each at most once, every one
that was answered, and some that were not. -/
structure Linearization (history : List (Occurrence K V)) (line : List (CallId × Call K V)) :
    Prop where
  once : (line.map Prod.fst).Nodup
  invoked : ∀ x ∈ line, ∃ t, .invoked x.1 t x.2.request ∈ history
  answered : ∀ id answer, .answered id answer ∈ history →
    ∃ x ∈ line, x.1 = id ∧ x.2.answer = answer
  /-- What was answered before another call was made does not come after that call. -/
  realTime : line.Pairwise fun x y => ¬Precedes history y.1 x.1
  /-- No two calls install values of the same identity. -/
  identities : line.Pairwise fun x y => x.2.Apart y.2
  /-- A plain map that starts out empty gives the same answers. -/
  explained : Plain.empty.Explains (line.map Prod.snd)

/-- There is a sequential order that explains the history. -/
def Linearizable (history : List (Occurrence K V)) : Prop := ∃ line, Linearization history line

end Linearizable

variable {K V : Type}

/-- Whatever precedes another occurrence does so already, or the other one is the last. -/
private theorem sublist_concat {history : List (Occurrence K V)} {x y e : Occurrence K V}
    (h : [x, y].Sublist (history ++ [e])) : [x, y].Sublist history ∨ y = e := by
  obtain ⟨l₁, l₂, heq, h₁, h₂⟩ := List.sublist_append_iff.1 h
  rcases List.sublist_singleton.1 h₂ with rfl | rfl
  · rw [List.append_nil] at heq
    exact .inl (heq ▸ h₁)
  · have hlast : [x] ++ [y] = l₁ ++ [e] := heq
    exact .inr (List.singleton_inj.1 (List.append_inj' hlast rfl).2)

/-- A call that is made now is preceded by answers, and precedes nothing. -/
theorem precedes_concat_invoked {history : List (Occurrence K V)} {a b id : CallId} {t : ThreadId}
    {r : Request K V} (h : Precedes (history ++ [.invoked id t r]) a b) :
    Precedes history a b ∨ b = id := by
  obtain ⟨answer, u, r', h⟩ := h
  rcases sublist_concat h with h | h
  · exact .inl ⟨answer, u, r', h⟩
  · exact .inr (Occurrence.invoked.inj h).1

/-- An answer that is given now precedes no call so far. -/
theorem precedes_concat_answered {history : List (Occurrence K V)} {a b id : CallId}
    {answer : Answer V} (h : Precedes (history ++ [.answered id answer]) a b) :
    Precedes history a b := by
  obtain ⟨answer', u, r', h⟩ := h
  rcases sublist_concat h with h | h
  · exact ⟨answer', u, r', h⟩
  · exact absurd h (by simp)

/-- A call that precedes another one was answered. -/
theorem Precedes.exists_answered {history : List (Occurrence K V)} {a b : CallId}
    (h : Precedes history a b) : ∃ answer, .answered a answer ∈ history := by
  obtain ⟨answer, t, r, h⟩ := h
  exact ⟨answer, h.subset List.mem_cons_self⟩

/-! ## Histories on record -/

namespace World

variable [BEq K] [BEq V]

/-- The chronicle has what the observer has seen on record: the calls that were made, and the
answers that were given, each from before any later call was made. -/
structure Attests (w : World K V) (history : List (Occurrence K V)) : Prop where
  named : ∀ id < w.chronicle.issued, ∃ t, .invoked id t (w.chronicle.asked id) ∈ history
  answered : ∀ id answer, .answered id answer ∈ history → ∃ horizon ≤ w.chronicle.issued,
    w.chronicle.Recorded id answer horizon ∧ ∀ later, Precedes history id later → horizon ≤ later

variable {w w' : World K V} {history : List (Occurrence K V)}

omit [BEq K] [BEq V] in
/-- Before the first call there is nothing to attest. -/
theorem attests_start (rules : Rules K V) : (start rules : World K V).Attests [] :=
  ⟨fun _ hid => absurd hid (Nat.not_lt_zero _), fun _ _ h => absurd h List.not_mem_nil⟩

/-- A step at which no call is made keeps the record. -/
theorem Attests.grows (h : w.Attests history) (hg : w.Grows w')
    (hissued : w'.chronicle.issued = w.chronicle.issued) : w'.Attests history where
  named id hid := by
    rw [hissued] at hid
    rw [hg.asked id hid]
    exact h.named id hid
  answered id answer hmem := by
    obtain ⟨horizon, hle, hrec, hlater⟩ := h.answered id answer hmem
    exact ⟨horizon, hissued ▸ hle, hg.recorded id answer horizon hrec, hlater⟩

/-- A call that is made now is preceded by what was answered. -/
theorem Attests.invoke (h : w.Attests history) (hw : w.Sound) (t : ThreadId) (r : Request K V) :
    (w.issue t r).Attests (history ++ [.invoked w.chronicle.issued t r]) where
  named id hid := by
    have hid' : id < w.chronicle.issued + 1 := Nat.lt_of_lt_of_eq hid (w.chronicle.issued_issue r)
    rcases Nat.lt_succ_iff_lt_or_eq.1 hid' with hlt | rfl
    · obtain ⟨u, hu⟩ := h.named id hlt
      refine ⟨u, List.mem_append_left _ ?_⟩
      rwa [(hw.grows_issue t r).asked id hlt]
    · refine ⟨t, List.mem_append_right _ (List.mem_singleton.2 ?_)⟩
      exact congrArg _ (w.chronicle.asked_issue_self r)
  answered id answer hmem := by
    have hmem : .answered id answer ∈ history := by simpa using hmem
    obtain ⟨horizon, hle, hrec, hlater⟩ := h.answered id answer hmem
    have hg := hw.grows_issue t r
    refine ⟨horizon, Nat.le_trans hle hg.issued, hg.recorded id answer horizon hrec,
      fun later hprec => ?_⟩
    -- A call that came before the new one had been recorded by then.
    rcases precedes_concat_invoked hprec with hprec | rfl
    · exact hlater later hprec
    · exact hle

/-- A call that is answered was recorded before any later call is made. -/
theorem Attests.answer (h : w.Attests history) (hg : w.Grows w')
    (hissued : w'.chronicle.issued = w.chronicle.issued) (hw' : w'.Sound) {t : ThreadId}
    {k : Ticket K V} {answer : Answer V} (hout : w'.Outside t (some (k.closed answer))) :
    w'.Attests (history ++ [.answered k.id answer]) where
  named id hid := by
    obtain ⟨u, hu⟩ := (h.grows hg hissued).named id hid
    exact ⟨u, List.mem_append_left _ hu⟩
  answered id answer' hmem := by
    have h' := h.grows hg hissued
    rcases List.mem_append.1 hmem with hmem | hmem
    · obtain ⟨horizon, hle, hrec, hlater⟩ := h'.answered id answer' hmem
      exact ⟨horizon, hle, hrec, fun later hprec => hlater later (precedes_concat_answered hprec)⟩
    · obtain ⟨rfl, rfl⟩ := Occurrence.answered.inj (List.mem_singleton.1 hmem)
      obtain ⟨horizon, hle, hrec⟩ := (hw'.docket.tickets t _ hout.ticket).2.2
      refine ⟨horizon, hle, hrec, fun later hprec => ?_⟩
      -- whatever the call precedes already is bounded by its one and only record
      have hprec := precedes_concat_answered hprec
      obtain ⟨answer, hans⟩ := hprec.exists_answered
      obtain ⟨horizon', -, hrec', hlater⟩ := h'.answered k.id answer hans
      exact (hw'.recorded_unique hrec hrec').2 ▸ hlater later hprec

/-- The line of the chronicle is a linearization of what the observer has seen. -/
theorem Attests.linearization [EquivBEq K] (h : w.Attests history) (hw : w.Sound) :
    Linearization history (w.chronicle.line.map fun d => (d.id, d.toCall)) where
  once := by
    rw [List.map_map]
    exact hw.nodup_line
  invoked x hx := by
    obtain ⟨d, hd, rfl⟩ := List.mem_map.1 hx
    have hlisted := hw.listed_of_mem_line hd
    obtain ⟨t, ht⟩ := h.named d.id (hw.docket.lt_issued hlisted.era hlisted.id)
    exact ⟨t, hlisted.asked ▸ ht⟩
  answered id answer hmem := by
    obtain ⟨horizon, -, hrec, -⟩ := h.answered id answer hmem
    obtain ⟨d, hd, hid, hans, -⟩ := hrec.exists_mem_line
      (fun d hd => (hw.docket.deeds d hd).era) hw.ledger.current
    exact ⟨_, List.mem_map_of_mem hd, hid, hans⟩
  realTime := by
    refine List.pairwise_map.2 (hw.line_pairwise.imp_of_mem fun {x y} _ hy hxy hprec => ?_)
    obtain ⟨answer, hans⟩ := hprec.exists_answered
    obtain ⟨horizon, -, hrec, hlater⟩ := h.answered y.id answer hans
    -- the later call was made at the horizon at the earliest, the other one before it
    have hle : y.horizon ≤ x.id := (hw.recorded_eq hy hrec).2 ▸ hlater x.id hprec
    exact Nat.not_lt.2 hle hxy.2
  identities := List.pairwise_map.2 (List.pairwise_map.1 hw.line_apart)
  explained := by
    rw [List.map_map]
    exact hw.explains_line

end World

/-! ## Sound worlds behind a system -/

namespace System

variable [BEq K] [BEq V]

/-- A sound world has the system's shared state and its history on record. -/
structure Backed (order : Enumeration K) (S : System K V) (w : World K V) : Prop where
  shared : w.shared = S.shared
  sound : w.Sound
  rules : w.rules = ⟨fun _ => True, True⟩
  made : w.chronicle.issued = S.made
  running : ∀ t id p, S.running t = some (id, p) → p.wp order t
    (fun answer w' => ∃ k : Ticket K V, k.id = id ∧ w'.Outside t (some (k.closed answer))) w
  idle : ∀ t, S.running t = none → w.shared.holder ≠ some t
  named : ∀ id < S.made, ∃ t, .invoked id t (w.chronicle.asked id) ∈ S.history
  answered : ∀ id answer, .answered id answer ∈ S.history → ∃ horizon ≤ w.chronicle.issued,
    w.chronicle.Recorded id answer horizon ∧ ∀ later, Precedes S.history id later → horizon ≤ later

variable {order : Enumeration K} {S : System K V} {w : World K V}

/-- A system begins with a map that was never written. -/
theorem backed_start (order : Enumeration K) :
    (start : System K V).Backed order (.start ⟨fun _ => True, True⟩) where
  shared := rfl
  sound := World.sound_start _
  rules := rfl
  made := rfl
  running t id p h := by simp [start] at h
  idle t _ := by simp [World.start, Shared.initial]
  named id hid := absurd hid (Nat.not_lt_zero _)
  answered id answer h := absurd h List.not_mem_nil

open World

/-- What a step of one thread leaves of the calls of the others. -/
theorem Backed.others (h : S.Backed order w) {w' : World K V} {u : ThreadId} (hr : w.Rely u w')
    {id : CallId} {p : Program K V (Answer V)} (hp : S.running u = some (id, p)) :
    p.wp order u
      (fun answer w' => ∃ k : Ticket K V, k.id = id ∧ w'.Outside u (some (k.closed answer)))
      w' := by
  refine Program.wp_rely (h.running u id p hp) hr ?_
  rintro answer w₁ w₂ ⟨k, hk, hout⟩ hr
  exact ⟨k, hk, hout.rely hr⟩

/-- A thread that was idle before the step of another one is idle after it. -/
theorem Backed.idle_others (h : S.Backed order w) {w' : World K V} {u : ThreadId}
    (hr : w.Rely u w') (hu : S.running u = none) : w'.shared.holder ≠ some u := fun hh =>
  h.idle u hu (hr.along.holder.1 hh)

/-- What the observer has seen is on record. -/
theorem Backed.attests (h : S.Backed order w) : w.Attests S.history :=
  ⟨fun id hid => h.named id (h.made ▸ hid), h.answered⟩

/-- No call is made in the steps of the threads. -/
theorem Backed.issued_eq (h : S.Backed order w) {w' : World K V} {t : ThreadId}
    (hg : w.Guarantee t w') : w'.chronicle.issued = w.chronicle.issued :=
  hg.calls (by rw [h.rules]; trivial)

/-- Thread `t` goes on with the call `x`, or is idle, after something that the others can rely
on. -/
theorem Backed.assign (h : S.Backed order w) {w' : World K V} {t : ThreadId}
    {x : Option (CallId × Program K V (Answer V))} {made : CallId} {history : List (Occurrence K V)}
    (hr : ∀ u, u ≠ t → w.Rely u w') (hw' : w'.Sound) (hrules : w'.rules = w.rules)
    (hx : ∀ id p, x = some (id, p) → p.wp order t
      (fun answer w' => ∃ k : Ticket K V, k.id = id ∧ w'.Outside t (some (k.closed answer))) w')
    (hidle : x = none → w'.shared.holder ≠ some t) (hmade : w'.chronicle.issued = made)
    (hattests : w'.Attests history) :
    (System.mk w'.shared (Function.update S.running t x) made history).Backed order w' where
  shared := rfl
  sound := hw'
  rules := hrules.trans h.rules
  made := hmade
  running u id p hp := by
    -- The thread itself, and the others, which can rely on what was done.
    by_cases hu : u = t
    · subst hu
      exact hx id p (by simpa using hp)
    · simp only [Function.update_of_ne hu] at hp
      exact h.others (hr u hu) hp
  idle u hu := by
    by_cases hut : u = t
    · subst hut
      exact hidle (by simpa using hu)
    · simp only [Function.update_of_ne hut] at hu
      exact h.idle_others (hr u hut) hu
  named id hid := hattests.named id (hmade ▸ hid)
  answered := hattests.answered

/-- A thread may take its next step. -/
theorem Backed.step (h : S.Backed order w) (t : ThreadId) :
    ∃ w', (S.turn order (.step t)).Backed order w' := by
  simp only [turn]
  split
  · exact ⟨w, h⟩
  · next id p hrun =>
    split
    · exact ⟨w, h⟩
    · next p' s' hstep =>
      rw [← h.shared] at hstep
      obtain ⟨w', rfl, hw', hg, hp'⟩ := Program.wp_step (h.running t id p hrun) h.sound hstep
      have hissued := h.issued_eq hg
      have hmade := hissued.trans h.made
      have hr : ∀ u, u ≠ t → w.Rely u w' := fun u hu => hg.rely hu
      refine ⟨w', ?_⟩
      split
      -- The thread is still in its call.
      · refine h.assign hr hw' hg.grows.rules (fun id' q hq => ?_) (by simp) hmade
          (h.attests.grows hg.grows hissued)
        obtain ⟨rfl, rfl⟩ : id = id' ∧ p' = q := by simpa using hq
        exact hp'
      -- The call is answered in this step, and so the chronicle has the answer on record.
      · next answer hres =>
        obtain rfl := Program.eq_done_of_result? hres
        obtain ⟨k, rfl, hout⟩ := hp'
        exact h.assign hr hw' hg.grows.rules (by simp) (fun _ => hout.holder) hmade
          (h.attests.answer hg.grows hissued hw' hout)

variable [EquivBEq K]

/-- A thread that is in no call may make one. -/
theorem Backed.invoke (h : S.Backed order w) {t : ThreadId} (r : Request K V)
    (ht : S.running t = none) : ∃ w', (S.turn order (.invoke t r)).Backed order w' := by
  have hattests := h.attests.invoke h.sound t r
  rw [h.made] at hattests
  have hmade : (w.issue t r).chronicle.issued = S.made + 1 :=
    (w.chronicle.issued_issue r).trans (by rw [h.made])
  simp only [turn, ht, ← h.shared]
  refine ⟨w.issue t r, h.assign (fun u hu => h.sound.rely_issue hu r)
    (h.sound.issue t (by rw [h.rules]; trivial)) rfl (fun id p hp => ?_) (by simp) hmade hattests⟩
  obtain ⟨rfl, rfl⟩ : S.made = id ∧ r.program = p := by simpa using hp
  exact Program.wp_request ⟨issue_tickets_self w t r, h.idle t ht⟩ rfl
    fun answer w' hout => ⟨_, h.made, hout⟩

/-- Every turn keeps a system backed. -/
theorem Backed.turn (h : S.Backed order w) (x : Turn K V) :
    ∃ w', (S.turn order x).Backed order w' := by
  cases x with
  | step t => exact h.step t
  | invoke t r =>
      cases ht : S.running t with
      | none => exact h.invoke r ht
      | some x =>
          refine ⟨w, ?_⟩
          have hturn : S.turn order (.invoke t r) = S := by simp only [System.turn, ht]
          rwa [hturn]

/-- Whatever the turns are, a sound world backs the system. -/
theorem exists_backed_run (order : Enumeration K) (turns : List (Turn K V)) :
    ∃ w, (run order turns).Backed order w := by
  have hfold : ∀ (turns : List (Turn K V)) (S : System K V) (w : World K V), S.Backed order w →
      ∃ w', (turns.foldl (System.turn order) S).Backed order w' := by
    intro turns
    induction turns with
    | nil => exact fun S w h => ⟨w, h⟩
    | cons x turns ih =>
        intro S w h
        obtain ⟨w', h'⟩ := h.turn x
        exact ih _ w' h'
  exact hfold turns start _ (backed_start order)

/-- Whatever the threads call and however their steps interleave, the history is linearizable. -/
theorem run_linearizable (order : Enumeration K) (turns : List (Turn K V)) :
    Linearizable (run order turns).history := by
  obtain ⟨w, h⟩ := exists_backed_run order turns
  exact ⟨_, h.attests.linearization h.sound⟩

/-- A load beside a store that puts its key into the map, and a later load. -/
theorem run_linearizable_store_load :
    ∃ turns : List (Turn Nat Nat), (run .insertion turns).history =
        [.invoked 0 0 (.store 1 10), .invoked 1 1 (.load 1), .answered 1 (.found none),
          .answered 0 .finished, .invoked 2 1 (.load 1), .answered 2 (.found (some ⟨1, 10⟩))] ∧
      Linearizable (run .insertion turns).history := by
  refine ⟨[.invoke 0 (.store 1 10), .invoke 1 (.load 1)] ++
    (List.replicate 14 [.step 0, .step 1]).flatten ++ [.invoke 1 (.load 1)] ++
      List.replicate 11 (.step 1), ?_, run_linearizable .insertion _⟩
  decide

end System

end ConcurrentMap
