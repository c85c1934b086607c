import ConcurrentMap.Proofs.Alone
import ConcurrentMap.Proofs.Interference.Runs
import Mathlib.Data.List.Induction

/-!
# What a client does, one operation after the other

A client uses the map in operations: requests, and for each traversal one operation that fixes what
is visited and one for each key that is reached. Between two operations the client may look at the
map from outside, in a visitor as well as anywhere else. `Client.follow` carries a client out and
keeps a journal of the operations, with the states before and after each of them.

`Client.follow_tracks` ties the journal to the program of the client: both end in the same way and
in the same state, and what is true of every operation on its own is true of every entry of the
journal.
-/

namespace ConcurrentMap

variable {K V ε α β σ : Type}

/-! ## Operations -/

/-- One use of the map. -/
inductive Operation (K V : Type) where
  /-- A request is carried out. -/
  | request (r : Request K V)
  /-- A traversal fixes what it visits. -/
  | depart
  /-- A traversal reads the cell of the key that it has reached. -/
  | reach (c : CellId)

namespace Operation

/-- What the client learns. -/
@[reducible] def Result : Operation K V → Type
  | request _ => Answer V
  | depart => List (K × CellId)
  | reach _ => Option (Handle V)

/-- Carry an operation out. -/
def program [BEq K] [BEq V] : (o : Operation K V) → Program K V o.Result
  | request r => r.program
  | depart => Map.itinerary
  | reach c => Cell.load c

end Operation

/-- An operation that was carried out, with the states before and after it. -/
structure Passage (K V : Type) where
  operation : Operation K V
  before : Shared K V
  after : Shared K V

/-- The passages lead from one state to another, each of them beginning where the last one ended. -/
def Linked : Shared K V → List (Passage K V) → Shared K V → Prop
  | s, [], s' => s' = s
  | s, p :: ps, s' => p.before = s ∧ Linked p.after ps s'

theorem Linked.append {s s' s'' : Shared K V} {ps qs : List (Passage K V)} (h : Linked s ps s')
    (h' : Linked s' qs s'') : Linked s (ps ++ qs) s'' := by
  induction ps generalizing s with
  | nil => exact (show s' = s from h) ▸ h'
  | cons p ps ih => exact ⟨h.1, ih h.2⟩

/-- A journal leads to its end by way of the states in between. -/
theorem Linked.split {s s' : Shared K V} {ps qs : List (Passage K V)}
    (h : Linked s (ps ++ qs) s') : ∃ s₁, Linked s ps s₁ ∧ Linked s₁ qs s' := by
  induction ps generalizing s with
  | nil => exact ⟨s, rfl, h⟩
  | cons p ps ih =>
      obtain ⟨s₁, hps, hqs⟩ := ih h.2
      exact ⟨s₁, ⟨h.1, hps⟩, hqs⟩

/-- What is true in the beginning and after each operation is true in the end. -/
theorem Linked.last {I : Shared K V → Prop} {s s' : Shared K V} {ps : List (Passage K V)}
    (h : Linked s ps s') (hs : I s) (hall : ∀ p ∈ ps, I p.after) : I s' := by
  induction ps generalizing s with
  | nil => exact (show s' = s from h) ▸ hs
  | cons p ps ih =>
      exact ih h.2 (hall p List.mem_cons_self) fun q hq => hall q (List.mem_cons_of_mem p hq)

/-- A journal grows at its end: what holds of none, and of one more passage if it holds of those
before it, holds of the journal. -/
@[elab_as_elim]
theorem Linked.concat_induction {I : Passage K V → Prop}
    {P : List (Passage K V) → Shared K V → Prop} {s s' : Shared K V} {journal : List (Passage K V)}
    (h : Linked s journal s') (hall : ∀ p ∈ journal, I p) (nil : P [] s)
    (concat : ∀ journal p, I p → P journal p.before → P (journal ++ [p]) p.after) :
    P journal s' := by
  induction journal using List.reverseRecOn generalizing s' with
  | nil => exact (show s' = s from h) ▸ nil
  | append_singleton journal p ih =>
      obtain ⟨s₁, hbefore, rfl, rfl⟩ := h.split
      exact concat journal p (hall p (List.mem_append_right _ List.mem_cons_self))
        (ih hbefore fun q hq => hall q (List.mem_append_left _ hq))

/-! ## Keeping a journal -/

/-- The monad in which a client is followed: where the map is now, and what led there. -/
abbrev Course (K V ε : Type) := ExceptT ε (StateT (Shared K V × List (Passage K V)) Option)

section Follow

variable [BEq K] [BEq V] (order : Enumeration K) (t : ThreadId)

/-- Carry an operation out as thread `t`, and write it down. -/
def Operation.follow (o : Operation K V) : Course K V ε o.Result :=
  ExceptT.lift fun (s, journal) =>
    (o.program.run order t s).map fun (x, s') => (x, s', journal ++ [⟨o, s, s'⟩])

namespace Client

/-- Store the given values one after the other, and write it down. -/
def followStores : List (K × V) → Course K V ε Unit
  | [] => pure ()
  | (key, value) :: rest => do
    let _ ← (Operation.request (.store key value)).follow order t
    followStores rest

/-- Visit the keys that hold a value when they are reached, and write it down. -/
def followVisits (visit : K → Handle V → σ → Course K V ε (ForInStep σ)) :
    List (K × CellId) → σ → Course K V ε σ
  | [], state => pure state
  | (key, c) :: rest, state => do
    match ← (Operation.reach c).follow order t with
    | none => followVisits visit rest state
    | some held =>
      match ← visit key held state with
      | .done state => pure state
      | .yield state => followVisits visit rest state

/-- Carry a client out as thread `t`, and write its operations down. -/
def follow : {α : Type} → Client K V ε α → Course K V ε α
  | _, done x => pure x
  | _, fail e => throw e
  | _, request r next => do
    let answer ← (Operation.request r).follow order t
    (next answer).follow
  | _, extend pairs next => do
    followStores order t pairs
    next.follow
  | _, traverse visit start next => do
    let entries ← Operation.depart.follow order t
    let state ← followVisits order t (fun key held state => (visit key held state).follow) entries
      start
    (next state).follow
  | _, attempt body next => do
    let result ← tryCatch (Except.ok <$> body.follow) fun e => pure (.error e)
    (next result).follow

end Client

end Follow

/-! ## The journal and the program -/

section Tracks

variable [BEq K] [BEq V] (order : Enumeration K) (t : ThreadId)

/-- The course goes the way of the program. `I` holds between two operations, and `R` holds of each
operation. -/
def Tracks (I : Shared K V → Prop) (R : Passage K V → Prop) (m : Course K V ε α)
    (p : Trace K V → Program K V (Except ε α × Trace K V)) : Prop :=
  ∀ trace s journal, I s → ∃ x trace' s' passages,
    (p trace).run order t s = some ((x, trace'), s') ∧
    m.run.run (s, journal) = some (x, s', journal ++ passages) ∧
    I s' ∧ Linked s passages s' ∧ ∀ p ∈ passages, R p

variable {order : Enumeration K} {t : ThreadId} {I : Shared K V → Prop} {R : Passage K V → Prop}

omit [BEq V] in
/-- What is over without an operation goes the way of a program that is over. -/
theorem tracks_done (x : Except ε α) {m : Course K V ε α}
    (hm : ∀ s journal, m.run.run (s, journal) = some (x, s, journal)) :
    Tracks order t I R m fun trace => .done (x, trace) := by
  intro trace s journal hs
  refine ⟨x, trace, s, [], rfl, ?_, hs, rfl, fun p hp => absurd hp List.not_mem_nil⟩
  rw [hm, List.append_nil]

omit [BEq K] [BEq V] in
theorem Course.run_bind (m : Course K V ε α) (f : α → Course K V ε β)
    (z : Shared K V × List (Passage K V)) :
    (m >>= f).run.run z = (m.run.run z).bind fun
      | (.ok x, z) => (f x).run.run z
      | (.error e, z) => some (.error e, z) := by
  rw [ExceptT.run_bind, StateT.run_bind]
  show Option.bind _ _ = Option.bind _ _
  congr 1
  funext y
  obtain ⟨(e | x), z⟩ := y <;> rfl

omit [BEq K] [BEq V] in
theorem Course.run_attempt (m : Course K V ε α) (z : Shared K V × List (Passage K V)) :
    (tryCatch (Except.ok <$> m) fun e => pure (.error e) : Course K V ε (Except ε α)).run.run z =
      (m.run.run z).map fun y => (.ok y.1, y.2) := by
  rw [ExceptT.run_tryCatch, StateT.run_bind, ExceptT.run_map, StateT.run_map]
  show Option.bind (Option.map _ _) _ = _
  rw [Option.bind_map]
  cases m.run.run z with
  | none => rfl
  | some y => obtain ⟨(e | x), z⟩ := y <;> rfl

omit [BEq V] in
/-- One part after the other. -/
theorem Tracks.bind {m : Course K V ε α} {f : α → Course K V ε β}
    {p : Trace K V → Program K V (Except ε α × Trace K V)}
    {q : α → Trace K V → Program K V (Except ε β × Trace K V)} (hm : Tracks order t I R m p)
    (hf : ∀ x, Tracks order t I R (f x) (q x)) :
    Tracks order t I R (m >>= f) fun trace => p trace >>= Client.onward q := by
  intro trace s journal hs
  obtain ⟨x, trace₁, s₁, ps, hrun, hfollow, hs₁, hlink, hps⟩ := hm trace s journal hs
  rw [Course.run_bind, hfollow, Option.bind_some, Program.run_bind, hrun, Option.bind_some]
  cases x with
  | error e => exact ⟨.error e, trace₁, s₁, ps, rfl, rfl, hs₁, hlink, hps⟩
  | ok x =>
      obtain ⟨y, trace₂, s₂, qs, hrun₂, hfollow₂, hs₂, hlink₂, hqs⟩ :=
        hf x trace₁ s₁ (journal ++ ps) hs₁
      refine ⟨y, trace₂, s₂, ps ++ qs, hrun₂, ?_, hs₂, hlink.append hlink₂, ?_⟩
      · rw [← List.append_assoc]
        exact hfollow₂
      · exact fun p hp => (List.mem_append.1 hp).elim (hps p) (hqs p)

/-- Every operation gets to its end, keeps `I` and satisfies `R`. -/
def Operation.Lawful (order : Enumeration K) (t : ThreadId) (I : Shared K V → Prop)
    (R : Passage K V → Prop) (o : Operation K V) : Prop :=
  ∀ s, I s → o.program.Ends order t s fun _ s' => I s' ∧ R ⟨o, s, s'⟩

/-- What is kept holds before and after the operation. -/
theorem Operation.Lawful.bracketed {o : Operation K V} (h : o.Lawful order t I R) :
    o.Lawful order t I fun p => R p ∧ I p.before ∧ I p.after := by
  intro s hs
  obtain ⟨x, s', hrun, hs', hR⟩ := h s hs
  exact ⟨x, s', hrun, hs', hR, hs, hs'⟩

/-- One operation, and then the rest. -/
theorem tracks_operation {o : Operation K V} (ho : o.Lawful order t I R)
    {f : o.Result → Course K V ε α}
    {q : o.Result → Trace K V → Program K V (Except ε α × Trace K V)}
    (note : o.Result → Trace K V → Trace K V) (hf : ∀ x, Tracks order t I R (f x) (q x)) :
    Tracks order t I R (o.follow order t >>= f) fun trace =>
      o.program >>= fun x => q x (note x trace) := by
  intro trace s journal hs
  obtain ⟨x, s₁, hrun, hs₁, hR⟩ := ho s hs
  have hfollow : (o.follow order t : Course K V ε _).run.run (s, journal) =
      some (.ok x, s₁, journal ++ [⟨o, s, s₁⟩]) := by
    rw [Operation.follow, ExceptT.run_lift, StateT.run_map]
    show Option.map _ (Option.map _ _) = _
    rw [hrun]
    rfl
  obtain ⟨y, trace₂, s₂, ps, hrun₂, hfollow₂, hs₂, hlink, hps⟩ :=
    hf x (note x trace) s₁ (journal ++ [⟨o, s, s₁⟩]) hs₁
  refine ⟨y, trace₂, s₂, ⟨o, s, s₁⟩ :: ps, ?_, ?_, hs₂, ⟨rfl, hlink⟩, ?_⟩
  · rw [Program.run_bind, hrun, Option.bind_some, hrun₂]
  · rw [Course.run_bind, hfollow, Option.bind_some, List.append_cons journal ⟨o, s, s₁⟩ ps]
    exact hfollow₂
  · exact fun p hp => (List.mem_cons.1 hp).elim (fun h => h ▸ hR) (hps p)

namespace Client

/-- A batch of stores goes the way of its program. -/
theorem followStores_tracks (hop : ∀ o : Operation K V, o.Lawful order t I R)
    (pairs : List (K × V)) {f : Unit → Course K V ε α}
    {q : Trace K V → Program K V (Except ε α × Trace K V)} (made : Trace K V)
    (hf : Tracks order t I R (f ()) q) :
    Tracks order t I R (followStores order t pairs >>= f) fun trace =>
      Map.extend pairs >>= fun _ => q (trace ++ made) := by
  induction pairs generalizing made with
  | nil => exact fun trace s journal hs => hf (trace ++ made) s journal hs
  | cons p pairs ih =>
      obtain ⟨key, value⟩ := p
      have hprog : (fun trace => Map.extend ((key, value) :: pairs) >>= fun _ => q (trace ++ made)) =
          fun trace => (Operation.request (.store key value)).program >>= fun _ =>
            Map.extend pairs >>= fun _ => q (trace ++ made) := by
        funext trace
        simp only [Map.extend, Operation.program, Request.program, bind_assoc]
        rfl
      rw [followStores, bind_assoc, hprog]
      exact tracks_operation (hop _) (fun _ trace => trace) fun _ => ih made

/-- The visits go the way of their program, if each visit does. -/
theorem followVisits_tracks (hop : ∀ o : Operation K V, o.Lawful order t I R)
    {visit : K → Handle V → σ → Client K V ε (ForInStep σ)}
    (hvisit : ∀ key held state,
      Tracks order t I R ((visit key held state).follow order t) (visit key held state).program)
    (entries : List (K × CellId)) (state : σ) :
    Tracks order t I R
      (followVisits order t (fun key held state => (visit key held state).follow order t) entries
        state)
      (visits visit entries state) := by
  induction entries generalizing state with
  | nil => exact tracks_done (.ok state) fun _ _ => rfl
  | cons e entries ih =>
      obtain ⟨key, c⟩ := e
      have hprog : visits visit ((key, c) :: entries) state = fun trace =>
          (Operation.reach c : Operation K V).program >>= fun held =>
            (match held with
              | none => visits visit entries state
              | some held => fun trace => (visit key held state).program trace >>=
                  onward (afterVisit visit entries)) (id trace) := by
        -- A visit begins with the operation that reads the cell.
        funext trace
        rw [visits_cons]
        congr 1
        funext held
        cases held <;> rfl
      rw [hprog]
      refine tracks_operation (hop _) (fun _ => id) fun held => ?_
      cases held with
      | none => exact ih state
      | some held =>
          refine (hvisit key held state).bind fun step => ?_
          cases step with
          | done state => exact tracks_done (.ok state) fun _ _ => rfl
          | yield state => exact ih state

/-- The journal goes the way of the program. -/
theorem follow_tracks (hop : ∀ o : Operation K V, o.Lawful order t I R) (c : Client K V ε α) :
    Tracks order t I R (c.follow order t) c.program := by
  induction c with
  | done x => exact tracks_done (.ok x) fun _ _ => rfl
  | fail e => exact tracks_done (.error e) fun _ _ => rfl
  | request r next ih =>
      have hprog : (request r next).program = fun trace =>
          (Operation.request r).program >>= fun answer =>
            (next answer).program (trace ++ [(r, answer)]) :=
        funext fun trace => program_request trace r next
      rw [hprog]
      exact tracks_operation (hop (.request r)) (fun answer trace => trace ++ [(r, answer)]) ih
  | extend pairs next ih =>
      have hprog : (extend pairs next).program = fun trace =>
          Map.extend pairs >>= fun _ => next.program (trace ++ .stores pairs) :=
        funext fun trace => program_extend trace pairs next
      rw [hprog]
      exact followStores_tracks hop pairs (.stores pairs) ih
  | traverse visit start next ihvisit ih =>
      have hprog : (traverse visit start next).program = fun trace =>
          (Operation.depart : Operation K V).program >>= fun entries =>
            visits visit entries start trace >>= onward fun state => (next state).program :=
        funext fun trace => program_traverse trace visit start next
      rw [hprog]
      exact tracks_operation (hop _) (fun _ trace => trace)
        fun entries => (followVisits_tracks hop ihvisit entries start).bind ih
  | attempt body next ihbody ih =>
      intro trace s journal hs
      obtain ⟨x, trace₁, s₁, ps, hrun, hfollow, hs₁, hlink, hps⟩ := ihbody trace s journal hs
      obtain ⟨y, trace₂, s₂, qs, hrun₂, hfollow₂, hs₂, hlink₂, hqs⟩ :=
        ih x trace₁ s₁ (journal ++ ps) hs₁
      refine ⟨y, trace₂, s₂, ps ++ qs, ?_, ?_, hs₂, hlink.append hlink₂, ?_⟩
      · rw [program_attempt, Program.run_bind, hrun, Option.bind_some, hrun₂]
      · rw [follow, Course.run_bind, Course.run_attempt, hfollow, ← List.append_assoc]
        exact hfollow₂
      · exact fun p hp => (List.mem_append.1 hp).elim (hps p) (hqs p)

end Client

end Tracks

end ConcurrentMap
