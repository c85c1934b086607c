import ConcurrentMap.Request

/-!
# Clients

A client is what one thread does with the map: requests, each decided upon by the answers before it,
and traversals, whose visitors are clients as well. A visitor may use the map, start traversals of
its own, end the traversal early or fail. What fails is given up as far as it is nested, up to the
next `Client.attempt`.

`Client.program` is the program of a client, carried out by the operations of the map. It ends with
the client's result and its trace: the requests that were made, in their order, with the answers.
-/

namespace ConcurrentMap

/-- What one thread does with a map, ending with a result in `α` or a failure in `ε`. -/
inductive Client (K V ε : Type) : Type → Type 1 where
  /-- Nothing is left to do. -/
  | done {α : Type} (result : α) : Client K V ε α
  /-- Give up. -/
  | fail {α : Type} (failure : ε) : Client K V ε α
  /-- Make a request and go on from its answer. -/
  | request {α : Type} (r : Request K V) (next : Answer V → Client K V ε α) : Client K V ε α
  /-- Store the given values one after the other. -/
  | extend {α : Type} (pairs : List (K × V)) (next : Client K V ε α) : Client K V ε α
  /-- Visit every key that holds a value, until the visitor is done. -/
  | traverse {α σ : Type} (visit : K → Handle V → σ → Client K V ε (ForInStep σ)) (start : σ)
      (next : σ → Client K V ε α) : Client K V ε α
  /-- Go on from how `body` ended, even if it failed. -/
  | attempt {α β : Type} (body : Client K V ε β) (next : Except ε β → Client K V ε α) :
      Client K V ε α

/-- Requests that were made, the first one first, with their answers. -/
abbrev Trace (K V : Type) := List (Request K V × Answer V)

/-- The requests and answers of `Map.extend`. -/
def Trace.stores {K V : Type} (pairs : List (K × V)) : Trace K V :=
  pairs.map fun p => (.store p.1 p.2, .finished)

namespace Client

variable {K V ε α β σ : Type}

/-- The monad in which clients are carried out: a failure keeps the trace. -/
abbrev Effect (K V ε : Type) := ExceptT ε (StateT (Trace K V) (Program K V))

/-- A program of the map, as part of a client. -/
def use (p : Program K V α) : Effect K V ε α := ExceptT.lift (StateT.lift p)

/-- Write requests and their answers down. -/
def note (made : Trace K V) : Effect K V ε Unit :=
  ExceptT.lift (modify fun trace => trace ++ made)

section Perform

variable [BEq K] [BEq V]

/-- Carry a client out. -/
def perform : {α : Type} → Client K V ε α → Effect K V ε α
  | _, done x => pure x
  | _, fail e => throw e
  | _, request r next => do
    let answer ← use r.program
    note [(r, answer)]
    (next answer).perform
  | _, extend pairs next => do
    use (Map.extend pairs)
    note (.stores pairs)
    next.perform
  | _, traverse visit start next => do
    let state ← Map.traverse use (fun key held state => (visit key held state).perform) start
    (next state).perform
  | _, attempt body next => do
    let result ← tryCatch (Except.ok <$> body.perform) fun e => pure (.error e)
    (next result).perform

/-- The program of a client that has already made the requests of `trace`. -/
def program (c : Client K V ε α) (trace : Trace K V) : Program K V (Except ε α × Trace K V) :=
  c.perform.run.run trace

/-- The program of the visits to some entries. -/
def visits (visit : K → Handle V → σ → Client K V ε (ForInStep σ)) (entries : List (K × CellId))
    (state : σ) (trace : Trace K V) : Program K V (Except ε σ × Trace K V) :=
  (Map.visitEach use (fun key held state => (visit key held state).perform) entries state).run.run
    trace

end Perform

/-- The client makes only requests that satisfy `P`. -/
def Only (P : Request K V → Prop) : {α : Type} → Client K V ε α → Prop
  | _, done _ => True
  | _, fail _ => True
  | _, request r next => P r ∧ ∀ answer, (next answer).Only P
  | _, extend pairs next => (∀ p ∈ pairs, P (.store p.1 p.2)) ∧ next.Only P
  | _, traverse visit _ next =>
    (∀ key held state, (visit key held state).Only P) ∧ ∀ state, (next state).Only P
  | _, attempt body next => body.Only P ∧ ∀ result, (next result).Only P

/-- Without a condition on its requests, every client complies. -/
theorem only_true (c : Client K V ε α) : c.Only fun _ => True := by
  induction c with
  | done x => trivial
  | fail e => trivial
  | request r next ih => exact ⟨trivial, ih⟩
  | extend pairs next ih => exact ⟨fun _ _ => trivial, ih⟩
  | traverse visit start next ihvisit ih => exact ⟨ihvisit, ih⟩
  | attempt body next ihbody ih => exact ⟨ihbody, ih⟩

/-- Go on with `f` once the client is done. -/
def bind : {α : Type} → Client K V ε α → (α → Client K V ε β) → Client K V ε β
  | _, done x, f => f x
  | _, fail e, _ => fail e
  | _, request r next, f => request r fun answer => (next answer).bind f
  | _, extend pairs next, f => extend pairs (next.bind f)
  | _, traverse visit start next, f => traverse visit start fun state => (next state).bind f
  | _, attempt body next, f => attempt body fun result => (next result).bind f

/-- A plain loop over some pairs, until the visitor is done. -/
def forEach (visit : K → Handle V → σ → Client K V ε (ForInStep σ)) :
    List (K × Handle V) → σ → Client K V ε σ
  | [], state => done state
  | (key, held) :: rest, state =>
    (visit key held state).bind fun
      | .done state => done state
      | .yield state => forEach visit rest state

/-! ## The program of a client -/

/-- Go on with `f` after a result, but not after a failure. -/
def onward (f : α → Trace K V → Program K V (Except ε β × Trace K V)) :
    Except ε α × Trace K V → Program K V (Except ε β × Trace K V)
  | (.ok x, trace) => f x trace
  | (.error e, trace) => .done (.error e, trace)

/-- What a traversal does after a visit. -/
def afterVisit [BEq K] [BEq V] (visit : K → Handle V → σ → Client K V ε (ForInStep σ))
    (rest : List (K × CellId)) :
    ForInStep σ → Trace K V → Program K V (Except ε σ × Trace K V)
  | .done state, trace => .done (.ok state, trace)
  | .yield state, trace => visits visit rest state trace

section Equations

variable (trace : Trace K V)

/-- In the program of a sequence, the rest goes on from a result and from the trace so far. -/
private theorem run_bind (x : Effect K V ε α) (f : α → Effect K V ε β) :
    (x >>= f).run.run trace = x.run.run trace >>= onward fun x => (f x).run.run := by
  rw [ExceptT.run_bind, StateT.run_bind]
  congr 1
  funext y
  obtain ⟨(e | x), trace⟩ := y <;> rfl

/-- A program of the map leaves the trace alone, and never fails. -/
private theorem run_use (p : Program K V α) :
    (use p : Effect K V ε α).run.run trace = p >>= fun x => .done (.ok x, trace) := by
  simp only [use, ExceptT.run_lift, StateT.run_map, StateT.run_lift, map_bind]
  rfl

/-- What is noted comes at the end of the trace. -/
private theorem run_note (made : Trace K V) :
    (note made : Effect K V ε Unit).run.run trace = .done (.ok (), trace ++ made) := rfl

/-- An attempt always succeeds, and hands on how its body ended. The trace is kept. -/
private theorem run_attempt (x : Effect K V ε α) :
    (tryCatch (Except.ok <$> x) fun e => pure (.error e) :
      Effect K V ε (Except ε α)).run.run trace =
        x.run.run trace >>= fun y => .done (.ok y.1, y.2) := by
  rw [ExceptT.run_tryCatch, StateT.run_bind, ExceptT.run_map, StateT.run_map, map_eq_pure_bind,
    bind_assoc]
  congr 1
  funext y
  obtain ⟨(e | x), trace⟩ := y <;> rfl

variable [BEq K] [BEq V]

/-- A client that is done makes no request. -/
@[simp] theorem program_done (x : α) :
    (done x : Client K V ε α).program trace = .done (.ok x, trace) := rfl

/-- A client that gives up makes no request, and keeps the trace of those that it made. -/
@[simp] theorem program_fail (e : ε) :
    (fail e : Client K V ε α).program trace = .done (.error e, trace) := rfl

/-- The program of a request is the one of the map, then the answer is written to the trace. -/
theorem program_request (r : Request K V) (next : Answer V → Client K V ε α) :
    (request r next).program trace =
      r.program >>= fun answer => (next answer).program (trace ++ [(r, answer)]) := by
  simp only [program, perform, run_bind, run_use, run_note, bind_assoc, Program.done_bind, onward]

/-- To extend the map is to store the pairs, and the trace shows one store for each of them. -/
theorem program_extend (pairs : List (K × V)) (next : Client K V ε α) :
    (extend pairs next).program trace =
      Map.extend pairs >>= fun _ => next.program (trace ++ .stores pairs) := by
  simp only [program, perform, run_bind, run_use, run_note, bind_assoc, Program.done_bind, onward]

/-- A traversal fixes its entries first, and visits them one after the other. -/
theorem program_traverse (visit : K → Handle V → σ → Client K V ε (ForInStep σ)) (start : σ)
    (next : σ → Client K V ε α) :
    (traverse visit start next).program trace =
      Map.itinerary >>= fun entries =>
        visits visit entries start trace >>= onward fun state => (next state).program := by
  simp only [perform, program, Map.traverse, run_bind, run_use, bind_assoc, Program.done_bind,
    onward]
  rfl

/-- An attempt goes on from how its body ended, with the trace that the body left. -/
theorem program_attempt (body : Client K V ε β) (next : Except ε β → Client K V ε α) :
    (attempt body next).program trace =
      body.program trace >>= fun x => (next x.1).program x.2 := by
  simp only [program, perform, run_bind, run_attempt, bind_assoc, Program.done_bind, onward]

/-- Without entries there is nothing to visit. -/
@[simp] theorem visits_nil (visit : K → Handle V → σ → Client K V ε (ForInStep σ)) (state : σ) :
    visits visit [] state trace = .done (.ok state, trace) := rfl

/-- The next cell is read. Without a value it is passed over, else the visitor decides whether to go
on. -/
theorem visits_cons (visit : K → Handle V → σ → Client K V ε (ForInStep σ)) (key : K) (c : CellId)
    (rest : List (K × CellId)) (state : σ) :
    visits visit ((key, c) :: rest) state trace = Cell.load c >>= fun
      | none => visits visit rest state trace
      | some held => (visit key held state).program trace >>= onward (afterVisit visit rest) := by
  simp only [visits, Map.visitEach, run_bind, run_use, bind_assoc, Program.done_bind, onward]
  congr 1
  funext held
  cases held with
  | none => rfl
  | some held =>
      simp only [run_bind]
      congr 2
      funext step
      cases step <;> rfl

/-- One client after another. -/
theorem program_bind (c : Client K V ε α) (f : α → Client K V ε β) :
    (c.bind f).program trace = c.program trace >>= onward fun x => (f x).program := by
  induction c generalizing trace with
  | done x => rfl
  | fail e => rfl
  | request r next ih => simp only [bind, program_request, ih, bind_assoc]
  | extend pairs next ih => simp only [bind, program_extend, ih, bind_assoc]
  | traverse visit start next ihvisit ih =>
      simp only [bind, program_traverse, bind_assoc]
      congr 2
      funext x
      congr 1
      funext y
      obtain ⟨(e | x), trace⟩ := y
      · rfl
      · exact ih x trace f
  | attempt body next ihbody ih => simp only [bind, program_attempt, ih, bind_assoc]

end Equations

end Client

end ConcurrentMap
