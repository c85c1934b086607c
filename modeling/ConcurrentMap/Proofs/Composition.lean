import ConcurrentMap.Proofs.Client

/-!
# Properties that sequences keep

What is true of a program that is done, and of one program after another if it is true of both, is
true of the program of a client as soon as it is true of the operations: the requests, and the two
things that a traversal does by itself, which are to fix its entries and to read a cell
(`Client.program_composed`).
-/

namespace ConcurrentMap

variable {K V ε α σ : Type}

/-- The property goes from the parts of a sequence to the whole. -/
structure Program.Composes (G : ∀ α : Type, Program K V α → Prop) : Prop where
  done : ∀ {α : Type} (x : α), G α (.done x)
  bind : ∀ {α β : Type} {p : Program K V α} {f : α → Program K V β},
    G α p → (∀ x, G β (f x)) → G β (p >>= f)

variable [BEq K] [BEq V]

/-- The operations of the map have the property. -/
structure Map.Supports (G : ∀ α : Type, Program K V α → Prop) : Prop where
  request : ∀ r : Request K V, G _ r.program
  store : ∀ key value, G _ (Map.store key value)
  itinerary : G _ Map.itinerary
  load : ∀ c, G _ (Cell.load c)

namespace Client

variable {G : ∀ α : Type, Program K V α → Prop}

theorem extend_composed (hG : Program.Composes G) (hmap : Map.Supports G) (pairs : List (K × V)) :
    G _ (Map.extend pairs) := by
  induction pairs with
  | nil => exact hG.done ()
  | cons p pairs ih => exact hG.bind (hmap.store p.1 p.2) fun _ => ih

omit [BEq K] [BEq V] in
/-- What follows on a result, and not on a failure. -/
theorem onward_composed (hG : Program.Composes G) {β : Type}
    {f : α → Trace K V → Program K V (Except ε β × Trace K V)} (hf : ∀ x trace, G _ (f x trace))
    (y : Except ε α × Trace K V) : G _ (onward f y) := by
  obtain ⟨(failure | x), trace⟩ := y
  · exact hG.done _
  · exact hf x trace

/-- The visits only use the operations, if each visit does. -/
theorem visits_composed (hG : Program.Composes G) (hmap : Map.Supports G)
    {visit : K → Handle V → σ → Client K V ε (ForInStep σ)}
    (hvisit : ∀ key held state trace, G _ ((visit key held state).program trace))
    (entries : List (K × CellId)) (state : σ) (trace : Trace K V) :
    G _ (visits visit entries state trace) := by
  induction entries generalizing state trace with
  | nil => exact hG.done _
  | cons e entries ih =>
      obtain ⟨key, c⟩ := e
      rw [visits_cons]
      apply hG.bind (hmap.load c)
      intro found
      cases found with
      | none => exact ih state trace
      | some held =>
          apply hG.bind (hvisit key held state trace)
          apply onward_composed hG
          intro step trace'
          cases step with
          | done state => exact hG.done _
          | yield state => exact ih state trace'

/-- A client only uses the operations, one after the other. -/
theorem program_composed (hG : Program.Composes G) (hmap : Map.Supports G) (c : Client K V ε α)
    (trace : Trace K V) : G _ (c.program trace) := by
  -- By induction on the client: each constructor is an operation or a sequence of them.
  induction c generalizing trace with
  | done x => exact hG.done _
  | fail e => exact hG.done _
  | request r next ih =>
      rw [program_request]
      exact hG.bind (hmap.request r) fun answer => ih answer _
  | extend pairs next ih =>
      rw [program_extend]
      exact hG.bind (extend_composed hG hmap pairs) fun _ => ih _
  | traverse visit start next ihvisit ih =>
      rw [program_traverse]
      apply hG.bind hmap.itinerary
      intro entries
      apply hG.bind (visits_composed hG hmap ihvisit entries start trace)
      exact onward_composed hG ih
  | attempt body next ihbody ih =>
      rw [program_attempt]
      exact hG.bind (ihbody trace) fun x => ih x.1 x.2

end Client

end ConcurrentMap
