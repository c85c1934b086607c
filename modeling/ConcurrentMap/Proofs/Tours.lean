import ConcurrentMap.Proofs.Interference.MapRules
import ConcurrentMap.Proofs.Interference.Touring

/-!
# Traversals with visits

`Map.traverse` runs in the monad of its visitor. A `Tour` is that monad at its most general: nothing
is known of the visitor but whether it wants to go on, and it may take as long as it likes to say
so. `Tour.traversal` is the traversal in this monad. It consists of legs, each a program of the map
that leads to the next visit or to the end (`Tour.leg`), and between two legs the visitor is free to
use the map.

`Program.wp_onward` is the rule for a leg among others: it leads from one state of
`World.Touring` to the next.
-/

namespace ConcurrentMap

variable {K V α β : Type}

/-- What a traversal does, with a visitor that answers whether to go on. -/
inductive Tour (K V α : Type) where
  /-- Nothing is left to do. -/
  | done (result : α)
  /-- Perform an action and go on from its answer. -/
  | act (a : Action K V) (next : a.Response → Tour K V α)
  /-- Retry an exchange until it ends, and go on from how it ended. -/
  | retry (u : Update V) (next : Outcome V → Tour K V α)
  /-- Show a pair to the visitor, and go on from whether it wants more. -/
  | visit (key : K) (held : Handle V) (next : Bool → Tour K V α)

namespace Tour

/-- Go on with `f` once the tour is over. -/
def bind : Tour K V α → (α → Tour K V β) → Tour K V β
  | done x, f => f x
  | act a next, f => act a fun r => (next r).bind f
  | retry u next, f => retry u fun o => (next o).bind f
  | visit key held next, f => visit key held fun goOn => (next goOn).bind f

instance : Monad (Tour K V) where
  pure := done
  bind := bind

/-- A program of the map, as part of a tour. -/
def use : Program K V α → Tour K V α
  | .done x => done x
  | .act a next => act a fun r => use (next r)
  | .retry u next => retry u fun o => use (next o)

/-- Show a pair and write it down. -/
def look (key : K) (held : Handle V) (report : Report K V) :
    Tour K V (ForInStep (Report K V)) :=
  visit key held fun goOn =>
    done (if goOn then .yield (report.note key held goOn) else .done (report.note key held goOn))

/-- The visits to some entries. -/
def ahead (rest : List (K × CellId)) (report : Report K V) : Tour K V (Report K V) :=
  Map.visitEach use look rest report

/-- A traversal of the whole map. -/
def traversal : Tour K V (Report K V) := Map.traverse use look .empty

/-- What is left of a traversal after a visit. -/
def onward (rest : List (K × CellId)) (report : Report K V) : Tour K V (Report K V) :=
  if report.stopped then done report else ahead rest report

end Tour

/-- How a leg of a traversal ends. -/
inductive Leg (K V : Type) where
  /-- The traversal is over. -/
  | arrived (report : Report K V)
  /-- A pair is shown to the visitor, and the traversal goes on from its answer. -/
  | reached (key : K) (held : Handle V) (next : Bool → Tour K V (Report K V))

namespace Tour

/-- The program that leads to the next visit, or to the end. -/
def leg : Tour K V (Report K V) → Program K V (Leg K V)
  | done report => .done (.arrived report)
  | act a next => .act a fun r => (next r).leg
  | retry u next => .retry u fun o => (next o).leg
  | visit key held next => .done (.reached key held next)

/-- A leg that begins with a program goes through the program first. -/
theorem leg_use_bind (p : Program K V α) (f : α → Tour K V (Report K V)) :
    (use p >>= f).leg = p >>= fun x => (f x).leg := by
  induction p with
  | done x => rfl
  | act a next ih => exact congrArg (Program.act a) (funext ih)
  | retry u next ih => exact congrArg (Program.retry u) (funext ih)

/-- The first leg fixes what is visited, and goes on to the first visit. -/
theorem leg_traversal : (traversal : Tour K V _).leg =
    Map.itinerary >>= fun entries => (ahead entries .empty).leg :=
  leg_use_bind _ _

/-- The next entry is passed over if its cell holds nothing, and otherwise it is visited. -/
theorem leg_ahead_cons (key : K) (c : CellId) (rest : List (K × CellId)) (report : Report K V) :
    (ahead ((key, c) :: rest) report).leg = Cell.load c >>= fun
      | none => (ahead rest report).leg
      | some held => .done (.reached key held fun goOn =>
          onward rest (report.note key held goOn)) := by
  refine (leg_use_bind _ _).trans (congrArg (Cell.load c >>= ·) (funext fun found => ?_))
  cases found with
  | none => rfl
  | some held =>
      refine congrArg (fun next => Program.done (Leg.reached key held next)) (funext fun goOn => ?_)
      cases goOn <;> rfl

end Tour

namespace World

variable [BEq K] [BEq V] {w₀ w w' : World K V} {t : ThreadId}

/-- A traversal that began in world `w₀` waits for its visitor. -/
def Waiting (w₀ : World K V) (next : Bool → Tour K V (Report K V)) (w : World K V) : Prop :=
  ∃ rest visited, w₀.Touring visited rest w ∧
    ∀ goOn, next goOn = .onward rest ⟨visited, !goOn⟩

/-- A traversal that waits may do so for as long as it likes. -/
theorem Waiting.grows {next : Bool → Tour K V (Report K V)} (h : w₀.Waiting next w)
    (hg : w.Grows w') : w₀.Waiting next w' := by
  obtain ⟨rest, visited, h, hnext⟩ := h
  exact ⟨rest, visited, h.grows hg, hnext⟩

/-- What was reported stays true. -/
theorem Reports.grows {report : Report K V} (h : w₀.Reports report w) (hg : w.Grows w') :
    w₀.Reports report w' := by
  obtain ⟨rest, h, hover⟩ := h
  exact ⟨rest, h.grows hg, hover⟩

/-- What a leg of a traversal that began in world `w₀` leaves behind. -/
def Travels (w₀ : World K V) (t : ThreadId) (l : Leg K V) (w : World K V) : Prop :=
  w.shared.holder ≠ some t ∧
    match l with
    | .arrived report => w₀.Reports report w
    | .reached _ _ next => w₀.Waiting next w

/-- What a leg leaves behind is not disturbed by the others. -/
theorem Travels.rely {l : Leg K V} (h : w₀.Travels t l w) (hr : w.Rely t w') :
    w₀.Travels t l w' := by
  refine ⟨fun hheld => h.1 (hr.along.holder.1 hheld), ?_⟩
  cases l with
  | arrived report => exact h.2.grows hr.grows
  | reached key held next => exact h.2.grows hr.grows

end World

open World

namespace Program

variable [BEq K] [BEq V] [EquivBEq K] {order : Enumeration K} {t : ThreadId} {w₀ w : World K V}

/-- A leg over the entries ahead passes the empty cells, up to the next value or to the end. -/
theorem wp_ahead {rest : List (K × CellId)} {report : Report K V}
    (h : w₀.Touring report.visited rest w) (hout : w.shared.holder ≠ some t) :
    (Tour.ahead rest report).leg.wp order t (w₀.Travels t) w := by
  induction rest generalizing w with
  | nil => exact ⟨hout, [], h, fun _ => rfl⟩
  | cons e rest ih =>
      obtain ⟨key, c⟩ := e
      rw [Tour.leg_ahead_cons]
      refine wp_bind (wp_sight fun w₁ hr hs => ?_)
      have h₁ := h.grows hr.grows
      have hout₁ : w₁.shared.holder ≠ some t := fun hheld => hout (hr.along.holder.1 hheld)
      cases hheld : (w₁.shared.slot c).handle? with
      | none => exact ih (h₁.pass hs hheld) hout₁
      | some held => exact ⟨hout₁, rest, _, h₁.visit hs hheld, fun _ => rfl⟩

/-- The leg after a visit. -/
theorem wp_onward {next : Bool → Tour K V (Report K V)} (h : w₀.Waiting next w) (goOn : Bool)
    (hout : w.shared.holder ≠ some t) : (next goOn).leg.wp order t (w₀.Travels t) w := by
  obtain ⟨rest, visited, h, hnext⟩ := h
  rw [hnext]
  cases goOn with
  | true => exact wp_ahead h hout
  | false => exact ⟨hout, rest, h, fun hgoes => by simp at hgoes⟩

/-- The first leg, which fixes the entries to visit. -/
theorem wp_traversal (hout : w.shared.holder ≠ some t) :
    (Tour.traversal : Tour K V _).leg.wp order t (w.Travels t) w := by
  rw [Tour.leg_traversal]
  refine wp_bind (wp_itinerary ⟨rfl, hout⟩ fun entries x w₁ hout₁ hcharts hperm => ?_)
  exact wp_ahead (.start hcharts hperm) hout₁.holder

end Program

end ConcurrentMap
