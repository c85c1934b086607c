import ConcurrentMap.Map.Basic

/-! # Operations on the whole map

`clear` drops every key. `traverse` visits every key that holds a value. It fixes which keys can be
visited before the first visit, by promoting the staged table if there is one, and reads each value
only when its key is reached. The mutex is free during every visit, so the visitor may use the map.

The visitor runs in a monad of the caller's choice. What it may do there, stop, fail or use the
same map again, is the caller's business.
-/

namespace ConcurrentMap

namespace Map

variable {K V σ : Type}

/-- Drop every key while holding the mutex. -/
def clearLocked : Program K V Unit := do
  let snapshot ← Action.readSnapshot.program
  if 0 < snapshot.size || snapshot.amended then
    (Action.publish .empty).program
    reset
  else
    reset
where
  /-- Drop what is staged, too. -/
  reset : Program K V Unit := do
    Action.dropStaging.program
    (Action.emit .cleared).program

/-- Drop every key. A map without entries that nothing amends is left alone. -/
def clear : Program K V Unit := do
  let seen ← Action.readSnapshot.program
  if 0 < seen.size || seen.amended then
    locked clearLocked
  else
    return ()

/-- Promote the staged table while holding the mutex, unless the snapshot is complete by now. -/
def completeLocked : Program K V (Snapshot K) := do
  let snapshot ← Action.readSnapshot.program
  if snapshot.amended then
    promote .traversal
  else
    return snapshot

/-- A snapshot that no staged table amends. -/
def complete : Program K V (Snapshot K) := do
  let seen ← Action.readSnapshot.program
  if seen.amended then
    locked completeLocked
  else
    return seen

/-- The entries that a traversal visits, in the order in which it does. -/
def itinerary : Program K V (List (K × CellId)) := do
  let snapshot ← complete
  (Action.walk snapshot.table).program

/-- Visit the keys that hold a value when they are reached, until the visitor is done. The
programs of the map itself take part in the visitor's monad by way of `use`. -/
def visitEach {m : Type → Type} [Monad m] (use : {β : Type} → Program K V β → m β)
    (visit : K → Handle V → σ → m (ForInStep σ)) : List (K × CellId) → σ → m σ
  | [], state => pure state
  | (key, c) :: rest, state => do
    match ← use (Cell.load c) with
    | none => visitEach use visit rest state
    | some held =>
      match ← visit key held state with
      | .done state => pure state
      | .yield state => visitEach use visit rest state

/-- Visit every key that holds a value, until the visitor is done. -/
def traverse {m : Type → Type} [Monad m] (use : {β : Type} → Program K V β → m β)
    (visit : K → Handle V → σ → m (ForInStep σ)) (start : σ) : m σ := do
  let entries ← use itinerary
  visitEach use visit entries start

/-- The keys that hold a value, with the handles to their values, in the order of the walk. -/
def contents : Program K V (List (K × Handle V)) := do
  let reversed ← traverse (fun p => p) (fun key held seen => return .yield ((key, held) :: seen)) []
  return reversed.reverse

/-- Store the given values one after the other. -/
def extend [BEq K] : List (K × V) → Program K V Unit
  | [] => return ()
  | (key, value) :: rest => do
    store key value
    extend rest

end Map

/-- The map that holds the given values, stored one after the other by thread `t`. -/
def Shared.ofList {K V : Type} [BEq K] (order : Enumeration K) (t : ThreadId)
    (pairs : List (K × V)) : Option (Shared K V) :=
  ((Map.extend pairs).run order t .initial).map Prod.snd

end ConcurrentMap
