import ConcurrentMap.Map.Whole

/-! # Requests as data

A request names an operation of the map together with its arguments, and an answer is what the
operation reports. `Request.program` ties the two: a client that is given as a list of requests
runs these programs one after the other.

Traversals are not requests, because what they do depends on their visitor.
-/

namespace ConcurrentMap

/-- An operation of the map with its arguments. -/
inductive Request (K V : Type) where
  | load (key : K)
  | store (key : K) (value : V)
  | swap (key : K) (value : V)
  | loadOrStore (key : K) (value : V)
  | loadAndDelete (key : K)
  | delete (key : K)
  | compareAndSwap (key : K) (old new : V)
  | compareAndDelete (key : K) (old : V)
  | clear
  deriving Repr, DecidableEq

/-- What an operation reports. -/
inductive Answer (V : Type) where
  /-- Nothing but that it is over. -/
  | finished
  /-- The handle that was found, replaced or removed, if any. -/
  | found (held : Option (Handle V))
  /-- The handle that is in the map now, and whether it was there before. -/
  | settled (held : Handle V) (loaded : Bool)
  /-- Whether the comparison let the operation go ahead. -/
  | decided (changed : Bool)
  deriving Repr, DecidableEq

namespace Request

variable {K V K' V' : Type}

/-- Spell the keys and values differently. -/
def map (f : K → K') (g : V → V') : Request K V → Request K' V'
  | load k => load (f k)
  | store k v => store (f k) (g v)
  | swap k v => swap (f k) (g v)
  | loadOrStore k v => loadOrStore (f k) (g v)
  | loadAndDelete k => loadAndDelete (f k)
  | delete k => delete (f k)
  | compareAndSwap k old new => compareAndSwap (f k) (g old) (g new)
  | compareAndDelete k old => compareAndDelete (f k) (g old)
  | clear => clear

/-- The key that the request is about. Only `clear` is about all of them. -/
def key? : Request K V → Option K
  | load k => some k
  | store k _ => some k
  | swap k _ => some k
  | loadOrStore k _ => some k
  | loadAndDelete k => some k
  | delete k => some k
  | compareAndSwap k _ _ => some k
  | compareAndDelete k _ => some k
  | clear => none

/-- Carry a request out. -/
def program [BEq K] [BEq V] : Request K V → Program K V (Answer V)
  | load k => return .found (← Map.load k)
  | store k v => do
    Map.store k v
    return .finished
  | swap k v => return .found (← Map.swap k v)
  | loadOrStore k v => do
    let (held, loaded) ← Map.loadOrStore k v
    return .settled held loaded
  | loadAndDelete k => return .found (← Map.loadAndDelete k)
  | delete k => do
    Map.delete k
    return .finished
  | compareAndSwap k old new => return .decided (← Map.compareAndSwap k old new)
  | compareAndDelete k old => return .decided (← Map.compareAndDelete k old)
  | clear => do
    Map.clear
    return .finished

end Request

/-- The handle that an answer hands out, if any. -/
def Answer.handle? {V : Type} : Answer V → Option (Handle V)
  | finished => none
  | found held => held
  | settled held _ => some held
  | decided _ => none

end ConcurrentMap
