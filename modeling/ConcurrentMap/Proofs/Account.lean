import ConcurrentMap.Event
import ConcurrentMap.Proofs.Interference.Chronicle
import Mathlib.Algebra.GroupWithZero.Nat

/-!
# What rebuilds cost

A rebuild walks a whole table, and misses pay for it. An account has a posting for every miss that a
call records, for every table that a call walks and for every event, the newest posting first. An
account that is `Account.Audited` charges each promotion to the misses since the last promotion or
reset, and each walk to the last promotion, which is spent from then on. So what was walked is at
most what was promoted, and what was promoted for misses is at most the number of misses
(`Account.Audited.amortised`).
-/

namespace ConcurrentMap

/-! ## Events -/

namespace Event

/-- The number of entries that a promotion for misses published. -/
def paid : Event → Nat
  | promoted entries _ .misses => entries
  | promoted _ _ .traversal => 0
  | rebuilt _ _ => 0
  | cleared => 0

/-- The number of entries that a promotion published, for whatever reason. -/
def published : Event → Nat
  | promoted entries _ _ => entries
  | rebuilt _ _ => 0
  | cleared => 0

/-- The number of entries that a rebuild copied or left out. -/
def rebuiltFrom : Event → Nat
  | rebuilt copied expunged => copied + expunged
  | promoted _ _ _ => 0
  | cleared => 0

/-- The event ends what came before it: the staged table is gone and the misses are forgotten. -/
def Resets : Event → Prop
  | promoted _ _ _ => True
  | cleared => True
  | rebuilt _ _ => False

end Event

/-! ## Accounts -/

/-- What is entered into the account. -/
inductive Posting where
  /-- The call recorded a miss. -/
  | miss (id : CallId)
  /-- A call walked a table with so many entries. -/
  | walk (entries : Nat)
  /-- An event was logged. -/
  | event (e : Event)
  deriving DecidableEq

namespace Posting

/-- The call that recorded a miss. -/
def miss? : Posting → Option CallId
  | miss id => some id
  | walk _ => none
  | event _ => none

/-- The number of entries that were walked. -/
def walked : Posting → Nat
  | walk entries => entries
  | miss _ => 0
  | event _ => 0

def event? : Posting → Option Event
  | event e => some e
  | miss _ => none
  | walk _ => none

end Posting

/-- The postings of a run, the newest one first. -/
abbrev Account := List Posting

namespace Account

/-- The misses since the last promotion or reset. -/
def misses : Account → Nat
  | [] => 0
  | .miss _ :: rest => misses rest + 1
  | .walk _ :: rest => misses rest
  | .event (.rebuilt _ _) :: rest => misses rest
  | .event (.promoted _ _ _) :: _ => 0
  | .event .cleared :: _ => 0

/-- A table was walked since the last promotion or reset. -/
def spent : Account → Bool
  | [] => false
  | .miss _ :: rest => spent rest
  | .walk _ :: _ => true
  | .event (.rebuilt _ _) :: rest => spent rest
  | .event (.promoted _ _ _) :: _ => false
  | .event .cleared :: _ => false

/-- The entries of the last promotion, unless a walk or a reset came after it. -/
def credit : Account → Nat
  | [] => 0
  | .miss _ :: rest => credit rest
  | .walk _ :: _ => 0
  | .event (.rebuilt _ _) :: rest => credit rest
  | .event (.promoted entries _ _) :: _ => entries
  | .event .cleared :: _ => 0

/-- The posting is one that may come next. -/
def Fits (account : Account) : Posting → Prop
  | .miss id => .miss id ∉ account
  | .walk entries => spent account = false ∧ entries = credit account
  | .event (.rebuilt copied expunged) => ∃ rest, account = .walk (copied + expunged) :: rest
  | .event (.promoted entries count reason) => count = misses account ∧
      (reason = .misses → max 1 entries ≤ count)
  | .event .cleared => True

/-- Every posting was one that might come next. -/
def Audited : Account → Prop
  | [] => True
  | p :: rest => Fits rest p ∧ Audited rest

/-- The calls that recorded a miss. -/
def missed (account : Account) : List CallId := account.filterMap Posting.miss?

/-- The number of entries that were walked. -/
def walked (account : Account) : Nat := (account.map Posting.walked).sum

/-- The events that were logged. -/
def events (account : Account) : List Event := account.filterMap Posting.event?

@[simp] theorem missed_cons_miss (id : CallId) (account : Account) :
    missed (.miss id :: account) = id :: missed account := rfl

@[simp] theorem missed_cons_walk (entries : Nat) (account : Account) :
    missed (.walk entries :: account) = missed account := rfl

@[simp] theorem missed_cons_event (e : Event) (account : Account) :
    missed (.event e :: account) = missed account := rfl

@[simp] theorem walked_cons (p : Posting) (account : Account) :
    walked (p :: account) = p.walked + walked account := rfl

@[simp] theorem events_cons_miss (id : CallId) (account : Account) :
    events (.miss id :: account) = events account := rfl

@[simp] theorem events_cons_walk (entries : Nat) (account : Account) :
    events (.walk entries :: account) = events account := rfl

@[simp] theorem events_cons_event (e : Event) (account : Account) :
    events (.event e :: account) = e :: events account := rfl

theorem mem_missed {account : Account} {id : CallId} : id ∈ missed account ↔ .miss id ∈ account := by
  refine List.mem_filterMap.trans ⟨?_, fun h => ⟨_, h, rfl⟩⟩
  rintro ⟨p, hp, hid⟩
  cases p with
  | miss id' => exact Option.some.inj hid ▸ hp
  | walk entries => simp [Posting.miss?] at hid
  | event e => simp [Posting.miss?] at hid

/-- What an account is worth: rebuilds are paid for by promotions, and promotions by misses. -/
structure Amortised (account : Account) : Prop where
  /-- No call records two misses. -/
  once : account.missed.Nodup
  /-- Promotions for misses are paid for by the misses recorded. -/
  paid : (account.events.map Event.paid).sum ≤ account.missed.length
  /-- What rebuilds copied or left out is what they walked. -/
  rebuilt : (account.events.map Event.rebuiltFrom).sum ≤ account.walked
  /-- What was walked had been published. -/
  walked : account.walked ≤ (account.events.map Event.published).sum
  /-- No promotion is charged to misses that an earlier one was charged to. -/
  charged : ∀ later entries count (rest : Account),
    account = later ++ .event (.promoted entries count .misses) :: rest → entries ≤ rest.misses
  /-- No table is walked twice: between two walks comes a promotion or a reset. -/
  apart : ∀ later first between second rest,
    account = later ++ .walk first :: between ++ .walk second :: rest →
      ∃ e, .event e ∈ between ∧ e.Resets

namespace Audited

variable {account : Account}

/-- What was posted earlier was audited as well. -/
theorem of_append {later : Account} (h : Audited (later ++ account)) : Audited account := by
  induction later with
  | nil => exact h
  | cons p later ih => exact ih h.2

/-- No call has recorded two misses. -/
theorem nodup_missed (h : account.Audited) : account.missed.Nodup := by
  induction account with
  | nil => exact .nil
  | cons p rest ih =>
      obtain ⟨hfits, hrest⟩ := h
      cases p with
      | miss id => exact List.nodup_cons.2 ⟨fun hmem => hfits (mem_missed.1 hmem), ih hrest⟩
      | walk entries => exact ih hrest
      | event e => exact ih hrest

/-- The misses that no promotion has used up are to spare. -/
theorem paid_add_misses_le (h : account.Audited) :
    (account.events.map Event.paid).sum + account.misses ≤ account.missed.length := by
  -- By induction on the account, from the oldest posting on.
  induction account with
  | nil => exact Nat.le_refl _
  | cons p rest ih =>
      obtain ⟨hfits, hrest⟩ := h
      have hle := ih hrest
      cases p with
      | miss id =>
          simp only [events_cons_miss, missed_cons_miss, misses, List.length_cons]
          omega
      | walk entries => exact hle
      | event e =>
          cases e with
          | rebuilt copied expunged =>
              simpa [Event.paid, misses] using hle
          | cleared =>
              simp only [events_cons_event, missed_cons_event, misses, List.map_cons,
                List.sum_cons, Event.paid]
              omega
          -- A promotion for misses uses up as many as it published; one for a traversal uses up
          -- none.
          | promoted entries count reason =>
              obtain ⟨rfl, hpaid⟩ := hfits
              simp only [events_cons_event, missed_cons_event, misses, List.map_cons,
                List.sum_cons]
              cases reason with
              | traversal =>
                  simp only [Event.paid]
                  omega
              | misses =>
                  have hentries := hpaid rfl
                  simp only [Event.paid]
                  omega

/-- A promotion that was not walked is to spare. -/
theorem walked_add_credit_le (h : account.Audited) :
    account.walked + account.credit ≤ (account.events.map Event.published).sum := by
  induction account with
  | nil => exact Nat.le_refl _
  | cons p rest ih =>
      obtain ⟨hfits, hrest⟩ := h
      have hle := ih hrest
      cases p with
      | miss id => simpa [Posting.walked, credit] using hle
      -- A walk takes all of the credit, and there is no other before the next promotion.
      | walk entries =>
          obtain ⟨-, rfl⟩ := hfits
          simp only [walked_cons, Posting.walked, credit, events_cons_walk]
          omega
      | event e =>
          simp only [walked_cons, Posting.walked, events_cons_event, List.map_cons, List.sum_cons]
          cases e with
          | rebuilt copied expunged =>
              simp only [Event.published, credit]
              omega
          | cleared =>
              simp only [Event.published, credit]
              omega
          | promoted entries count reason =>
              simp only [Event.published, credit]
              omega

/-- A walk that was not logged as a rebuild is the last posting. -/
theorem rebuilt_le_walked (h : account.Audited) :
    (account.events.map Event.rebuiltFrom).sum ≤ account.walked ∧
      ∀ entries rest, account = .walk entries :: rest →
        (account.events.map Event.rebuiltFrom).sum + entries ≤ account.walked := by
  induction account with
  | nil => exact ⟨Nat.le_refl _, fun _ _ h => by simp at h⟩
  | cons p rest ih =>
      obtain ⟨hfits, hrest⟩ := h
      obtain ⟨hle, hlast⟩ := ih hrest
      cases p with
      | miss id => exact ⟨by simpa [Posting.walked] using hle, fun _ _ h => by simp at h⟩
      | walk entries =>
          simp only [walked_cons, Posting.walked, events_cons_walk, List.cons.injEq,
            Posting.walk.injEq]
          refine ⟨by omega, ?_⟩
          rintro n tail ⟨rfl, rfl⟩
          omega
      | event e =>
          simp only [walked_cons, Posting.walked, events_cons_event, List.map_cons, List.sum_cons]
          refine ⟨?_, fun _ _ h => by simp at h⟩
          cases e with
          -- A rebuild is logged right after its walk, and says how many entries that was.
          | rebuilt copied expunged =>
              obtain ⟨tail, htail⟩ := hfits
              have hwalk := hlast _ tail htail
              simp only [Event.rebuiltFrom]
              omega
          | cleared =>
              simp only [Event.rebuiltFrom]
              omega
          | promoted entries count reason =>
              simp only [Event.rebuiltFrom]
              omega

/-- Behind a walk, only a promotion or a reset gives new credit. -/
theorem exists_resets {between rest : Account} {entries : Nat}
    (hspent : spent (between ++ .walk entries :: rest) = false) :
    ∃ e, .event e ∈ between ∧ e.Resets := by
  induction between with
  | nil => simp [spent] at hspent
  | cons p between ih =>
      have hmore : spent (between ++ .walk entries :: rest) = false →
          ∃ e, .event e ∈ p :: between ∧ e.Resets := fun h => by
        obtain ⟨e, he, hresets⟩ := ih h
        exact ⟨e, List.mem_cons_of_mem p he, hresets⟩
      cases p with
      | miss id => exact hmore hspent
      | walk entries => simp [spent] at hspent
      | event e =>
          cases e with
          | rebuilt copied expunged => exact hmore hspent
          | cleared => exact ⟨_, List.mem_cons_self, trivial⟩
          | promoted entries count reason => exact ⟨_, List.mem_cons_self, trivial⟩

/-- An audited account is worth what it should be. -/
theorem amortised (h : account.Audited) : account.Amortised where
  once := h.nodup_missed
  paid := Nat.le_trans (Nat.le_add_right _ _) h.paid_add_misses_le
  rebuilt := h.rebuilt_le_walked.1
  walked := Nat.le_trans (Nat.le_add_right _ _) h.walked_add_credit_le
  charged later entries count rest heq := by
    subst heq
    obtain ⟨⟨rfl, hpaid⟩, -⟩ := h.of_append
    exact Nat.le_trans (Nat.le_max_right _ _) (hpaid rfl)
  apart later first between second rest heq := by
    rw [List.append_assoc] at heq
    subst heq
    obtain ⟨⟨hspent, -⟩, -⟩ := h.of_append
    exact exists_resets hspent

end Audited

end Account

end ConcurrentMap
