import ConcurrentMap.Proofs.Custody.Crowds

/-!
# Misses pay for rebuilds

Each call that has to look for its key in the staged table records a miss, and as many misses as
there are staged keys pay for the promotion of that table. The promotion in turn pays for the
rebuild that walks the promoted table later on. `Crowd.run_amortised` adds this up over a whole run:
what the account says is what was logged, and it is amortised.

Traversals promote without misses. In a run without them, misses alone have paid for all that
rebuilds ever walked.
-/

namespace ConcurrentMap

variable {K V : Type}

/-- Without traversals, whatever was published was paid for. -/
theorem Account.published_eq_paid {account : Account}
    (h : ∀ entries misses, .event (.promoted entries misses .traversal) ∉ account) :
    account.events.map Event.published = account.events.map Event.paid := by
  refine List.map_congr_left fun e he => ?_
  obtain ⟨p, hp, hpe⟩ := List.mem_filterMap.1 he
  cases p with
  | miss id => simp [Posting.event?] at hpe
  | walk entries => simp [Posting.event?] at hpe
  | event e' =>
      obtain rfl := Option.some.inj hpe
      cases e' with
      | rebuilt copied expunged => rfl
      | cleared => rfl
      | promoted entries misses reason =>
          cases reason with
          | misses => rfl
          | traversal => exact absurd hp (h entries misses)

namespace Crowd

variable [BEq K] [BEq V]

/-- No traversal has begun unless somebody departed. -/
theorem begun_eq_zero (order : Enumeration K) {turns : List (Move K V)}
    (h : ∀ t, .depart t ∉ turns) : (run order turns).begun = 0 := by
  have hproceed : ∀ (S : Crowd K V) t x, (S.proceed t x).begun = S.begun := by
    intro S t x
    cases x with
    | call id p => simp only [proceed]; split <;> rfl
    | tour id p => simp only [proceed]; split <;> rfl
  induction turns using List.reverseRecOn with
  | nil => rfl
  | append_singleton turns m ih =>
      have hturns := ih fun t hmem => h t (List.mem_append_left _ hmem)
      rw [run_concat, ← hturns]
      cases m with
      | depart t => exact absurd (List.mem_append_right _ (List.mem_singleton_self _)) (h t)
      | invoke t r =>
          simp only [turn]
          split
          · rfl
          · exact hproceed _ _ _
      | resume t id goOn =>
          simp only [turn]
          split
          · exact hproceed _ _ _
          · rfl
      | step t =>
          simp only [turn]
          split
          · rfl
          · split
            · rfl
            · exact hproceed _ _ _

variable [EquivBEq K]

/-- Whatever the threads call and wherever they travel, and however their steps interleave: rebuilds
are paid for by promotions, and promotions by misses. -/
theorem run_amortised (order : Enumeration K) (turns : List (Move K V)) :
    (account order turns).events = (run order turns).shared.log ∧
      (account order turns).Amortised ∧
      (∀ id ∈ (account order turns).missed, id < (run order turns).made) ∧
      ((∀ t, .depart t ∉ turns) →
        (account order turns).walked ≤ (account order turns).missed.length) := by
  have h := run_heeded order turns
  have hamortised := h.audited.amortised
  refine ⟨h.logged, hamortised, fun id hmem => h.missed id (Account.mem_missed.1 hmem), ?_⟩
  intro hnone
  have hpublished := Account.published_eq_paid fun entries misses hmem =>
    Nat.ne_of_gt (h.promoted entries misses hmem) (begun_eq_zero order hnone)
  have hwalked := hamortised.walked
  rw [hpublished] at hwalked
  exact Nat.le_trans hwalked hamortised.paid

/-- A key is stored and looked up, and then another one is stored. -/
def lookedUp : List (Move Nat Nat) :=
  .invoke 0 (.store 1 10) :: List.replicate 14 (.step 0) ++
    .invoke 0 (.load 1) :: List.replicate 14 (.step 0) ++
    .invoke 0 (.store 2 20) :: List.replicate 20 (.step 0)

/-- One miss pays for the promotion of one key, and that for the rebuild when the next key comes. -/
theorem run_amortised_lookedUp :
    (run .insertion lookedUp).shared.log = [.rebuilt 1 0, .promoted 1 1 .misses, .rebuilt 0 0] ∧
      (account .insertion lookedUp).events = (run .insertion lookedUp).shared.log ∧
      (account .insertion lookedUp).Amortised ∧
      (account .insertion lookedUp).missed = [1] ∧ (account .insertion lookedUp).walked = 1 ∧
      (account .insertion lookedUp).walked ≤ (account .insertion lookedUp).missed.length := by
  obtain ⟨hlogged, hamortised, -, hwalked⟩ := run_amortised .insertion lookedUp
  refine ⟨by decide +kernel, hlogged, hamortised, by decide +kernel, by decide +kernel,
    hwalked ?_⟩
  simp [lookedUp]

end Crowd

end ConcurrentMap
