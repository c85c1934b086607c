import ConcurrentMap.Proofs.Custody.Cells

/-!
# Changes of the structure meet their expectations

Whoever takes the mutex finds the tables tidy and the account balanced (`Program.heeds_locked`), and
balances the account again before letting go. In between, nobody else changes the tables or the
account, so each change of the structure is a statement about `Scene.Custody`: which snapshot, which
staged table with which misses, and which account it leaves.
-/

namespace ConcurrentMap

variable {K V α β : Type}

/-! ## Balanced accounts -/

namespace Account.Balanced

variable {account : Account} {snapshot : Snapshot K} {staging : Staging K}

/-- At first the account is balanced. -/
theorem initial : Balanced (K := K) [] .empty .empty := ⟨rfl, rfl, fun _ => rfl⟩

/-- The staged keys do not matter. -/
theorem setStaged (h : account.Balanced snapshot staging) (table : Option (Table K)) :
    account.Balanced snapshot ⟨table, staging.misses⟩ := ⟨h.misses, h.spent, h.credit⟩

/-- One more miss is counted, and posted. -/
theorem miss (h : account.Balanced snapshot staging) (id : CallId) :
    Balanced (.miss id :: account) snapshot ⟨staging.table, staging.misses + 1⟩ :=
  ⟨congrArg (· + 1) h.misses, h.spent, h.credit⟩

/-- A promotion starts the account anew: no misses, and the size of the table as credit. -/
theorem promoted (table : Table K) (misses : Nat) (reason : PromotionReason)
    (account : Account) :
    Balanced (.event (.promoted table.size misses reason) :: account) (.ofTable table) .empty :=
  ⟨rfl, rfl, fun _ => rfl⟩

/-- After a clearing the account starts anew, without credit. -/
theorem cleared (account : Account) :
    Balanced (K := K) (.event .cleared :: account) .empty .empty :=
  ⟨rfl, rfl, fun _ => rfl⟩

/-- After a rebuild the last promotion is spent. -/
theorem rebuilt (h : account.Balanced snapshot staging) (entries copied expunged : Nat)
    (table : Option (Table K)) :
    Balanced (.event (.rebuilt copied expunged) :: .walk entries :: account) snapshot.markAmended
      ⟨table, staging.misses⟩ :=
  ⟨h.misses, rfl, fun h => by simp at h⟩

end Account.Balanced

variable [BEq K] {order : Enumeration K} {t : ThreadId} {role : Role K V} {σ : Scene K V}
  {snapshot snapshot' : Snapshot K} {staging staging' : Staging K} {account : Account}

omit [BEq K] in
/-- A step of the holder of the mutex. -/
theorem Scene.Custody.after (h : σ.Custody t snapshot staging account) {s : Shared K V}
    (posted : Account) (hholder : s.holder = σ.shared.holder) (hsnap : s.snapshot = snapshot')
    (hstag : s.staging = staging') :
    (σ.after posted s).Custody t snapshot' staging' (posted ++ account) :=
  ⟨hholder.trans h.holder, hsnap, hstag, congrArg (posted ++ ·) h.account⟩

namespace Program

/-- An event is logged that the account calls for. -/
theorem heeds_emit {e : Event} {g : Unit → Program K V β} {R : β → Scene K V → Prop}
    (hc : σ.Custody t snapshot staging account) (hfits : account.Fits (.event e))
    (hpermitted : (Action.emit e : Action K V).Permitted role)
    (h : ∀ σ₁ : Scene K V, σ₁.Custody t snapshot staging (.event e :: account) →
      (g ()).heeds order t role R σ₁) :
    ((Action.emit e).program >>= g).heeds order t role R σ := by
  intro σ₁ he
  have hc₁ := he.custody hc
  refine ⟨⟨trivial, hpermitted, fun _ => hc₁.holder, fun p hp => ?_, by simp⟩, fun r hr => ?_⟩
  · obtain rfl := List.mem_singleton.1 hp
    rwa [hc₁.account]
  · obtain rfl := Option.some.inj hr
    exact h _ (hc₁.after [.event e] rfl hc₁.snapshot hc₁.staging)

/-- The snapshot is replaced. -/
theorem heeds_publish {new : Snapshot K} {g : Unit → Program K V β} {R : β → Scene K V → Prop}
    (hc : σ.Custody t snapshot staging account)
    (h : ∀ σ₁ : Scene K V, σ₁.Custody t new staging account →
      (g ()).heeds order t role R σ₁) :
    ((Action.publish new).program >>= g).heeds order t role R σ :=
  heeds_effect (fun s => ((), s.publish new)) (fun _ => rfl)
    (fun _ _ => .of_postings trivial trivial rfl (by simp)) rfl fun _ he =>
      h _ ((he.custody hc).after [] rfl rfl (he.custody hc).staging)

/-- What was staged is dropped, with the misses. -/
theorem heeds_dropStaging {next : Unit → Program K V β} {R : β → Scene K V → Prop}
    (hc : σ.Custody t snapshot staging account)
    (h : ∀ σ₁ : Scene K V, σ₁.Custody t snapshot .empty account →
      (next ()).heeds order t role R σ₁) :
    ((Action.dropStaging : Action K V).program >>= next).heeds order t role R σ :=
  heeds_effect (fun s => ((), { s with staging := .empty })) (fun _ => rfl)
    (fun _ _ => .of_postings trivial trivial rfl (by simp)) rfl fun _ he =>
      h _ ((he.custody hc).after [] rfl (he.custody hc).snapshot rfl)

/-- A key is staged in a table that is there. -/
theorem heeds_stage {key : K} {c : CellId} {g : Unit → Program K V β}
    {R : β → Scene K V → Prop} (hc : σ.Custody t snapshot staging account)
    (hstaged : staging.table.isSome = true)
    (h : ∀ σ₁ : Scene K V, σ.Endures t role σ₁ →
      (σ₁.after [] (σ₁.shared.setStaged
        (some ((σ₁.shared.staging.table.getD .empty).insert key c)))).Custody t snapshot
          ⟨some ((staging.table.getD .empty).insert key c), staging.misses⟩ account →
      (g ()).heeds order t role R (σ₁.after [] (σ₁.shared.setStaged
        (some ((σ₁.shared.staging.table.getD .empty).insert key c))))) :
    ((Action.stage key c).program >>= g).heeds order t role R σ := by
  refine heeds_effect
    (fun s => ((), s.setStaged (some ((s.staging.table.getD .empty).insert key c))))
    (fun _ => rfl) (fun σ₁ he => .of_postings ?_ trivial rfl (by simp)) rfl fun σ₁ he => ?_
  · show σ₁.shared.staging.table.isSome = true
    rwa [(he.custody hc).staging]
  · have hc₁ := he.custody hc
    refine h σ₁ he (hc₁.after [] rfl hc₁.snapshot ?_)
    rw [Shared.setStaged, hc₁.staging]

/-- A call walks a table to rebuild from it. -/
theorem heeds_walk {table : Table K} {next : List (K × CellId) → Program K V β}
    {R : β → Scene K V → Prop} (hc : σ.Custody t snapshot staging account)
    (hrole : role.isSome = true) (hfits : account.Fits (.walk table.size))
    (h : ∀ (σ₁ : Scene K V) (entries : List (K × CellId)), entries.Perm table.entries →
      σ₁.Custody t snapshot staging (.walk table.size :: account) →
        (next entries).heeds order t role R σ₁) :
    ((Action.walk table : Action K V).program >>= next).heeds order t role R σ := by
  obtain ⟨⟨id, r⟩, rfl⟩ := Option.isSome_iff_exists.1 hrole
  intro σ₁ he
  have hc₁ := he.custody hc
  refine ⟨⟨trivial, trivial, fun _ => hc₁.holder, fun p hp => ?_, by simp⟩, fun x hx => ?_⟩
  · obtain rfl := List.mem_singleton.1 hp
    rwa [hc₁.account]
  · obtain rfl := Option.some.inj hx
    exact h _ _ (order.perm _ _) (hc₁.after [.walk table.size] rfl hc₁.snapshot hc₁.staging)

/-- What is staged is read to be promoted. -/
theorem heeds_readStaging {next : Staging K → Program K V β} {R : β → Scene K V → Prop}
    (hc : σ.Custody t snapshot staging account) (hstaged : staging.table.isSome = true)
    (h : ∀ σ₁ : Scene K V, σ₁.Custody t snapshot staging account →
      (next staging).heeds order t role R σ₁) :
    ((Action.readStaging : Action K V).program >>= next).heeds order t role R σ := by
  intro σ₁ he
  have hc₁ := he.custody hc
  obtain rfl := hc₁.staging
  refine ⟨.of_postings hstaged trivial rfl (by simp), fun r hr => ?_⟩
  obtain rfl := Option.some.inj hr
  exact h _ (hc₁.after [] rfl hc₁.snapshot rfl)

/-- Whoever takes the mutex finds the tables tidy and the account balanced. -/
theorem heeds_acquire {next : Unit → Program K V β} {R : β → Scene K V → Prop}
    (hfresh : σ.Fresh role)
    (h : ∀ σ₁ : Scene K V, σ₁.Entered t → σ₁.Fresh role →
      (next ()).heeds order t role R σ₁) :
    ((Action.acquire : Action K V).program >>= next).heeds order t role R σ := by
  intro σ₁ he
  refine ⟨.of_postings trivial trivial rfl (by simp), fun r hr => ?_⟩
  obtain ⟨hfree, rfl⟩ := Action.of_perform_acquire hr
  obtain ⟨htidy, hbal⟩ := he.valid.free hfree
  refine h _ ⟨⟨rfl, hbal⟩, ?_⟩ (he.along.fresh hfresh)
  exact htidy.congr rfl rfl (Nat.le_refl _) fun _ _ => rfl

/-- The account is balanced before the mutex is let go. -/
theorem heeds_release {next : Unit → Program K V β} {R : β → Scene K V → Prop}
    (hin : σ.Inside t)
    (h : ∀ σ₁ : Scene K V, (∀ held, σ.shown held → σ₁.shown held) →
      (next ()).heeds order t role R σ₁) :
    ((Action.release : Action K V).program >>= next).heeds order t role R σ := by
  intro σ₁ he
  have hin₁ := he.along.inside hin
  refine ⟨⟨trivial, trivial, fun h => absurd rfl h, fun p hp => absurd hp List.not_mem_nil,
    fun _ => hin₁.balanced⟩, fun r hr => ?_⟩
  exact h _ fun held hheld => .inl (he.along.shown held hheld)

/-- Under the mutex the tables are tidy and the account is balanced at first, and the account is
balanced again in the end. -/
theorem heeds_locked {body : Program K V α} {Q : α → Scene K V → Prop} (hfresh : σ.Fresh role)
    (hQ : ∀ x σ σ', Q x σ → (∀ held, σ.shown held → σ'.shown held) → Q x σ')
    (hbody : ∀ σ₁ : Scene K V, σ₁.Entered t → σ₁.Fresh role →
      body.heeds order t role (fun x σ' => Q x σ' ∧ σ'.Inside t) σ₁) :
    (Map.locked body).heeds order t role Q σ :=
  heeds_acquire hfresh fun σ₁ hin hfresh₁ =>
    heeds_bind (heeds_mono (hbody σ₁ hin hfresh₁) fun x σ₂ ⟨hQ₂, hin₂⟩ =>
      heeds_release hin₂ fun _ hshown => hQ x σ₂ _ hQ₂ hshown)

end Program

open Program

namespace Map

/-! ## Promotions -/

/-- A promotion takes what is staged, and only a traversal promotes for a reason other than
misses. -/
theorem heeds_promote {table : Table K} {misses : Nat} {reason : PromotionReason}
    (hc : σ.Custody t snapshot ⟨some table, misses⟩ account)
    (hfits : account.Fits (.event (.promoted table.size misses reason)))
    (hreason : reason = .traversal → role = none) :
    (promote reason).heeds order t role (fun _ σ' => σ'.Inside t) σ := by
  refine heeds_readStaging hc rfl fun σ₁ hc₁ => heeds_emit hc₁ hfits ?_ fun σ₂ hc₂ =>
    heeds_publish hc₂ fun σ₃ hc₃ => heeds_dropStaging hc₃ fun σ₄ hc₄ =>
      hc₄.inside (.promoted table misses reason _)
  cases reason with
  | misses => trivial
  | traversal => exact hreason rfl

/-- A call records its miss, and its miss may pay for a promotion. -/
theorem heeds_recordMiss (hin : σ.Inside t) (hstaged : σ.shared.staging.table.isSome = true)
    (hrole : role.isSome = true) (hfresh : σ.Fresh role) :
    (recordMiss : Program K V _).heeds order t role (fun _ σ' => σ'.Inside t) σ := by
  obtain ⟨⟨id, r⟩, rfl⟩ := Option.isSome_iff_exists.1 hrole
  intro σ₁ he
  have hin₁ := he.along.inside hin
  have hnew := he.along.fresh hfresh id r rfl
  have hstaged₁ : σ₁.shared.staging.table.isSome = true := by
    rwa [he.along.staging_eq hin.holder]
  obtain ⟨table, htable⟩ := Option.isSome_iff_exists.1 hstaged₁
  refine ⟨⟨trivial, rfl, fun _ => hin₁.holder, fun p hp => ?_, by simp⟩, fun x hx => ?_⟩
  · obtain rfl := List.mem_singleton.1 hp
    exact hnew
  · obtain rfl := Option.some.inj hx
    -- the miss is posted together with the step that counts it
    have hc : (σ₁.after [.miss id]
        (σ₁.shared.setMisses (σ₁.shared.staging.misses + 1))).Custody t σ₁.shared.snapshot
          ⟨some table, σ₁.shared.staging.misses + 1⟩ (.miss id :: σ₁.account) :=
      hin₁.custody.after [.miss id] rfl rfl
        (congrArg (fun x => (⟨x, σ₁.shared.staging.misses + 1⟩ : Staging K)) htable)
    have hbal := hin₁.balanced.miss id
    rw [htable] at hbal
    show Program.heeds order t _ (if decide _ = true then _ else _) _ _
    split
    · next hpaid =>
      -- the misses have reached the size of the staged table, which is what the account asks for
      refine heeds_bind (heeds_mono (heeds_promote hc ⟨hbal.misses, fun _ => ?_⟩ (by simp))
        fun _ _ h => h)
      have hsize : σ₁.shared.staging.size = table.size := by rw [Staging.size, htable]; rfl
      have hle := of_decide_eq_true hpaid
      omega
    · exact hc.inside hbal

/-! ## Tombstones -/

/-- A cell of the snapshot is not tombstoned afterwards, and nobody else buries it. -/
theorem heeds_readmitted (hin : σ.Entered t) {key given : K} {c : CellId}
    (hc : σ.shared.snapshot.find? key = some c) :
    ( readmit given c).heeds order t role (fun _ σ' => σ'.Inside t ∧
      σ'.shared.tombstoned c = false ∧ c < σ'.shared.cells.size) σ := by
  refine heeds_bind (heeds_readCell fun σ₁ he => ?_)
  have hin₁ := he.entered hin
  have hc₁ : σ₁.shared.snapshot.find? key = some c := by
    rwa [he.along.snapshot_eq hin.holder]
  cases htomb : σ₁.shared.tombstoned c with
  | false =>
      have hlive : (σ₁.shared.slot c).content.isTombstoned = false := htomb
      simp only [hlive, Bool.false_eq_true, if_false]
      exact ⟨hin₁.toInside.after_self, htomb, hin₁.tidy.bounded key c hc₁⟩
  | true =>
      have hdead : (σ₁.shared.slot c).content.isTombstoned = true := htomb
      have hlt := Shared.lt_of_tombstoned htomb
      obtain ⟨-, hstaged⟩ := hin₁.tidy.amended_of_tombstoned hc₁ htomb
      have hcust := hin₁.toInside.custody.after [] (s := σ₁.shared) rfl rfl rfl
      simp only [hdead, if_true]
      refine heeds_drawStamp fun σ₂ he₂ => ?_
      -- nobody touches a buried cell while this thread holds the mutex
      have hslot₂ : σ₂.shared.slot c = σ₁.shared.slot c := he₂.buried hcust.holder c htomb
      have hcust₂ := (he₂.custody hcust).after [] (s := σ₂.shared.drawStamp.2) rfl
        (he₂.custody hcust).snapshot (he₂.custody hcust).staging
      intro σ₃ he₃
      have hslot₃ : σ₃.shared.slot c = σ₁.shared.slot c := by
        refine (he₃.buried hcust₂.holder c ?_).trans hslot₂
        show (σ₂.shared.slot c).content.isTombstoned = true
        rw [hslot₂, hdead]
      have hlt₃ : c < σ₃.shared.cells.size :=
        Nat.lt_of_lt_of_le (Nat.lt_of_lt_of_le hlt he₂.along.size) he₃.along.size
      have hcust₃ := he₃.custody hcust₂
      refine ⟨.of_postings (congrArg Slot.stamp hslot₃) trivial rfl (by simp), fun r hr => ?_⟩
      obtain rfl := Option.some.inj hr
      simp only [Shared.compareExchange, hslot₃, if_true]
      have hcust₄ : (σ₃.after []
          (σ₃.shared.setSlot c ⟨σ₂.shared.drawStamp.1, .absent⟩)).Custody t _ _ _ :=
        hcust₃.after [] rfl hcust₃.snapshot hcust₃.staging
      refine heeds_stage (g := .done) hcust₄ hstaged fun σ₅ he₅ hcust₅ => ⟨?_, ?_, ?_⟩
      · exact hcust₅.inside (hin₁.balanced.setStaged _)
      · refine (he₅.tombstoned hcust₄.holder c).trans ?_
        exact Shared.tombstoned_setSlot_self hlt₃ _
      · refine Nat.lt_of_lt_of_le ?_ he₅.along.size
        exact Nat.lt_of_lt_of_eq hlt₃ (Shared.size_setSlot _ _ _).symm

/-! ## Rebuilding -/

section Rebuilding

variable [EquivBEq K]

/-- Each entry is copied or left out. -/
theorem heeds_copyLive {entries : List (K × CellId)} {copies : Table K} {n : Nat}
    (hkeeps : role.Keeps) (hnew : copies.Admits entries) (hc : σ.Custody t snapshot staging account) :
    (copyLive entries copies n).heeds order t role (fun x σ' =>
      x.1.size + x.2 = copies.size + n + entries.length ∧
        σ'.Custody t snapshot staging account) σ := by
  -- the induction is on the entries, and the sum of copies and burials is its invariant
  induction entries generalizing copies n σ with
  | nil => exact ⟨rfl, hc⟩
  | cons e entries ih =>
      obtain ⟨key, c⟩ := e
      refine heeds_bind (heeds_mono (heeds_along (Cell.heeds_bury hkeeps) (Cell.onCells_bury c))
        fun buried σ₁ ⟨_, hal⟩ => ?_)
      have hc₁ := hal.custody _ _ _ hc
      cases buried with
      | true =>
          refine heeds_mono (ih hnew.tail hc₁) fun x σ₂ ⟨hsum, hc₂⟩ => ⟨?_, hc₂⟩
          rw [hsum, List.length_cons]
          omega
      | false =>
          have hinsert : (copies.insert key c).size = copies.size + 1 := hnew.size_insert
          refine heeds_mono (ih hnew.insert hc₁) fun x σ₂ ⟨hsum, hc₂⟩ => ⟨?_, hc₂⟩
          rw [hsum, hinsert, List.length_cons]
          omega

/-- A table is staged afterwards. -/
theorem heeds_openStaging (hin : σ.Entered t) (hrole : role.isSome = true) (hkeeps : role.Keeps) :
    (openStaging σ.shared.snapshot).heeds order t role (fun _ σ' => σ'.Inside t ∧
      σ'.shared.staging.table.isSome = true) σ := by
  unfold openStaging
  cases ham : σ.shared.snapshot.amended with
  | true => exact ⟨hin.toInside, hin.tidy.phase.1.symm.trans ham⟩
  | false =>
      have hempty := hin.tidy.staging_eq_empty ham
      have hbal := hin.balanced
      have hc : σ.Custody t σ.shared.snapshot .empty σ.account :=
        ⟨hin.holder, rfl, hempty, rfl⟩
      simp only [Bool.false_eq_true, if_false]
      refine heeds_bind (heeds_read (·.staging.table.isSome) (fun _ => rfl)
        (fun σ₁ he => .of_postings ?_ trivial rfl (by simp)) rfl fun σ₁ he => ?_)
      -- a rebuild takes for granted that no table is staged, which the account of the snapshot says
      · show σ₁.shared.staging.table = none
        rw [(he.custody hc).staging]
        rfl
      · have hc₁ := (he.custody hc).after [] (s := σ₁.shared) rfl (he.custody hc).snapshot
          (he.custody hc).staging
        have hnone : σ₁.shared.staging.table.isSome = false := by
          rw [(he.custody hc).staging]
          rfl
        simp only [hnone, Bool.false_eq_true, if_false]
        refine heeds_walk hc₁ hrole ⟨hbal.spent.symm.trans ham, hbal.credit ham⟩
          fun σ₂ entries hperm hc₂ => ?_
        refine heeds_bind (heeds_mono (heeds_copyLive hkeeps (hin.tidy.keys.admits hperm) hc₂) ?_)
        rintro ⟨copies, buried⟩ σ₃ ⟨hsum, hc₃⟩
        -- each entry was copied or buried, so their number is that of the snapshot
        have hsize : copies.size + buried = σ.shared.snapshot.table.size := by
          rw [hsum, hperm.length_eq, Table.size_empty, Nat.zero_add]
          rfl
        refine heeds_emit hc₃ ⟨σ.account, by rw [hsize]; rfl⟩ trivial fun σ₄ hc₄ => ?_
        refine heeds_effect (fun s => ((), s.setStaged (some copies))) (fun _ => rfl)
          (fun _ _ => .of_postings trivial trivial rfl (by simp)) rfl fun σ₅ he₅ => ?_
        have hc₅ := he₅.custody hc₄
        have hc₆ : (σ₅.after [] (σ₅.shared.setStaged (some copies))).Custody t
            σ.shared.snapshot ⟨some copies, 0⟩ _ :=
          hc₅.after [] rfl hc₅.snapshot (by rw [Shared.setStaged, hc₅.staging]; rfl)
        -- the snapshot is amended from here on, and its credit is spent
        refine heeds_publish (g := .done) hc₆ fun σ₇ hc₇ => ⟨hc₇.inside ?_, ?_⟩
        · rw [hempty] at hbal
          exact hbal.rebuilt _ _ _ _
        · rw [hc₇.staging]
          rfl

/-- The new value is in a cell. -/
theorem heeds_stageNew (hin : σ.Entered t) (hrole : role.isSome = true) (hkeeps : role.Keeps)
    (key : K) (new : Handle V) :
    (stageNew σ.shared.snapshot key new).heeds order t role (fun _ σ' => σ'.Inside t ∧
      σ'.shown new) σ := by
  refine heeds_bind (heeds_mono (heeds_openStaging hin hrole hkeeps) fun _ σ₁ ⟨hin₁, hstaged⟩ => ?_)
  refine heeds_effect (fun s => s.addCell new.slot) (fun _ => rfl)
    (fun _ _ => .of_postings trivial trivial rfl (by simp)) rfl fun σ₂ he₂ => ?_
  have hin₂ := he₂.along.inside hin₁
  have hc₂ := (he₂.custody hin₁.custody).after [] (s := (σ₂.shared.addCell new.slot).2) rfl
    (he₂.custody hin₁.custody).snapshot (he₂.custody hin₁.custody).staging
  refine heeds_stage (g := .done) hc₂ hstaged fun σ₃ he₃ hc₃ => ⟨?_, ?_⟩
  · exact hc₃.inside (hin₁.balanced.setStaged _)
  · refine .inl (he₃.along.shown new (.inr ⟨σ₂.shared.cells.size, ?_⟩))
    rw [Shared.slot_addCell, if_pos rfl]

end Rebuilding

end Map

end ConcurrentMap
