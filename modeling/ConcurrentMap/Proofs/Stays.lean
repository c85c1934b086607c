import ConcurrentMap.Proofs.Renaming
import Mathlib.Data.List.Nodup

/-!
# Visitors that keep to their key

A `Stay` is what a visitor does that asks the map only about the key it was called for. In a map
that nothing amends, it deals with the cell of that key alone: what it is told follows from what the
cell held when it began and from the stamps that are drawn for it (`Stay.spend`). So the visits of a
traversal, one after the other (`Visitor.round`), have to do with each other only in that each draws
its stamps after those of the ones before.

If two visits change places, so do their stamps (`Renaming.exchange`), and nothing else changes.
Hence whatever the order of the visits is, there is a renaming of the stamps drawn for them under
which the same is found at each key, and the same is left there (`Visitor.round_perm`).
-/

namespace ConcurrentMap

variable {K V : Type}

/-! ## Stamps that change places -/

/-- The `p` stamps from `n` on and the `q` stamps after them change places. -/
def Renaming.exchange (n p q : Nat) : Renaming where
  toFun x := if x < n then x else if x < n + p then x + q else if x < n + p + q then x - p else x
  invFun x := if x < n then x else if x < n + q then x + p else if x < n + q + p then x - q else x
  left_inv x := by grind
  right_inv x := by grind

namespace Renaming

theorem exchange_apply (n p q x : Nat) : exchange n p q x =
    if x < n then x else if x < n + p then x + q else if x < n + p + q then x - p else x := rfl

/-- A stamp drawn before the two groups stays where it is. -/
theorem exchange_of_lt {n x : Nat} (p q : Nat) (h : x < n) : exchange n p q x = x :=
  if_pos h

/-- A stamp of the first group moves behind the second one. -/
theorem exchange_first {n p i : Nat} (q : Nat) (h : i < p) :
    exchange n p q (n + i) = n + q + i := by
  rw [exchange_apply, if_neg (Nat.not_lt.2 (Nat.le_add_right n i)),
    if_pos (Nat.add_lt_add_left h n), Nat.add_right_comm]

/-- A stamp of the second group moves to the front. -/
theorem exchange_second {n q i : Nat} (p : Nat) (h : i < q) :
    exchange n p q (n + p + i) = n + i := by
  have hlow : ¬n + p + i < n + p := Nat.not_lt.2 (Nat.le_add_right _ i)
  have hlower : ¬n + p + i < n := fun hlt => hlow (Nat.lt_add_right p hlt)
  rw [exchange_apply, if_neg hlower, if_neg hlow, if_pos (Nat.add_lt_add_left h _),
    Nat.add_right_comm, Nat.add_sub_cancel]

/-- A stamp drawn after the two groups stays where it is. -/
theorem exchange_of_le {n p q x : Nat} (h : n + p + q ≤ x) : exchange n p q x = x := by
  rw [exchange_apply]
  grind

end Renaming

/-! ## Stays -/

/-- What a map shows of its structure. -/
structure Outline where
  size : Nat
  amended : Bool
  deriving Repr, DecidableEq

/-- What somebody learns from a request: the answer, and what the map shows afterwards. -/
structure Note (V : Type) where
  answer : Answer V
  outline : Outline

/-- What a visitor does at one key. -/
inductive Stay (K V : Type) where
  /-- Nothing is left to do. -/
  | leave
  /-- Make a request and go on from what comes of it. -/
  | request (r : Request K V) (next : Note V → Stay K V)

/-- A visitor that does the same whenever it is called for a key with a handle. -/
abbrev Visitor (K V : Type) := K → Handle V → Stay K V

/-- A key was visited with a handle, and these notes were made there. -/
structure Stop (K V : Type) where
  key : K
  held : Handle V
  notes : List (Note V)

/-- What comes of a stay: its notes, what the cell holds in the end, and how many stamps were
drawn. -/
structure Sojourn (V : Type) where
  notes : List (Note V)
  held : Option (Handle V)
  drawn : Nat

/-- What comes of some visits: the stops, what the cells hold in the end, and how many stamps were
drawn. -/
structure Round (K V : Type) where
  stops : List (Stop K V)
  contents : CellId → Option (Handle V)
  drawn : Nat

/-- How many stamps a request draws at a cell that held `held` before and holds `left` afterwards:
one for the value that it brings, and one if it takes a value away. -/
def Request.draws (r : Request K V) (held left : Option (Handle V)) : Nat :=
  (if r.value?.isSome then 1 else 0) + if held.isSome && left.isNone then 1 else 0

section Spend

variable [BEq V] (outline : Outline)

/-- A stay at a cell that holds `held`, in a map that shows `outline`. The next stamp is `n`. -/
def Stay.spend : Stay K V → Option (Handle V) → Stamp → Sojourn V
  | leave, held, _ => ⟨[], held, 0⟩
  | request r next, held, n =>
    let effect := r.effect n held
    let drawn := r.draws held effect.2
    let rest := (next ⟨effect.1, outline⟩).spend effect.2 (n + drawn)
    ⟨⟨effect.1, outline⟩ :: rest.notes, rest.held, drawn + rest.drawn⟩

/-- The visit of one entry, if its cell holds something. -/
def Visitor.call (visit : Visitor K V) (e : K × CellId) (contents : CellId → Option (Handle V))
    (n : Stamp) : Round K V :=
  match contents e.2 with
  | none => ⟨[], contents, 0⟩
  | some held =>
    let sojourn := (visit e.1 held).spend outline (some held) n
    ⟨[⟨e.1, held, sojourn.notes⟩], Function.update contents e.2 sojourn.held, sojourn.drawn⟩

/-- The visits of some entries, one after the other. -/
def Visitor.round (visit : Visitor K V) :
    List (K × CellId) → (CellId → Option (Handle V)) → Stamp → Round K V
  | [], contents, _ => ⟨[], contents, 0⟩
  | e :: rest, contents, n =>
    let first := visit.call outline e contents n
    let others := visit.round rest first.contents (n + first.drawn)
    ⟨first.stops ++ others.stops, others.contents, first.drawn + others.drawn⟩

end Spend

/-! ## Under other names -/

/-- The note with the new identities. -/
def Note.rename (ρ : Renaming) (note : Note V) : Note V := ⟨note.answer.rename ρ, note.outline⟩

/-- The stop with the new identities. -/
def Stop.rename (ρ : Renaming) (stop : Stop K V) : Stop K V :=
  ⟨stop.key, stop.held.rename ρ, stop.notes.map (Note.rename ρ)⟩

/-- The sojourn with the new identities. -/
def Sojourn.rename (ρ : Renaming) (x : Sojourn V) : Sojourn V :=
  ⟨x.notes.map (Note.rename ρ), x.held.map (Handle.rename ρ), x.drawn⟩

/-- The round with the new identities. -/
def Round.rename (ρ : Renaming) (x : Round K V) : Round K V :=
  ⟨x.stops.map (Stop.rename ρ), Option.map (Handle.rename ρ) ∘ x.contents, x.drawn⟩

/-- The stay that does under the new identities what this one does under the old ones. -/
def Stay.rename (ρ : Renaming) : Stay K V → Stay K V
  | leave => leave
  | request r next => request r fun note => (next (note.rename ρ.symm)).rename ρ

/-- The visitor that does under the new identities what this one does under the old ones. -/
def Visitor.rename (ρ : Renaming) (visit : Visitor K V) : Visitor K V :=
  fun key held => (visit key (held.rename ρ.symm)).rename ρ

@[simp] theorem Note.rename_symm (ρ : Renaming) (note : Note V) :
    (note.rename ρ).rename ρ.symm = note := by
  simp [rename]

@[simp] theorem Note.rename_refl (note : Note V) : note.rename (Equiv.refl Stamp) = note := by
  simp [rename]

@[simp] theorem Stop.rename_refl (stop : Stop K V) : stop.rename (Equiv.refl Stamp) = stop := by
  have hnotes : stop.notes.map (Note.rename (Equiv.refl Stamp)) = stop.notes :=
    List.map_id'' Note.rename_refl _
  rw [rename, hnotes, Handle.rename_refl]

/-- Two renamings of a note in a row are one. -/
theorem Note.rename_trans (ρ σ : Renaming) (note : Note V) :
    (note.rename ρ).rename σ = note.rename (ρ.trans σ) := by
  simp [rename, Answer.rename_trans]

theorem Note.rename_comp (ρ σ : Renaming) :
    Note.rename (V := V) σ ∘ Note.rename ρ = Note.rename (ρ.trans σ) :=
  funext fun note => note.rename_trans ρ σ

theorem Stop.rename_comp (ρ σ : Renaming) :
    Stop.rename (K := K) (V := V) σ ∘ Stop.rename ρ = Stop.rename (ρ.trans σ) := by
  funext stop
  simp only [Function.comp_apply, rename, List.map_map, Note.rename_comp]
  rfl

/-- Renaming the stops back gives what was there. -/
theorem Stop.rename_symm_comp (ρ : Renaming) :
    Stop.rename (K := K) (V := V) ρ.symm ∘ Stop.rename ρ = id := by
  rw [rename_comp, Equiv.self_trans_symm]
  exact funext rename_refl

section Rename

variable [BEq V] (outline : Outline) {ρ : Renaming}

/-- Under the new identities a stay finds what it found before, if the stamps that it drew before
are renamed to those that it draws now. -/
theorem Stay.spend_rename (stay : Stay K V) (held : Option (Handle V)) {n n' : Stamp}
    (h : ∀ i < (stay.spend outline held n).drawn, ρ (n + i) = n' + i) :
    (stay.rename ρ).spend outline (held.map (Handle.rename ρ)) n' =
      (stay.spend outline held n).rename ρ := by
  induction stay generalizing held n n' with
  | leave => rfl
  | request r next ih =>
      -- The request draws its stamps first, so what it brings gets a name that the renaming carries
      -- over.
      rw [spend] at h
      have heffect : r.effect n' (held.map (Handle.rename ρ)) =
          ((r.effect n held).1.rename ρ, (r.effect n held).2.map (Handle.rename ρ)) := by
        rw [← r.effect_rename ρ n held]
        cases hvalue : r.value? with
        | none => exact r.effect_of_value? hvalue _ _ _
        | some v =>
            have hdrawn : 0 < r.draws held (r.effect n held).2 := by
              rw [Request.draws, hvalue]
              exact Nat.lt_of_lt_of_le Nat.one_pos (Nat.le_add_right _ _)
            have hfirst := h 0 (Nat.lt_of_lt_of_le hdrawn (Nat.le_add_right _ _))
            rw [Nat.add_zero, Nat.add_zero] at hfirst
            rw [hfirst]
      have hdraws : r.draws (held.map (Handle.rename ρ))
          ((r.effect n held).2.map (Handle.rename ρ)) = r.draws held (r.effect n held).2 := by
        simp [Request.draws]
      have hnote : (⟨(r.effect n held).1.rename ρ, outline⟩ : Note V) =
        Note.rename ρ ⟨(r.effect n held).1, outline⟩ := rfl
      simp only [rename, spend, heffect, hdraws, hnote, Note.rename_symm]
      rw [ih _ (n := n + r.draws held (r.effect n held).2) _ fun i hi => ?_]
      · rfl
      -- The stamps of what follows come behind those of the request.
      · have hlater := h (r.draws held (r.effect n held).2 + i) (Nat.add_lt_add_left hi _)
        rwa [← Nat.add_assoc, ← Nat.add_assoc] at hlater

variable {visit : Visitor K V} (contents : CellId → Option (Handle V)) (n n' : Stamp)

/-- Under the new identities a visit finds what it found before, if its stamps are renamed
accordingly. -/
theorem Visitor.call_rename (e : K × CellId)
    (h : ∀ i < (visit.call outline e contents n).drawn, ρ (n + i) = n' + i) :
    (visit.rename ρ).call outline e (Option.map (Handle.rename ρ) ∘ contents) n' =
      (visit.call outline e contents n).rename ρ := by
  unfold call at h ⊢
  cases hc : contents e.2 with
  | none => simp [hc, Round.rename]
  | some held =>
      simp only [hc] at h
      have hspend := (visit e.1 held).spend_rename outline (some held) h
      simp only [Function.comp_apply, hc, Option.map_some, rename, Handle.rename_symm]
      rw [Option.map_some] at hspend
      rw [hspend, Round.rename, Function.comp_update]
      rfl

/-- Under the new identities the visits find what they found before, if their stamps are renamed
accordingly. -/
theorem Visitor.round_rename (entries : List (K × CellId))
    (h : ∀ i < (visit.round outline entries contents n).drawn, ρ (n + i) = n' + i) :
    (visit.rename ρ).round outline entries (Option.map (Handle.rename ρ) ∘ contents) n' =
      (visit.round outline entries contents n).rename ρ := by
  induction entries generalizing contents n n' with
  | nil => rfl
  | cons e entries ih =>
      rw [round] at h
      have hcall := visit.call_rename outline contents n n' e
        fun i hi => h i (Nat.lt_add_right _ hi)
      have hround := ih (visit.call outline e contents n).contents
        (n + (visit.call outline e contents n).drawn)
        (n' + (visit.call outline e contents n).drawn) fun i hi => by
          have hlater := h ((visit.call outline e contents n).drawn + i) (Nat.add_lt_add_left hi _)
          rwa [← Nat.add_assoc, ← Nat.add_assoc] at hlater
      simp only [round, hcall]
      simp only [Round.rename] at hround ⊢
      rw [hround]
      simp

end Rename

/-! ## Known names -/

/-- The renaming keeps what was drawn before `n`. -/
def Renaming.Keeps (ρ : Renaming) (n : Stamp) : Prop := ∀ x < n, ρ x = x

/-- The identities were drawn before `n`. -/
def Handle.Below (n : Stamp) (held : Handle V) : Prop := held.stamp < n

/-- The identity in the answer, if there is one, was drawn before `n`. -/
def Answer.Below (n : Stamp) (answer : Answer V) : Prop :=
  ∀ held, answer.handle? = some held → held.Below n

/-- The identities in the stop were drawn before `n`. -/
structure Stop.Below (n : Stamp) (stop : Stop K V) : Prop where
  held : stop.held.Below n
  notes : ∀ note ∈ stop.notes, note.answer.Below n

/-- The visitor treats all identities alike that are not drawn before `n`. -/
def Visitor.Knows (n : Stamp) (visit : Visitor K V) : Prop :=
  ∀ ρ : Renaming, ρ.Keeps n → visit.rename ρ = visit

section Below

variable {ρ σ : Renaming} {m n : Stamp}

theorem Renaming.Keeps.mono (h : ρ.Keeps n) (hmn : m ≤ n) : ρ.Keeps m :=
  fun x hx => h x (Nat.lt_of_lt_of_le hx hmn)

/-- A visitor that treats alike what is drawn from `m` on does so for what is drawn later. -/
theorem Visitor.Knows.mono {visit : Visitor K V} (h : visit.Knows m) (hmn : m ≤ n) :
    visit.Knows n :=
  fun ρ hρ => h ρ (hρ.mono hmn)

theorem Handle.Below.mono {held : Handle V} (h : held.Below m) (hmn : m ≤ n) : held.Below n :=
  Nat.lt_of_lt_of_le h hmn

theorem Answer.Below.mono {answer : Answer V} (h : answer.Below m) (hmn : m ≤ n) :
    answer.Below n :=
  fun held hheld => (h held hheld).mono hmn

theorem Stop.Below.mono {stop : Stop K V} (h : stop.Below m) (hmn : m ≤ n) : stop.Below n :=
  ⟨h.held.mono hmn, fun note hnote => (h.notes note hnote).mono hmn⟩

/-- Renamings that agree on what was drawn before do the same. -/
theorem Handle.Below.rename_eq {held : Handle V} (h : held.Below n)
    (hagree : ∀ x < n, ρ x = σ x) : held.rename ρ = held.rename σ := by
  rw [rename, rename, hagree _ h]

/-- Renamings that agree on what was drawn before give the answer the same identities. -/
theorem Answer.Below.rename_eq {answer : Answer V} (h : answer.Below n)
    (hagree : ∀ x < n, ρ x = σ x) : answer.rename ρ = answer.rename σ := by
  cases answer with
  | finished => rfl
  | decided changed => rfl
  | settled held loaded =>
      rw [rename, rename, (h held rfl).rename_eq hagree]
  | found held =>
      cases held with
      | none => rfl
      | some held =>
          rw [rename, rename, Option.map_some, Option.map_some, (h held rfl).rename_eq hagree]

/-- Renamings that agree on what was drawn before give the stop the same identities. -/
theorem Stop.Below.rename_eq {stop : Stop K V} (h : stop.Below n)
    (hagree : ∀ x < n, ρ x = σ x) : stop.rename ρ = stop.rename σ := by
  have hnotes : stop.notes.map (Note.rename ρ) = stop.notes.map (Note.rename σ) :=
    List.map_congr_left fun note hnote => by
      rw [Note.rename, Note.rename, (h.notes note hnote).rename_eq hagree]
  rw [rename, rename, h.held.rename_eq hagree, hnotes]

/-- A renaming that keeps what was drawn before keeps such a stop. -/
theorem Stop.Below.rename_eq_self {stop : Stop K V} (h : stop.Below n) (hρ : ρ.Keeps n) :
    stop.rename ρ = stop :=
  (h.rename_eq (σ := .refl _) hρ).trans stop.rename_refl

variable [BEq V] (outline : Outline) {visit : Visitor K V} {contents : CellId → Option (Handle V)}

/-- What a stay finds and leaves behind was known before, or was drawn for it. -/
theorem Stay.below_spend (stay : Stay K V) {held : Option (Handle V)}
    (hheld : ∀ h, held = some h → h.Below n) :
    (∀ note ∈ (stay.spend outline held n).notes,
      note.answer.Below (n + (stay.spend outline held n).drawn)) ∧
    ∀ h, (stay.spend outline held n).held = some h →
      h.Below (n + (stay.spend outline held n).drawn) := by
  induction stay generalizing held n with
  | leave => exact ⟨fun note hnote => absurd hnote List.not_mem_nil, hheld⟩
  | request r next ih =>
      rw [spend]
      generalize hdrawn : r.draws held (r.effect n held).2 = drawn
      -- What is answered and what is left was held before, or the request has just brought it.
      have horigin : ∀ h : Handle V, (r.effect n held).1.handle? = some h ∨
          (r.effect n held).2 = some h → h.Below (n + drawn) := fun h hh => by
        rcases Request.origin_effect hh with hold | ⟨hvalue, hstamp⟩
        · exact (hheld h hold).mono (Nat.le_add_right n drawn)
        · have hpos : 0 < drawn := by
            rw [← hdrawn, Request.draws, hvalue, Option.isSome_some, if_pos rfl]
            omega
          exact hstamp ▸ Nat.lt_add_of_pos_right hpos
      obtain ⟨hnotes, hleft⟩ := ih ⟨(r.effect n held).1, outline⟩ fun h hh => horigin h (.inr hh)
      dsimp only
      rw [← Nat.add_assoc]
      refine ⟨fun note hnote => ?_, hleft⟩
      rcases List.mem_cons.1 hnote with rfl | hnote
      · exact fun h hh => (horigin h (.inl hh)).mono (Nat.le_add_right _ _)
      · exact hnotes note hnote

/-- What a visit finds and leaves behind was known before, or was drawn for it. -/
theorem Visitor.below_call (hcontents : ∀ c h, contents c = some h → h.Below n)
    (e : K × CellId) :
    (∀ stop ∈ (visit.call outline e contents n).stops,
      stop.Below (n + (visit.call outline e contents n).drawn)) ∧
    ∀ c h, (visit.call outline e contents n).contents c = some h →
      h.Below (n + (visit.call outline e contents n).drawn) := by
  unfold call
  cases hc : contents e.2 with
  | none => exact ⟨fun stop hstop => absurd hstop List.not_mem_nil, hcontents⟩
  | some held =>
      have hheld : ∀ h, some held = some h → h.Below n := fun h hh => hcontents e.2 h (hc.trans hh)
      obtain ⟨hnotes, hleft⟩ := (visit e.1 held).below_spend outline hheld
      refine ⟨fun stop hstop => ?_, fun c h hh => ?_⟩
      · obtain rfl := List.mem_singleton.1 hstop
        exact ⟨(hheld held rfl).mono (Nat.le_add_right _ _), hnotes⟩
      · by_cases hce : c = e.2
        · subst hce
          exact hleft h (by simpa using hh)
        · refine (hcontents c h ?_).mono (Nat.le_add_right _ _)
          simpa [hce] using hh

/-- What the visits find was known before, or was drawn for one of them. -/
theorem Visitor.below_round (hcontents : ∀ c h, contents c = some h → h.Below n)
    (entries : List (K × CellId)) :
    ∀ stop ∈ (visit.round outline entries contents n).stops,
      stop.Below (n + (visit.round outline entries contents n).drawn) := by
  induction entries generalizing contents n with
  | nil => exact fun stop hstop => absurd hstop List.not_mem_nil
  | cons e entries ih =>
      obtain ⟨hstops, hleft⟩ := visit.below_call outline hcontents e
      rw [round]
      dsimp only
      rw [← Nat.add_assoc]
      intro stop hstop
      rcases List.mem_append.1 hstop with hstop | hstop
      · exact (hstops stop hstop).mono (Nat.le_add_right _ _)
      · exact ih hleft stop hstop

end Below

/-! ## In another order -/

section Order

variable [BEq V] (outline : Outline) {visit : Visitor K V}
  {contents contents' : CellId → Option (Handle V)} {n : Stamp}

/-- A visit leaves the other cells alone. -/
theorem Visitor.call_contents_ne (contents : CellId → Option (Handle V)) (n : Stamp)
    {e : K × CellId} {c : CellId} (hc : c ≠ e.2) :
    (visit.call outline e contents n).contents c = contents c := by
  unfold call
  split
  · rfl
  · exact Function.update_of_ne hc _ _

/-- It looks at its own cell alone. -/
theorem Visitor.call_congr {e : K × CellId} (h : contents' e.2 = contents e.2) :
    (visit.call outline e contents' n).stops = (visit.call outline e contents n).stops ∧
      (visit.call outline e contents' n).drawn = (visit.call outline e contents n).drawn ∧
      (visit.call outline e contents' n).contents e.2 =
        (visit.call outline e contents n).contents e.2 := by
  unfold call
  rw [h]
  cases hc : contents e.2 with
  | none => exact ⟨rfl, rfl, h⟩
  | some held => simp

omit [BEq V] in
/-- Renamings that only concern stamps drawn from `n` on do not concern what is held before. -/
theorem rename_contents {ρ : Renaming} (hρ : ρ.Keeps n)
    (hcontents : ∀ c h, contents c = some h → h.Below n) :
    Option.map (Handle.rename ρ) ∘ contents = contents := by
  funext c
  cases hc : contents c with
  | none => simp [hc]
  | some h =>
      rw [Function.comp_apply, hc, Option.map_some, (hcontents c h hc).rename_eq (σ := .refl _) hρ]
      rfl

/-- Two visits change places. -/
theorem Visitor.call_comm {x y : K × CellId} (hne : x.2 ≠ y.2) (hvisit : visit.Knows n)
    (hcontents : ∀ c h, contents c = some h → h.Below n) :
    let a := visit.call outline x contents n
    let b := visit.call outline y a.contents (n + a.drawn)
    let b' := visit.call outline y contents n
    let a' := visit.call outline x b'.contents (n + b'.drawn)
    let τ := Renaming.exchange n a.drawn b.drawn
    b'.stops = b.stops.map (Stop.rename τ) ∧ a'.stops = a.stops.map (Stop.rename τ) ∧
      a'.contents = Option.map (Handle.rename τ) ∘ b.contents ∧
      b'.drawn + a'.drawn = a.drawn + b.drawn := by
  intro a b b' a' τ
  have hkeeps : τ.Keeps n := fun z hz => Renaming.exchange_of_lt _ _ hz
  have hvisit' : visit.rename τ = visit := hvisit τ hkeeps
  have hcontents' := rename_contents hkeeps hcontents
  -- the visit of `y`, first among the others, and then first of the two
  obtain ⟨hbstops, hbdrawn, hbheld⟩ := visit.call_congr outline (n := n + a.drawn)
    (visit.call_contents_ne outline contents n hne.symm)
  have hb' : b' = (visit.call outline y contents (n + a.drawn)).rename τ := by
    rw [← visit.call_rename outline contents _ n y fun i hi => ?_, hvisit', hcontents']
    exact Renaming.exchange_second _ (hbdrawn ▸ hi)
  have hb'drawn : b'.drawn = b.drawn := by rw [hb']; exact hbdrawn.symm
  obtain ⟨hastops, hadrawn, haheld⟩ := visit.call_congr outline (n := n + b'.drawn)
    (visit.call_contents_ne outline contents n hne)
  have ha' : visit.call outline x contents (n + b'.drawn) = a.rename τ := by
    rw [← visit.call_rename outline contents _ (n + b'.drawn) x fun i hi => ?_, hvisit', hcontents']
    rw [hb'drawn]
    exact Renaming.exchange_first _ hi
  refine ⟨?_, ?_, ?_, ?_⟩
  · rw [hb', hbstops]
    rfl
  · exact hastops.trans (by rw [ha']; rfl)
  · funext c
    rw [Function.comp_apply]
    by_cases hx : c = x.2
    · subst hx
      rw [haheld, ha', visit.call_contents_ne outline _ _ hne]
      rfl
    · rw [visit.call_contents_ne outline _ _ hx]
      by_cases hy : c = y.2
      · subst hy
        rw [hb', hbheld]
        rfl
      · rw [visit.call_contents_ne outline _ _ hy, visit.call_contents_ne outline _ _ hy,
          visit.call_contents_ne outline _ _ hx]
        exact congrFun hcontents'.symm c
  · have ha'drawn : a'.drawn = a.drawn := by
      rw [hadrawn, ha']
      rfl
    rw [ha'drawn, hb'drawn, Nat.add_comm]

/-- Of the stamps drawn from `n` on there is a renaming under which the second round finds at each
key what the first one does, and leaves the same there. -/
def Round.Alike (n : Stamp) (a b : Round K V) : Prop :=
  ∃ τ : Renaming, τ.Keeps n ∧ (∀ x, n + a.drawn ≤ x → τ x = x) ∧
    b.stops.Perm (a.stops.map (Stop.rename τ)) ∧
    b.contents = Option.map (Handle.rename τ) ∘ a.contents ∧ b.drawn = a.drawn

omit [BEq V] in
/-- Renamings of stamps drawn from `n` on may be composed. -/
theorem Round.Alike.trans {a b c : Round K V} (h : a.Alike n b) (h' : b.Alike n c) :
    a.Alike n c := by
  obtain ⟨τ, hkeeps, hlate, hstops, hsame, hdrawn⟩ := h
  obtain ⟨τ', hkeeps', hlate', hstops', hsame', hdrawn'⟩ := h'
  refine ⟨τ.trans τ', fun x hx => ?_, fun x hx => ?_, hstops'.trans ?_, ?_, hdrawn'.trans hdrawn⟩
  · rw [Equiv.trans_apply, hkeeps x hx, hkeeps' x hx]
  · rw [Equiv.trans_apply, hlate x hx, hlate' x (hdrawn ▸ hx)]
  · have hmap := hstops.map (Stop.rename τ')
    rwa [List.map_map, Stop.rename_comp] at hmap
  · rw [hsame', hsame, ← Function.comp_assoc, Option.map_comp_map, Handle.rename_comp]

/-- The first visit is the same, whatever comes after it. -/
theorem Visitor.alike_cons {e : K × CellId} {entries entries' : List (K × CellId)}
    (hcontents : ∀ c h, contents c = some h → h.Below n)
    (h : (visit.round outline entries (visit.call outline e contents n).contents
        (n + (visit.call outline e contents n).drawn)).Alike
      (n + (visit.call outline e contents n).drawn)
      (visit.round outline entries' (visit.call outline e contents n).contents
        (n + (visit.call outline e contents n).drawn))) :
    (visit.round outline (e :: entries) contents n).Alike n
      (visit.round outline (e :: entries') contents n) := by
  obtain ⟨τ, hkeeps, hlate, hstops, hsame, hdrawn⟩ := h
  have hfirst : (visit.call outline e contents n).stops.map (Stop.rename τ) =
      (visit.call outline e contents n).stops :=
    (List.map_congr_left (g := id) fun stop hstop =>
      ((visit.below_call outline hcontents e).1 stop hstop).rename_eq_self hkeeps).trans
      (List.map_id _)
  refine ⟨τ, hkeeps.mono (Nat.le_add_right n _), fun x hx => hlate x ?_, ?_, hsame, ?_⟩
  · rwa [round, ← Nat.add_assoc] at hx
  · rw [round, round, List.map_append, hfirst]
    exact hstops.append_left _
  · rw [round, round, hdrawn]

/-- The first two visits change places. -/
theorem Visitor.alike_swap {x y : K × CellId} (hne : x.2 ≠ y.2) (hvisit : visit.Knows n)
    (hcontents : ∀ c h, contents c = some h → h.Below n) (l : List (K × CellId)) :
    (visit.round outline (x :: y :: l) contents n).Alike n
      (visit.round outline (y :: x :: l) contents n) := by
  obtain ⟨hy, hx, hsame, hdrawn⟩ := visit.call_comm outline hne hvisit hcontents
  simp only [round]
  -- The two visits are `a` and `b` in one order and `b'` and `a'` in the other.
  generalize visit.call outline x contents n = a at hx hy hsame hdrawn ⊢
  generalize visit.call outline y a.contents (n + a.drawn) = b at hx hy hsame hdrawn ⊢
  generalize visit.call outline y contents n = b' at hx hy hsame hdrawn ⊢
  generalize visit.call outline x b'.contents (n + b'.drawn) = a' at hx hy hsame hdrawn ⊢
  have hkeeps : (Renaming.exchange n a.drawn b.drawn).Keeps n :=
    fun z hz => Renaming.exchange_of_lt _ _ hz
  -- Behind the two groups of stamps nothing moves, so the other visits are the same.
  have hlater : ∀ i, Renaming.exchange n a.drawn b.drawn (n + a.drawn + b.drawn + i) =
      n + b'.drawn + a'.drawn + i := fun i => by
    rw [Nat.add_assoc n b'.drawn, hdrawn, ← Nat.add_assoc]
    exact Renaming.exchange_of_le (Nat.le_add_right _ i)
  have hrest := visit.round_rename outline b.contents (n + a.drawn + b.drawn)
    (n + b'.drawn + a'.drawn) l fun i _ => hlater i
  rw [hvisit _ hkeeps, ← hsame] at hrest
  rw [hrest, hx, hy]
  refine ⟨_, hkeeps, fun z hz => Renaming.exchange_of_le ?_, ?_, rfl, ?_⟩
  · rw [← Nat.add_assoc, ← Nat.add_assoc] at hz
    exact Nat.le_trans (Nat.le_add_right _ _) hz
  · simp only [Round.rename, List.map_append, ← List.append_assoc]
    exact List.perm_append_comm.append_right _
  · exact (Nat.add_assoc _ _ _).symm.trans ((congrArg (· + _) hdrawn).trans (Nat.add_assoc _ _ _))

/-- Whatever the order of the visits is, the same is found and left at each key. -/
theorem Visitor.round_perm {entries entries' : List (K × CellId)} (hperm : entries.Perm entries')
    (hcells : (entries.map Prod.snd).Nodup) (hvisit : visit.Knows n)
    (hcontents : ∀ c h, contents c = some h → h.Below n) :
    (visit.round outline entries contents n).Alike n
      (visit.round outline entries' contents n) := by
  induction hperm generalizing contents n with
  | nil =>
      refine ⟨.refl _, fun _ _ => rfl, fun _ _ => rfl, .refl _, ?_, rfl⟩
      exact (rename_contents (n := n) (ρ := .refl _) (fun _ _ => rfl) hcontents).symm
  | @cons e l l' hperm ih =>
      exact visit.alike_cons outline hcontents (ih (List.nodup_cons.1 hcells).2
        (hvisit.mono (Nat.le_add_right n _)) (visit.below_call outline hcontents e).2)
  | swap y x l =>
      have hne : x.2 ≠ y.2 := fun heq => (List.nodup_cons.1 hcells).1 (by simp [heq])
      exact visit.alike_swap outline hne hvisit hcontents l
  | @trans l₁ l₂ l₃ hperm hperm' ih ih' =>
      exact (ih hcells hvisit hcontents).trans
        (ih' ((hperm.map Prod.snd).nodup_iff.1 hcells) hvisit hcontents)

end Order

end ConcurrentMap
