import ConcurrentMap.Proofs.Alignment
import ConcurrentMap.Proofs.Stays
import Mathlib.Data.Multiset.MapFold

/-!
# Agendas

An agenda is what a client does that asks for one key after the other, stores and clears, and
traverses the map with visitors that keep to the key they are called for. After each step it looks
at what the map shows of its structure, and it decides upon the next one by all that it has learned:
from a traversal this is what was found at which key, but not in which order.

`Agenda.program` is the program of an agenda. Its visits are those of `Visitor.round`
(`Visitor.run_visits`), for a request of a visitor works on the cell of its key alone.
-/

namespace ConcurrentMap

variable {K V : Type}

/-- What somebody learns from a step of an agenda. -/
inductive Notice (K V : Type) where
  /-- A request was answered. -/
  | answered (note : Note V)
  /-- Values were stored. -/
  | extended (outline : Outline)
  /-- The map was traversed, with these stops. -/
  | traversed (stops : Multiset (Stop K V)) (outline : Outline)

/-- What a client does. -/
inductive Agenda (K V : Type) where
  /-- Nothing is left to do. -/
  | stop
  /-- Make a request and go on from what comes of it. -/
  | request (r : Request K V) (next : Note V → Agenda K V)
  /-- Store the given values one after the other. -/
  | extend (pairs : List (K × V)) (next : Outline → Agenda K V)
  /-- Visit every key that holds a value, and go on from what was found there. -/
  | traverse (visit : Visitor K V) (next : Multiset (Stop K V) → Outline → Agenda K V)

/-- What a map shows. -/
def Shared.outline (s : Shared K V) : Outline := ⟨s.snapshot.size, s.snapshot.amended⟩

/-! ## Programs -/

/-- Look at what the map shows. -/
def Map.outline : Program K V Outline := do
  let snapshot ← Action.readSnapshot.program
  return ⟨snapshot.size, snapshot.amended⟩

section Program

variable [BEq K] [BEq V]

/-- The program of a stay. -/
def Stay.program : Stay K V → Program K V (List (Note V))
  | leave => return []
  | request r next => do
    let answer ← r.program
    let outline ← Map.outline
    let rest ← (next ⟨answer, outline⟩).program
    return ⟨answer, outline⟩ :: rest

/-- The program of the visits to some entries. -/
def Visitor.visits (visit : Visitor K V) (entries : List (K × CellId))
    (stops : List (Stop K V)) : Program K V (List (Stop K V)) :=
  Map.visitEach (fun p => p) (fun key held stops => do
    let notes ← (visit key held).program
    return .yield (stops ++ [⟨key, held, notes⟩])) entries stops

/-- The program of an agenda. -/
def Agenda.program : Agenda K V → Program K V (List (Notice K V))
  | stop => return []
  | request r next => do
    let answer ← r.program
    let outline ← Map.outline
    let rest ← (next ⟨answer, outline⟩).program
    return .answered ⟨answer, outline⟩ :: rest
  | extend pairs next => do
    Map.extend pairs
    let outline ← Map.outline
    let rest ← (next outline).program
    return .extended outline :: rest
  | traverse visit next => do
    let stops : List (Stop K V) ← Map.traverse (fun p => p) (fun key held stops => do
      let notes ← (visit key held).program
      return .yield (stops ++ [⟨key, held, notes⟩])) []
    let outline ← Map.outline
    let rest ← (next stops outline).program
    return .traversed stops outline :: rest

/-- The program of a traversal: fix what is visited, visit it, look at the map, and go on. -/
theorem Agenda.program_traverse (visit : Visitor K V)
    (next : Multiset (Stop K V) → Outline → Agenda K V) :
    (traverse visit next).program = Map.itinerary >>= fun entries =>
      visit.visits entries [] >>= fun stops => Map.outline >>= fun outline =>
        (next stops outline).program >>= fun rest => .done (.traversed stops outline :: rest) :=
  Program.bind_assoc _ _ _

/-- The first entry is visited if its cell holds something, and passed over if not. -/
theorem Visitor.visits_cons (visit : Visitor K V) (key : K) (c : CellId)
    (rest : List (K × CellId)) (stops : List (Stop K V)) :
    visit.visits ((key, c) :: rest) stops = Cell.load c >>= fun
      | none => visit.visits rest stops
      | some held => (visit key held).program >>= fun notes =>
          visit.visits rest (stops ++ [⟨key, held, notes⟩]) := by
  refine congrArg (Cell.load c >>= ·) (funext fun found => ?_)
  cases found with
  | none => rfl
  | some held => exact Program.bind_assoc _ _ _

end Program

/-! ## Visitors that keep to their keys -/

/-- All requests of the stay are about `key`. -/
def Stay.KeepsTo [BEq K] (key : K) : Stay K V → Prop
  | leave => True
  | request r next =>
    (∃ own, r.key? = some own ∧ (own == key) = true) ∧ ∀ note, (next note).KeepsTo key

/-- All visitors keep to the keys that they are called for. -/
def Agenda.Local [BEq K] : Agenda K V → Prop
  | stop => True
  | request _ next => ∀ note, (next note).Local
  | extend _ next => ∀ outline, (next outline).Local
  | traverse visit next =>
    (∀ key held, (visit key held).KeepsTo key) ∧ ∀ stops outline, (next stops outline).Local

/-! ## Under other names -/

/-- The notice with the new identities. -/
def Notice.rename (ρ : Renaming) : Notice K V → Notice K V
  | answered note => answered (note.rename ρ)
  | extended outline => extended outline
  | traversed stops outline => traversed (stops.map (Stop.rename ρ)) outline

/-- The agenda that does under the new identities what this one does under the old ones. -/
def Agenda.rename (ρ : Renaming) : Agenda K V → Agenda K V
  | stop => stop
  | request r next => request r fun note => (next (note.rename ρ.symm)).rename ρ
  | extend pairs next => extend pairs fun outline => (next outline).rename ρ
  | traverse visit next => traverse (visit.rename ρ) fun stops outline =>
    (next (stops.map (Stop.rename ρ.symm)) outline).rename ρ

/-- The agenda treats all identities alike that are not drawn before `n`. -/
def Agenda.Knows (n : Stamp) (agenda : Agenda K V) : Prop :=
  ∀ ρ : Renaming, ρ.Keeps n → agenda.rename ρ = agenda

section Rename

variable (ρ σ : Renaming)

theorem Stay.rename_refl (stay : Stay K V) : stay.rename (Equiv.refl Stamp) = stay := by
  induction stay with
  | leave => rfl
  | request r next ih => simp [rename, ih]

/-- Two renamings of a stay in a row are one. -/
theorem Stay.rename_trans (stay : Stay K V) :
    (stay.rename ρ).rename σ = stay.rename (ρ.trans σ) := by
  induction stay with
  | leave => rfl
  | request r next ih =>
      simp only [rename, ih, Note.rename_trans]
      rfl

theorem Visitor.rename_refl (visit : Visitor K V) : visit.rename (Equiv.refl Stamp) = visit := by
  funext key held
  simp [rename, Stay.rename_refl]

/-- Two renamings of a visitor in a row are one. -/
theorem Visitor.rename_trans (visit : Visitor K V) :
    (visit.rename ρ).rename σ = visit.rename (ρ.trans σ) := by
  funext key held
  simp only [rename, Stay.rename_trans]
  rfl

theorem Agenda.rename_refl (agenda : Agenda K V) :
    agenda.rename (Equiv.refl Stamp) = agenda := by
  have hstops : Stop.rename (K := K) (V := V) (Equiv.refl Stamp) = id := funext Stop.rename_refl
  induction agenda with
  | stop => rfl
  | request r next ih => simp [rename, ih]
  | extend pairs next ih => simp [rename, ih]
  | traverse visit next ih => simp [rename, ih, hstops, Visitor.rename_refl]

/-- Two renamings of an agenda in a row are one. -/
theorem Agenda.rename_trans (agenda : Agenda K V) :
    (agenda.rename ρ).rename σ = agenda.rename (ρ.trans σ) := by
  induction agenda with
  | stop => rfl
  | request r next ih =>
      simp only [rename, ih, Note.rename_trans]
      rfl
  | extend pairs next ih => simp only [rename, ih]
  | traverse visit next ih =>
      simp only [rename, ih, Visitor.rename_trans, Multiset.map_map, Stop.rename_comp]
      rfl

end Rename

section Knows

variable {ρ σ : Renaming} {m n : Stamp}

/-- An agenda that treats alike what is drawn from `m` on does so for what is drawn later. -/
theorem Agenda.Knows.mono {agenda : Agenda K V} (h : agenda.Knows m) (hmn : m ≤ n) :
    agenda.Knows n :=
  fun ρ hρ => h ρ (hρ.mono hmn)

/-- Renamings that agree on what was drawn before `n` do the same. -/
theorem Agenda.Knows.rename_eq {agenda : Agenda K V} (h : agenda.Knows n)
    (hagree : ∀ x < n, ρ x = σ x) : agenda.rename ρ = agenda.rename σ := by
  have hkeeps : Renaming.Keeps (ρ.trans σ.symm) n := fun x hx => by
    rw [Equiv.trans_apply, hagree x hx, Equiv.symm_apply_apply]
  have hsame := congrArg (Agenda.rename σ) (h _ hkeeps)
  rw [rename_trans, Equiv.trans_assoc, Equiv.symm_trans_self, Equiv.trans_refl] at hsame
  exact hsame

/-- A renaming that keeps what was drawn before keeps such a note. -/
theorem Note.rename_eq_self {note : Note V} (h : note.answer.Below n) (hρ : ρ.Keeps n) :
    note.rename ρ = note := by
  rw [rename, h.rename_eq (σ := .refl _) hρ, Answer.rename_refl]

/-- What a renaming keeps, its inverse keeps. -/
theorem Renaming.Keeps.symm (h : ρ.Keeps n) : Renaming.Keeps ρ.symm n :=
  fun x hx => (Equiv.symm_apply_eq ρ).2 (h x hx).symm

/-- After a request the agenda knows what the answer says. -/
theorem Agenda.Knows.request {r : Request K V} {next : Note V → Agenda K V}
    (h : (Agenda.request r next).Knows m) {note : Note V} (hnote : note.answer.Below n)
    (hmn : m ≤ n) : (next note).Knows n := fun ρ hρ => by
  have hsame := congrFun (Agenda.request.inj (h ρ (hρ.mono hmn))).2 note
  rwa [Note.rename_eq_self hnote hρ.symm] at hsame

/-- After a batch of stores the agenda knows what it knew before. -/
theorem Agenda.Knows.extend {pairs : List (K × V)} {next : Outline → Agenda K V}
    (h : (Agenda.extend pairs next).Knows n) (outline : Outline) : (next outline).Knows n :=
  fun ρ hρ => congrFun (Agenda.extend.inj (h ρ hρ)).2 outline

/-- The visitors of an agenda know no more than the agenda does. -/
theorem Agenda.Knows.visit {visit : Visitor K V} {next : Multiset (Stop K V) → Outline → Agenda K V}
    (h : (Agenda.traverse visit next).Knows n) : visit.Knows n :=
  fun ρ hρ => (Agenda.traverse.inj (h ρ hρ)).1

/-- After a traversal the agenda knows what was found at the stops. -/
theorem Agenda.Knows.traverse {visit : Visitor K V}
    {next : Multiset (Stop K V) → Outline → Agenda K V} (h : (Agenda.traverse visit next).Knows m)
    {stops : Multiset (Stop K V)} (hstops : ∀ stop ∈ stops, stop.Below n) (hmn : m ≤ n)
    (outline : Outline) : (next stops outline).Knows n := fun ρ hρ => by
  have hsame := congrFun (congrFun (Agenda.traverse.inj (h ρ (hρ.mono hmn))).2 stops) outline
  have hkept : stops.map (Stop.rename ρ.symm) = stops :=
    (Multiset.map_congr rfl fun stop hstop => (hstops stop hstop).rename_eq_self hρ.symm).trans
      (Multiset.map_id' stops)
  rwa [hkept] at hsame

end Knows

/-- Under new identities a stay is about the same key. -/
theorem Stay.KeepsTo.rename [BEq K] {key : K} {stay : Stay K V} (h : stay.KeepsTo key)
    (ρ : Renaming) : (stay.rename ρ).KeepsTo key := by
  induction stay with
  | leave => trivial
  | request r next ih => exact ⟨h.1, fun note => ih _ (h.2 _)⟩

/-! ## Visits alone -/

namespace Shared

/-- What the cells hold. -/
def held (s : Shared K V) : CellId → Option (Handle V) := fun c => (s.slot c).handle?

/-- The cells come to hold `contents`, for which `drawn` stamps are drawn, and nothing else
changes. -/
structure Leads (s : Shared K V) (contents : CellId → Option (Handle V)) (drawn : Nat)
    (s' : Shared K V) : Prop where
  steady : s.Steady s'
  size : s'.cells.size = s.cells.size
  contents : s'.held = contents
  tombstones : ∀ c, s'.tombstoned c = s.tombstoned c
  clock : s'.clock = s.clock + drawn

variable {s s₁ s' : Shared K V} {contents contents' : CellId → Option (Handle V)} {m n : Nat}

theorem Leads.refl (s : Shared K V) : s.Leads s.held 0 s :=
  ⟨.refl s, rfl, rfl, fun _ => rfl, rfl⟩

/-- Changes of the cells in a row draw their stamps one after the other. -/
theorem Leads.trans (h : s.Leads contents m s₁) (h' : s₁.Leads contents' n s') :
    s.Leads contents' (m + n) s' where
  steady := h.steady.trans h'.steady
  size := h'.size.trans h.size
  contents := h'.contents
  tombstones c := (h'.tombstones c).trans (h.tombstones c)
  clock := by rw [h'.clock, h.clock, Nat.add_assoc]

/-- The map shows the same structure as long as only its cells change. -/
theorem Leads.outline (h : s.Leads contents n s') : s'.outline = s.outline := by
  rw [Shared.outline, Shared.outline, h.steady.snapshot]

/-- A live cell is served, after a stamp is drawn for what it may come to hold. -/
theorem leads_serve (r : Request K V) {c : CellId} (hlt : c < s.cells.size)
    (hlive : s.tombstoned c = false) (held : Option (Handle V)) :
    s.Leads (Function.update s.held c held) (r.draws (s.held c) held)
      ((s.drawn r).serve c held) := by
  have hdrawn := s.steady_drawn r
  have hsize : (s.drawn r).cells.size = s.cells.size := by
    unfold drawn
    split <;> rfl
  have hclock : (s.drawn r).clock = s.clock + if r.value?.isSome then 1 else 0 := by
    unfold drawn
    split <;> rfl
  -- Drawing the stamp comes first and leaves the cells alone.
  refine ⟨hdrawn.trans (steady_serve _ c held), (size_serve _ _ _).trans hsize, ?_, fun d => ?_, ?_⟩
  · funext d
    by_cases hd : c = d
    · subst hd
      rw [Function.update_self]
      exact handle?_serve (hlt.trans_eq hsize.symm) held
    · rw [Function.update_of_ne (Ne.symm hd), Shared.held, slot_serve_ne hd, slot_drawn]
      rfl
  · rw [tombstoned_serve (by rwa [tombstoned_drawn]), tombstoned_drawn]
  · rw [clock_serve, hclock, slot_drawn, Nat.add_assoc]
    rfl

end Shared

section Run

open Shared

variable [BEq K] [BEq V] [EquivBEq K] {order : Enumeration K} {t : ThreadId} {s : Shared K V}
  {key : K} {c : CellId}

/-- After a request the thread is between two operations again. -/
theorem Request.ready_solo (order : Enumeration K) (hs : s.Ready t) (r : Request K V) :
    (r.solo order s).2.Ready t := by
  have hends : r.program.Ends order t s fun x s' => (x, s') = r.solo order s ∧ s'.Ready t :=
    (Operation.request r).ends_solo order hs
  obtain ⟨x, s', -, hsolo, hs'⟩ := hends
  rwa [← hsolo]

/-- In a map that nothing amends, a request about a key of the snapshot serves the cell of the
key. -/
theorem Request.leads_solo (order : Enumeration K) (htidy : Tidy .rest s)
    (ham : s.snapshot.amended = false) (hc : s.snapshot.find? key = some c) {r : Request K V}
    {own : K} (hkey : r.key? = some own)
    (hown : (own == key) = true) :
    (r.solo order s).1 = (r.effect s.clock (s.held c)).1 ∧
      s.Leads (Function.update s.held c (r.effect s.clock (s.held c)).2)
        (r.draws (s.held c) (r.effect s.clock (s.held c)).2) (r.solo order s).2 := by
  have hc' : s.snapshot.find? own = some c := (s.snapshot.find?_congr hown).trans hc
  have hlive : s.tombstoned c = false := by
    rw [← Bool.not_eq_true]
    intro htomb
    rw [(htidy.amended_of_tombstoned hc htomb).1] at ham
    exact Bool.false_ne_true ham.symm
  have hview : s.view own = s.held c := view_of_find? (find?_of_snapshot hc')
  have hsolo : r.solo order s = ((r.effect s.clock (s.held c)).1,
      (s.drawn r).serve c (r.effect s.clock (s.held c)).2) := by
    simp only [solo, hkey, hview, settle_of_snapshot hc']
    rw [rewritten_of_live (by rwa [tombstoned_drawn])]
  rw [hsolo]
  exact ⟨rfl, leads_serve r (htidy.bounded key c hc) hlive _⟩

omit [BEq V] [EquivBEq K] in
/-- Looking at the map shows its outline and changes nothing. -/
theorem Map.run_outline : (Map.outline : Program K V Outline).run order t s = some (s.outline, s) :=
  rfl

/-- In a map that nothing amends, a stay at a key of the snapshot works on the cell of the key. -/
theorem Stay.run_program (stay : Stay K V) (order : Enumeration K) (hs : s.Ready t)
    (ham : s.snapshot.amended = false) (hc : s.snapshot.find? key = some c)
    (hkeeps : stay.KeepsTo key) :
    ∃ s', stay.program.run order t s =
        some ((stay.spend s.outline (s.held c) s.clock).notes, s') ∧ s'.Ready t ∧
      s.Leads (Function.update s.held c (stay.spend s.outline (s.held c) s.clock).held)
        (stay.spend s.outline (s.held c) s.clock).drawn s' := by
  induction stay generalizing s with
  | leave =>
      refine ⟨s, rfl, hs, ?_⟩
      rw [spend, Function.update_eq_self]
      exact .refl s
  | request r next ih =>
      obtain ⟨⟨own, hkey, hown⟩, hnext⟩ := hkeeps
      obtain ⟨hanswer, hleads⟩ := Request.leads_solo order hs.tidy ham hc hkey hown
      -- The request serves the cell; what follows starts from what it leaves there.
      have hrun := r.run_solo order t hs.tidy hs.free
      have hready := r.ready_solo order hs
      generalize r.solo order s = x at hanswer hleads hrun hready
      obtain ⟨answer, s₁⟩ := x
      obtain rfl := hanswer
      have hsnap := hleads.steady.snapshot
      obtain ⟨s', hrun', hready', hleads'⟩ := ih ⟨_, s₁.outline⟩ hready
        ((congrArg Snapshot.amended hsnap).trans ham) (hsnap ▸ hc) (hnext _)
      have hheld : s₁.held c = (r.effect s.clock (s.held c)).2 := by
        rw [hleads.contents, Function.update_self]
      rw [hheld, hleads.clock, hleads.outline, hleads.contents, Function.update_idem] at hleads'
      rw [hheld, hleads.clock, hleads.outline] at hrun'
      refine ⟨s', ?_, hready', hleads.trans hleads'⟩
      -- Request, look at the map, and the rest of the stay, one after the other.
      rw [program, Program.run_bind, hrun, Option.bind_some, Program.run_bind, Map.run_outline,
        Option.bind_some, Program.run_bind, hleads.outline, hrun']
      rfl

/-- In a map that nothing amends, the visits of some entries of the snapshot are those of a
round. -/
theorem Visitor.run_visits {visit : Visitor K V} (order : Enumeration K)
    (hkeeps : ∀ key held, (visit key held).KeepsTo key) (entries : List (K × CellId))
    (stops : List (Stop K V)) (hs : s.Ready t) (ham : s.snapshot.amended = false)
    (hentries : ∀ e ∈ entries, s.snapshot.find? e.1 = some e.2) :
    ∃ s', (visit.visits entries stops).run order t s =
        some (stops ++ (visit.round s.outline entries s.held s.clock).stops, s') ∧ s'.Ready t ∧
      s.Leads (visit.round s.outline entries s.held s.clock).contents
        (visit.round s.outline entries s.held s.clock).drawn s' := by
  induction entries generalizing s stops with
  | nil => exact ⟨s, by rw [round, List.append_nil]; rfl, hs, .refl s⟩
  | cons e entries ih =>
      obtain ⟨key, c⟩ := e
      have hrest := fun e he => hentries e (List.mem_cons_of_mem _ he)
      rw [visits_cons, Program.run_bind, Cell.run_load, Option.bind_some, round]
      cases hheld : s.held c with
      -- Nothing is held, so the entry is passed over.
      | none =>
          have hcall : visit.call s.outline (key, c) s.held s.clock = ⟨[], s.held, 0⟩ := by
            simp only [call, hheld]
          obtain ⟨s', hrun, hready, hleads⟩ := ih stops hs ham hrest
          have hslot : (s.slot c).handle? = none := hheld
          rw [hcall, hslot, List.nil_append, Nat.add_zero, Nat.zero_add]
          exact ⟨s', hrun, hready, hleads⟩
      -- The visit works on its own cell, and the entries ahead are those of the same snapshot.
      | some held =>
          obtain ⟨s₁, hrun, hready, hleads⟩ := (visit key held).run_program order hs ham
            (hentries _ List.mem_cons_self) (hkeeps key held)
          have hcall : visit.call s.outline (key, c) s.held s.clock =
              ⟨[⟨key, held, ((visit key held).spend s.outline (s.held c) s.clock).notes⟩],
                Function.update s.held c ((visit key held).spend s.outline (s.held c) s.clock).held,
                ((visit key held).spend s.outline (s.held c) s.clock).drawn⟩ := by
            simp only [call, hheld]
          have hsnap := hleads.steady.snapshot
          obtain ⟨s', hrun', hready', hleads'⟩ := ih
            (stops ++ [⟨key, held, ((visit key held).spend s.outline (s.held c) s.clock).notes⟩])
            hready ((congrArg Snapshot.amended hsnap).trans ham) fun e he => by
              rw [hsnap]
              exact hrest e he
          rw [hleads.clock, hleads.outline, hleads.contents] at hrun' hleads'
          have hslot : (s.slot c).handle? = some held := hheld
          rw [hcall, hslot]
          refine ⟨s', ?_, hready', hleads.trans hleads'⟩
          rw [List.append_assoc] at hrun'
          dsimp only
          rw [Program.run_bind, hrun, Option.bind_some, hrun']

end Run

end ConcurrentMap
