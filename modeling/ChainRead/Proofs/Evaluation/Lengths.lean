import ChainRead.Proofs.Evaluation.Hints
import ChainRead.Proofs.Evaluation.Slicing

/-! # Lengths without work

A length that is there without work is the number of bytes that the value resolves to, whenever that
is. This holds of all values that an evaluation has at any step. So counting the bytes of a value
gives the same word early and late, and joining two values charges what the result really has. Byte
strings that are longer than any size are left out.
-/

namespace ChainRead

variable {σ : Type}

/-- The values that a frame that waits will use again. -/
def Waiting.values : Waiting → List (Value Question)
  | inline _ => []
  | loop _ parent l => parent.stack ++ l.seeds ++ l.taken

/-- The values of an evaluation: those of every frame, the outputs and the supplied ones. -/
def Execution.values (x : Execution σ) : List (Value Question) :=
  x.state.frame.stack ++ x.waiting.flatMap Waiting.values ++ x.state.outputs ++
    (Need.supplied x.state.trace.needs).map Prod.snd

namespace Hinting

open Watching

variable {config : Config} {src : Source σ} {w w' : Ledger}

theorem hinted_waiting {k : Waiting} (h : k.Related (simulation config src) w) :
    ∀ v ∈ k.values, hinted src.answers v w := by
  cases k with
  | inline => exact nofun
  | loop rest parent l =>
    obtain ⟨hf, hseeds, htaken⟩ := h
    simp only [Waiting.values, List.forall_mem_append]
    exact ⟨⟨(of_itself hf.stack).2, (of_itself hseeds).2⟩, (of_itself htaken).2⟩

theorem hinted_values {x : Execution σ} (h : x.Related (simulation config src) w) :
    ∀ v ∈ x.values, hinted src.answers v w := by
  obtain ⟨hs, hK⟩ := h
  simp only [Execution.values, List.forall_mem_append, List.forall_mem_flatMap,
    List.forall_mem_map]
  exact ⟨⟨⟨(of_itself hs.frame.stack).2, fun k hk => hinted_waiting (hK k hk)⟩,
    (of_itself hs.outputs).2⟩, hs.memory.2.2.2⟩

theorem related_learned {x : Execution σ} (h : x.Related (simulation config src) w) (hw : w ≤ w')
    (hs : x.state.session.Honours True w') : x.Related (simulation config src) w' where
  state := ⟨((simulation config src).frame _ _).monotone hw h.state.frame,
    ((simulation config src).values _ _).monotone hw h.state.outputs,
    rfl, hs, (tracks src.answers _).monotone hw h.state.memory.2.2⟩
  waiting k hk := (h.waiting k hk).mono hw

end Hinting

namespace Eval

variable {env : Env σ} {s t : State σ} {w : Ledger} {a : Unit}

theorem declared_counts {v : Value Question} {n : Nat} {b : Bytes}
    (h : hinted env.source.answers v w) (hs : s.session.Honours True w) (hn : v.declared = some n)
    (hb : (v.resolve env.source.answers s.session).1 = .ok b) : Counts n b.length := by
  refine hinted_length? h hs ?_ hb
  cases v with
  | known => exact hn
  | _ => cases hn; rfl

section

variable (hv : ∀ v ∈ s.frame.stack, hinted env.source.answers v w) (hs : s.session.Honours True w)
include hv hs

theorem length_counts (h : length s = (.ok a, t)) :
    ∃ v u rest, s.frame.stack = v :: rest ∧ t.frame.stack = u :: rest ∧
      ∀ b, (v.resolve env.source.answers t.session).1 = .ok b → b.length ≤ maxSize →
        (u.resolve env.source.answers t.session).1 = .ok (lengthWord b.length) := by
  obtain ⟨v, s₁, h₁, h⟩ := Fallible.bind_ok h
  obtain ⟨_, s₂, ⟨⟩, h⟩ := Fallible.bind_ok h
  obtain ⟨rest, hst, rfl⟩ := pop_ok h₁
  rw [hst, List.forall_mem_cons] at hv
  rcases hl : v.length? s.session with _ | n <;> simp only [hl] at h
  · obtain ⟨u, s₃, h₃, h⟩ := Fallible.bind_ok h
    have made : v.map (some 32) (fun b => .ok (lengthWord b.length)) s.session =
        (u, s₃.session) := by
      cases h₃
      rfl
    rw [push_ok h]
    refine ⟨v, u, rest, hst, ?_, fun b hb _ => ?_⟩
    · cases h₃
      rfl
    · refine (Value.resolve_map_ok hs.is_fresh made).trans ?_
      rw [hb]
      rfl
  · rw [push_ok h]
    refine ⟨v, _, rest, hst, rfl, fun b hb hm => ?_⟩
    have counted := hinted_length? hv.1 hs hl hb
    rw [Value.resolve, counted.eq hm]
    rfl

theorem concat_charges_declared (h : concat env s = (.ok a, t)) :
    ∃ u n, t.frame.stack.head? = some u ∧ u.declared = some n ∧
      t.trace.allocLeft + clampSize n = s.trace.allocLeft := by
  obtain ⟨x, y, rest, u, k, hst, hu, joining, charged⟩ := concat_ok h
  simp only [hst, List.forall_mem_cons] at hv
  obtain ⟨hy, hx, _⟩ := hv
  cases joining with
  | peeked hm hn hb hc =>
    have counted {v : Value Question} {k : Nat} {d : Bytes} (hv : hinted env.source.answers v w)
        (hk : v.length? s.session = some k) (hd : v.peek s.session = some d) :
        clampSize k = clampSize d.length :=
      (hinted_length? hv hs hk (congrArg Prod.fst (Value.resolve_of_peek hd))).clamped
    refine ⟨_, _, hu, rfl, ?_⟩
    rw [List.length_append, ← clampSize_add (counted hx hm hb) (counted hy hn hc)]
    exact charged
  | @pending m n id hm hn =>
    have counted : Counts (clampSize (m + n)) (m + n) := Or.inr rfl
    exact ⟨_, _, hu, rfl, (congrArg _ counted.clamped).trans charged⟩
  | resolved =>
    refine ⟨_, _, hu, rfl, ?_⟩
    rw [List.length_append]
    exact charged

end

end Eval

open Eval

/-- At every step of an evaluation, a length that is there without work is the one that resolving
the value gives, now or at any later step, whatever else is resolved before. Counting the bytes of a
value gives this length, whether or not it is there, and joining two values charges it. -/
theorem lengths_exact {env : Env σ} {program : Program} {session : Session σ}
    (fresh : session.Fresh) {x : Execution σ} (hx : env.Visits program session (.running x)) :
    (∀ v ∈ x.values, ∀ n, v.length? x.state.session = some n →
      ∀ y, env.Leads (.running x) (.running y) → ∀ vs, (∀ u ∈ vs, u ∈ y.values) → ∀ b,
        (v.resolve env.source.answers
          (Value.resolveEach env.source.answers vs y.state.session).2).1 = .ok b →
        b.length ≤ maxSize → b.length = n) ∧
    (∀ t, execute env .length x.state = (.ok (), t) →
      ∃ v u rest, x.state.frame.stack = v :: rest ∧ t.frame.stack = u :: rest ∧
        ∀ b, (v.resolve env.source.answers t.session).1 = .ok b → b.length ≤ maxSize →
          (u.resolve env.source.answers t.session).1 = .ok (lengthWord b.length)) ∧
    ∀ t, execute env .concat x.state = (.ok (), t) →
      ∃ u rest, t.frame.stack = u :: rest ∧
        ∀ b, (u.resolve env.source.answers t.session).1 = .ok b → b.length ≤ maxSize →
          t.trace.allocLeft + b.length = x.state.trace.allocLeft := by
  obtain ⟨w, hw⟩ := Env.visits_tracked fresh hx
  have honours := hw.state.memory.2.1
  have stack : ∀ v ∈ x.state.frame.stack, hinted env.source.answers v w :=
    (Watching.of_itself hw.state.frame.stack).2
  refine ⟨fun v hv n hn y hy vs hvs b hb hm => ?_, fun t ht => length_counts stack honours ht,
    fun t ht => ?_⟩
  · -- the length that is there is known from now on, and so until the value is resolved
    obtain ⟨w', hle, -, hs', hspans⟩ := hinted_spans (Hinting.hinted_values hw v hv) honours hn
    obtain ⟨u, hu, later⟩ := Env.related_leads Hinting.diagonal hy
      (Hinting.related_learned hw hle hs')
    have resolved := hinted_resolveEach
      (fun v hv => Hinting.hinted_values later v (hvs v hv)) later.state.memory.2.1
    exact (spans_resolve ((spans _ n v).monotone hu hspans) resolved hb).eq hm
  · obtain ⟨u, n, hu, hn, charged⟩ := concat_charges_declared stack honours ht
    obtain ⟨rest, hst⟩ := List.head?_eq_some_iff.mp hu
    obtain ⟨w', -, after⟩ := Hinting.diagonal.executes hw.state ht
    have pushed : hinted env.source.answers u w' :=
      (Watching.of_itself after.frame.stack).2 u (hst ▸ List.mem_cons_self)
    refine ⟨u, rest, hst, fun b hb hm => ?_⟩
    have counted := declared_counts pushed after.memory.2.1 hn hb
    rwa [← counted.eq hm, clampSize, min_eq_left hm] at charged

def twoSlots : State Nat where
  frame := {
    stack := [.asked 1 (some 32) (.storage 0 0), .asked 0 (some 32) (.storage 0 0)]
    maxStack := 64 }
  session := { source := 0, next := 2 }
  outputs := []
  trace := { Trace.new {} with
    sections := [⟨0, true, [.storage 0, .storage 0]⟩]
    proofsLeft := 126
    targets := [0]
    slots := [(0, 0)] }

/-- Two slots that are still pending are counted and joined. One of them is resolved later, after
the pair was. -/
theorem lengths_exact_pending :
    let env : Env Nat := ⟨(Chain.withStorage {} 0 0 7).source, {}⟩
    let program : Program := ⟨0, Instruction.encodeAll
      [.plain .readSlot, .plain .readSlot, .plain .concat]⟩
    let slot (id : Nat) : Value Question := .asked id (some 32) (.storage 0 0)
    let pair : Value Question := .joined 2 (some 64) [slot 0, slot 1]
    let x : Execution Nat := ⟨twoSlots, .reading ⟨3, [91]⟩, []⟩
    ∃ y t u, env.Visits program { source := 0 } (.running x) ∧
      env.Leads (.running x) (.running y) ∧ slot 0 ∈ x.values ∧ pair ∈ y.values ∧
      (slot 0).length? twoSlots.session = some 32 ∧
      ((slot 0).resolve env.source.answers
        (Value.resolveEach env.source.answers [pair] y.state.session).2).1 = .ok (Word.toBytes 7) ∧
      (Word.toBytes 7).length = 32 ∧
      execute env .length twoSlots = (.ok (), t) ∧ t.frame.stack = [u, slot 0] ∧
      (u.resolve env.source.answers t.session).1 = .ok (lengthWord 32) ∧
      execute env .concat twoSlots = (.ok (), y.state) ∧
      y.state.trace.allocLeft + 64 = 1048576 := by
  intro env program slot pair x
  let y : Execution Nat := ⟨(execute env .concat twoSlots).2, .reading ⟨4, []⟩, []⟩
  have visits : env.Visits program { source := 0 } (.running x) := ⟨2, rfl⟩
  have leads : env.Leads (.running x) (.running y) := ⟨1, rfl⟩
  have old : slot 0 ∈ x.values := List.mem_cons_of_mem _ List.mem_cons_self
  have new : pair ∈ y.values := List.mem_cons_self
  have resolved : ((slot 0).resolve env.source.answers
      (Value.resolveEach env.source.answers [pair] y.state.session).2).1 =
        .ok (Word.toBytes 7) := rfl
  obtain ⟨exact, counts, charges⟩ := lengths_exact (fun _ _ => rfl) visits
  have size := exact (slot 0) old 32 rfl y leads [pair]
    (fun u hu => List.mem_singleton.mp hu ▸ new) (Word.toBytes 7) resolved (by decide)
  obtain ⟨_, u, _, ⟨⟩, hu, counted⟩ := counts (execute env .length twoSlots).2 rfl
  obtain ⟨_, _, ⟨⟩, charged⟩ := charges y.state rfl
  exact ⟨y, _, u, visits, leads, old, new, rfl, resolved, size, rfl, hu,
    counted (Word.toBytes 7) rfl (by decide), rfl,
    charged (Word.toBytes 7 ++ Word.toBytes 7) rfl (by decide)⟩

end ChainRead
