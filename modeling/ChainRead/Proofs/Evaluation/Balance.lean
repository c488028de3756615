import ChainRead.Proofs.Evaluation.Accounting
import ChainRead.Proofs.Evaluation.Watching
import ChainRead.Source.Chain

/-! # The allocation budget is exact

A run that is watched accounts for every instruction when it is noted. So after each instruction the
bytes that are left and those of the values that were charged for make up the whole budget.
-/

namespace ChainRead

open Ledger

variable {σ : Type}

namespace Watching

variable {config : Config} {src : Source σ}

open Coupling Eval

abbrev accounting (config : Config) (src : Source σ) :
    Simulation Ledger σ (σ × List (Moment σ)) :=
  simulation config src (Accounted src.answers config.maxAllocBytes.toNat)

abbrev unchanged (config : Config) (src : Source σ) (H : List (Moment σ)) :
    Simulation Ledger σ (σ × List (Moment σ)) :=
  simulation config src fun H' _ => H' = H

section Related

variable {R R' : List (Moment σ) → Ledger → Prop} {s : State σ}
  {t t' : State (σ × List (Moment σ))} {v w : Ledger}

theorem rebase (h : (simulation config src R).StateRel s t v) (ht : t'.plain = t.plain)
    (hw : v ≤ w) (hc : w.charged = v.charged) (hs : s.session.Honours True w)
    (hR : R' t'.session.source.2 w) : (simulation config src R').StateRel s t' w := by
  have trace : t'.trace = t.trace := congrArg (fun u : State σ => u.trace) ht
  have session : t'.session.plain = t.session.plain := congrArg (fun u : State σ => u.session) ht
  obtain ⟨⟨hst, _⟩, htrace, hcharged⟩ := h.memory
  refine h.rebase rfl rfl rfl rfl ht hw ⟨⟨hst.trans session.symm, hs, hR⟩, ?_, hc ▸ hcharged⟩
  rw [show t'.memory.2 = t.memory.2 from trace]
  exact htrace.mono fun v v' hv => ((simulation config src R).value v v').monotone hw hv

theorem balanced (h : (simulation config src R).StateRel s t v) {m : Moment σ}
    (hm : m.after = t.plain) (hw : v ≤ w) (hc : w.charged = v.charged)
    (hs : s.session.Honours True w) :
    m.Balanced src.answers config.maxAllocBytes.toNat w := by
  obtain ⟨hst, hheld⟩ := of_itself h.frame.stack
  obtain ⟨hout, hheld'⟩ := of_itself h.outputs
  constructor
  · rw [hm, show t.plain.session = s.session from h.memory.1.1.symm]
    exact hs
  · intro x hx
    rw [Moment.Holds, hm] at hx
    refine (held src.answers x).monotone hw ?_
    rcases hx with hx | hx
    · exact hheld x (hst ▸ hx)
    · exact hheld' x (hout ▸ hx)
  · rw [hm, hc]
    exact (congrArg (· + v.charged) h.memory.2.1.allocLeft.symm).trans h.memory.2.2

theorem left_eq (h : (simulation config src R).StateRel s t v) :
    s.trace.allocLeft + v.charged = config.maxAllocBytes.toNat := h.memory.2.2

theorem left_le (h : (simulation config src R).StateRel s t v) :
    s.trace.allocLeft + v.charged ≤ maxSize :=
  (left_eq h).trans_le (Nat.le_of_lt_succ config.maxAllocBytes.toNat_lt)

end Related

/-- Noting an instruction keeps a run related to the run that is watched, if the bytes that were
charged for it are accounted for. -/
theorem noted {R : List (Moment σ) → Ledger → Prop} {s : State σ}
    {t t' : State (σ × List (Moment σ))} {u v w : Ledger} {n : Nat} {i : Instruction}
    (h : (simulation config src R).StateRel s t' v)
    (hu : Accounted src.answers config.maxAllocBytes.toNat t'.session.source.2 u) (huw : u ≤ w)
    (hn : w.charged = u.charged + n)
    (hw : Moment.weighs src.answers ⟨i, t.plain, t'.plain⟩ n w) (hvw : v ≤ w)
    (hc : w.charged = v.charged) (hs : s.session.Honours True w) :
    (accounting config src).StateRel s (t'.note ⟨i, t.plain, t'.plain⟩) w :=
  rebase h rfl hvw hc hs (.cons hu huw hn hw (balanced h rfl hvw hc hs) le_rfl rfl)

section Steps

variable {nested : Bytes → Eval σ UInt8} {nested' : Bytes → Eval (σ × List (Moment σ)) UInt8}
  {depth : Nat} {i : Instruction} {s : State σ} {t : State (σ × List (Moment σ))} {w : Ledger}

theorem result_watch {R : List (Moment σ) → Ledger → Prop}
    (hx : (simulation config src R).whole.Result w same
      (Eval.step ⟨src, config⟩ nested depth i s)
      (Eval.step (Env.watched ⟨src, config⟩) nested' depth i t))
    (hR : ∀ {H v}, R H v → ∃ v', Accounted src.answers config.maxAllocBytes.toNat H v')
    (h : ∀ {a s' t' v}, w ≤ v → Eval.step ⟨src, config⟩ nested depth i s = (.ok a, s') →
      (simulation config src R).StateRel s' t' v →
      ∃ v', v ≤ v' ∧ (accounting config src).StateRel s' (t'.note ⟨i, t.plain, t'.plain⟩) v') :
    (accounting config src).whole.Result w same (Eval.step ⟨src, config⟩ nested depth i s)
      (Env.watch ⟨src, config⟩ nested' depth i t) := by
  refine Simulation.watched hx (fun ended => ?_) h
  obtain ⟨⟨⟩⟩ | ⟨e, he, he', hs, v, hv⟩ := ended
  exact ⟨⟨e, he'⟩, Or.inr ⟨e, he, he', hs, hR hv⟩⟩

theorem free (hc : i.charges = false)
    (hx : (accounting config src).whole.Follows ⊤ (Eval.step ⟨src, config⟩ nested depth i)
      (Eval.step (Env.watched ⟨src, config⟩) nested' depth i) same) :
    (accounting config src).whole.Follows ⊤ (Eval.step ⟨src, config⟩ nested depth i)
      (Env.watch ⟨src, config⟩ nested' depth i) same where
  run {w s t} _ hi := by
    refine result_watch (hx.run trivial hi) (fun h => ⟨_, h⟩) fun {a s' t' v} _ _ h => ?_
    have hw : Moment.weighs src.answers ⟨i, t.plain, t'.plain⟩ 0 v :=
      fun _ _ => Moment.bytes_of_free _ hc
    obtain ⟨_, hs, hH⟩ := h.memory.1
    exact ⟨v, le_rfl, noted h hH le_rfl rfl hw le_rfl rfl hs⟩
  stays h := Metered.persists h id

section Charged

variable {s' : State σ} {t' : State (σ × List (Moment σ))} {v : Ledger}
  (hi : (accounting config src).StateRel s t w)
  (h : (unchanged config src t.session.source.2).StateRel s' t' v) (hw : w ≤ v)
include hi h hw

theorem noted_push (hp : PushesCharged s s')
    (hm : ∀ before after : State σ, Moment.subject ⟨i, before, after⟩ = after.frame.stack.head? ∧
      Moment.overhead ⟨i, before, after⟩ = 0) :
    ∃ v', v ≤ v' ∧ (accounting config src).StateRel s' (t'.note ⟨i, t.plain, t'.plain⟩) v' := by
  obtain ⟨x, n, hx, hn, hleft⟩ := hp
  obtain ⟨hst, hheld⟩ := of_itself h.frame.stack
  obtain ⟨_, hs, hH : t'.session.source.2 = t.session.source.2⟩ := h.memory.1
  have hcharged : v.charged = w.charged + n := by
    have before := left_eq hi
    have after := left_eq h
    omega
  refine ⟨v, le_rfl, noted h (hH ▸ hi.memory.1.2.2) hw hcharged ?_ le_rfl rfl hs⟩
  intro w' u hw' hu
  obtain ⟨hsub, hover⟩ := hm t.plain t'.plain
  have hx' : t'.plain.frame.stack.head? = some x := hst ▸ hx
  simp only [Moment.bytes, hsub, hover, hx', Option.map_some, Option.getD_some, Nat.add_zero]
  exact size_of_declared (hheld x (List.mem_of_mem_head? hx)) hn hw' hu

/-- The key that was followed stays as long as it was when it was charged. -/
theorem noted_follow {a : Unit} (hf : follow ⟨src, config⟩ s = (.ok a, s')) :
    ∃ v', v ≤ v' ∧ (accounting config src).StateRel s'
      (t'.note ⟨.plain .follow, t.plain, t'.plain⟩) v' := by
  obtain ⟨hst, hheld⟩ := of_itself hi.frame.stack
  obtain ⟨x, key, hx, hr, hleft⟩ := follow_charges (left_le hi) hi.memory.1.2.1 hheld hf
  obtain ⟨_, hs, hH : t'.session.source.2 = t.session.source.2⟩ := h.memory.1
  obtain ⟨v', hv, hc, hs', hsize⟩ := learns_size hr hs
  have hcharged : v'.charged = w.charged + (key.length + 32) := by
    have before := left_eq hi
    have after := left_eq h
    omega
  refine ⟨v', hv, noted h (hH ▸ hi.memory.1.2.2) (hw.trans hv) hcharged ?_ hv hc hs'⟩
  intro w' u hw' hu
  have hx' : t.plain.frame.stack.head? = some x := hst ▸ hx
  simp only [Moment.bytes, Moment.subject, Moment.overhead, hx', Option.map_some, Option.getD_some]
  rw [hsize hw' hu]

end Charged

theorem step_unchanged (hb : src.Bounded) (H : List (Moment σ)) (op : Op) :
    (unchanged config src H).whole.Follows ⊤ (Eval.step ⟨src, config⟩ nested depth (.plain op))
      (Eval.step (Env.watched ⟨src, config⟩) nested' depth (.plain op)) same := by
  have steady : Steady fun (H' : List (Moment σ)) (_ : Ledger) => H' = H := fun _ _ _ h _ _ => h
  have charges : (metered config src fun H' _ => H' = H).Charges :=
    fun h n => ⟨h.1, h.2.1.charge n, h.2.2⟩
  exact Follows.bind_any (execute steady charges hb op) fun _ _ => .pure fun _ _ => rfl

theorem charging (hb : src.Bounded) {op : Op} (hop : op.charges = true) :
    (accounting config src).whole.Follows ⊤ (Eval.step ⟨src, config⟩ nested depth (.plain op))
      (Env.watch ⟨src, config⟩ nested' depth (.plain op)) same where
  run {w s t} _ hi := by
    -- the charge is accounted for only when it is noted; until then what was noted stays as it is
    have hx : (unchanged config src t.session.source.2).whole.Follows ⊤
        (Eval.step ⟨src, config⟩ nested depth (.plain op))
        (Eval.step (Env.watched ⟨src, config⟩) nested' depth (.plain op)) same :=
      step_unchanged hb _ op
    have hi' : (unchanged config src t.session.source.2).StateRel s t w :=
      rebase hi rfl le_rfl rfl hi.memory.1.2.1 rfl
    refine result_watch (hx.run trivial hi') (fun h => ⟨w, h ▸ hi.memory.1.2.2⟩)
      fun {a s' t' v} hw hs h => ?_
    obtain ⟨_, _, hs, ⟨⟩⟩ := Fallible.bind_ok hs
    obtain ⟨_, hheld⟩ := of_itself hi.frame.stack
    cases op with
    | readSlots => exact noted_push hi h hw (readSlots_charges hs) fun _ _ => ⟨rfl, rfl⟩
    | readBytes => exact noted_push hi h hw (readBytes_charges hs) fun _ _ => ⟨rfl, rfl⟩
    | readArray => exact noted_push hi h hw (readArray_charges hs) fun _ _ => ⟨rfl, rfl⟩
    | slice => exact noted_push hi h hw (slice_charges hs) fun _ _ => ⟨rfl, rfl⟩
    | concat =>
      have hp := concat_charges (left_le hi) hi.memory.1.2.1 hheld hs
      exact noted_push hi h hw hp fun _ _ => ⟨rfl, rfl⟩
    | follow => exact noted_follow hi h hw hs
    | _ => cases hop
  stays h := Metered.persists h id

/-- A run and the run that is watched give related results, step by step. -/
theorem steps (hb : src.Bounded) :
    (accounting config src).Steps (Eval.step ⟨src, config⟩) (Env.watch ⟨src, config⟩) := by
  intro nested nested' H depth i hi
  cases i with
  | plain op =>
    rcases hc : op.charges with _ | _
    · refine free hc (Follows.bind_any ?_ fun _ _ => .pure fun _ _ => rfl)
      exact executeFree .steady hb op hc
    · exact charging hb hc
  -- the programs that such an instruction runs account for their own instructions
  | _ => exact free rfl ((fair .steady).step H depth _ hi fun _ h => nomatch h)

end Steps

theorem runs (config : Config) (hb : src.Bounded) (program : Program) (source : σ) :
    (accounting config src).whole.Result .new same
      (Env.run ⟨src, config⟩ program { source })
      (Env.runWatched ⟨src, config⟩ program { source }) := by
  have start : (accounting config src).inv ({ source }, Trace.new config)
      ({ source := (source, []) }, Trace.new config) .new :=
    ⟨⟨rfl, .new source, .nil rfl⟩, .new config, rfl⟩
  rw [← Env.runBy_step]
  exact (fair Accounted.steady).runBy (steps hb) program start

theorem accounted_history (config : Config) (hb : src.Bounded) (program : Program) (source : σ) :
    ∃ w, Accounted src.answers config.maxAllocBytes.toNat
      (Env.history ⟨src, config⟩ program { source }) w := by
  cases runs config hb program source with
  | both w _ _ _ _ _ _ inv => exact ⟨w, inv.memory.1.2.2⟩
  | halted ended =>
    obtain ⟨⟨⟩⟩ | ⟨_, _, _, _, hw⟩ := ended
    exact hw

end Watching

/-- After every instruction of a run, the bytes that were charged are those of the values that
instructions charged for and of the keys that were followed. The lengths are the ones that the
values have from then on, whatever else is resolved before. -/
theorem charged_history (config : Config) (program : Program) {src : Source σ} (hb : src.Bounded)
    (source : σ) :
    (Env.runWatched ⟨src, config⟩ program { source }).1 =
        (Env.run ⟨src, config⟩ program { source }).1 ∧
      ∀ {now m : Moment σ} {past earlier : List (Moment σ)},
        now :: past <:+ Env.history ⟨src, config⟩ program { source } →
        m :: earlier <:+ now :: past →
        ∀ vs : List (Value Question), (∀ v ∈ vs, ∃ k ∈ now :: past, k.Holds v) →
          m.after.trace.allocLeft + ((m :: earlier).map (Moment.bytes src.answers
            (Value.resolveEach src.answers vs now.after.session).2)).sum =
              config.maxAllocBytes.toNat := by
  constructor
  · cases Watching.runs config hb program source with
    | both _ _ _ _ left right post _ =>
      cases post
      exact right.trans left.symm
    | halted ended =>
      obtain ⟨⟨⟩⟩ | ⟨_, left, right, _⟩ := ended
      exact (eq_error_of_forget right).trans (eq_error_of_forget left).symm
  · intro now m past earlier hn hm vs hv
    obtain ⟨w, hw⟩ := Watching.accounted_history config hb program source
    obtain ⟨v, _, hv', balanced⟩ := hw.suffix hn
    obtain ⟨u, hu, hu', balanced'⟩ := hv'.suffix hm
    have hheld : ∀ x ∈ vs, held src.answers x v := by
      intro x hx
      obtain ⟨k, hk, hx⟩ := hv x hx
      exact hv'.held hk hx
    -- lengths last, so it does not matter in which later session they are taken
    rw [hu'.sum_bytes hu (honours_resolveEach vs hheld balanced.honours)]
    exact balanced'.left

theorem Chain.bounded {chain : Chain} (h : ∀ p ∈ chain.supplied, p.2.length < 2 ^ 63) :
    chain.source.Bounded := by
  intro hash s bytes hb
  have hb : chain.answer (.hashedBytes hash) = .ok bytes := hb
  unfold Chain.answer at hb
  dsimp only at hb
  split at hb
  case h_1 hl =>
    cases hb
    obtain ⟨l, r, hs, _⟩ := List.lookup_eq_some_iff.mp hl
    exact h (hash, bytes) (hs ▸ List.mem_append_right l List.mem_cons_self)
  case h_2 => cases hb

/-- Slots are joined with bytes supplied for their hash and cut, a key is followed, and slots are
read that nobody looked at yet. -/
theorem charged_history_chain :
    let chain : Chain := (Chain.withStorage {} 7 3 5).withSupplied [1, 2, 3]
    let program : Program := ⟨0, Instruction.encodeAll [.push 7, .plain .setTarget, .push 3,
      .plain .setSlot, .push (keccak256 [1, 2, 3]), .plain .readHashedBytes, .push 2,
      .plain .readSlots, .plain .concat, .push 1, .push 5, .plain .slice, .plain .readSlot,
      .plain .follow, .push 2, .plain .readSlots]⟩
    let history := Env.history ⟨chain.source, {}⟩ program { source := 0 }
    chain.source.Bounded ∧
      history.head?.map (fun m => m.after.trace.allocLeft) =
        some (1048576 - (64 + 67 + 5 + (32 + 32) + 64)) ∧
      ∃ now past, history = now :: past ∧
        now.after.trace.allocLeft + (history.map (Moment.bytes chain.source.answers
          (Value.resolveEach chain.source.answers now.after.frame.stack now.after.session).2)).sum =
            1048576 := by
  intro chain program history
  have bounded : chain.source.Bounded := Chain.bounded (by decide +kernel)
  obtain ⟨_, sums⟩ := charged_history {} program bounded 0
  obtain ⟨now, past, hp⟩ := List.exists_cons_of_length_pos
    (show 0 < history.length by decide +kernel)
  refine ⟨bounded, by decide +kernel, now, past, hp, ?_⟩
  rw [hp]
  refine sums (hp ▸ List.suffix_rfl) List.suffix_rfl _ fun v hv => ?_
  exact ⟨now, List.mem_cons_self, Or.inl hv⟩

end ChainRead
