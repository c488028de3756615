import ChainRead.Proofs.Evaluation.Comparison
import ChainRead.Source.Chain

/-! # Calls are covered when they are made

A failure ends an evaluation where it stands. So the moment of a call is the end of the run against
a source that answers the calls before it and fails from then on, and the needs registered by then
are the ones that this run leaves.
-/

namespace ChainRead

open Need

variable {σ : Type}

/-- A source that answers as many calls as the number in its state says, and then fails. -/
def Source.stopping (src : Source σ) : Source (σ × Nat) where
  answer c := fun (s, left) =>
    match left with
    | 0 => (.error ⟨"stopped"⟩, (s, 0))
    | left + 1 => ((src.answer c s).1, ((src.answer c s).2, left))

namespace Lockstep

def itself (config : Config) (src : Source σ) : Lockstep σ σ where
  config := config
  left := src
  right := src
  rel s t := s.1 = t
  gone _ _ _ _ _ := False
  gone_left h _ _ := h
  gone_right _ _ _ h := h
  step {s calls t} c h := by
    obtain rfl : s = t := h
    exact Or.inl ⟨rfl, rfl⟩

theorem itself_not_gone {config : Config} {src : Source σ} {needs m : List (Need Question)}
    {calls : List Call} {r : Except EvalError Unit} {t : σ} :
    ¬ (itself config src).gone needs calls r t m := id

/-- A source beside the one that stops after `k` calls. Once that has stopped, it has made one more
call, and the other evaluation goes on from there. -/
def stopped (config : Config) (src : Source σ) (k : Nat) : Lockstep σ ((σ × Nat) × List Call) where
  config := config
  left := src
  right := src.stopping.logged
  rel s t := t.1.1 = s.1 ∧ t.2 = s.2 ∧ s.2.length + t.1.2 = k
  gone needs calls r t m :=
    (∃ e, r = .error e) ∧ t.2 <:+ calls ∧ t.2.length = k + 1 ∧ Grows m needs
  gone_left h hg hc := ⟨h.1, h.2.1.trans hc, h.2.2.1, h.2.2.2.trans hg⟩
  gone_right _ _ _ h := nomatch h.1
  step {s calls t} c h := by
    obtain ⟨⟨s', left⟩, calls'⟩ := t
    obtain ⟨hs, hc, hk⟩ := h
    cases hs
    cases hc
    cases left with
    | zero =>
      refine Or.inr fun needs r _ hr => ⟨⟨_, hr _ rfl⟩, List.suffix_rfl, ?_, .refl _⟩
      exact congrArg (· + 1) hk
    | succ left =>
      refine Or.inl ⟨rfl, rfl, rfl, ?_⟩
      show calls.length + 1 + left = k
      have hk : calls.length + (left + 1) = k := hk
      omega

end Lockstep

/-- The run against the source that stops after `k` calls makes the first calls of the whole run,
failing with the one after these if there is one. What it registered is there in the whole run. -/
theorem stopped_prefix (config : Config) (src : Source σ) (program : Program) (source : σ)
    (k : Nat) :
    let whole := (Env.run ⟨src.logged, config⟩ program { source := (source, []) }).2
    let part := Env.run ⟨src.stopping.logged, config⟩ program { source := ((source, k), []) }
    part.2.session.source.2.reverse = whole.session.source.2.reverse.take (k + 1) ∧
      (k < whole.session.source.2.length → ∃ e, part.1 = .error e) ∧
      Grows part.2.trace.needs whole.trace.needs := by
  intro whole part
  have all {calls calls' : List Call} {left : Nat} (h : calls' = calls)
      (hl : calls.length + left = k) : calls'.reverse = calls.reverse.take (k + 1) := by
    rw [h, List.take_of_length_le]
    rw [List.length_reverse]
    omega
  cases (Lockstep.stopped config src k).run program (x := source) (y := ((source, k), []))
    ⟨rfl, rfl, Nat.zero_add k⟩ with
  | both w _ _ _ _ _ trace inv =>
    have trace : whole.trace = part.2.trace := trace
    obtain ⟨_, hc, hl⟩ := inv.rel
    refine ⟨all hc hl, fun hk => ?_, ?_⟩
    · have hl : whole.session.source.2.length + part.2.session.source.1.2 = k := hl
      omega
    · rw [trace]
      exact .refl _
  | failed e _ right needs _ rel =>
    have needs : whole.trace.needs = part.2.trace.needs := needs
    obtain ⟨_, hc, hl⟩ := rel
    refine ⟨all hc hl, fun _ => ⟨e, right⟩, ?_⟩
    rw [needs]
    exact .refl _
  | gone h =>
    -- the source stopped, and the call that failed for that is the last one logged
    obtain ⟨⟨e, he⟩, ⟨later, hc⟩, hl, hg⟩ := h
    have hc : later ++ part.2.session.source.2 = whole.session.source.2 := hc
    have hl : part.2.session.source.2.length = k + 1 := hl
    refine ⟨?_, fun _ => ⟨e, Lockstep.error_of_map he⟩, hg⟩
    rw [← hc, List.reverse_append, List.take_left']
    rw [List.length_reverse, hl]

theorem run_back (config : Config) (src : Source σ) (program : Program) (source : σ) :
    let s := (Env.run ⟨src.logged, config⟩ program { source := (source, []) }).2
    Back s.trace.needs s.session.source.2 :=
  ((Lockstep.itself config src).run program rfl).back Lockstep.itself_not_gone

theorem resolve_back (config : Config) (src : Source σ) (program : Program) (source : σ) :
    let r := Env.run ⟨src.logged, config⟩ program { source := (source, []) }
    ∀ exitCode, r.1 = .ok exitCode → ∀ vs : List (Value Question), (∀ v ∈ vs, v ∈ r.2.outputs) →
      Back r.2.trace.needs (Value.resolveEach src.logged.answers vs r.2.session).2.source.2 := by
  intro r exitCode hr vs hv
  cases (Lockstep.itself config src).run program (x := source) rfl with
  | both w _ _ _ _ valid _ inv =>
    exact (inv.resolveEach Lockstep.itself_not_gone fun v h => valid v (hv v h)).2.sound.back
  | failed e left =>
    have left : r.1 = .error e := left
    rw [hr] at left
    cases left
  | gone h => cases h

/-- At every moment of a run the needs registered by then cover the calls made by then, the one
being made included, and so they do while outputs are resolved later. -/
theorem calls_covered (config : Config) (src : Source σ) (program : Program) (source : σ) :
    let r := Env.run ⟨src.logged, config⟩ program { source := (source, []) }
    (∀ k,
      let part := Env.run ⟨src.stopping.logged, config⟩ program { source := ((source, k), []) }
      part.2.session.source.2.reverse = r.2.session.source.2.reverse.take (k + 1) ∧
        (k < r.2.session.source.2.length → ∃ e, part.1 = .error e) ∧
        Grows part.2.trace.needs r.2.trace.needs ∧
        Back part.2.trace.needs part.2.session.source.2) ∧
    Back r.2.trace.needs r.2.session.source.2 ∧
    ∀ exitCode, r.1 = .ok exitCode → ∀ vs : List (Value Question), (∀ v ∈ vs, v ∈ r.2.outputs) →
      ∀ calls, calls <:+ (Value.resolveEach src.logged.answers vs r.2.session).2.source.2 →
        Back r.2.trace.needs calls := by
  intro r
  refine ⟨fun k => ?_, run_back config src program source, fun exitCode hr vs hv calls hc => ?_⟩
  · obtain ⟨hc, he, hg⟩ := stopped_prefix config src program source k
    exact ⟨hc, he, hg, run_back config src.stopping program (source, k)⟩
  · exact (resolve_back config src program source exitCode hr vs hv).of_suffix hc

/-- The one call of a program that reads a slot is made when its output is resolved. -/
theorem calls_covered_chain :
    let src := (Chain.withStorage {} 7 3 5).source
    let program : Program := ⟨1, Instruction.encodeAll [.push 7, .plain .setTarget, .push 3,
      .plain .setSlot, .plain .readSlot, .push 0, .plain .setOutput]⟩
    let r := Env.run ⟨src.logged, {}⟩ program { source := (0, []) }
    r.1 = .ok 0 ∧ r.2.session.source.2 = [] ∧
      (Value.resolveEach src.logged.answers r.2.outputs r.2.session).2.source.2 =
        [.storage 7 3] ∧
      Back r.2.trace.needs [.storage 7 3] := by
  intro src program r
  have hr : r.1 = .ok 0 := by decide +kernel
  have hc : (Value.resolveEach src.logged.answers r.2.outputs r.2.session).2.source.2 =
      [.storage 7 3] := by decide +kernel
  have hs : r.2.session.source.2 = [] := by decide +kernel
  have h := (calls_covered {} src program 0).2.2
  have hrun : Env.run ⟨src.logged, {}⟩ program { source := (0, []) } = r := rfl
  rw [hrun] at h
  -- The run is not to be evaluated again from here on.
  clear_value r
  have hb := h 0 hr r.2.outputs (fun _ hv => hv) _ List.suffix_rfl
  rw [hc] at hb
  exact ⟨hr, hs, hc, hb⟩

end ChainRead
