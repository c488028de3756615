import ChainRead.Proofs.Backing.Supplied
import ChainRead.Proofs.Evaluation.Calls
import ChainRead.Proofs.Evaluation.Supplying

/-! # The integrity of supplied bytes

A source may supply wrong bytes, too many of them or others each time. The bytes that anything makes
of a read are of its hash nevertheless, and everything that looks at them sees the same, from the
run on to the resolution of outputs and to the proofs. For each read they are asked for once.
-/

namespace ChainRead

open Need Session

variable {σ : Type}

/-- Sessions that follow one another, latest first: those after the instructions of a run, the one
at its end and, if the run returned, those after a value that it left was resolved or its needs were
proven, as often as one likes and in any order. -/
inductive Env.Course (env : Env σ) (program : Program) (start : Session σ) :
    List (Session σ) → Prop
  | ran : Course env program start ((env.run program start).2.session ::
      (env.history program start).map fun m => m.after.session)
  | resolve {exitCode : UInt8} {v : Value Question} {t : Session σ} {past : List (Session σ)}
    (hr : (env.run program start).1 = .ok exitCode)
    (hv : (Env.evaluation exitCode (env.run program start).2).Leaves v)
    (h : Course env program start (t :: past)) :
    Course env program start ((v.resolve env.source.answers t).2 :: t :: past)
  | prove {exitCode : UInt8} {t : Session σ} {past : List (Session σ)}
    (hr : (env.run program start).1 = .ok exitCode)
    (h : Course env program start (t :: past)) :
    Course env program start ((prove env.source env.source.answers
      (env.run program start).2.trace.needs t).2 :: t :: past)

namespace Env.Course

variable {env : Env σ} {program : Program} {start : Session σ} {l : List (Session σ)}

/-- What holds at the end of a run holds from then on, if it is kept by resolving the values that
the run left and by calls that are not for supplied bytes. -/
theorem maintained {I : Session σ → Prop} (ran : I (env.run program start).2.session)
    (hv : ∀ exitCode v, (env.run program start).1 = .ok exitCode →
      (Env.evaluation exitCode (env.run program start).2).Leaves v →
      Maintains I (v.resolve env.source.answers))
    (hc : ∀ (c : Call) s, c.isSupply = false → I s →
      I { s with source := (env.source.answer c s.source).2 })
    (h : env.Course program start l) : ∀ t ∈ l.head?, I t := by
  induction h with
  | ran => simpa using ran
  | @resolve exitCode v t past hr hleaf _ ih =>
    have ht : I t := ih t rfl
    simpa using hv exitCode v hr hleaf t ht
  | @prove exitCode t past hr _ ih =>
    have ht : I t := ih t rfl
    have hneeds (hash : Word) (v : Value Question)
        (hn : .read (.hashed hash v) ∈ (env.run program start).2.trace.needs) :
        Maintains I (v.resolve env.source.answers) := hv exitCode v hr (Or.inr ⟨hash, hn⟩)
    simpa using prove_maintains hneeds hc t ht

theorem resolveEach {exitCode : UInt8} {t : Session σ} {past : List (Session σ)}
    (h : env.Course program start (t :: past)) (hr : (env.run program start).1 = .ok exitCode)
    {vs : List (Value Question)}
    (hv : ∀ v ∈ vs, (Env.evaluation exitCode (env.run program start).2).Leaves v) :
    ∃ past, env.Course program start
      ((Value.resolveEach env.source.answers vs t).2 :: past) := by
  induction vs generalizing t past with
  | nil => exact ⟨past, h⟩
  | cons v vs ih =>
    rw [List.forall_mem_cons] at hv
    exact ih (.resolve hr hv.1 h) hv.2

theorem resolveOutputs {exitCode : UInt8} (hr : (env.run program start).1 = .ok exitCode) :
    ∃ past, env.Course program start ((Value.resolveEach env.source.answers
      (env.run program start).2.outputs (env.run program start).2.session).2 :: past) :=
  resolveEach .ran hr fun _ hv => Or.inl hv

theorem ordered (ran : ((env.run program start).2.session ::
      (env.history program start).map fun m => m.after.session).Pairwise
        fun later earlier => earlier.Settles later)
    (h : env.Course program start l) : l.Pairwise fun later earlier => earlier.Settles later := by
  have next {t u : Session σ} {past : List (Session σ)} (hu : t.Settles u)
      (ht : (t :: past).Pairwise fun later earlier => earlier.Settles later) :
      (u :: t :: past).Pairwise fun later earlier => earlier.Settles later := by
    refine List.pairwise_cons.mpr ⟨?_, ht⟩
    rw [List.forall_mem_cons]
    exact ⟨hu, fun s hs id o ho => hu id o ((List.pairwise_cons.mp ht).1 s hs id o ho)⟩
  induction h with
  | ran => exact ran
  | @resolve _ v t _ _ _ _ ih => exact next (kept_settles.resolve v t) ih
  | @prove _ t _ _ _ ih =>
    refine next (prove_maintains (I := t.Settles) (fun hash v _ u hu id o ho => ?_)
      (fun _ _ _ hu => hu) t fun _ _ h => h) ih
    exact kept_settles.resolve v u id o (hu id o ho)

end Env.Course

namespace Attesting

/-- What is known after a run: its needs for supplied bytes are tallied, but for one that a read
registered before it failed, and all of them are attested. What it left is meant. -/
structure Known (env : Env σ) (program : Program) (start : Session σ)
    (ps new : List (Word × Value Question)) (w : Ledger) : Prop where
  needs : supplied (env.run program start).2.trace.needs = ps ++ new
  few : new.length ≤ 1
  none : ∀ exitCode, (env.run program start).1 = .ok exitCode → new = []
  tallied : Tallied env ps (env.history program start) w
  attested : ∀ p ∈ supplied (env.run program start).2.trace.needs,
    attested env.config.maxSuppliedBytes.toNat p w
  honours : (env.run program start).2.session.Honours True w
  outputs : ∀ exitCode, (env.run program start).1 = .ok exitCode →
    ∀ v ∈ (env.run program start).2.outputs, meant env.source v w

theorem known (config : Config) (src : Source σ) (program : Program) (source : σ) :
    ∃ ps new w, Known ⟨src, config⟩ program { source } ps new w := by
  cases runs config src program source with
  | both w a b _ left right _ inv =>
    have told : Tallied ⟨src, config⟩ (supplied _) (Env.history ⟨src, config⟩ program { source })
      w := inv.memory.beside
    refine ⟨_, [], w, (List.append_nil _).symm, Nat.zero_le 1, fun _ _ => rfl, told, told.attested,
      inv.memory.honours, fun _ _ => ?_⟩
    exact (Watching.of_itself inv.outputs).2
  | halted ended =>
    obtain ⟨e, w, left, _, hw⟩ := ended
    have left : (Env.run ⟨src, config⟩ program { source }).1 = .error e :=
      eq_error_of_forget left
    obtain ⟨ps, new, needs, few, told, attested⟩ := hw.beside
    refine ⟨ps, new, w, needs, few, fun _ hr => ?_, told, fun p hp => ?_, hw.honours,
      fun _ hr => ?_⟩
    · cases left.symm.trans hr
    · have needs : supplied (Env.run ⟨src, config⟩ program { source }).2.trace.needs = ps ++ new :=
        needs
      rw [needs, List.mem_append] at hp
      rcases hp with hp | hp
      · exact told.attested p hp
      · exact attested p hp
    · cases left.symm.trans hr

end Attesting

/-! ## Calls for supplied bytes -/

namespace Lockstep

/-- A source beside itself, of which the right one may make calls of its own, but none for supplied
bytes. -/
def supplying (config : Config) (src : Source σ) : Lockstep σ (σ × List Call) where
  config := config
  left := src
  right := src.logged
  rel s t := s.1 = t.1 ∧ ∀ hash, t.2.count (.hashedBytes hash) = s.2.count (.hashedBytes hash)
  gone _ _ _ _ _ := False
  gone_left h _ _ := h
  gone_right _ _ _ h := h
  step {s calls t} c h := by
    obtain ⟨rfl, hc⟩ := h
    refine Or.inl ⟨rfl, rfl, fun hash => ?_⟩
    show (c :: t.2).count _ = (c :: calls).count _
    rw [List.count_cons, List.count_cons, hc]

variable {config : Config} {src : Source σ} {s s' : Session (σ × List Call)} {t : Trace Question}
  {w : Progress}

theorem Inv.supplies (h : (supplying config src).Inv s s' t w) (hash : Word) :
    s'.source.2.count (.hashedBytes hash) ≤ (hashesRead t.needs).count hash := by
  obtain ⟨_, hc⟩ := h.rel
  rw [hc]
  exact h.sound.back (.hashedBytes hash)

theorem Inv.aside (h : (supplying config src).Inv s s' t w) {c : Call} (hc : c.isSupply = false) :
    ∃ u, (supplying config src).Inv u
      { s' with source := (src.logged.answer c s'.source).2 } t w := by
  obtain ⟨_, hcount⟩ := h.rel
  have sound := h.sound
  refine ⟨{ s with source := ((src.answer c s'.source.1).2, s.source.2) }, h.next, h.settled,
    ⟨rfl, fun hash => ?_⟩, ?_⟩
  · have hne : c ≠ .hashedBytes hash := by
      rintro rfl
      cases hc
    show (c :: s'.source.2).count _ = s.source.2.count _
    rw [List.count_cons_of_ne hne, hcount]
  · exact ⟨sound.covers, sound.selected, sound.supplied, sound.failures, sound.balanced⟩

end Lockstep

/-- In every course of sessions the calls for supplied bytes do not exceed the needs for them. -/
theorem Env.Course.supplies {config : Config} {src : Source σ} {program : Program} {source : σ}
    {t : Session (σ × List Call)} {past : List (Session (σ × List Call))}
    (h : Env.Course ⟨src.logged, config⟩ program { source := (source, []) } (t :: past))
    (hash : Word) :
    t.source.2.count (.hashedBytes hash) ≤ (hashesRead
      (Env.run ⟨src.logged, config⟩ program { source := (source, []) }).2.trace.needs).count
        hash := by
  have start : (Lockstep.supplying config src).rel (source, []) (source, []) := ⟨rfl, fun _ => rfl⟩
  cases (Lockstep.supplying config src).run program start with
  | both w exitCode left right outputs valid trace inv =>
    let I (t : Session (σ × List Call)) : Prop := ∃ s, (Lockstep.supplying config src).Inv s t
      (Env.run ⟨src.logged, config⟩ program { source := (source, []) }).2.trace w
    have resolve (v : Value Question) (hv : v.Valid w.1) :
        Maintains I (v.resolve src.logged.answers) := by
      rintro t ⟨s, hs⟩
      exact ⟨_, (hs.resolve id hv).2.2⟩
    obtain ⟨s, hs⟩ : I t := by
      refine h.maintained (I := I) ⟨_, inv⟩ ?_ (fun c t hc ⟨s, hs⟩ => hs.aside hc) t rfl
      rintro _ v _ (hv | ⟨hash, hv⟩)
      · exact resolve v (valid v hv)
      · exact resolve v (inv.sound.supplied (hash, v) (mem_supplied.mpr hv))
    exact hs.supplies hash
  | failed e left _ _ back =>
    cases h with
    | ran => exact back (.hashedBytes hash)
    | resolve hr => cases left.symm.trans hr
    | prove hr => cases left.symm.trans hr
  | gone h => exact h.elim

/-! ## What everything sees -/

/-- What a session says of the value that a need for supplied bytes holds. -/
structure Session.Upholds (t : Session σ) (answers : Answers Question σ) (max : Nat)
    (p : Word × Value Question) : Prop where
  /-- Whatever resolves the value on the way here gets bytes of the hash, unless that fails. -/
  attests {s : Session σ} {bytes : Bytes} : s.Settles t → (p.2.resolve answers s).1 = .ok bytes →
    Attests p.1 max bytes
  /-- Everything that has resolved the value by now got the same. -/
  same {s : Session σ} : (p.2.resolve answers s).2.Settles t →
    (p.2.resolve answers s).1 = (p.2.resolve answers t).1

theorem Session.Honours.upholds {src : Source σ} {t : Session σ} {w : Ledger}
    (h : t.Honours True w) {max : Nat} {p : Word × Value Question} (hp : attested max p w) :
    t.Upholds src.answers max p where
  attests {s bytes} hs hb := by
    obtain ⟨id, hv, hp⟩ := hp
    rcases ho : s.outcome? id with _ | o
    · have fits := src.fits_hashed p.1 max s.source
      rw [hv, Value.resolve, once_of_not_settled ho] at hb
      have hb : (src.answers (.hashed p.1 max) s.source).1 = .ok bytes := hb
      rwa [hb] at fits
    · obtain ⟨φ, hφ, fits⟩ := h.settled (hs id o ho)
      cases hp.symm.trans hφ
      rw [hv, Value.resolve_of_settled rfl ho] at hb
      cases hb
      exact fits
  same hs := (Value.resolve_again hs).symm

/-- Every read of supplied bytes has a need of its own, which holds the value that was pushed. No
instruction unsettles what was settled, so in any course of sessions the value has bytes of the hash
that was popped or none, it is the same for everything that resolves it, proofs included, and the
bytes are asked for at most once. -/
theorem supplied_integrity (config : Config) (src : Source σ) (program : Program) (source : σ) :
    let env : Env (σ × List Call) := ⟨src.logged, config⟩
    let answers := src.logged.answers
    let start : Session (σ × List Call) := { source := (source, []) }
    let r := env.run program start
    let needs : List (Need Question) := r.2.trace.needs
    (env.runWatched program start).1 = r.1 ∧
    (∃ ps new, supplied needs = ps ++ new ∧
      List.Forall₂ (Moment.Reads env) (Moment.reads (env.history program start)) ps ∧
      new.length ≤ 1 ∧ ∀ exitCode, r.1 = .ok exitCode → new = []) ∧
    (∀ m ∈ env.history program start, m.before.session.Settles m.after.session) ∧
    ∀ t past, env.Course program start (t :: past) →
      (t :: past).Pairwise (fun later earlier => earlier.Settles later) ∧
      (∀ p ∈ supplied needs, t.Upholds answers config.maxSuppliedBytes.toNat p) ∧
      (∀ hash, t.source.2.count (.hashedBytes hash) ≤ (hashesRead needs).count hash) ∧
      (∀ (seq : ProofSequence) t', prove src.logged answers needs t = (.ok seq, t') →
        ∀ (i : Nat) hash (v : Value Question), needs[i]? = some (.read (.hashed hash v)) →
          ∃ (n : UInt8) (bytes : Bytes), seq.order[i]? = some n ∧
            seq.proofs[n.toNat]? = some bytes ∧ (v.resolve answers t').1 = .ok bytes) ∧
      ∀ cause t', prove src.logged answers needs t = (.error cause, t') →
        ProofPlan.ofNeeds needs = .error cause ∨
          (∃ plan, ProofPlan.ofNeeds needs = .ok plan ∧
            (Batch.proveAll src.logged plan.batches t.source).1 = .error cause) ∨
          ∃ hash v, .read (.hashed hash v) ∈ needs ∧ (v.resolve answers t').1 = .error cause := by
  intro env answers start r needs
  obtain ⟨ps, new, w, known⟩ := Attesting.known config src.logged program (source, [])
  refine ⟨?_, ⟨ps, new, known.needs, known.tallied.reads, known.few, known.none⟩,
    known.tallied.kept, ?_⟩
  · -- the run that is watched gives what the run gives
    cases Attesting.runs config src.logged program (source, []) with
    | both w a b _ left right post _ =>
      cases post
      exact right.trans left.symm
    | halted ended =>
      obtain ⟨e, _, left, right, _⟩ := ended
      exact (eq_error_of_forget right).trans (eq_error_of_forget left).symm
  intro t past h
  -- what is known at the end of the run outlasts it, as values are only resolved from then on
  have honours : t.Honours True w := by
    refine h.maintained (I := fun t => t.Honours True w) known.honours ?_ (fun c t _ ht => ?_) t rfl
    · rintro exitCode v hr (hv | ⟨hash, hv⟩) t ht
      · obtain ⟨φ, hm⟩ := known.outputs exitCode hr v hv
        exact (hm.resolve v t ht).2
      · have hm := known.attested (hash, v) (mem_supplied.mpr hv)
        exact ((means_of_attested src.logged hm).resolve v t ht).2
    · exact ⟨ht.fresh, ht.settled, ht.found⟩
  refine ⟨h.ordered ?_, fun p hp => honours.upholds (known.attested p hp), h.supplies,
    fun seq t' hs i hash v hn => prove_supplied hs hn, fun cause t' hs => prove_error hs⟩
  refine List.pairwise_cons.mpr ⟨?_, List.pairwise_map.mpr known.tallied.ordered⟩
  intro s hs id o ho
  obtain ⟨m, hm, rfl⟩ := List.mem_map.mp hs
  exact known.honours.found (known.tallied.settled m hm id o ho)

/-- Bytes are read twice from a source that supplies the right ones only two times. Proofs do not
ask for them again. -/
theorem supplied_integrity_fickle :
    let src : Source Nat :=
      { answer
          | .hashedBytes _ => fun n => (.ok (if n < 2 then [1, 2, 3] else [4]), n + 1)
          | _ => fun n => (.error ⟨"nothing"⟩, n) }
    let hash := keccak256 [1, 2, 3]
    let program : Program := ⟨2, Instruction.encodeAll [.push hash, .plain .readHashedBytes,
      .push 0, .plain .setOutput, .push hash, .plain .readHashedBytes, .push 1,
      .plain .setOutput]⟩
    let env : Env (Nat × List Call) := ⟨src.logged, {}⟩
    let start : Session (Nat × List Call) := { source := (0, []) }
    let values := Value.resolveEach src.logged.answers (env.run program start).2.outputs
      (env.run program start).2.session
    let needs : List (Need Question) := (env.run program start).2.trace.needs
    values.1.map Except.toOption = [some [1, 2, 3], some [1, 2, 3]] ∧
      ∃ seq t past, prove src.logged src.logged.answers needs values.2 = (.ok seq, t) ∧
        seq.proofs = [[1, 2, 3], [1, 2, 3]] ∧
        t.source.2 = [.hashedBytes hash, .hashedBytes hash] ∧
        env.Course program start (t :: values.2 :: past) ∧
        (∀ p ∈ supplied needs,
          t.Upholds src.logged.answers env.config.maxSuppliedBytes.toNat p) ∧
        ∀ (i : Nat) hash (v : Value Question), needs[i]? = some (.read (.hashed hash v)) →
          ∃ (n : UInt8) (bytes : Bytes), seq.order[i]? = some n ∧
            seq.proofs[n.toNat]? = some bytes ∧ (v.resolve src.logged.answers t).1 = .ok bytes := by
  intro src hash program env start values needs
  have hr : (env.run program start).1 = .ok 0 := by decide +kernel
  have bytes : values.1.map Except.toOption = [some [1, 2, 3], some [1, 2, 3]] := by
    decide +kernel
  have calls : (prove src.logged src.logged.answers needs values.2).2.source.2 =
      [.hashedBytes hash, .hashedBytes hash] := by decide +kernel
  obtain ⟨seq, t, proven, proofs⟩ := Fallible.exists_ok
    (x := prove src.logged src.logged.answers needs) (s := values.2)
    (p := fun seq => seq.proofs = [[1, 2, 3], [1, 2, 3]]) (by decide +kernel)
  rw [proven] at calls
  obtain ⟨past, resolved⟩ : ∃ past, env.Course program start (values.2 :: past) :=
    Env.Course.resolveOutputs hr
  have course : env.Course program start (t :: values.2 :: past) := by
    have next := Env.Course.prove hr resolved
    rwa [show prove env.source env.source.answers needs values.2 = (.ok seq, t) from proven] at next
  have integrity := (supplied_integrity {} src program 0).2.2.2
  refine ⟨bytes, seq, t, past, proven, proofs, calls, course, (integrity t _ course).2.1, ?_⟩
  exact (integrity values.2 past resolved).2.2.2.1 seq t proven

end ChainRead
