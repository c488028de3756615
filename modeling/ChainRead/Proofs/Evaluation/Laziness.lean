import ChainRead.Proofs.Evaluation.Metering
import ChainRead.Proofs.Evaluation.Nesting
import ChainRead.Proofs.Source.Answers
import ChainRead.Source.Chain

/-! # Laziness cannot be observed

An eager evaluation resolves every value as soon as it is made. As long as all that it asks for is
answered without failure, the evaluation that resolves values at their first use gives the same
outcome: what is pending on one side stands for the bytes that are known on the other.
-/

namespace ChainRead

/-- An answer that an evaluation accepts: it is no failure, and for a hash it is a byte string with
that hash of at most `limit` bytes. No byte string has `2 ^ 63` bytes. -/
def Call.Accepted (limit : Nat) : (c : Call) → Except BackingError c.Answer → Prop
  | .hashedBytes hash, .ok bytes =>
    keccak256 bytes = hash ∧ bytes.length ≤ limit ∧ bytes.length < 2 ^ 63
  | _, .ok _ => True
  | _, .error _ => False

instance Call.decidableAccepted (limit : Nat) :
    (c : Call) → (r : Except BackingError c.Answer) → Decidable (c.Accepted limit r)
  | .hashedBytes _, .ok _ => inferInstanceAs (Decidable (_ ∧ _ ∧ _))
  | .storage .., .ok _ | .isContract _, .ok _ | .proofs .., .ok _ => isTrue trivial
  | .storage .., .error _ | .isContract _, .error _ | .proofs .., .error _
  | .hashedBytes _, .error _ => isFalse id

namespace Question

def Within (limit : Nat) : Question → Prop
  | hashed _ max => max = limit
  | _ => True

theorem finish_accepted {q : Question} {limit : Nat} (hq : q.Within limit)
    {r : Except BackingError q.call.Answer} (h : q.call.Accepted limit r) :
    ∃ bytes, q.finish r = .ok bytes ∧ q.Sized bytes.length := by
  rcases r with e | answer
  · cases q <;> cases h
  · cases q with
    | storage => exact ⟨Word.toBytes answer, rfl, sized_word rfl _⟩
    | isContract => exact ⟨(Word.ofBool answer).toBytes, rfl, sized_word rfl _⟩
    | hashed hash max =>
      obtain ⟨hk, hl, hb⟩ := h
      have hm : max = limit := hq
      refine ⟨answer, ?_, hb, fun _ h => nomatch h⟩
      show checkSupplied hash max answer = .ok answer
      simp [checkSupplied, hm, hl, hk]

end Question

/-- No value to come is settled. -/
def Session.Fresh {σ : Type} (s : Session σ) : Prop := ∀ id, s.next ≤ id → s.outcome? id = none

theorem Session.Fresh.skip {σ : Type} {s : Session σ} (h : s.Fresh) (ran : List Nat) :
    Fresh { s with next := s.next + 1, ran } := fun id hid => h id (Nat.le_of_succ_le hid)

theorem Session.Fresh.settle {σ : Type} {s : Session σ} (h : s.Fresh) (source : σ) (o : Outcome)
    (ran : List Nat) :
    Fresh { s with source, next := s.next + 1, settled := (s.next, o) :: s.settled, ran } := by
  intro id hid
  have hid : s.next + 1 ≤ id := hid
  have := outcome?_settle s.next o { s with source, next := s.next + 1, ran } id
  rw [if_neg (by omega)] at this
  exact this.trans (h id (by omega))

namespace Laziness

variable {σ : Type}

open Coupling Eval Ledger

/-- A known value stands for a pending one that has the same bytes. Something may hold of their
length. -/
def stands (answers : Answers Question σ) (K : Nat → Fact Ledger) (v v' : Value Question) :
    Fact Ledger where
  toFun w := ∃ b, v = .known b ∧ K b.length w ∧ Describes answers False w v' (· = b)
  monotone' := by
    rintro w w' hw ⟨b, hv, hK, hd⟩
    exact ⟨b, hv, (K _).monotone hw hK, hd.mono hw⟩

/-- The comparison of an eager evaluation, which logs its calls, and a lazy one. -/
def metered (config : Config) (src : Source σ) (f : (c : Call) → Except BackingError c.Answer) :
    Metered (σ × List Call) σ where
  config := config
  left := src.logged
  right := src
  value := stands src.answers bounded
  sessions s t w := s.Fresh ∧ t.Honours False w
  gone source := ∃ c ∈ source.2, ¬ c.Accepted config.maxSuppliedBytes.toNat (f c)
  failed _ _ := True
  failed_of _ := trivial

variable {config : Config} {src : Source σ} {f : (c : Call) → Except BackingError c.Answer}

abbrev simulation (config : Config) (src : Source σ)
    (f : (c : Call) → Except BackingError c.Answer) : Simulation Ledger (σ × List Call) σ :=
  (metered config src f).simulation

theorem stands_le {K K' : Nat → Fact Ledger} (h : ∀ n, K n ≤ K' n) (v v' : Value Question) :
    stands src.answers K v v' ≤ stands src.answers K' v v' := by
  rintro w ⟨b, hv, hK, hd⟩
  exact ⟨b, hv, h _ w hK, hd⟩

theorem persists {s s' : State (σ × List Call)} {r : Except EvalError Unit}
    {q : Except EvalError Unit × State σ}
    (h : (simulation config src f).memory.ended (.ok (), s) q)
    (hs : s.session.source.2 <:+ s'.session.source.2) :
    (simulation config src f).memory.ended (r, s') q :=
  Metered.persists h fun ⟨c, hc, ha⟩ => ⟨c, hs.subset hc, ha⟩

theorem force_apply (env : Env σ) (k : StateM (Session σ) (Value Question)) (s : State σ) :
    force env k s =
      (((k s.session).1.resolve env.source.answers (k s.session).2).1.map .known,
        { s with session := ((k s.session).1.resolve env.source.answers (k s.session).2).2 }) := by
  have hr (v : Value Question) (s : State σ) : resolve env v s =
    ((v.resolve env.source.answers s.session).1,
      { s with session := (v.resolve env.source.answers s.session).2 }) := rfl
  have hc : create k s = (.ok (k s.session).1, { s with session := (k s.session).2 }) := rfl
  rw [force, Fallible.bind_of_ok hc, Fallible.bind_apply, hr]
  rcases ((k s.session).1.resolve env.source.answers (k s.session).2).1 with e | b <;> rfl

theorem made {P : Fact Ledger} {K : Nat → Fact Ledger}
    {k : StateM (Session (σ × List Call)) (Value Question)}
    {k' : StateM (Session σ) (Value Question)} (hk : ∀ s, (k s).2.source = s.source)
    (h : ∀ {w s t}, P w → s.Fresh → t.Honours False w →
      (∃ c ∈ ((k s).1.resolve src.logged.answers (k s).2).2.source.2,
        ¬ c.Accepted config.maxSuppliedBytes.toNat (f c)) ∨
      ∃ b s', (k s).1.resolve src.logged.answers (k s).2 = (.ok b, s') ∧ s'.Fresh ∧
        K b.length w ∧ Promises src.answers False w (· = b) (k' t)) :
    (simulation config src f).memory.Follows P (force (simulation config src f).env₁ k)
      (create k') (stands src.answers K) where
  run {w s t} hw hi := by
    rw [force_apply]
    rcases h hw hi.1.1 hi.1.2 with hg | ⟨b, s', hb, hs', hK, w', hle, hc, ht, hd⟩
    · exact .halted (Or.inl hg)
    · have hb : (k s.session).1.resolve (simulation config src f).env₁.source.answers
        (k s.session).2 = (.ok b, s') := hb
      rw [hb]
      refine .both w' (.known b) _ hle rfl rfl ⟨b, rfl, (K _).monotone hle hK, hd⟩ ?_
      exact Metered.grow hi hle hc ⟨hs', ht⟩
  stays {s q} h := by
    rw [force_apply]
    refine persists h ?_
    have hl := src.kept_log.resolve (k s.session).1 (k s.session).2
    rwa [hk] at hl

def sizes (config : Config) (src : Source σ) (f : (c : Call) → Except BackingError c.Answer) :
    (simulation config src f).Sizes where
  sized n := stands src.answers fun m => Fact.of (m = n)
  paid := bounded

section Values

variable {P : Fact Ledger}

theorem parts {K : Nat → Fact Ledger} {vs ws : List (Value Question)} {w : Ledger}
    (h : List.Forall₂ (fun v v' => stands src.answers K v v' w) vs ws) :
    ∃ bs : List Bytes, vs = bs.map .known ∧ (∀ b ∈ bs, K b.length w) ∧
      List.Forall₂ (Means src.answers False w) ws (bs.map fun b c => c = b) := by
  induction h with
  | nil => exact ⟨[], rfl, fun _ h => (nomatch h), .nil⟩
  | cons hv _ ih =>
    obtain ⟨b, rfl, hK, hd⟩ := hv
    obtain ⟨bs, rfl, hKs, hds⟩ := ih
    exact ⟨b :: bs, rfl, List.forall_mem_cons.mpr ⟨hK, hKs⟩, .cons hd.means hds⟩

theorem resolveAll_known (answers : Answers Question σ) (bs : List Bytes) (s : Session σ) :
    Value.resolveAll answers (bs.map .known) s = (.ok bs, s) := by
  induction bs with
  | nil => rfl
  | cons b bs ih =>
    rw [List.map_cons, Value.resolveAll, Value.resolve]
    simp only [Fallible.bind_apply, Fallible.pure_apply, ih]

theorem eq_of_singletons {bs cs : List Bytes}
    (h : List.Forall₂ (fun (φ : Bytes → Prop) b => φ b) (bs.map fun b c => c = b) cs) :
    cs = bs := by
  rw [List.forall₂_map_left_iff] at h
  induction h with
  | nil => rfl
  | cons hb _ ih => rw [hb, ih]

theorem joined (size : Nat) (vs ws : List (Value Question)) :
    (simulation config src f).memory.Follows ((sizes config src f).words size vs ws)
      (force (simulation config src f).env₁ (Value.ofParts (some size) vs))
      (create (Value.ofParts (some size) ws)) ((sizes config src f).sized size) := by
  refine made (K := fun m => Fact.of (m = size)) (fun _ => rfl) fun {w s t} hw hs ht => Or.inr ?_
  obtain ⟨bs, rfl, hbs, hds⟩ := parts (K := fun m => Fact.of (m = 32)) hw.2
  have ho : Session.outcome? { s with next := s.next + 1 } s.next = none := hs _ le_rfl
  have hsize : size = (bs.map Value.known).length * 32 := hw.1
  have hl : bs.flatten.length = size := by
    rw [length_flatten (List.forall₂_same.mpr hbs), hsize, List.length_map]
  refine ⟨bs.flatten, _, ?_, hs.settle s.source (.ok bs.flatten) s.ran, hl,
    ht.ofParts ?_ hds fun cs hcs => ?_⟩
  · simp only [Value.ofParts, Value.resolve, Session.once_of_not_settled ho, Fallible.bind_apply,
      resolveAll_known]
    rfl
  · rintro n _ ⟨⟩ rfl
    exact hl
  · rw [eq_of_singletons hcs]

theorem mapped {K : Nat → Fact Ledger} {n : Nat} (g : Bytes → Bytes) (v v' : Value Question)
    (hg : ∀ {b w}, K b.length w → (g b).length = n) :
    (simulation config src f).memory.Follows (stands src.answers K v v')
      (force (simulation config src f).env₁ (v.map (some n) fun b => .ok (g b)))
      (create (v'.map (some n) fun b => .ok (g b))) ((sizes config src f).sized n) := by
  refine made (K := fun m => Fact.of (m = n)) (fun s => by cases v <;> rfl)
    fun {w s t} hw hs ht => Or.inr ?_
  obtain ⟨b, rfl, hK, hd⟩ := hw
  refine ⟨g b, _, rfl, hs.skip (s.next :: s.ran), hg hK, ht.map ?_ hd.means ?_⟩
  · rintro m _ ⟨⟩ rfl
    exact hg hK
  · rintro _ rfl
    rfl

theorem resolve_known {v : Value Question} {b : Bytes} {w : Ledger} {t : State σ}
    (hd : Describes src.answers False w v (· = b)) (ht : t.session.Honours False w) :
    ∃ t' : Session σ, resolve ⟨src, config⟩ v t = (.ok b, { t with session := t' }) ∧
      t'.Honours False w := by
  obtain ⟨hr, ht⟩ := hd.means.resolve v t.session ht
  exact ⟨_, Prod.ext (eq_ok_of_fits hr) rfl, ht⟩

theorem resolved (v v' : Value Question) :
    (simulation config src f).memory.Follows ((simulation config src f).value v v')
      (resolve (simulation config src f).env₁ v) (resolve (simulation config src f).env₂ v')
      same where
  run {w s t} hw hi := by
    obtain ⟨b, rfl, _, hd⟩ := hw
    obtain ⟨t', ht, hh⟩ : ∃ t' : Session σ, resolve (simulation config src f).env₂ v' t =
      (.ok b, { t with session := t' }) ∧ t'.Honours False w := resolve_known hd hi.1.2
    rw [ht]
    exact .both w b b le_rfl rfl rfl rfl (Metered.grow hi le_rfl rfl ⟨hi.1.1, hh⟩)
  stays h := persists h (src.kept_log.resolve v _)

variable (h : src.AnswersBy f)
include h

theorem asked (config : Config) (q : Question) (hq : q.Within config.maxSuppliedBytes.toNat) :
    (simulation config src f).memory.Follows P
      (force (simulation config src f).env₁ (Value.ofQuestion q.size? q))
      (create (Value.ofQuestion q.size? q))
      (stands src.answers fun n => Fact.of (q.Sized n)) := by
  refine made (fun _ => rfl) fun {w s t} _ hs ht => ?_
  have ho : Session.outcome? { s with next := s.next + 1 } s.next = none := hs _ le_rfl
  have answer (s : σ) : (src.answers q s).1 = q.finish (f q.call) := by
    rw [Source.answers_apply, h]
  simp only [Value.ofQuestion, Value.resolve, Session.once_of_not_settled ho, Fallible.bind_apply,
    Session.mark, Session.ask_apply, Source.answers_apply, Source.logged_answer, h q.call]
  by_cases ha : q.call.Accepted config.maxSuppliedBytes.toNat (f q.call)
  · obtain ⟨b, hb, hn⟩ := Question.finish_accepted hq ha
    refine Or.inr ⟨b, _, Prod.ext hb rfl, hs.settle _ _ _, hn, ht.ofQuestion ?_ fun s => ?_⟩
    · rintro n _ hq rfl
      exact hn.2 n hq
    · rw [answer, hb]
      exact rfl
  · exact Or.inl ⟨q.call, List.mem_cons_self, ha⟩

theorem called (c : Call) : (simulation config src f).memory.Follows P
    (call (simulation config src f).env₁ c) (call (simulation config src f).env₂ c) same where
  run {w s t} _ hi := by
    have hl : (call (simulation config src f).env₁ c s).1 = (f c).mapError .backing := by
      rw [← h c s.session.source.1]
      rfl
    have hr : (call (simulation config src f).env₂ c t).1 = (f c).mapError .backing := by
      rw [← h c t.session.source]
      rfl
    rcases hf : f c with e | a
    · refine .halted (Or.inl ⟨c, List.mem_cons_self, ?_⟩)
      rw [hf]
      cases c <;> exact id
    · rw [hf] at hl hr
      obtain ⟨hs, ht⟩ := hi.1
      exact .both w a a le_rfl hl hr rfl ⟨⟨hs, ht.fresh, ht.settled, ht.found⟩, hi.2⟩
  stays h := persists h (List.suffix_cons _ _)

end Values

theorem fair (h : src.AnswersBy f) : (simulation config src f).Fair where
  limits := Or.inl rfl
  short bytes w hb := ⟨bytes, rfl, Or.inl (hb.trans (by decide)), .known rfl⟩
  origin _ := trivial
  failed e := Metered.fails e
  resolve := resolved
  slotCall a k := ((Metered.addStorage a k).bind_same fun _ => called h _).before le_top
  select := Metered.select

theorem charges : (metered config src f).Charges := fun h n => ⟨h.1, h.2.charge n⟩

theorem pays (h : src.AnswersBy f) : (simulation config src f).Pays (sizes config src f) where
  toFair := fair h
  alloc := Metered.alloc charges
  allocWords := Metered.allocWords charges

theorem makes (h : src.AnswersBy f) :
    (simulation config src f).Makes (sizes config src f)
      (force (simulation config src f).env₁) create where
  toFair := fair h
  left k := .bind (.onSession _) fun _ => .bind (.onSession _) fun _ => .pure _
  right _ := .onSession _
  value := by
    rintro n v v' w ⟨b, rfl, rfl, hd⟩ hp
    exact ⟨b, rfl, hp, hd⟩
  few w hn := Or.inl (hn.trans (by decide))
  word v w := ⟨v.toBytes, rfl, Word.length_toBytes v, .known rfl⟩
  slotValue a k := by
    have word := asked (P := ⊤) h config (.storage a k) trivial
    refine ((Metered.addStorage a k).bind_same fun _ => word).weaken le_top fun v v' => ?_
    exact stands_le (fun n _ hn => Question.Sized.eq rfl hn) v v'
  isContract a := by
    have word := asked (P := ⊤) h config (.isContract a) trivial
    have required := Metered.traced (M := metered config src f) (P := ⊤)
      (fun _ _ => .requireTarget a) (.requireTarget a)
    refine (required.bind_same fun _ => word).weaken le_rfl fun v v' => ?_
    exact stands_le (fun n _ hn => Question.Sized.eq rfl hn) v v'
  hashed hash := by
    let q := Question.hashed hash config.maxSuppliedBytes.toNat
    have short (n : Nat) : (Fact.of (q.Sized n) : Fact Ledger) ≤ bounded n :=
      fun _ hn => Or.inl hn.1
    have bytes := asked (P := ⊤) h config q rfl
    refine (bytes.weaken le_rfl fun v v' => stands_le short v v').bind fun v v' => ?_
    have registered := Metered.traced (M := metered config src f)
      (P := ⊤ ⊓ stands src.answers bounded v v') (fun w hw => .addHashed hash hw.2)
      (.addHashed hash v)
    exact registered.bind_same fun _ => .pure inf_le_right
  joined := joined
  cut {m _} g v v' hg := mapped (K := fun k => Fact.of (k = m)) g v v' fun {b _} hb => hg b hb
  mapped g v v' hg := mapped g v v' fun {b _} _ => hg b

section Joins

variable {α β : Type}

/-- A computation only adds to the calls that are logged. -/
def Logs (x : Eval (σ × List Call) α) : Prop :=
  ∀ s, s.session.source.2 <:+ (x s).2.session.source.2

theorem Logs.of_source {x : Eval (σ × List Call) α}
    (h : ∀ s, (x s).2.session.source = s.session.source) : Logs x :=
  fun s => (h s).symm ▸ List.suffix_rfl

theorem Logs.bind {x : Eval (σ × List Call) α} {g : α → Eval (σ × List Call) β} (hx : Logs x)
    (hg : ∀ a, Logs (g a)) : Logs (x >>= g) := by
  intro s
  have h := hx s
  rw [Fallible.bind_apply]
  rcases hp : x s with ⟨e | a, t⟩ <;> rw [hp] at h
  · exact h
  · exact h.trans (hg a t)

theorem Logs.force {k : StateM (Session (σ × List Call)) (Value Question)}
    (hk : ∀ s, (k s).2.source = s.source) : Logs (force ⟨src.logged, config⟩ k) := by
  intro s
  rw [force_apply]
  have hl := src.kept_log.resolve (k s.session).1 (k s.session).2
  rwa [hk] at hl

theorem Logs.resolve (v : Value Question) : Logs (resolve ⟨src.logged, config⟩ v) :=
  fun s => src.kept_log.resolve v s.session

theorem Logs.push (v : Value Question) : Logs (push v : Eval (σ × List Call) Unit) :=
  .of_source fun _ => rfl

theorem logs_lookAndJoinBy (a b : Value Question) :
    Logs (lookAndJoinBy ⟨src.logged, config⟩ (Eval.force ⟨src.logged, config⟩) a b) := by
  refine .bind (.of_source fun _ => rfl) fun m => .bind (.of_source fun _ => rfl) fun n => ?_
  refine .bind (.of_source fun _ => rfl) fun bytes => ?_
  rcases m with _ | m <;> rcases n with _ | n
  case some.some =>
    refine .bind (.of_source fun _ => rfl) fun _ => ?_
    rcases bytes with ⟨_ | x, _ | y⟩
    case some.some => exact .push _
    all_goals exact .bind (.force fun _ => rfl) fun _ => .push _
  all_goals
    exact .bind (.resolve a) fun _ => .bind (.resolve b) fun _ =>
      .bind (.of_source fun _ => rfl) fun _ => .push _

theorem logs_lengthSeen (v : Value Question) :
    Logs (look (fun s => v.length? s) >>=
      countSeenBy (Eval.force ⟨src.logged, config⟩) v) := by
  refine .bind (.of_source fun _ => rfl) fun size => ?_
  rcases size with _ | n
  · exact .bind (.force fun s => by cases v <;> rfl) fun _ => .push _
  · exact .push _

theorem vacuous {P : Fact Ledger} {Q : α → α → Fact Ledger} {x : Eval (σ × List Call) α}
    {y : Eval σ α} (hP : ∀ w, ¬ P w) (hx : Logs x) :
    (simulation config src f).whole.Follows P x y Q :=
  ⟨fun hw _ => (hP _ hw).elim, fun h => persists h (hx _)⟩

theorem of_stands {K : Nat → Fact Ledger} {b : Bytes} {v : Value Question} {w : Ledger}
    (h : stands src.answers K (.known b) v w) :
    K b.length w ∧ Describes src.answers False w v (· = b) := by
  obtain ⟨_, ⟨⟩, hK, hd⟩ := h
  exact ⟨hK, hd⟩

theorem length_seen {v : Value Question} {b : Bytes} {w : Ledger} {s : Session σ} {n : Nat}
    (hd : Describes src.answers False w v (· = b)) (hs : s.Honours False w)
    (hn : v.length? s = some n) : n = b.length := by
  rcases hd.length? hn with h | ⟨c, hc, rfl⟩
  · exact (h b rfl).symm
  · rw [hd.means.peek hs hc]

theorem late {P : Fact Ledger} {K : Nat → Fact Ledger} {b : Bytes}
    {k : StateM (Session σ) (Value Question)} (hk : ∀ {w t}, P w → t.Honours False w →
      K b.length w ∧ Promises src.answers False w (· = b) (k t)) :
    (simulation config src f).whole.Follows P (pure (.known b)) (create k)
      (stands src.answers K) := by
  refine Simulation.lift ⟨fun {w s t} hw hi => ?_, fun h => h⟩ (.pure _) (.onSession _)
  obtain ⟨hK, w', hle, hc, ht, hd⟩ := hk hw hi.1.2
  refine .both w' (.known b) _ hle rfl rfl ⟨b, rfl, (K _).monotone hle hK, hd⟩ ?_
  exact Metered.grow hi hle hc ⟨hi.1.1, ht⟩

def pushRow {τ : Type} (x y : Bytes) : Eval τ Unit := do
  onTrace (Trace.alloc (clampSize (x.length + y.length)))
  push (.known (x ++ y))

variable {x y : Bytes} {a b : Value Question}

theorem chargedRow : (simulation config src f).whole.Follows (bounded x.length ⊓ bounded y.length)
    (onTrace (Trace.alloc (clampSize (x.length + y.length))))
    (onTrace (Trace.alloc (clampSize (x.length + y.length))))
    fun _ _ => bounded (x ++ y).length ⊓ Fact.of (x.length + y.length ≤ maxSize) := by
  rw [List.length_append]
  exact Simulation.lift (Metered.allocSum charges x.length y.length) (.onTrace _) (.onTrace _)

variable (h : src.AnswersBy f)
include h

theorem rowBoth : (simulation config src f).whole.Follows (bounded x.length ⊓ bounded y.length)
    (pushRow x y) (pushRow x y) any :=
  chargedRow.bind fun _ _ => (fair h).push fun _ hw => ⟨x ++ y, rfl, hw.2.1, .known rfl⟩

/-- Bytes in a row are known on the left and pending on the right. -/
theorem rowLate : (simulation config src f).whole.Follows
    (stands src.answers bounded (.known x) a ⊓ stands src.answers bounded (.known y) b)
    (pushRow x y)
    (onTrace (Trace.alloc (clampSize (x.length + y.length))) >>= fun _ =>
      create (Value.ofParts (some (clampSize (x.length + y.length))) [a, b]) >>= push) any := by
  refine (chargedRow.before ?_).bind fun _ _ => ?_
  · exact fun w hw => ⟨(of_stands hw.1).1, (of_stands hw.2).1⟩
  refine (late (K := bounded) (b := x ++ y) fun {w t} hw ht => ?_).bind fun v v' =>
    (fair h).push inf_le_right
  obtain ⟨⟨ha, hb⟩, hr, hs⟩ := hw
  have hs : x.length + y.length ≤ maxSize := hs
  refine ⟨hr, ht.ofParts ?_ (.cons (of_stands ha).2.means (.cons (of_stands hb).2.means .nil)) ?_⟩
  · rintro n _ ⟨⟩ rfl
    rw [List.length_append, clampSize, min_eq_left hs]
  · rintro _ (_ | ⟨rfl, _ | ⟨rfl, _ | _⟩⟩)
    simp

theorem rowResolved : (simulation config src f).whole.Follows
    (stands src.answers bounded (.known x) a ⊓ stands src.answers bounded (.known y) b)
    (pushRow x y)
    (resolve ⟨src, config⟩ a >>= fun x => resolve ⟨src, config⟩ b >>= fun y => pushRow x y)
    any := by
  have left : (pushRow x y : Eval (σ × List Call) Unit) =
    (resolve ⟨src.logged, config⟩ (.known x) >>= fun x =>
      resolve ⟨src.logged, config⟩ (.known y) >>= fun y => pushRow x y) := rfl
  rw [left]
  have fair : (simulation config src f).Fair := fair h
  have known (b : Bytes) (v : Value Question) := (fair.resolved (.known b) v).returns
    (φ := (· = b)) fun {s c} hc => by cases hc; rfl
  refine ((known x a).before inf_le_left).bind_eq fun x' => ?_
  refine ((known y b).before (inf_le_left.trans inf_le_right)).bind_eq fun y' => ?_
  refine (rowBoth h).before fun w hw => ?_
  obtain ⟨⟨⟨ha, hb⟩, rfl : x' = x⟩, rfl : y' = y⟩ := hw
  exact ⟨(of_stands ha).1, (of_stands hb).1⟩

theorem lengthSeen : (simulation config src f).whole.Follows
    (stands src.answers bounded (.known x) a) (push (.known (lengthWord x.length)))
    (look (fun s => a.length? s) >>= countSeenBy create a) any := by
  have short : (lengthWord x.length).length < 2 ^ 32 := by
    rw [show (lengthWord x.length).length = 32 from Word.length_toBytes _]
    decide
  have fair : (simulation config src f).Fair := fair h
  have both := fair.pushShort (P := ⊤) short
  refine ⟨fun {w s t} hw hi => ?_, both.stays⟩
  obtain ⟨_, hd⟩ := of_stands hw
  show (simulation config src f).whole.Result w any _
    (countSeenBy create a (a.length? t.session) t)
  rcases hn : a.length? t.session with _ | n
  · have pending : (simulation config src f).whole.Follows
        (stands src.answers bounded (.known x) a) (pure (.known (lengthWord x.length)))
        (create (a.map (some 32) fun bytes => .ok (lengthWord bytes.length)))
        (stands src.answers bounded) := by
      refine late fun {w t} hw ht => ?_
      refine ⟨Or.inl (short.trans (by decide)), ht.map ?_ (of_stands hw).2.means ?_⟩
      · rintro _ _ ⟨⟩ rfl
        exact Word.length_toBytes _
      · rintro _ rfl
        rfl
    exact (pending.bind fun _ _ => fair.push inf_le_right).run hw hi
  · cases length_seen hd hi.memory.1.2 hn
    exact both.run trivial hi

theorem rowSeen : (simulation config src f).whole.Follows
    (stands src.answers bounded (.known x) a ⊓ stands src.answers bounded (.known y) b)
    (pushRow x y) (lookAndJoinBy ⟨src, config⟩ create a b) any where
  run {w s t} hw hi := by
    have ht := hi.memory.1.2
    obtain ⟨hx, hda⟩ := of_stands hw.1
    obtain ⟨hy, hdb⟩ := of_stands hw.2
    show (simulation config src f).whole.Result w any _
      (joinSeenBy ⟨src, config⟩ create a b (a.length? t.session) (b.length? t.session)
        (a.peek t.session, b.peek t.session) t)
    rcases hm : a.length? t.session with _ | m <;> rcases hn : b.length? t.session with _ | n
    case some.some =>
      cases length_seen hda ht hm
      cases length_seen hdb ht hn
      rcases hc : a.peek t.session with _ | c <;> rcases hd : b.peek t.session with _ | d
      case some.some =>
        cases hda.means.peek ht hc
        cases hdb.means.peek ht hd
        exact (rowBoth h).run ⟨hx, hy⟩ hi
      all_goals exact (rowLate h).run hw hi
    all_goals exact (rowResolved h).run hw hi
  stays := (rowBoth h).stays

theorem concat {P : Fact Ledger} : (simulation config src f).whole.Follows P
    (concatBy (simulation config src f).env₁ (force (simulation config src f).env₁))
    (concatBy (simulation config src f).env₂ create) any := by
  rw [concatBy_eq, concatBy_eq]
  apply (fair h).pop.bind
  intro b b'
  apply (fair h).pop.bind
  intro a a'
  rcases a with x | _ | _ | _
  case known =>
    rcases b with y | _ | _ | _
    case known => exact (rowSeen h).before fun w hw => ⟨hw.2, hw.1.2⟩
    all_goals exact vacuous (fun w ⟨⟨_, _, h, _⟩, _⟩ => nomatch h) (logs_lookAndJoinBy _ _)
  all_goals exact vacuous (fun w ⟨_, _, h, _⟩ => nomatch h) (logs_lookAndJoinBy _ _)

theorem length {P : Fact Ledger} : (simulation config src f).whole.Follows P
    (lengthBy (force (simulation config src f).env₁)) (lengthBy create) any := by
  rw [lengthBy_eq, lengthBy_eq]
  apply (fair h).pop.bind
  intro v v'
  rcases v with b | _ | _ | _
  case known => exact (lengthSeen h).before inf_le_right
  all_goals exact vacuous (fun w ⟨_, _, h, _⟩ => nomatch h) (logs_lengthSeen _)

end Joins

theorem steps (h : src.AnswersBy f) : (simulation config src f).Steps
    (stepBy (simulation config src f).env₁
      (executeBy (simulation config src f).env₁ (force (simulation config src f).env₁)))
    (stepBy (simulation config src f).env₂
      (executeBy (simulation config src f).env₂ create)) := by
  intro nested nested' H depth i hi
  exact (fair h).stepBy H
    (fun op => (makes h).executeBy (pays h) (concat h) (length h) op) depth i hi

end Laziness

/-- An eager run and a lazy one have the same outcome: the same failure, or the same exit code with
the same allocation budget left, the same needs and the same outputs. The values that the lazy run
leaves are compared by what they resolve to. -/
inductive SameOutcome {σ τ : Type} (answers : Answers Question σ)
    (p : Except EvalError UInt8 × State τ) (q : Except EvalError UInt8 × State σ) : Prop
  | failed (cause : EvalError) (left : p.1 = .error cause) (right : q.1 = .error cause)
  | finished (exitCode : UInt8) (outputs : List Bytes) (left : p.1 = .ok exitCode)
    (right : q.1 = .ok exitCode) (allocLeft : p.2.trace.allocLeft = q.2.trace.allocLeft)
    (needs : List.Forall₂ (Need.Rel fun v v' =>
      ∃ bytes, v = .known bytes ∧ (v'.resolve answers q.2.session).1 = .ok bytes)
      p.2.trace.needs q.2.trace.needs)
    (known : p.2.outputs = outputs.map .known)
    (resolved :
      ((Env.evaluation exitCode q.2).resolveOutputs answers q.2.session).1 = .ok outputs)

/-- An eager run whose calls are all answered in a way that an evaluation accepts has the same
outcome as the run that resolves values at their first use. -/
theorem run_eager (config : Config) (program : Program) {σ : Type} {src : Source σ}
    {f : (c : Call) → Except BackingError c.Answer} (h : src.AnswersBy f) (source source' : σ)
    (ha : ∀ c ∈ (Env.runEagerly ⟨src.logged, config⟩ program
      { source := (source, []) }).2.session.source.2,
      c.Accepted config.maxSuppliedBytes.toNat (f c)) :
    SameOutcome src.answers
      (Env.runEagerly ⟨src.logged, config⟩ program { source := (source, []) })
      (Env.run ⟨src, config⟩ program { source := source' }) := by
  have start : (Laziness.simulation config src f).inv
      ({ source := (source, []) }, Trace.new config) ({ source := source' }, Trace.new config)
      Ledger.new := ⟨⟨fun _ _ => rfl, .new source'⟩, .new config, rfl⟩
  have result := (Laziness.fair h).runBy (Laziness.steps h) program start
  rw [← Env.runBy_create]
  cases result with
  | halted ended =>
    rcases ended with ⟨c, hc, hn⟩ | ⟨cause, left, right, _⟩
    · -- the comparison ended for a call with an answer that is not accepted
      exact (hn (ha c hc)).elim
    · exact .failed cause (eq_error_of_forget left) (eq_error_of_forget right)
  | both w exitCode exitCode' _ left right same inv =>
    obtain rfl : exitCode = exitCode' := same
    obtain ⟨⟨_, honours⟩, traces, _⟩ := inv.memory
    obtain ⟨outputs, known, _, means⟩ := Laziness.parts inv.outputs
    have resolved := (Means.resolveAll _ means _ honours).1
    refine .finished exitCode outputs left right traces.allocLeft ?_ known ?_
    · refine (traces.mono fun v v' hv => ?_).needs
      obtain ⟨bytes, hv, _, hd⟩ := hv
      exact ⟨bytes, hv, eq_ok_of_fits (hd.means.resolve v' _ honours).1⟩
    · exact eq_ok_of_fits (resolved.imp fun _ => Laziness.eq_of_singletons)

/-- A slot is joined with bytes supplied for their hash, of which the length is not known before. -/
theorem run_eager_chain :
    let chain : Chain := (Chain.withStorage {} 7 3 5).withSupplied [1, 2, 3]
    let program : Program := ⟨1, Instruction.encodeAll [.push 7, .plain .setTarget, .push 3,
      .plain .setSlot, .plain .readSlot, .push (keccak256 [1, 2, 3]), .plain .readHashedBytes,
      .plain .concat, .push 0, .plain .setOutput]⟩
    let eager := Env.runEagerly ⟨chain.source.logged, {}⟩ program { source := (0, []) }
    eager.1 = .ok 0 ∧ eager.2.session.source.2.length = 2 ∧
      SameOutcome chain.source.answers eager
        (Env.run ⟨chain.source, {}⟩ program { source := 0 }) := by
  intro chain program eager
  refine ⟨by decide +kernel, by decide +kernel, ?_⟩
  have answers : chain.source.AnswersBy chain.answer := fun _ _ => rfl
  exact run_eager {} program answers 0 0 (by decide +kernel)

end ChainRead
