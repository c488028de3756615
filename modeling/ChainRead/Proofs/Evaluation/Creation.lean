import ChainRead.Proofs.Evaluation.Instructions
import ChainRead.Proofs.Evaluation.Strategy
import ChainRead.Proofs.Trace.Allocation

/-! # Simulated reads

The two sides of a simulation may make their values in different ways. Reads give related results if
the values made for slots and for words in a row have the sizes that are charged for them.
-/

namespace ChainRead

theorem length_slicePadded (start len : Nat) (bytes : Bytes) :
    (slicePadded start len bytes).length = len := by
  have h := List.length_take_le len (bytes.drop start)
  rw [slicePadded, List.length_append, List.length_replicate]
  omega

theorem BytesHeader.length_inline {header : Word} {bytes : Bytes}
    (h : decode header = .ok (.inline bytes)) : bytes.length ≤ 32 := by
  unfold decode at h
  dsimp only at h
  split at h
  · split at h
    · cases h
      rw [← Word.length_toBytes header]
      exact List.length_take_le' _ _
    · cases h
  · cases h

namespace Simulation

variable {W σ τ : Type} [Preorder W]

/-- What a simulation says of the sizes of values. -/
structure Sizes (S : Simulation W σ τ) where
  /-- Two values stand for one another and have a length. -/
  sized : Nat → Value Question → Value Question → Fact W
  /-- A value of a length may be put on the stack. -/
  paid : Nat → Fact W

/-- Two lists of values of 32 bytes, which have `size` bytes together. -/
def Sizes.words {S : Simulation W σ τ} (M : S.Sizes) (size : Nat)
    (vs ws : List (Value Question)) : Fact W where
  toFun w := size = vs.length * 32 ∧ List.Forall₂ (fun v v' => M.sized 32 v v' w) vs ws
  monotone' _ _ h hv := ⟨hv.1, hv.2.imp fun _ _ hv => (M.sized _ _ _).monotone h hv⟩

open Coupling Eval

structure Pays (S : Simulation W σ τ) (M : S.Sizes) : Prop extends S.Fair where
  alloc (n : Nat) : S.memory.Follows ⊤ (onTrace (Trace.alloc n)) (onTrace (Trace.alloc n))
    fun _ _ => M.paid n
  allocWords (n : Nat) : S.memory.Follows ⊤ (onTrace (Trace.allocWords n))
    (onTrace (Trace.allocWords n)) fun size size' => Fact.of (size = size') ⊓ M.paid size

/-- What a simulation has to show of two ways to make values of chain state. -/
structure Fetches (S : Simulation W σ τ) (M : S.Sizes)
    (make : StateM (Session σ) (Value Question) → Eval σ (Value Question))
    (make' : StateM (Session τ) (Value Question) → Eval τ (Value Question)) : Prop
    extends S.Fair where
  left (k : StateM (Session σ) (Value Question)) : Local (make k)
  right (k : StateM (Session τ) (Value Question)) : Local (make' k)
  value {n v v' w} : M.sized n v v' w → M.paid n w → S.value v v' w
  few {n} (w : W) : n < 2 ^ 32 → M.paid n w
  word (v : Word) (w : W) : M.sized 32 (.known v.toBytes) (.known v.toBytes) w
  slotValue (a : Address) (k : Word) : S.memory.Follows (S.target a)
    (do onTrace (Trace.addStorage a k); slotValueBy make a k)
    (do onTrace (Trace.addStorage a k); slotValueBy make' a k) (M.sized 32)
  isContract (a : Address) : S.memory.Follows ⊤
    (do onTrace (Trace.requireTarget a); make (Value.ofQuestion (some 32) (.isContract a)))
    (do onTrace (Trace.requireTarget a); make' (Value.ofQuestion (some 32) (.isContract a)))
    (M.sized 32)
  joined (size : Nat) (vs ws : List (Value Question)) : S.memory.Follows (M.words size vs ws)
    (make (Value.ofParts (some size) vs)) (make' (Value.ofParts (some size) ws)) (M.sized size)
  cut {m n : Nat} (f : Bytes → Bytes) (v v' : Value Question)
    (h : ∀ bytes, bytes.length = m → (f bytes).length = n) : S.memory.Follows (M.sized m v v')
    (make (v.map (some n) fun bytes => .ok (f bytes)))
    (make' (v'.map (some n) fun bytes => .ok (f bytes))) (M.sized n)
  mapped {n : Nat} (f : Bytes → Bytes) (v v' : Value Question) (h : ∀ bytes, (f bytes).length = n) :
    S.memory.Follows (S.value v v') (make (v.map (some n) fun bytes => .ok (f bytes)))
      (make' (v'.map (some n) fun bytes => .ok (f bytes))) (M.sized n)

/-- What a simulation has to show of two ways to make values. -/
structure Makes (S : Simulation W σ τ) (M : S.Sizes)
    (make : StateM (Session σ) (Value Question) → Eval σ (Value Question))
    (make' : StateM (Session τ) (Value Question) → Eval τ (Value Question)) : Prop
    extends S.Fetches M make make' where
  hashed (h : Word) : S.memory.Follows ⊤
    (do
      let v ← make (Value.ofQuestion none (.hashed h S.config.maxSuppliedBytes.toNat))
      onTrace (Trace.addHashed h v)
      return v)
    (do
      let v ← make' (Value.ofQuestion none (.hashed h S.config'.maxSuppliedBytes.toNat))
      onTrace (Trace.addHashed h v)
      return v)
    S.value

namespace Pays

variable {S : Simulation W σ τ} {M : S.Sizes} (A : S.Pays M) {P : Fact W}
include A

open Fair

theorem charge (n : Nat) : S.whole.Follows P (onTrace (Trace.alloc n)) (onTrace (Trace.alloc n))
    fun _ _ => M.paid n :=
  (lift (A.alloc n) (.onTrace _) (.onTrace _)).before le_top

theorem chargeWords (n : Nat) : S.whole.Follows P (onTrace (Trace.allocWords n))
    (onTrace (Trace.allocWords n)) fun size size' => Fact.of (size = size') ⊓
      (M.paid size ⊓ Fact.of (size = n * 32 ∧ n * 32 ≤ maxSize)) :=
  (((lift (A.allocWords n) (.onTrace _) (.onTrace _)).before le_top).returns fun {s size} h => by
    obtain ⟨hs, hm, _⟩ := Trace.allocWords_ok (t := s.trace) (Prod.ext h rfl)
    exact ⟨hs, hs ▸ hm⟩).weaken le_rfl fun _ _ _ h => ⟨h.1.1, h.1.2, h.2⟩

theorem follow : S.whole.Follows P (follow S.env₁) (follow S.env₂) any := by
  apply A.popBytes.bind_same
  intro key
  apply (A.charge _).bind
  intro _ _
  exact moveSlot fun slot => followSlot key slot

end Pays

variable {S : Simulation W σ τ} {M : S.Sizes}
  {make : StateM (Session σ) (Value Question) → Eval σ (Value Question)}
  {make' : StateM (Session τ) (Value Question) → Eval τ (Value Question)} {P : Fact W}

open Fair

namespace Fetches

variable (L : S.Fetches M make make')
include L

theorem pushSized {n : Nat} {v v' : Value Question} (h : P ≤ M.sized n v v') (hp : P ≤ M.paid n) :
    S.whole.Follows P (push v) (push v') any :=
  L.push fun w hw => L.value (h w hw) (hp w hw)

theorem pushFew {n : Nat} {v v' : Value Question} (h : P ≤ M.sized n v v') (hn : n < 2 ^ 32) :
    S.whole.Follows P (push v) (push v') any :=
  L.pushSized h fun w _ => L.few w hn

theorem slotRead {a : Address} (k : Word) (h : P ≤ S.target a) :
    S.whole.Follows P (do onTrace (Trace.addStorage a k); slotValueBy make a k)
      (do onTrace (Trace.addStorage a k); slotValueBy make' a k) (M.sized 32) :=
  (lift (L.slotValue a k) (.bind (.onTrace _) fun _ => L.left _)
    (.bind (.onTrace _) fun _ => L.right _)).before h

theorem readWords {a : Address} (count : Nat) (k : Word) (h : P ≤ S.target a) :
    S.whole.Follows P (readWordsBy make a count k) (readWordsBy make' a count k)
      (M.words (count * 32)) := by
  induction count generalizing k with
  | zero => exact .pure fun _ _ => ⟨rfl, .nil⟩
  | succ count ih =>
    simp only [readWordsBy]
    rw [← bind_assoc, ← bind_assoc]
    apply (L.slotRead k h).bind
    intro v v'
    apply ((ih (k + 1)).before inf_le_left).bind
    intro vs ws
    refine .pure fun _ hw => ⟨?_, .cons hw.1.2 hw.2.2⟩
    have hs : count * 32 = vs.length * 32 := hw.2.1
    rw [List.length_cons]
    omega

theorem pushWords {size : Nat} {vs ws : List (Value Question)} (h : P ≤ M.words size vs ws)
    (hp : P ≤ M.paid size) :
    S.whole.Follows P (make (Value.ofParts (some size) vs) >>= push)
      (make' (Value.ofParts (some size) ws) >>= push) any := by
  refine ((lift (L.joined size vs ws) (L.left _) (L.right _)).before h).bind fun v v' => ?_
  exact L.pushSized inf_le_right (inf_le_left.trans hp)

theorem readSlot : S.whole.Follows P (readSlotBy make) (readSlotBy make') any := by
  apply onFrameRead
  intro f g r
  rw [r.target, r.slot, ← bind_assoc, ← bind_assoc]
  refine (L.slotRead g.slot (frame_le_target f g)).bind fun v v' => ?_
  exact L.pushFew inf_le_right (by decide)

theorem readIsContract :
    S.whole.Follows P (readIsContractBy make) (readIsContractBy make') any := by
  apply onFrameRead
  intro f g r
  rw [r.target, ← bind_assoc, ← bind_assoc]
  have h := lift (L.isContract g.target) (.bind (.onTrace _) fun _ => L.left _)
    (.bind (.onTrace _) fun _ => L.right _)
  exact (h.before le_top).bind fun v v' => L.pushFew inf_le_right (by decide)

theorem executeFree (length : S.whole.Follows P (lengthBy make) (lengthBy make') any) (op : Op)
    (h : op.charges = false) (hs : op ≠ .readHashedBytes) :
    S.whole.Follows P (executeBy S.env₁ make op) (executeBy S.env₂ make' op) any := by
  cases op with
  | isContract => exact L.readIsContract
  | readSlot => exact L.readSlot
  | readHashedBytes => exact (hs rfl).elim
  | length => exact length
  | readBytes | readArray | readSlots | follow | concat | slice => cases h
  | _ =>
    simp only [Eval.executeBy]
    exact L.execute _ rfl rfl

variable (A : S.Pays M)
include A

theorem readSlots :
    S.whole.Follows P (readSlotsBy S.env₁ make) (readSlotsBy S.env₂ make') any := by
  apply L.popSize.bind_same
  intro count
  apply (A.chargeWords count).bind_eq
  intro size
  apply onFrameRead
  intro f g r
  rw [r.target, r.slot]
  apply (L.readWords count g.slot (frame_le_target f g)).bind
  intro vs ws
  refine L.pushWords (fun w hw => ?_) fun w hw => hw.1.1.2.1
  have hs : size = count * 32 ∧ _ := hw.1.1.2.2
  exact hs.1 ▸ hw.2

theorem spilledBytes (len : Nat) :
    S.whole.Follows P (spilledBytesBy S.env₁ make len) (spilledBytesBy S.env₂ make' len)
      fun v v' => M.sized len v v' ⊓ M.paid len := by
  refine (A.charge len).bind fun _ _ => .ite ?_ ?_
  · exact L.throwLimit fun c => .budget (.allocOverflow c.maxAllocBytes.toNat)
  apply onFrameRead
  intro f g r
  rw [r.target, r.slot]
  apply (L.readWords _ _ (frame_le_target f g)).bind
  intro vs ws
  apply ((lift (L.joined _ vs ws) (L.left _) (L.right _)).before inf_le_right).bind
  intro v v'
  have cut : ∀ bytes : Bytes, bytes.length = (len + 31) / 32 * 32 →
      (bytes.take len).length = len := by
    intro bytes hb
    rw [List.length_take]
    omega
  have h := lift (L.cut (List.take len) v v' cut) (L.left _) (L.right _)
  exact (h.before inf_le_right).keeps.weaken le_rfl fun _ _ _ hw => ⟨hw.1, hw.2.1.1.1.2⟩

theorem readBytes :
    S.whole.Follows P (readBytesBy S.env₁ make) (readBytesBy S.env₂ make') any := by
  apply L.readHeader.bind_same
  intro header
  rcases h : BytesHeader.decode header with cause | bytes | len
  · exact L.throw _
  · refine (A.charge _).bind fun _ _ => L.pushShort ?_
    have := BytesHeader.length_inline h
    omega
  · apply (L.spilledBytes A len).bind
    intro v v'
    exact L.pushSized (fun _ hw => hw.2.1) fun _ hw => hw.2.2

theorem readArray :
    S.whole.Follows P (readArrayBy S.env₁ make) (readArrayBy S.env₂ make') any := by
  refine L.popSize.bind_same fun step => .ite (L.throw _) ?_
  apply L.readHeader.bind_same
  intro header
  rcases arraySlots (clampSize header.toNat) step with cause | count
  · exact L.throw _
  · apply (A.chargeWords _).bind_eq
    intro size
    apply onFrameRead
    intro f g r
    rw [r.target, r.slot]
    apply (L.readWords count _ (frame_le_target f g)).bind
    intro vs ws
    refine L.pushWords (fun w hw => ?_) fun w hw => hw.1.1.2.1
    have hs : size = clampSize (count + 1) * 32 ∧ clampSize (count + 1) * 32 ≤ maxSize :=
      hw.1.1.2.2
    refine ⟨?_, .cons (L.word _ w) hw.2.2⟩
    have hv : count * 32 = vs.length * 32 := hw.2.1
    simp only [clampSize, maxSize, List.length_cons] at hs ⊢
    omega

theorem slice : S.whole.Follows P (sliceBy S.env₁ make) (sliceBy S.env₂ make') any := by
  apply L.popSize.bind_same
  intro len
  apply L.popSize.bind_same
  intro start
  apply L.pop.bind
  intro v v'
  apply (A.charge len).bind
  intro _ _
  have h := lift (L.mapped (slicePadded start len) v v' fun bytes => length_slicePadded start len _)
    (L.left _) (L.right _)
  refine (h.before (inf_le_left.trans inf_le_right)).bind fun v v' => ?_
  exact L.pushSized inf_le_right (inf_le_left.trans inf_le_right)

theorem executeBy (concat : S.whole.Follows P (concatBy S.env₁ make) (concatBy S.env₂ make') any)
    (length : S.whole.Follows P (lengthBy make) (lengthBy make') any) (op : Op)
    (hs : op ≠ .readHashedBytes) :
    S.whole.Follows P (executeBy S.env₁ make op) (executeBy S.env₂ make' op) any := by
  cases op with
  | readHashedBytes => exact (hs rfl).elim
  | readBytes => exact L.readBytes A
  | readArray => exact L.readArray A
  | readSlots => exact L.readSlots A
  | follow => exact A.follow
  | concat => exact concat
  | slice => exact L.slice A
  | _ => exact L.executeFree length _ rfl fun h => nomatch h

end Fetches

namespace Makes

variable (L : S.Makes M make make')
include L

theorem readHashedBytes :
    S.whole.Follows P (readHashedBytesBy S.env₁ make) (readHashedBytesBy S.env₂ make') any := by
  apply L.popWord.bind_same
  intro hash
  have h := lift (L.hashed hash) (.bind (L.left _) fun _ => .bind (.onTrace _) fun _ => .pure _)
    (.bind (L.right _) fun _ => .bind (.onTrace _) fun _ => .pure _)
  have hp : P ≤ ⊤ := le_top
  have h := (h.before hp).bind fun v v' => L.push (P := P ⊓ S.value v v') inf_le_right
  simpa only [bind_assoc, pure_bind, env₁, env₂] using h

theorem executeFree (length : S.whole.Follows P (lengthBy make) (lengthBy make') any) (op : Op)
    (h : op.charges = false) :
    S.whole.Follows P (executeBy S.env₁ make op) (executeBy S.env₂ make' op) any := by
  by_cases hs : op = .readHashedBytes
  · subst hs
    exact L.readHashedBytes
  · exact L.toFetches.executeFree length op h hs

theorem executeBy (A : S.Pays M)
    (concat : S.whole.Follows P (concatBy S.env₁ make) (concatBy S.env₂ make') any)
    (length : S.whole.Follows P (lengthBy make) (lengthBy make') any) (op : Op) :
    S.whole.Follows P (executeBy S.env₁ make op) (executeBy S.env₂ make' op) any := by
  by_cases hs : op = .readHashedBytes
  · subst hs
    exact L.readHashedBytes
  · exact L.toFetches.executeBy A concat length op hs

end Makes

end Simulation

namespace Eval

variable {σ : Type} (env : Env σ)

variable (make : StateM (Session σ) (Value Question) → Eval σ (Value Question))

/-- Join two values of which the lengths and bytes that are there without work are given. -/
def joinSeenBy (a b : Value Question) (m n : Option Nat) (bytes : Option Bytes × Option Bytes) :
    Eval σ Unit :=
  match m, n with
  | some m, some n => do
    onTrace (Trace.alloc (clampSize (m + n)))
    match bytes with
    | (some x, some y) => push (.known (x ++ y))
    | _ => push (← make (Value.ofParts (some (clampSize (m + n))) [a, b]))
  | _, _ => do
    let x ← resolve env a
    let y ← resolve env b
    onTrace (Trace.alloc (clampSize (x.length + y.length)))
    push (.known (x ++ y))

def lookAndJoinBy (a b : Value Question) : Eval σ Unit :=
  look (fun s => a.length? s) >>= fun m => look (fun s => b.length? s) >>= fun n =>
    look (fun s => (a.peek s, b.peek s)) >>= joinSeenBy env make a b m n

theorem concatBy_eq :
    concatBy env make = pop >>= fun b => pop >>= fun a => lookAndJoinBy env make a b := by
  unfold concatBy
  apply bind_congr
  intro b
  apply bind_congr
  intro a
  funext s
  simp only [Fallible.bind_apply, state, look, lookAndJoinBy, joinSeenBy]
  rcases a.length? s.session with _ | m <;> rcases b.length? s.session with _ | n <;> try rfl
  rcases a.peek s.session with _ | x <;> rcases b.peek s.session with _ | y <;> rfl

def countSeenBy (v : Value Question) : Option Nat → Eval σ Unit
  | some n => push (.known (lengthWord n))
  | none => make (v.map (some 32) fun bytes => .ok (lengthWord bytes.length)) >>= push

theorem lengthBy_eq :
    lengthBy make = pop >>= fun v => look (fun s => v.length? s) >>= countSeenBy make v := by
  apply bind_congr
  intro v
  funext s
  rcases h : v.length? s.session with _ | n <;>
    simp only [Fallible.bind_apply, state, look, h, countSeenBy]

end Eval

namespace Simulation

variable {W σ τ : Type} [Preorder W] {S : Simulation W σ τ} {P : Fact W}

open Coupling Fair Eval

def anySize (S : Simulation W σ τ) : S.Sizes where
  sized _ := S.value
  paid _ := ⊤

theorem words_anySize (size : Nat) (vs ws : List (Value Question)) :
    S.anySize.words size vs ws ≤ S.values vs ws := fun _ h => h.2

namespace Uniform

variable (L : S.Uniform)
include L

theorem pays : S.Pays S.anySize where
  toFair := L.toFair
  alloc n := (L.alloc n).weaken le_rfl fun _ _ => le_top
  allocWords n := (L.allocWords n).weaken le_rfl fun _ _ _ h => ⟨h, trivial⟩

theorem fetches : S.Fetches S.anySize create create where
  toFair := L.toFair
  left _ := .onSession _
  right _ := .onSession _
  value h _ := h
  few _ _ := trivial
  word _ w := L.known _ w
  slotValue := L.slotValue
  isContract := L.isContract
  joined size vs ws := (L.ofParts (some size) vs ws).before (words_anySize size vs ws)
  cut f v v' _ := L.map _ f v v'
  mapped f v v' _ := L.map _ f v v'

theorem pushKnown (bytes : Bytes) :
    S.whole.Follows P (push (.known bytes)) (push (.known bytes)) any :=
  L.push fun w _ => L.known bytes w

theorem joined (hint : Option Nat) {vs ws : List (Value Question)} (h : P ≤ S.values vs ws) :
    S.whole.Follows P (create (Value.ofParts hint vs)) (create (Value.ofParts hint ws)) S.value :=
  (lift (L.ofParts hint vs ws) (.onSession _) (.onSession _)).before h

theorem concat : S.whole.Follows P (concatBy S.env₁ create) (concatBy S.env₂ create) any := by
  rw [concatBy_eq, concatBy_eq]
  apply L.pop.bind
  intro b b'
  apply L.pop.bind
  intro a a'
  refine Follows.bind_same (look fun hw hi => L.length hi hw.2) fun m => ?_
  refine Follows.bind_same (look fun hw hi => L.length hi hw.1.2) fun n => ?_
  refine Follows.bind_same (look fun hw hi => ?_) fun bytes => ?_
  · exact Prod.ext (L.peek hi hw.2) (L.peek hi hw.1.2)
  have unseen : S.whole.Follows (P ⊓ S.value b b' ⊓ S.value a a')
      (joinSeenBy S.env₁ create a b none none bytes)
      (joinSeenBy S.env₂ create a' b' none none bytes) any := by
    apply ((L.resolved a a').before inf_le_right).bind_same
    intro x
    apply ((L.resolved b b').before (inf_le_left.trans inf_le_right)).bind_same
    intro y
    exact (L.pays.charge _).bind fun _ _ => L.pushKnown _
  rcases m with _ | m <;> rcases n with _ | n
  case some.some =>
    apply (L.pays.charge _).bind
    intro _ _
    have pair : P ⊓ S.value b b' ⊓ S.value a a' ≤ S.values [a, b] [a', b'] :=
      fun _ hw => .cons hw.2 (.cons hw.1.2 .nil)
    rcases bytes with ⟨_ | x, _ | y⟩
    case some.some => exact L.pushKnown _
    all_goals exact (L.joined _ (inf_le_left.trans pair)).bind fun _ _ => L.push inf_le_right
  all_goals exact unseen

theorem pushLength : S.whole.Follows P (lengthBy create) (lengthBy create) any := by
  rw [lengthBy_eq, lengthBy_eq]
  apply L.pop.bind
  intro v v'
  refine Follows.bind_same (look fun hw hi => L.length hi hw.2) fun size => ?_
  rcases size with _ | n
  case some => exact L.pushKnown _
  have h := lift (L.map (some 32) (fun bytes => lengthWord bytes.length) v v') (.onSession _)
    (.onSession _)
  exact (h.before inf_le_right).bind fun _ _ => L.push inf_le_right

theorem execute (op : Op) (hs : op ≠ .readHashedBytes) :
    S.whole.Follows P (Eval.execute S.env₁ op) (Eval.execute S.env₂ op) any := by
  rw [← executeBy_create, ← executeBy_create]
  exact L.fetches.executeBy L.pays L.concat L.pushLength op hs

end Uniform

namespace Lawful

variable (L : S.Lawful)
include L

theorem makes : S.Makes S.anySize create create := ⟨L.fetches, L.hashed⟩

theorem execute (op : Op) :
    S.whole.Follows P (Eval.execute S.env₁ op) (Eval.execute S.env₂ op) any := by
  rw [← executeBy_create, ← executeBy_create]
  exact L.makes.executeBy L.pays L.concat L.pushLength op

end Lawful

end Simulation

end ChainRead
