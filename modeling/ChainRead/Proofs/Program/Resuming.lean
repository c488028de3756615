import Mathlib.Logic.Function.Iterate
import ChainRead.Proofs.Program.Listing

/-! # Reading on after faults

A call that fails leaves the cursor inside an instruction, and the next one takes the bytes from
there for an instruction. Whatever these are, each call moves the cursor on until it is at the end
of the buffer, and never beyond.
-/

namespace ChainRead

namespace Cursor

/-- Read one instruction where the cursor stands. At the end of the program it stays there. -/
def call (c : Cursor) : Option (Except EncodingError Instruction) × Cursor :=
  match c.next with
  | none => (none, c)
  | some (result, c') => (some result, c')

/-- Where a cursor over a buffer stands after a number of calls, failed ones included. -/
def afterCalls (bytes : Bytes) (n : Nat) : Cursor := (fun c => c.call.2)^[n] (.ofBytes bytes)

def Moved (c c' : Cursor) : Prop :=
  ∃ bytes, c.rest = bytes ++ c'.rest ∧ c'.offset = c.offset + bytes.length

variable {c c' c'' : Cursor} {α β : Type}

namespace Moved

theorem refl (c : Cursor) : c.Moved c := ⟨[], rfl, rfl⟩

theorem trans (h : c.Moved c') (h' : c'.Moved c'') : c.Moved c'' := by
  obtain ⟨bytes, hr, ho⟩ := h
  obtain ⟨bytes', hr', ho'⟩ := h'
  exact ⟨bytes ++ bytes', by rw [hr, hr', List.append_assoc],
    by rw [ho', ho, List.length_append, Nat.add_assoc]⟩

theorem offset_le (h : c.Moved c') : c.offset ≤ c'.offset := by
  obtain ⟨bytes, -, ho⟩ := h
  omega

theorem finish (h : c.Moved c') : c'.offset + c'.rest.length = c.offset + c.rest.length := by
  obtain ⟨bytes, hr, ho⟩ := h
  rw [hr, ho, List.length_append, Nat.add_assoc]

theorem rest_eq {bytes : Bytes} (h : Moved ⟨0, bytes⟩ c) : c.rest = bytes.drop c.offset := by
  obtain ⟨front, hr, ho⟩ := h
  have hr : bytes = front ++ c.rest := hr
  have ho : c.offset = front.length := by rw [ho, Nat.zero_add]
  rw [hr, ho, List.drop_left]

end Moved

/-- Reading moves the cursor on, and what is cut off stands where the cursor is then. -/
structure Proceeds (x : Decode α) : Prop where
  moved : ∀ c : Cursor, c.Moved (x c).2
  truncated : ∀ (c : Cursor) o needed, (x c).1 = .error (.truncated o needed) → (x c).2.offset = o

namespace Proceeds

theorem pure (a : α) : Proceeds (pure a : Decode α) := ⟨.refl, nofun⟩

theorem bind {x : Decode α} {f : α → Decode β} (hx : Proceeds x) (hf : ∀ a, Proceeds (f a)) :
    Proceeds (x >>= f) := by
  refine ⟨fun c => ?_, fun c o needed h => ?_⟩
  · have hm := hx.moved c
    rw [Fallible.bind_apply]
    rcases hr : x c with ⟨e | a, c'⟩ <;> rw [hr] at hm
    · exact hm
    · exact hm.trans ((hf a).moved c')
  · have ht := hx.truncated c o needed
    rw [Fallible.bind_apply] at h ⊢
    rcases hr : x c with ⟨e | a, c'⟩ <;> rw [hr] at h ht
    · cases h
      exact ht rfl
    · exact (hf a).truncated c' o needed h

theorem map {x : Decode α} (hx : Proceeds x) (f : α → β) : Proceeds (f <$> x) := by
  rw [map_eq_pure_bind]
  exact hx.bind fun a => .pure (f a)

theorem take (width : Nat) : Proceeds (take width) := by
  refine ⟨fun c => ?_, fun c o needed h => ?_⟩
  · unfold Cursor.take
    dsimp only
    split
    · exact .refl c
    · next hw =>
      have hl : (c.rest.take width).length = width :=
        Nat.le_antisymm (List.length_take_le _ _) (Nat.le_of_not_lt hw)
      exact ⟨_, (List.take_append_drop width c.rest).symm, by rw [hl]⟩
  · unfold Cursor.take at h ⊢
    dsimp only at h ⊢
    split at h
    · next hw =>
      cases h
      rw [if_pos hw]
    · cases h

theorem byte : Proceeds byte := ((take 1).map _).map _

theorem immediate (offset : Nat) (b : UInt8) : Proceeds (immediate offset b) := by
  unfold Cursor.immediate
  split
  · exact (take _).map _
  rcases Opcode.ofByte? b with _ | code
  · exact ⟨.refl, nofun⟩
  cases code with
  | pushBytes => exact .bind ((take 4).map _) fun n => .bind (take n) fun _ => .pure _
  | evalLoop => exact .bind byte fun _ => .pure _
  | eval => exact .pure _
  | assert => exact .bind byte fun _ => .pure _
  | debug => exact .bind ((take 1).map _) fun n => .bind (take n) fun _ => .pure _
  | plain op => exact .pure _

end Proceeds

/-- A call does nothing at the end of the program. Else it reads at least one byte. -/
theorem call_eq (c : Cursor) : c.rest = [] ∧ c.call = (none, c) ∨
    ∃ b rest, c.rest = b :: rest ∧ c.call =
      (some (immediate c.offset b ⟨c.offset + 1, rest⟩).1,
        (immediate c.offset b ⟨c.offset + 1, rest⟩).2) := by
  unfold call next
  rcases c.rest with _ | ⟨b, rest⟩
  · exact Or.inl ⟨rfl, rfl⟩
  · exact Or.inr ⟨b, rest, rfl, rfl⟩

theorem call_moved (c : Cursor) : c.Moved c.call.2 := by
  rcases c.call_eq with ⟨-, h⟩ | ⟨b, rest, hr, h⟩ <;> rw [h]
  · exact .refl c
  · have first : c.Moved ⟨c.offset + 1, rest⟩ := ⟨[b], hr, rfl⟩
    exact first.trans ((Proceeds.immediate c.offset b).moved _)

theorem call_none_iff (c : Cursor) : c.call.1 = none ↔ c.rest = [] := by
  rcases c.call_eq with ⟨hr, h⟩ | ⟨b, rest, hr, h⟩ <;> simp [hr, h]

theorem lt_of_call {result : Except EncodingError Instruction} (h : c.call.1 = some result) :
    c.offset < c.call.2.offset := by
  rcases c.call_eq with ⟨-, hc⟩ | ⟨b, rest, -, hc⟩ <;> rw [hc] at h ⊢
  · cases h
  · exact ((Proceeds.immediate c.offset b).moved ⟨c.offset + 1, rest⟩).offset_le

theorem truncated_call {o needed : Nat} (h : c.call.1 = some (.error (.truncated o needed))) :
    c.call.2.offset = o := by
  rcases c.call_eq with ⟨-, hc⟩ | ⟨b, rest, -, hc⟩ <;> rw [hc] at h ⊢
  · cases h
  · exact (Proceeds.immediate c.offset b).truncated _ o needed (Option.some.inj h)

theorem wire_of_call {i : Instruction} (h : c.call.1 = some (.ok i)) :
    ∃ w : Wire, w.Fits ∧ w.instruction = i ∧ c.rest = w.bytes ++ c.call.2.rest ∧
      c.call.2.offset = c.offset + w.bytes.length := by
  unfold call at h ⊢
  rcases hn : c.next with _ | ⟨result, c'⟩ <;> rw [hn] at h
  · cases h
  · cases h
    obtain ⟨w, hw, hi, hc, hc'⟩ := next_ok_eq hn
    exact ⟨w, hw, hi, congrArg rest hc, congrArg offset hc'⟩

/-- What a call does with a cursor over a buffer. -/
structure Steps (bytes : Bytes) (c : Cursor) : Prop where
  inside : c.offset ≤ bytes.length
  done : c.call.1 = none ↔ c.offset = bytes.length
  stays : c.offset = bytes.length → c.call.2 = c
  advances : c.call.1 ≠ none → c.offset < c.call.2.offset
  truncated : ∀ o needed, c.call.1 = some (.error (.truncated o needed)) → c.call.2.offset = o
  consumed : ∀ i, c.call.1 = some (.ok i) → ∃ w : Wire, w.Fits ∧ w.instruction = i ∧
    (bytes.drop c.offset).take (c.call.2.offset - c.offset) = w.bytes

theorem Moved.steps {bytes : Bytes} (h : Moved ⟨0, bytes⟩ c) : c.Steps bytes := by
  have finish : c.offset + c.rest.length = bytes.length := by simpa using h.finish
  have done : c.call.1 = none ↔ c.offset = bytes.length := by
    rw [call_none_iff, ← List.length_eq_zero_iff]
    omega
  refine ⟨by omega, done, fun hc => ?_, fun hc => ?_, fun _ _ => truncated_call, fun i hi => ?_⟩
  · rcases c.call_eq with ⟨-, hn⟩ | ⟨b, rest, -, hn⟩
    · rw [hn]
    · cases (congrArg Prod.fst hn).symm.trans (done.mpr hc)
  · obtain ⟨result, hr⟩ := Option.ne_none_iff_exists'.mp hc
    exact lt_of_call hr
  · obtain ⟨w, hw, hi, hr, ho⟩ := wire_of_call hi
    refine ⟨w, hw, hi, ?_⟩
    rw [← h.rest_eq, ho, Nat.add_sub_cancel_left, hr, List.take_left]

theorem afterCalls_succ (bytes : Bytes) (n : Nat) :
    afterCalls bytes (n + 1) = (afterCalls bytes n).call.2 :=
  Function.iterate_succ_apply' _ _ _

theorem afterCalls_moved (bytes : Bytes) (n : Nat) : Moved ⟨0, bytes⟩ (afterCalls bytes n) := by
  induction n with
  | zero =>
    cases bytes with
    | nil => exact .refl _
    | cons header code => exact ⟨[header], rfl, rfl⟩
  | succ n ih =>
    rw [afterCalls_succ]
    exact ih.trans (call_moved _)

theorem le_offset_afterCalls (bytes : Bytes) {n : Nat}
    (h : ∀ k < n, (afterCalls bytes k).call.1 ≠ none) :
    (ofBytes bytes).offset + n ≤ (afterCalls bytes n).offset := by
  induction n with
  | zero => exact Nat.le_refl _
  | succ n ih =>
    have hn := (afterCalls_moved bytes n).steps.advances (h n (Nat.lt_succ_self n))
    have hk := ih fun k hk => h k (Nat.lt_succ_of_lt hk)
    rw [afterCalls_succ]
    omega

/-- However often a cursor over a buffer is called, and whether or not calls fail, it moves on until
it is at the end, after at most one call for each byte behind the header. -/
theorem calls_proceed (bytes : Bytes) :
    (∀ n, (afterCalls bytes n).Steps bytes) ∧
      ∃ n ≤ bytes.length - 1, (afterCalls bytes n).call.1 = none := by
  refine ⟨fun n => (afterCalls_moved bytes n).steps, ?_⟩
  by_contra hn
  have going (n : Nat) (h : n ≤ bytes.length - 1) : (afterCalls bytes n).call.1 ≠ none :=
    fun hc => hn ⟨n, h, hc⟩
  have steps := (afterCalls_moved bytes (bytes.length - 1)).steps
  have last := going _ (Nat.le_refl _)
  -- each of these calls took a byte, so none is left for the last one
  have far := le_offset_afterCalls bytes fun k hk => going k (Nat.le_of_lt hk)
  have start : bytes.length ≤ (ofBytes bytes).offset + (bytes.length - 1) := by
    cases bytes with
    | nil => exact Nat.zero_le _
    | cons header code =>
      simp only [ofBytes, List.length_cons]
      omega
  exact last (steps.done.mpr (Nat.le_antisymm steps.inside (Nat.le_trans start far)))

/-- A payload of nine bytes is cut off behind its length. The byte that is there is read next. -/
example : ((afterCalls [0, 40, 0, 0, 0, 9, 33] 0).call.1, (afterCalls [0, 40, 0, 0, 0, 9, 33] 1)) =
    (some (.error (.truncated 6 9)), ⟨6, [33]⟩) := rfl

end Cursor

end ChainRead
