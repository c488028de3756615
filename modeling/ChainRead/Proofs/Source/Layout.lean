import ChainRead.Proofs.Evaluation.Reading
import ChainRead.Source.Chain

/-! # Byte strings in storage

A byte string is written to a chain as a header and, unless it is short, as pieces in a row of data
slots. The header leads back to the bytes or to their number, and the words of the data slots spell
the bytes, followed by zeros.
-/

namespace ChainRead

theorem ofBigEndian_concat (bytes : Bytes) (b : UInt8) :
    ofBigEndian (bytes ++ [b]) = 256 * ofBigEndian bytes + b.toNat := by
  rw [ofBigEndian, List.reverse_append]
  exact Nat.add_comm _ _

namespace Chain

/-! ## Short byte strings -/

theorem toBytes_leftAligned {bytes : Bytes} (h : bytes.length ≤ 32) :
    (leftAligned bytes).toBytes = bytes.rightpad 32 0 := by
  apply Word.toBytes_ofBytes
  rw [List.length_append, List.length_replicate]
  omega

theorem length_rightpad_concat {bytes : Bytes} (h : bytes.length < 32) (b : UInt8) :
    (bytes.rightpad 31 0 ++ [b]).length = 32 := by
  rw [List.length_append, List.length_rightpad, List.length_singleton]
  omega

/-- A short header spells the bytes, zeros and, in its last byte, twice the number of the bytes. -/
theorem shortHeader_eq {bytes : Bytes} (h : bytes.length < 32) :
    leftAligned bytes ||| BitVec.ofNat 256 (2 * bytes.length) =
        Word.ofBytes (bytes.rightpad 31 0 ++ [UInt8.ofNat (2 * bytes.length)]) ∧
      (leftAligned bytes ||| BitVec.ofNat 256 (2 * bytes.length)).toNat =
        256 * ofBigEndian (bytes.rightpad 31 0) + 2 * bytes.length := by
  have hp : bytes ++ List.replicate (32 - bytes.length) 0 = bytes.rightpad 31 0 ++ [0] := by
    have : 32 - bytes.length = (31 - bytes.length) + 1 := by omega
    rw [List.rightpad, this, List.replicate_succ', List.append_assoc]
  have hb : (UInt8.ofNat (2 * bytes.length)).toNat = 2 * bytes.length := by
    rw [UInt8.toNat_ofNat']
    omega
  have hn : (leftAligned bytes ||| BitVec.ofNat 256 (2 * bytes.length)).toNat =
      256 * ofBigEndian (bytes.rightpad 31 0) + 2 * bytes.length := by
    rw [BitVec.toNat_or, leftAligned, hp, Word.toNat_ofBytes (length_rightpad_concat h 0).le,
      ofBigEndian_concat, BitVec.toNat_ofNat, Nat.mod_eq_of_lt (by omega)]
    exact (Nat.two_pow_add_eq_or_of_lt (i := 8) (by omega) _).symm
  refine ⟨BitVec.eq_of_toNat_eq ?_, hn⟩
  rw [hn, Word.toNat_ofBytes (length_rightpad_concat h _).le, ofBigEndian_concat, hb]

theorem decode_shortHeader {bytes : Bytes} (h : bytes.length < 32) :
    BytesHeader.decode (leftAligned bytes ||| BitVec.ofNat 256 (2 * bytes.length)) =
      .ok (.inline bytes) := by
  obtain ⟨heq, hn⟩ := shortHeader_eq h
  have hlen : (256 * ofBigEndian (bytes.rightpad 31 0) + 2 * bytes.length) % 256 / 2 =
      bytes.length := by omega
  rw [BytesHeader.decode, hn, if_pos (by omega), heq,
    Word.toBytes_ofBytes (length_rightpad_concat h _)]
  simp only [hlen]
  rw [if_pos (by omega), List.rightpad, List.append_assoc, List.take_left' rfl]

theorem decode_longHeader {len : Nat} (h : len < 2 ^ 63) :
    BytesHeader.decode (BitVec.ofNat 256 (2 * len + 1)) = .ok (.spilled len) := by
  have hn : (BitVec.ofNat 256 (2 * len + 1)).toNat = 2 * len + 1 := by
    rw [BitVec.toNat_ofNat]
    omega
  have hc : clampSize ((2 * len + 1) / 2) = len := by
    unfold clampSize maxSize
    omega
  rw [BytesHeader.decode, hn, if_neg (by omega), hc]

/-! ## Pieces -/

def pieces : Nat → Bytes → List Word
  | 0, _ => []
  | count + 1, bytes => leftAligned (bytes.take 32) :: pieces count (bytes.drop 32)

/-- Enough pieces spell the byte string, followed by zeros. -/
theorem take_pieces {count : Nat} {bytes : Bytes} (h : bytes.length ≤ count * 32) :
    ((pieces count bytes).map Word.toBytes).flatten.take bytes.length = bytes := by
  induction count generalizing bytes with
  | zero =>
    obtain rfl : bytes = [] := List.length_eq_zero_iff.mp (by omega)
    rfl
  | succ count ih =>
    have hp : (bytes.take 32).length ≤ 32 := List.length_take_le 32 bytes
    rw [pieces, List.map_cons, List.flatten_cons, toBytes_leftAligned hp]
    rcases Nat.le_total bytes.length 32 with hl | hl
    · rw [List.take_of_length_le hl, List.rightpad, List.append_assoc, List.take_left' rfl]
    · have hfull : (bytes.take 32).length = 32 := by rw [List.length_take, min_eq_left hl]
      have hrest : (bytes.drop 32).length = bytes.length - 32 := List.length_drop
      have hpad : (bytes.take 32).rightpad 32 0 = bytes.take 32 := by
        rw [List.rightpad, hfull, Nat.sub_self, List.replicate_zero, List.append_nil]
      have ih := @ih (bytes.drop 32) (by omega)
      rw [hrest] at ih
      rw [hpad, List.take_append, List.take_of_length_le (by omega), hfull, ih,
        List.take_append_drop]

variable {a : Address} {c : Chain}

theorem slotValue_withStorage (slot value k : Word) :
    (c.withStorage a slot value).slotValue a k = if k = slot then value else c.slotValue a k := by
  unfold slotValue withStorage
  by_cases h : k = slot
  · simp [h]
  · have hne : ((a, k) == (a, slot)) = false := by simpa using h
    simp [h, List.lookup_cons, hne]

theorem slotValue_withPieces_of_notMem {count : Nat} {start k : Word} {bytes : Bytes}
    (h : k ∉ consecutive start count) :
    (withPieces a count start bytes c).slotValue a k = c.slotValue a k := by
  induction count generalizing start bytes c with
  | zero => rfl
  | succ count ih =>
    rw [consecutive_succ, List.mem_cons, not_or] at h
    rw [withPieces, ih h.2, slotValue_withStorage, if_neg h.1]

/-- Fewer slots in a row than there are do not come back to the one before them. -/
theorem notMem_consecutive {count : Nat} (h : count < 2 ^ 256) (start : Word) :
    start ∉ consecutive (start + 1) count := by
  unfold consecutive
  rw [List.mem_map]
  rintro ⟨i, hi, heq⟩
  have hi := List.mem_range.mp hi
  have hn := congrArg BitVec.toNat heq
  have hlt : i < 2 ^ 256 := by omega
  rw [BitVec.toNat_add, BitVec.toNat_add, BitVec.toNat_ofNat, Nat.mod_eq_of_lt hlt] at hn
  have hs := start.isLt
  have h1 : (1 : Word).toNat = 1 := rfl
  rw [h1] at hn
  omega

theorem slotValues_withPieces {count : Nat} (h : count < 2 ^ 256) (start : Word) (bytes : Bytes) :
    (consecutive start count).map ((withPieces a count start bytes c).slotValue a) =
      pieces count bytes := by
  -- the first piece is written first, and the slots of the others are not its own
  induction count generalizing start bytes c with
  | zero => rfl
  | succ count ih =>
    rw [consecutive_succ, List.map_cons, withPieces, pieces, ih (by omega),
      slotValue_withPieces_of_notMem (notMem_consecutive (by omega) start), slotValue_withStorage,
      if_pos rfl]

end Chain

/-! ## The slots of a byte string -/

/-- The slots that a byte string of `len` bytes takes: its header and, unless it is short, its data
slots. -/
def bytesSlots (slot : Word) (len : Nat) : List Word :=
  slot :: if len < 32 then [] else consecutive (dataSlot slot) ((len + 31) / 32)

namespace Chain

/-- A byte string was written to a slot, and none of the slots that it takes was written later. -/
def Holds (c : Chain) (a : Address) (slot : Word) (bytes : Bytes) : Prop :=
  ∃ (before : Chain) (later : List ((Address × Word) × Word)),
    c.storage = later ++ (before.withBytes a slot bytes).storage ∧
    ∀ k ∈ bytesSlots slot bytes.length, (a, k) ∉ later.map Prod.fst

variable {a : Address} {c : Chain} {slot : Word} {bytes : Bytes}

theorem holds_withBytes (c : Chain) (a : Address) (slot : Word) (bytes : Bytes) :
    (c.withBytes a slot bytes).Holds a slot bytes :=
  ⟨c, [], rfl, fun _ _ h => nomatch h⟩

theorem Holds.withStorage (h : c.Holds a slot bytes) {a' : Address} {k : Word} (value : Word)
    (hk : a' ≠ a ∨ k ∉ bytesSlots slot bytes.length) :
    (c.withStorage a' k value).Holds a slot bytes := by
  obtain ⟨before, later, hs, hl⟩ := h
  refine ⟨before, ((a', k), value) :: later, ?_, fun k' hk' hm => ?_⟩
  · show ((a', k), value) :: c.storage = _
    rw [hs]
    rfl
  · rcases List.mem_cons.mp hm with heq | hm
    · cases heq
      exact hk.elim (· rfl) (· hk')
    · exact hl k' hk' hm

theorem Holds.exists_slotValue (h : c.Holds a slot bytes) :
    ∃ before : Chain, ∀ k ∈ bytesSlots slot bytes.length,
      c.slotValue a k = (before.withBytes a slot bytes).slotValue a k := by
  obtain ⟨before, later, hs, hl⟩ := h
  refine ⟨before, fun k hk => ?_⟩
  have hnone : later.lookup (a, k) = none := by
    rw [List.lookup_eq_none_iff]
    intro w hw
    have : (a, k) ≠ w.1 := fun heq => hl k hk (heq ▸ List.mem_map_of_mem hw)
    simpa using this
  rw [slotValue, hs, List.lookup_append, hnone, Option.none_or, slotValue]

theorem Holds.short (h : c.Holds a slot bytes) (hl : bytes.length < 32) :
    BytesHeader.decode (c.slotValue a slot) = .ok (.inline bytes) := by
  obtain ⟨before, hs⟩ := h.exists_slotValue
  rw [hs slot List.mem_cons_self, withBytes, if_pos hl, slotValue_withStorage, if_pos rfl,
    decode_shortHeader hl]

theorem Holds.long (h : c.Holds a slot bytes) (hl : 32 ≤ bytes.length) (hb : bytes.length < 2 ^ 63)
    (hd : slot ∉ consecutive (dataSlot slot) ((bytes.length + 31) / 32)) :
    BytesHeader.decode (c.slotValue a slot) = .ok (.spilled bytes.length) ∧
      (consecutive (dataSlot slot) ((bytes.length + 31) / 32)).map (c.slotValue a) =
        pieces ((bytes.length + 31) / 32) bytes := by
  obtain ⟨before, hs⟩ := h.exists_slotValue
  unfold bytesSlots at hs
  rw [if_neg (by omega)] at hs
  have hw : before.withBytes a slot bytes =
      withPieces a ((bytes.length + 31) / 32) (dataSlot slot) bytes
        (before.withStorage a slot (BitVec.ofNat 256 (2 * bytes.length + 1))) :=
    if_neg (by omega)
  constructor
  · rw [hs slot List.mem_cons_self, hw, slotValue_withPieces_of_notMem hd, slotValue_withStorage,
      if_pos rfl, decode_longHeader hb]
  · rw [List.map_congr_left fun k hk => hs k (List.mem_cons_of_mem _ hk), hw]
    exact slotValues_withPieces (by omega) _ _

end Chain

end ChainRead
