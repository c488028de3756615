import ChainRead.Proofs.Program.Wire

/-! # What a cursor reads

A cursor reads wire forms until it is at its end or at bytes that are none. The fuel of a listing
is enough for that, so a listing says what the cursor reads and nothing else.
-/

namespace ChainRead

namespace Cursor

variable {c c' : Cursor}

theorem next_eq_none (h : c.next = none) : c.rest = [] := by
  unfold next at h
  split at h
  · assumption
  · cases h

/-- What was read is a wire form, and the cursor stands behind it. -/
theorem next_ok_eq {i : Instruction} (h : c.next = some (.ok i, c')) :
    ∃ w : Wire, w.Fits ∧ w.instruction = i ∧ c = ⟨c.offset, w.bytes ++ c'.rest⟩ ∧
      c' = ⟨c.offset + w.bytes.length, c'.rest⟩ := by
  obtain ⟨w, hw, hi, hr⟩ := next_ok h
  have hc : c = ⟨c.offset, w.bytes ++ c'.rest⟩ := by rw [← hr]
  rw [hc, next_wire w hw] at h
  have hc' := congrArg Prod.snd (Option.some.inj h)
  exact ⟨w, hw, hi, hc, hc'.symm⟩

theorem length_rest_lt {i : Instruction} (h : c.next = some (.ok i, c')) :
    c'.rest.length < c.rest.length := by
  obtain ⟨w, -, -, hc, -⟩ := next_ok_eq h
  have hp := w.length_bytes_pos
  rw [hc, List.length_append]
  omega

end Cursor

namespace Listing

def ofCursor (c : Cursor) : Listing := read c.rest.length c []

/-- The instructions that come first in a listing. -/
def after (is : List Instruction) (l : Listing) : Listing := ⟨is ++ l.instructions, l.fault⟩

@[simp] theorem after_append (is is' : List Instruction) (l : Listing) :
    l.after (is ++ is') = (l.after is').after is := by
  simp [after]

theorem read_done (fuel : Nat) (c : Cursor) (done : List Instruction) :
    read fuel c done = (read fuel c []).after done.reverse := by
  induction fuel generalizing c done with
  | zero => simp [read, after]
  | succ fuel ih =>
    rw [read, read]
    rcases c.next with _ | ⟨e | i, c'⟩
    · simp [after]
    · simp [after]
    · show read fuel c' (i :: done) = (read fuel c' [i]).after done.reverse
      rw [ih c' (i :: done), ih c' [i]]
      simp

theorem read_fuel {fuel fuel' : Nat} {c : Cursor} (h : c.rest.length ≤ fuel)
    (h' : c.rest.length ≤ fuel') : read fuel c [] = read fuel' c [] := by
  have stuck {c : Cursor} (h : c.rest = []) (fuel : Nat) : read fuel c [] = ⟨[], none⟩ := by
    have hn : c.next = none := by rw [Cursor.next, h]
    cases fuel <;> simp [read, hn]
  induction fuel generalizing fuel' c with
  | zero =>
    have hr : c.rest = [] := List.length_eq_zero_iff.mp (Nat.le_zero.mp h)
    rw [stuck hr, stuck hr]
  | succ fuel ih =>
    cases fuel' with
    | zero =>
      have hr : c.rest = [] := List.length_eq_zero_iff.mp (Nat.le_zero.mp h')
      rw [stuck hr, stuck hr]
    | succ fuel' =>
      rw [read, read]
      rcases hn : c.next with _ | ⟨e | i, c'⟩
      · rfl
      · rfl
      · have hl := Cursor.length_rest_lt hn
        show read fuel c' [i] = read fuel' c' [i]
        have hr : read fuel c' [] = read fuel' c' [] := ih (by omega) (by omega)
        rw [read_done, read_done fuel', hr]

theorem read_eq {fuel : Nat} {c : Cursor} (h : c.rest.length ≤ fuel) (done : List Instruction) :
    read fuel c done = (ofCursor c).after done.reverse := by
  rw [read_done, read_fuel h (Nat.le_refl _), ofCursor]

/-- A listing is made up of what the cursor reads next and the listing from there on. -/
theorem ofCursor_eq (c : Cursor) : ofCursor c = match c.next with
    | none => ⟨[], none⟩
    | some (.ok i, c') => (ofCursor c').after [i]
    | some (.error e, _) => ⟨[], some e⟩ := by
  have h : ofCursor c = read (c.rest.length + 1) c [] := read_fuel (Nat.le_refl _) (Nat.le_succ _)
  rw [h, read]
  rcases hn : c.next with _ | ⟨e | i, c'⟩
  · rfl
  · rfl
  · exact read_eq (Nat.le_of_lt (Cursor.length_rest_lt hn)) _

theorem ofBytes_eq (bytes : Bytes) : ofBytes bytes = ofCursor (.ofBytes bytes) := by
  rw [ofBytes, read_eq]
  · rfl
  · cases bytes with
    | nil => exact Nat.le_refl _
    | cons _ code => exact Nat.le_succ _

theorem ofCursor_code {ws : List Wire} (h : ∀ w ∈ ws, w.Fits) (o : Nat) (rest : Bytes) :
    ofCursor ⟨o, Wire.code ws ++ rest⟩ =
      (ofCursor ⟨o + (Wire.code ws).length, rest⟩).after (ws.map Wire.instruction) := by
  induction ws generalizing o with
  | nil => rfl
  | cons w ws ih =>
    rw [List.forall_mem_cons] at h
    rw [Wire.code_cons, List.append_assoc, ofCursor_eq, Cursor.next_wire w h.1]
    show (ofCursor _).after [w.instruction] = _
    rw [ih h.2, List.length_append, Nat.add_assoc, ← after_append]
    rfl

/-- A cursor reads wire forms up to its end or to something else. -/
theorem exists_split (c : Cursor) : ∃ (ws : List Wire) (rest : Bytes), (∀ w ∈ ws, w.Fits) ∧
    c.rest = Wire.code ws ++ rest ∧ (rest = [] ∨
      ∃ e c', Cursor.next ⟨c.offset + (Wire.code ws).length, rest⟩ = some (.error e, c')) := by
  generalize hl : c.rest.length = n
  induction n using Nat.strongRecOn generalizing c with
  | ind n ih =>
    rcases hn : c.next with _ | ⟨e | i, c'⟩
    · exact ⟨[], [], nofun, Cursor.next_eq_none hn, Or.inl rfl⟩
    · exact ⟨[], c.rest, nofun, rfl, Or.inr ⟨e, c', hn⟩⟩
    · obtain ⟨w, hw, -, hc, hc'⟩ := Cursor.next_ok_eq hn
      have hlt := Cursor.length_rest_lt hn
      obtain ⟨ws, rest, hws, hr, h⟩ := ih _ (hl ▸ hlt) c' rfl
      refine ⟨w :: ws, rest, List.forall_mem_cons.mpr ⟨hw, hws⟩, ?_, ?_⟩
      · rw [hc, hr, Wire.code_cons, List.append_assoc]
      · rw [hc'] at h
        rwa [Wire.code_cons, List.length_append, ← Nat.add_assoc]

theorem read_code (ws : List Wire) (h : ∀ w ∈ ws, w.Fits) {fuel : Nat} (hf : ws.length ≤ fuel)
    (o : Nat) (done : List Instruction) :
    read fuel ⟨o, Wire.code ws⟩ done = ⟨done.reverse ++ ws.map Wire.instruction, none⟩ := by
  induction ws generalizing fuel o done with
  | nil => cases fuel <;> simp [read, Cursor.next]
  | cons w ws ih =>
    rw [List.forall_mem_cons] at h
    obtain ⟨fuel, rfl⟩ : ∃ k, fuel = k + 1 := Nat.exists_eq_add_one_of_ne_zero (by
      rw [List.length_cons] at hf
      omega)
    rw [Wire.code_cons, read, Cursor.next_wire w h.1]
    show read fuel _ (w.instruction :: done) = _
    rw [ih h.2 (Nat.le_of_succ_le_succ hf)]
    simp

theorem exists_code {fuel : Nat} {c : Cursor} {done is : List Instruction}
    (hf : c.rest.length ≤ fuel) (h : read fuel c done = ⟨is, none⟩) :
    ∃ ws : List Wire, (∀ w ∈ ws, w.Fits) ∧ c.rest = Wire.code ws ∧
      is = done.reverse ++ ws.map Wire.instruction := by
  obtain ⟨ws, rest, hws, hr, hrest⟩ := exists_split c
  have hc : c = ⟨c.offset, Wire.code ws ++ rest⟩ := by rw [← hr]
  rw [read_eq hf, hc, ofCursor_code hws, ← after_append, after, Listing.mk.injEq] at h
  rcases hrest with rfl | ⟨e, c', hn⟩
  · exact ⟨ws, hws, by rw [hr, List.append_nil], by rw [← h.1]; simp [ofCursor, read]⟩
  · rw [ofCursor_eq, hn] at h
    cases h.2

end Listing

end ChainRead
