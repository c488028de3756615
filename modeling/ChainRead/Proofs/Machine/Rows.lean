import Mathlib.Data.List.FinRange
import ChainRead.Frame

/-! # Machines as rows of values

A machine keeps its values in a row, from the bottom of its stack to the top, that never gets longer
than the limit. Its operations are described on the row by places counted from the bottom, whatever
end of the stack they start from.
-/

namespace ChainRead

variable {Q σ α β : Type}

/-! ## Two places exchanged -/

def exchange (l : List α) (i j : Fin l.length) : List α :=
  List.ofFn fun k => l.get (Equiv.swap i j k)

@[simp] theorem length_exchange (l : List α) (i j : Fin l.length) :
    (exchange l i j).length = l.length := List.length_ofFn

theorem exchange_perm (l : List α) (i j : Fin l.length) : (exchange l i j).Perm l := by
  have h := Equiv.Perm.ofFn_comp_perm (Equiv.swap i j) l.get
  rwa [List.ofFn_get] at h

theorem getElem_exchange (l : List α) (i j : Fin l.length) {k : Nat}
    (h : k < (exchange l i j).length) (hs : Equiv.swap i.val j.val k < l.length) :
    (exchange l i j)[k] = l[Equiv.swap i.val j.val k] := by
  simp only [exchange, List.getElem_ofFn, List.get_eq_getElem, Equiv.swap_apply_def, Fin.ext_iff,
    apply_ite Fin.val]

theorem swap_lt {n i j k : Nat} (hi : i < n) (hj : j < n) (hk : k < n) :
    Equiv.swap i j k < n := by
  rw [Equiv.swap_apply_def]
  split
  · exact hj
  · split
    · exact hi
    · exact hk

theorem exchange_exchange (l : List α) {i j : Fin l.length} {i' j' : Fin (exchange l i j).length}
    (hi : i'.val = i) (hj : j'.val = j) : exchange (exchange l i j) i' j' = l := by
  refine List.ext_getElem (by simp) fun k hk h => ?_
  have hs : Equiv.swap i'.val j'.val k < l.length := by
    rw [hi, hj]
    exact swap_lt i.2 j.2 h
  have hs' : Equiv.swap i'.val j'.val k < (exchange l i j).length := by simpa using hs
  have back : Equiv.swap i.val j.val (Equiv.swap i'.val j'.val k) = k := by
    rw [hi, hj, Equiv.swap_apply_self]
  rw [getElem_exchange _ i' j' hk hs', getElem_exchange _ i j hs' (by rwa [back])]
  simp only [back]

theorem reverse_set_set {l : List α} {i : Nat} (h : i < l.length) (h0 : 0 < l.length) :
    ((l.set 0 l[i]).set i l[0]).reverse =
      exchange l.reverse ⟨l.reverse.length - 1, by rw [List.length_reverse]; omega⟩
        ⟨l.reverse.length - (i + 1), by rw [List.length_reverse]; omega⟩ := by
  refine List.ext_getElem (by simp) fun k _ hk => ?_
  have hl : k < l.length := by simpa using hk
  rw [getElem_exchange _ _ _ hk (swap_lt (Fin.isLt _) (Fin.isLt _) (by simpa using hl))]
  simp only [List.getElem_reverse, List.length_set, List.getElem_set, Equiv.swap_apply_def,
    List.length_reverse]
  -- the places coincide if `i` is zero, so what went to place `i` is looked at first
  by_cases hi : i = l.length - 1 - k
  · rw [if_pos hi]
    congr 1
    grind
  · rw [if_neg hi]
    split <;> congr 1 <;> grind

/-! ## Calls, of machines and of rows -/

namespace Machine

inductive Call (Q : Type)
  | child (seed : Value Q)
  | select (target : Address)
  | setSlot (slot : Word)
  | setExitCode (exitCode : UInt8)
  | size
  | entries
  | push (v : Value Q)
  | pushBytes (bytes : Bytes)
  | pushWord (w : Word)
  | pushBool (b : Bool)
  | extend (vs : List (Value Q))
  | pop
  | peek (back : Nat)
  | get (index : Nat)
  | swap (back : Nat)
  | splitTop (count : Nat)
  | popBytes
  | popWord
  | popSize
  | popBool

inductive Reply (Q : Type)
  | done
  | value (v : Value Q)
  | values (vs : List (Value Q))
  | bytes (bytes : Bytes)
  | word (w : Word)
  | size (n : Nat)
  | flag (b : Bool)

/-- What a machine has, its values from the bottom of the stack to the top. -/
structure Row (Q σ : Type) where
  target : Address := 0
  slot : Word := 0
  exitCode : UInt8 := 0
  entries : List (Value Q) := []
  limit : Nat
  session : Session σ

def row (m : Machine Q σ) : Row Q σ where
  target := m.frame.target
  slot := m.frame.slot
  exitCode := m.frame.exitCode
  entries := m.frame.stack.reverse
  limit := m.frame.maxStack
  session := m.session

namespace Row

variable (r : Row Q σ)

def room : Nat := r.limit - r.entries.length

/-- Put values behind the last one, as many as there is room for. -/
def add (vs : List (Value Q)) : Except EvalError (Reply Q) × Row Q σ :=
  (if vs.length ≤ r.room then .ok .done else .error (.stack (.overflow r.limit)),
    { r with entries := r.entries ++ vs.take r.room })

/-- Take the last value off and make something of it. -/
def takeLast (f : Value Q → Session σ → Except EvalError (Reply Q) × Session σ) :
    Except EvalError (Reply Q) × Row Q σ :=
  match r.entries.getLast? with
  | none => (.error (.stack .underflow), r)
  | some v => ((f v r.session).1,
    { r with entries := r.entries.dropLast, session := (f v r.session).2 })

def readLast (answers : Answers Q σ) (read : Bytes → Except EvalError (Reply Q)) :
    Except EvalError (Reply Q) × Row Q σ :=
  r.takeLast fun v s => ((v.resolve answers s).1 >>= read, (v.resolve answers s).2)

/-- Look at a place, which the call named by `index`. -/
def look (index : Nat) (v : Option (Value Q)) : Except EvalError (Reply Q) × Row Q σ :=
  match v with
  | some v => (.ok (.value v), r)
  | none => (.error (.index (.stack index r.entries.length)), r)

end Row

def readWord (bytes : Bytes) : Except EvalError Word := (Word.ofOperand bytes).mapError .encoding

def readSize (bytes : Bytes) : Except EvalError Nat := do
  let w ← readWord bytes
  w.toSize.mapError .encoding

namespace Call

def run (answers : Answers Q σ) : Call Q → Fallible EvalError (Machine Q σ) (Reply Q)
  | child seed => fun m => (.ok .done, { m with frame := m.frame.child seed })
  | select target => fun m => (.ok .done, { m with frame := m.frame.select target })
  | setSlot slot => fun m => (.ok .done, { m with frame := { m.frame with slot } })
  | setExitCode exitCode => fun m => (.ok .done, { m with frame := { m.frame with exitCode } })
  | size => fun m => (.ok (.size m.frame.size), m)
  | entries => fun m => (.ok (.values m.frame.stack.reverse), m)
  | push v => (fun _ => .done) <$> onFrame (Frame.push v)
  | pushBytes bytes => (fun _ => .done) <$> onFrame (Frame.push (.known bytes))
  | pushWord w => (fun _ => .done) <$> Machine.pushWord w
  | pushBool b => (fun _ => .done) <$> Machine.pushWord (Word.ofBool b)
  | extend vs => (fun _ => .done) <$> onFrame (Frame.extend vs)
  | pop => .value <$> onFrame Frame.pop
  | peek back => .value <$> onFrame (Frame.peek back)
  | get index => .value <$> onFrame (Frame.get index)
  | swap back => (fun _ => .done) <$> onFrame (Frame.swap back)
  | splitTop count => fun m =>
    (.ok (.values (m.frame.splitTop count).1), { m with frame := (m.frame.splitTop count).2 })
  | popBytes => .bytes <$> Machine.popBytes answers
  | popWord => .word <$> Machine.popWord answers
  | popSize => .size <$> Machine.popSize answers
  | popBool => .flag <$> Machine.popBool answers

/-- What a call does to a row. -/
def onRow (answers : Answers Q σ) (r : Row Q σ) : Call Q → Except EvalError (Reply Q) × Row Q σ
  | child seed => (.ok .done, { r with exitCode := 0, entries := [seed] })
  | select target => (.ok .done, { r with target, slot := 0 })
  | setSlot slot => (.ok .done, { r with slot })
  | setExitCode exitCode => (.ok .done, { r with exitCode })
  | size => (.ok (.size r.entries.length), r)
  | entries => (.ok (.values r.entries), r)
  | push v => r.add [v]
  | pushBytes bytes => r.add [.known bytes]
  | pushWord w => r.add [.known (bigEndian 32 w.toNat)]
  | pushBool b => r.add [.known (bigEndian 32 (if b then 1 else 0))]
  | extend vs => r.add vs
  | pop => r.takeLast fun v s => (.ok (.value v), s)
  | peek back => r.look back
    (if back < r.entries.length then r.entries[r.entries.length - (back + 1)]? else none)
  | get index => r.look index r.entries[index]?
  | swap back =>
    let n := r.entries.length
    if h : back < n then
      let last : Fin n := ⟨n - 1, by omega⟩
      let other : Fin n := ⟨n - (back + 1), by omega⟩
      (.ok .done, { r with entries := exchange r.entries last other })
    else (.error (.index (.stack back n)), r)
  | splitTop count => (.ok (.values (r.entries.drop (r.entries.length - count))),
    { r with entries := r.entries.take (r.entries.length - count) })
  | popBytes => r.readLast answers fun bytes => .ok (.bytes bytes)
  | popWord => r.readLast answers fun bytes => .word <$> readWord bytes
  | popSize => r.readLast answers fun bytes => .size <$> readSize bytes
  | popBool => r.readLast answers fun bytes => .ok (.flag (isTruthy bytes))

end Call

/-- What a call leads to, with the machine seen as a row. -/
def shown (p : Except EvalError α × Machine Q σ) : Except EvalError α × Row Q σ := (p.1, p.2.row)

end Machine

/-! ## One call -/

namespace Fallible

variable {ε : Type}

theorem map_apply (f : α → β) (x : Fallible ε σ α) (s : σ) :
    (f <$> x) s = (f <$> (x s).1, (x s).2) := by
  rw [map_eq_pure_bind, bind_apply]
  rcases x s with ⟨e | a, t⟩ <;> rfl

theorem ofExcept_bind (x : Except ε α) (f : α → Except ε β) :
    ((ofExcept x : Fallible ε σ α) >>= fun a => ofExcept (f a)) = ofExcept (x >>= f) := by
  funext s
  rw [bind_apply]
  rcases x with e | a <;> rfl

theorem map_ofExcept (f : α → β) (x : Except ε α) :
    f <$> (ofExcept x : Fallible ε σ α) = ofExcept (f <$> x) := by
  funext s
  rw [map_apply]
  rfl

end Fallible

namespace Frame

theorem extend_singleton (v : Value Q) : extend [v] = push v := by
  simp only [extend, bind_pure_unit]

def room (f : Frame Q) : Nat := f.maxStack - f.size

/-- The values that there is room for are put on the stack, be they all or not. -/
theorem extend_eq (vs : List (Value Q)) (f : Frame Q) :
    extend vs f = (if vs.length ≤ f.room then .ok () else .error (.stack (.overflow f.maxStack)),
      { f with stack := (vs.take f.room).reverse ++ f.stack }) := by
  induction vs generalizing f with
  | nil => simp [extend]
  | cons v vs ih =>
    rcases h : f.room with _ | k
    · have hp : push v f = (.error (.stack (.overflow f.maxStack)), f) :=
        if_neg (by rw [room] at h; omega)
      simp [extend, Fallible.bind_apply, hp]
    · have hp : push v f = (.ok (), { f with stack := v :: f.stack }) :=
        if_pos (by rw [room] at h; omega)
      have hk : room { f with stack := v :: f.stack } = k := by
        simp only [room, size, List.length_cons] at h ⊢
        omega
      rw [extend, Fallible.bind_of_ok hp, ih, hk]
      simp

end Frame

namespace Machine

variable {m : Machine Q σ} (answers : Answers Q σ)

theorem length_row (m : Machine Q σ) : m.row.entries.length = m.frame.size := List.length_reverse

theorem shown_extend (vs : List (Value Q)) :
    shown (((fun _ => Reply.done) <$> onFrame (Frame.extend vs)) m) = m.row.add vs := by
  have room : m.row.room = m.frame.room := congrArg (m.frame.maxStack - ·) (length_row m)
  have entries : ((vs.take m.frame.room).reverse ++ m.frame.stack).reverse =
      m.row.entries ++ vs.take m.frame.room := by simp [row]
  rw [Fallible.map_apply, onFrame, Fallible.zoom_apply, Frame.extend_eq, Row.add, room, ← entries]
  show (_ <$> (if _ then _ else _), _) = _
  split <;> rfl

theorem row_takeLast {v : Value Q} {rest : List (Value Q)} (h : m.frame.stack = v :: rest)
    (f : Value Q → Session σ → Except EvalError (Reply Q) × Session σ) :
    m.row.takeLast f = ((f v m.session).1,
      { m.row with entries := rest.reverse, session := (f v m.session).2 }) := by
  have he : m.row.entries = rest.reverse ++ [v] := by
    rw [← List.reverse_cons, ← h]
    rfl
  rw [Row.takeLast, he, List.getLast?_concat, List.dropLast_concat]
  rfl

theorem shown_pop : shown ((Reply.value <$> onFrame Frame.pop) m) =
    m.row.takeLast fun v s => (.ok (.value v), s) := by
  rw [Fallible.map_apply, onFrame, Fallible.zoom_apply, Frame.pop]
  rcases h : m.frame.stack with _ | ⟨v, rest⟩
  · have he : m.row.entries = [] := congrArg List.reverse h
    rw [Row.takeLast, he]
    rfl
  · rw [row_takeLast h]
    rfl

theorem shown_read (read : Bytes → Except EvalError (Reply Q)) :
    shown ((popBytes answers >>= fun bytes => .ofExcept (read bytes)) m) =
      m.row.readLast answers read := by
  rw [Fallible.bind_apply, popBytes, Fallible.bind_apply, onFrame, Fallible.zoom_apply, Frame.pop,
    Row.readLast]
  rcases h : m.frame.stack with _ | ⟨v, rest⟩
  · have he : m.row.entries = [] := congrArg List.reverse h
    rw [Row.takeLast, he]
    rfl
  · rw [row_takeLast h]
    dsimp only
    rw [onSession, Fallible.zoom_apply]
    rcases v.resolve answers m.session with ⟨e | bytes, t⟩ <;> rfl

theorem map_popWord (f : Word → β) : (f <$> popWord answers : Fallible _ (Machine Q σ) β) =
    popBytes answers >>= fun bytes => .ofExcept (f <$> readWord bytes) := by
  simp only [popWord, map_bind, Fallible.map_ofExcept]
  rfl

theorem map_popSize (f : Nat → β) : (f <$> popSize answers : Fallible _ (Machine Q σ) β) =
    popBytes answers >>= fun bytes => .ofExcept (f <$> readSize bytes) := by
  simp only [popSize, popWord, bind_assoc, map_bind, Fallible.map_ofExcept, Fallible.ofExcept_bind,
    readSize]
  rfl

theorem map_popBool (f : Bool → β) : (f <$> popBool answers : Fallible _ (Machine Q σ) β) =
    popBytes answers >>= fun bytes => .ofExcept (.ok (f (isTruthy bytes))) := by
  simp only [popBool, map_bind, map_pure]
  rfl

theorem shown_look {index : Nat} {x : Fallible EvalError (Frame Q) (Value Q)}
    {v : Option (Value Q)} (h : x m.frame = (match v with
      | some v => (.ok v, m.frame)
      | none => (.error (.index (.stack index m.frame.size)), m.frame))) :
    shown ((Reply.value <$> onFrame x) m) = m.row.look index v := by
  rw [Fallible.map_apply, onFrame, Fallible.zoom_apply, h]
  rcases v with _ | v
  · rw [Row.look, length_row]
    rfl
  · rfl

theorem getElem?_row (m : Machine Q σ) (back : Nat) :
    (if back < m.row.entries.length then
      m.row.entries[m.row.entries.length - (back + 1)]? else none) = m.frame.stack[back]? := by
  have hl : m.row.entries.length = m.frame.stack.length := length_row m
  rw [hl]
  split
  · next h =>
    show m.frame.stack.reverse[_]? = _
    rw [List.getElem?_reverse (by omega)]
    congr 1
    omega
  · next h => exact (List.getElem?_eq_none (Nat.le_of_not_lt h)).symm

theorem shown_swap (back : Nat) :
    shown (((fun _ => Reply.done) <$> onFrame (Frame.swap back)) m) =
      (Call.swap back).onRow answers m.row := by
  have hl : m.row.entries.length = m.frame.stack.length := length_row m
  rw [Fallible.map_apply, onFrame, Fallible.zoom_apply, Frame.swap, Call.onRow]
  by_cases h : back < m.frame.stack.length
  · have h0 : 0 < m.frame.stack.length := Nat.zero_lt_of_lt h
    rw [dif_pos (hl ▸ h), List.getElem?_eq_getElem h0, List.getElem?_eq_getElem h]
    exact congrArg (fun entries => (Except.ok Reply.done, { m.row with entries }))
      (reverse_set_set h h0)
  · rw [dif_neg (hl ▸ h), List.getElem?_eq_none (Nat.le_of_not_lt h), hl]
    rcases m.frame.stack[0]? <;> rfl

/-- Seen as a row, a machine does what its calls do to the row. -/
theorem shown_run (c : Call Q) : shown (c.run answers m) = c.onRow answers m.row := by
  cases c with
  | size =>
    rw [Call.onRow, length_row]
    rfl
  | push v =>
    have := shown_extend (m := m) [v]
    rwa [Frame.extend_singleton] at this
  | pushBytes bytes =>
    have := shown_extend (m := m) [.known bytes]
    rwa [Frame.extend_singleton] at this
  | pushWord w =>
    have := shown_extend (m := m) [.known w.toBytes]
    rwa [Frame.extend_singleton] at this
  | pushBool b =>
    have := shown_extend (m := m) [.known (Word.ofBool b).toBytes]
    rw [Frame.extend_singleton] at this
    cases b <;> exact this
  | extend vs => exact shown_extend vs
  | pop => exact shown_pop
  | peek back =>
    rw [Call.onRow, getElem?_row]
    refine shown_look ?_
    cases h : m.frame.stack[back]? <;> simp only [Frame.peek, h]
  | get index =>
    refine shown_look ?_
    have he : m.row.entries = m.frame.stack.reverse := rfl
    cases h : m.frame.stack.reverse[index]? <;> simp only [Frame.get, he, h]
  | swap back => exact shown_swap answers back
  | splitTop count =>
    have hl : m.row.entries.length = m.frame.stack.length := length_row m
    rw [Call.onRow, hl]
    show (Except.ok (Reply.values (m.frame.stack.take count).reverse),
      { m.row with entries := (m.frame.stack.drop count).reverse }) = _
    rw [List.reverse_take, List.reverse_drop]
    rfl
  | popBytes => exact shown_read answers _
  | popWord =>
    rw [Call.run, map_popWord]
    exact shown_read answers _
  | popSize =>
    rw [Call.run, map_popSize]
    exact shown_read answers _
  | popBool =>
    rw [Call.run, map_popBool]
    exact shown_read answers _
  | _ => rfl

theorem reply_run (m : Machine Q σ) (c : Call Q) :
    (c.run answers m).1 = (c.onRow answers m.row).1 := congrArg Prod.fst (shown_run answers c)

theorem row_run (m : Machine Q σ) (c : Call Q) :
    (c.run answers m).2.row = (c.onRow answers m.row).2 := congrArg Prod.snd (shown_run answers c)

end Machine

/-! ## Any calls -/

namespace Machine.Row

variable {r : Row Q σ} (answers : Answers Q σ)

def after (calls : List (Call Q)) (r : Row Q σ) : Row Q σ :=
  calls.foldl (fun r c => (c.onRow answers r).2) r

/-- There is room for a seed, and no more entries than there is room for. -/
structure Fits (r : Row Q σ) (limit : Nat) : Prop where
  limit_eq : r.limit = limit
  seed : 0 < limit
  length_le : r.entries.length ≤ limit

variable {limit : Nat}

theorem Fits.add (h : r.Fits limit) (vs : List (Value Q)) : (r.add vs).2.Fits limit where
  limit_eq := h.limit_eq
  seed := h.seed
  length_le := by
    have hl := h.length_le
    simp only [Row.add, List.length_append, List.length_take, room, h.limit_eq]
    omega

theorem Fits.takeLast (h : r.Fits limit)
    (f : Value Q → Session σ → Except EvalError (Reply Q) × Session σ) :
    (r.takeLast f).2.Fits limit := by
  unfold Row.takeLast
  split
  · exact h
  · have hl : r.entries.dropLast.length ≤ limit := by
      rw [List.length_dropLast]
      exact (Nat.sub_le ..).trans h.length_le
    exact ⟨h.limit_eq, h.seed, hl⟩

theorem look_snd (r : Row Q σ) (index : Nat) (v : Option (Value Q)) : (r.look index v).2 = r := by
  rcases v with _ | v <;> rfl

theorem Fits.onRow (h : r.Fits limit) (c : Call Q) : (c.onRow answers r).2.Fits limit := by
  cases c with
  | child => exact ⟨h.limit_eq, h.seed, h.seed⟩
  | push | pushBytes | pushWord | pushBool | extend => exact h.add _
  | pop | popBytes | popWord | popSize | popBool => exact h.takeLast _
  | peek | get =>
    rw [Call.onRow, look_snd]
    exact h
  | swap back =>
    rw [Call.onRow]
    split
    · exact ⟨h.limit_eq, h.seed, (length_exchange ..).trans_le h.length_le⟩
    · exact h
  | splitTop count => exact ⟨h.limit_eq, h.seed, (List.length_take_le' ..).trans h.length_le⟩
  | _ => exact ⟨h.limit_eq, h.seed, h.length_le⟩

end Machine.Row

namespace Machine

variable {m : Machine Q σ} (answers : Answers Q σ) {limit : Nat}

def after (calls : List (Call Q)) (m : Machine Q σ) : Machine Q σ :=
  calls.foldl (fun m c => (c.run answers m).2) m

/-- Any calls make of a machine within its limit what they make of its row. -/
theorem row_after (calls : List (Call Q)) (h : m.row.Fits limit) :
    (after answers calls m).row = m.row.after answers calls ∧
      (after answers calls m).row.Fits limit := by
  induction calls generalizing m with
  | nil => exact ⟨rfl, h⟩
  | cons c calls ih =>
    have hr := ih (m := (c.run answers m).2) (row_run answers m c ▸ h.onRow answers c)
    rwa [row_run] at hr

/-! ## Calls that fail -/

theorem row_injective {m m' : Machine Q σ} (h : m.row = m'.row) : m = m' := by
  obtain ⟨⟨target, slot, exitCode, stack, max⟩, session⟩ := m
  obtain ⟨⟨target', slot', exitCode', stack', max'⟩, session'⟩ := m'
  simp only [row, Row.mk.injEq, List.reverse_inj] at h
  obtain ⟨rfl, rfl, rfl, rfl, rfl, rfl⟩ := h
  rfl

namespace Call

def AllOrNothing : Call Q → Prop
  | push _ | pushBytes _ | pushWord _ | pushBool _ | peek _ | get _ | swap _ => True
  | _ => False

def Reads : Call Q → Prop
  | popBytes | popWord | popSize | popBool => True
  | _ => False

end Call

namespace Row

variable {r : Row Q σ} {e : EvalError}

theorem add_error {vs : List (Value Q)} (h : (r.add vs).1 = .error e) : r.room < vs.length := by
  by_contra hl
  rw [Row.add, if_pos (Nat.le_of_not_lt hl)] at h
  cases h

theorem onRow_of_error {c : Call Q} (hc : c.AllOrNothing) (h : (c.onRow answers r).1 = .error e) :
    (c.onRow answers r).2 = r := by
  have alone {v : Value Q} (h : (r.add [v]).1 = .error e) : (r.add [v]).2 = r := by
    have full : r.room = 0 := by simpa using add_error h
    simp [Row.add, full]
  cases c with
  | push | pushBytes | pushWord | pushBool => exact alone h
  | peek | get => exact look_snd ..
  | swap back =>
    rw [Call.onRow] at h ⊢
    split at h
    · cases h
    · next hb => rw [dif_neg hb]
  | _ => exact hc.elim

theorem takeLast_of_ne_nil (h : r.entries ≠ [])
    (f : Value Q → Session σ → Except EvalError (Reply Q) × Session σ) :
    ∃ session, (r.takeLast f).2 = { r with entries := r.entries.dropLast, session } := by
  rw [takeLast, List.getLast?_eq_getLast_of_ne_nil h]
  exact ⟨_, rfl⟩

theorem onRow_reads {c : Call Q} (hc : c.Reads) (h : r.entries ≠ []) :
    ∃ session, (c.onRow answers r).2 = { r with entries := r.entries.dropLast, session } := by
  cases c with
  | popBytes | popWord | popSize | popBool => exact takeLast_of_ne_nil h _
  | _ => exact hc.elim

theorem onRow_swap {back : Nat} {reply : Reply Q}
    (h : ((Call.swap back).onRow answers r).1 = .ok reply) :
    let s := ((Call.swap back).onRow answers r).2
    s.entries.Perm r.entries ∧ (Call.swap back).onRow answers s = (.ok .done, r) := by
  have hb : back < r.entries.length := by
    by_contra hb
    rw [Call.onRow, dif_neg hb] at h
    cases h
  intro s
  let last : Fin r.entries.length := ⟨r.entries.length - 1, by omega⟩
  let other : Fin r.entries.length := ⟨r.entries.length - (back + 1), by omega⟩
  have hs : s = { r with entries := exchange r.entries last other } :=
    congrArg Prod.snd (dif_pos hb)
  clear_value s
  subst hs
  have hl := length_exchange r.entries last other
  refine ⟨exchange_perm .., (dif_pos (hb.trans_eq hl.symm)).trans ?_⟩
  refine congrArg (fun entries => (Except.ok Reply.done, { r with entries }))
    (exchange_exchange (i := last) (j := other) _ ?_ ?_)
  · exact congrArg (· - 1) hl
  · exact congrArg (· - (back + 1)) hl

end Row

/-- What failing calls leave of a machine, and what swaps do to its values. -/
structure FailsCleanly (m : Machine Q σ) : Prop where
  unchanged {c : Call Q} {e : EvalError} : c.AllOrNothing → (c.run answers m).1 = .error e →
    (c.run answers m).2 = m
  /-- The values that there is room for stay. -/
  extended {vs : List (Value Q)} {e : EvalError} :
    ((Call.extend vs).run answers m).1 = .error e →
      m.row.room < vs.length ∧ ((Call.extend vs).run answers m).2.row =
        { m.row with entries := m.row.entries ++ vs.take m.row.room }
  /-- The value is gone, also when the reading fails. -/
  taken {c : Call Q} {e : EvalError} : c.Reads → m.row.entries ≠ [] →
    (c.run answers m).1 = .error e → ∃ session, (c.run answers m).2.row =
      { m.row with entries := m.row.entries.dropLast, session }
  swapped {back : Nat} {reply : Reply Q} : ((Call.swap back).run answers m).1 = .ok reply →
    let m' := ((Call.swap back).run answers m).2
    m'.row.entries.Perm m.row.entries ∧ (Call.swap back).run answers m' = (.ok .done, m)

theorem failsCleanly (m : Machine Q σ) : m.FailsCleanly answers where
  unchanged {c e} hc he := by
    rw [reply_run] at he
    exact row_injective ((row_run answers m c).trans (Row.onRow_of_error answers hc he))
  extended {vs e} he := by
    rw [reply_run] at he
    exact ⟨Row.add_error he, row_run answers m (.extend vs)⟩
  taken {c e} hc hne _ := by
    rw [row_run]
    exact Row.onRow_reads answers hc hne
  swapped {back reply} hr := by
    rw [reply_run] at hr
    obtain ⟨hp, hb⟩ := Row.onRow_swap answers hr
    rw [← row_run] at hp hb
    obtain ⟨hs, ht⟩ := Prod.ext_iff.mp ((shown_run answers (.swap back)).trans hb)
    exact ⟨hp, Prod.ext hs (row_injective ht)⟩

/-- The machine's operations are those of a list that gets no longer than its limit, whatever was
called before on a new machine and has failed. A call that fails leaves the values as they were, or
those of them and of the given ones that it got to. -/
theorem acts_as_row (h : 0 < limit) (session : Session σ) (calls : List (Call Q)) :
    let m := after answers calls ⟨{ maxStack := limit }, session⟩
    let r := Row.after answers calls { limit, session }
    m.row = r ∧ r.limit = limit ∧ r.entries.length ≤ limit ∧
      (∀ c : Call Q, shown (c.run answers m) = c.onRow answers r) ∧ m.FailsCleanly answers := by
  intro m r
  obtain ⟨hm, hr⟩ : m.row = r ∧ m.row.Fits limit :=
    row_after answers calls ⟨rfl, h, Nat.zero_le limit⟩
  have hf : r.Fits limit := hm ▸ hr
  exact ⟨hm, hf.limit_eq, hf.length_le, fun c => hm ▸ shown_run answers c,
    failsCleanly answers m⟩

/-- With room for three values, the second one of an extension is the last that fits. It is gone
after it was read as a word, for which it is too wide. Then two values can be swapped, but there is
no third one to be found. -/
theorem acts_as_row_limit_three :
    let v := fun n => Value.known (Q := Empty) (List.replicate n 0)
    let answers : Answers Empty Unit := fun q => nomatch q
    let m := after answers [.push (v 1), .extend [v 2, v 33, v 4], .popWord]
      ⟨{ maxStack := 3 }, { source := () }⟩
    0 < 3 ∧ m.row.entries = [v 1, v 2] ∧
      ((Call.swap 1).run answers m).2.row.entries = [v 2, v 1] ∧
      ((Call.swap 2).run answers m).2 = m ∧
      ((Call.extend [v 5, v 6]).run answers m).2.row.entries = [v 1, v 2, v 5] := by
  intro v answers m
  obtain ⟨hm, _, _, runs, clean⟩ := acts_as_row answers (by decide : 0 < 3) { source := () }
    [.push (v 1), .extend [v 2, v 33, v 4], .popWord]
  have swapped := congrArg (fun p => p.2.entries) (runs (.swap 1))
  have full : ((Call.extend [v 5, v 6]).run answers m).1 = .error (.stack (.overflow 3)) := rfl
  obtain ⟨_, extended⟩ := clean.extended full
  refine ⟨by decide, congrArg Row.entries hm, swapped.trans rfl, ?_,
    (congrArg Row.entries extended).trans rfl⟩
  exact clean.unchanged (c := .swap 2) (e := .index (.stack 2 2)) trivial rfl

end Machine

end ChainRead
