import ChainRead.Proofs.Evaluation.Hints
import ChainRead.Proofs.Evaluation.Inlining
import ChainRead.Proofs.Evaluation.Reading
import ChainRead.Source.Chain

/-! # Following a mapping step by step

Selecting a mapping's entry is a short form of four operations, which append the slot to the key,
hash both and select the hash. The short form resolves the key and charges the bytes that it has,
while the long form charges the bytes that the key declares and may leave the pair pending until it
is hashed. Both give the same, since a key declares the bytes that it has.
-/

namespace ChainRead

variable {Q σ : Type} {answers : Answers Q σ}

namespace Value

theorem resolve_renumbered (answers : Answers Q σ) (v : Value Q) (s : Session σ) (next : Nat) :
    v.resolve answers { s with next } =
      ((v.resolve answers s).1, { (v.resolve answers s).2 with next }) := by
  have matched : Session.Matched False Eq answers answers
      fun s t : Session σ => t = { s with next } := by
    refine ⟨fun h => h ▸ rfl, fun id => .of_same fun h => ?_, ?_, fun id o h => h ▸ rfl⟩
    · subst h
      exact ⟨rfl, rfl⟩
    · rintro q _ rfl
      refine .of_same fun h => ?_
      subst h
      exact ⟨rfl, rfl⟩
  obtain ⟨he, hs⟩ := (matched.resolve v).same rfl
  exact Prod.ext he.symm hs

end Value

/-- Nothing tells two sessions apart but the values numbered from `next` on. -/
structure Session.SameBelow (next : Nat) (s t : Session σ) : Prop where
  source : s.source = t.source
  outcome : ∀ id < next, s.outcome? id = t.outcome? id

theorem Session.SameBelow.rfl {next : Nat} {s : Session σ} : s.SameBelow next s :=
  ⟨Eq.refl _, fun _ _ => Eq.refl _⟩

/-- A pair of values of which the second one is known resolves to the bytes of both, and the first
value is resolved then. -/
theorem Value.resolve_pair {v : Value Q} {s t : Session σ} {key tail : Bytes} (hint : Option Nat)
    (hs : s.Fresh) (h : v.resolve answers s = (.ok key, t)) :
    ∃ u, (joined s.next hint [v, .known tail]).resolve answers { s with next := s.next + 1 } =
      (.ok (key ++ tail), u) ∧ t.SameBelow s.next u := by
  have parts : (resolveAll answers [v, .known tail] >>= fun bytes => pure bytes.flatten)
      { s with next := s.next + 1 } = (.ok (key ++ tail), { t with next := s.next + 1 }) := by
    have hv := resolve_renumbered answers v s (s.next + 1)
    rw [h] at hv
    rw [Fallible.bind_apply, resolveAll, Fallible.bind_of_ok hv]
    simp [resolveAll, resolve, Fallible.bind_apply]
  have free : ({ s with next := s.next + 1 } : Session σ).outcome? s.next = none := hs _ le_rfl
  rw [resolve, Session.once_of_not_settled free, parts]
  refine ⟨_, Eq.refl _, Eq.refl _, fun id hid => ?_⟩
  have := Session.outcome?_settle s.next (.ok (key ++ tail)) { t with next := s.next + 1 } id
  rw [if_neg hid.ne] at this
  exact this.symm

def State.withSession (s : State σ) (session : Session σ) : State σ := { s with session }

namespace Eval

variable {env : Env σ} {s : State σ} {t : Session σ} {v : Value Question}
  {rest : List (Value Question)} {key bytes : Bytes}

theorem resolve_of_ok (h : v.resolve env.source.answers s.session = (.ok bytes, t)) :
    resolve env v s = (.ok bytes, s.withSession t) := by
  show ((v.resolve env.source.answers s.session).1,
    s.withSession (v.resolve env.source.answers s.session).2) = _
  rw [h]

theorem popBytes_of_ok (h : v.resolve env.source.answers s.session = (.ok bytes, t)) :
    popBytes env (s.withStack (v :: rest)) = (.ok bytes, (s.withSession t).withStack rest) := by
  have hp : pop (s.withStack (v :: rest)) = (.ok v, s.withStack rest) := rfl
  rw [popBytes_eq, Fallible.bind_of_ok hp]
  exact resolve_of_ok h

theorem push_withStack (u : Value Question) (room : rest.length < s.frame.maxStack) :
    push u (s.withStack rest) = (.ok (), s.withStack (u :: rest)) :=
  push_of_lt u room

/-! ## Joining a word to a key -/

theorem concat_withStack (a b : Value Question) :
    concat env (s.withStack (b :: a :: rest)) =
      joinSeenBy env create a b (a.length? s.session) (b.length? s.session)
        (a.peek s.session, b.peek s.session) (s.withStack rest) := by
  have h : concat env = pop >>= fun b => pop >>= fun a => lookAndJoinBy env create a b :=
    concatBy_eq env create
  rw [h]
  rfl

/-- What joining two values to given bytes leads to. If there are bytes left for them, a value that
resolves to them is on the stack; once it did, `t` is the session, new values apart. -/
inductive Joins (env : Env σ) (s : State σ) (t : Session σ) (rest : List (Value Question))
    (bytes : Bytes) : Except EvalError Unit × State σ → Prop
  | refused {u : State σ} (h : ¬ clampSize bytes.length ≤ s.trace.allocLeft) :
    Joins env s t rest bytes (.error (.budget (.allocOverflow s.trace.allocLimit)), u)
  | joined {v : Value Question} {u u' : Session σ} (h : clampSize bytes.length ≤ s.trace.allocLeft)
    (resolves : v.resolve env.source.answers u = (.ok bytes, u'))
    (same : t.SameBelow s.session.next u') :
    Joins env s t rest bytes
      (.ok (), ((charged s (clampSize bytes.length)).withSession u).withStack (v :: rest))

theorem joins_known {n : Nat} (hn : clampSize n = clampSize bytes.length)
    (room : rest.length < s.frame.maxStack) :
    Joins env s t rest bytes ((onTrace (Trace.alloc (clampSize n)) >>= fun _ =>
      push (.known bytes)) ((s.withSession t).withStack rest)) := by
  let s' := (s.withSession t).withStack rest
  rw [hn]
  by_cases ha : clampSize bytes.length ≤ s.trace.allocLeft
  · let paid := (charged s (clampSize bytes.length)).withSession t
    have hp : push (.known bytes) (paid.withStack rest) = _ := push_withStack _ room
    have resolves : (Value.known bytes).resolve env.source.answers t = (.ok bytes, t) := by
      rw [Value.resolve]
      rfl
    rw [Fallible.bind_of_ok (onTrace_alloc (s := s') ha)]
    exact hp ▸ .joined ha resolves .rfl
  · rw [Fallible.bind_apply, onTrace_alloc_error (s := s') ha]
    exact .refused ha

theorem joins_pending {tail : Bytes} {n : Nat} (hs : s.session.Fresh)
    (hn : clampSize n = clampSize (key ++ tail).length)
    (h : v.resolve env.source.answers s.session = (.ok key, t))
    (room : rest.length < s.frame.maxStack) :
    Joins env s t rest (key ++ tail) ((onTrace (Trace.alloc (clampSize n)) >>= fun _ =>
      create (Value.ofParts (some (clampSize n)) [v, .known tail]) >>= push)
        (s.withStack rest)) := by
  rw [hn]
  by_cases ha : clampSize (key ++ tail).length ≤ s.trace.allocLeft
  · let hint := some (clampSize (key ++ tail).length)
    let pair : Value Question := .joined s.session.next hint [v, .known tail]
    let made := (charged s (clampSize (key ++ tail).length)).withSession
      { s.session with next := s.session.next + 1 }
    have hc : create (Value.ofParts hint [v, .known tail])
        (charged (s.withStack rest) (clampSize (key ++ tail).length)) =
          (.ok pair, made.withStack rest) := rfl
    have hp : push pair (made.withStack rest) = _ := push_withStack pair room
    obtain ⟨u, hu, same⟩ := Value.resolve_pair hint hs h
    rw [Fallible.bind_of_ok (onTrace_alloc (s := s.withStack rest) ha), Fallible.bind_of_ok hc, hp]
    exact .joined ha hu same
  · rw [Fallible.bind_apply, onTrace_alloc_error (s := s.withStack rest) ha]
    exact .refused ha

theorem concat_known (tail : Bytes) (hs : s.session.Fresh)
    (hl : ∀ n, v.length? s.session = some n → clampSize n = clampSize key.length)
    (h : v.resolve env.source.answers s.session = (.ok key, t))
    (room : rest.length < s.frame.maxStack) :
    Joins env s t rest (key ++ tail) (concat env (s.withStack (.known tail :: v :: rest))) := by
  rw [concat_withStack]
  rcases hn : v.length? s.session with _ | n
  · have hv : resolve env v (s.withStack rest) = (.ok key, (s.withSession t).withStack rest) :=
      resolve_of_ok h
    have hk : resolve env (.known tail) ((s.withSession t).withStack rest) =
        (.ok tail, (s.withSession t).withStack rest) := by
      refine resolve_of_ok ?_
      rw [Value.resolve]
      rfl
    show Joins _ _ _ _ _ ((resolve env v >>= fun x => resolve env (.known tail) >>= fun y =>
      onTrace (Trace.alloc (clampSize (x.length + y.length))) >>= fun _ =>
        push (.known (x ++ y))) (s.withStack rest))
    rw [Fallible.bind_of_ok hv, Fallible.bind_of_ok hk]
    exact joins_known (by rw [List.length_append]) room
  · have hsum : clampSize (n + tail.length) = clampSize (key ++ tail).length := by
      rw [List.length_append]
      exact clampSize_add (hl n hn) rfl
    rcases hp : v.peek s.session with _ | bytes
    · exact joins_pending hs hsum h room
    · rw [Value.resolve_of_peek hp] at h
      cases h
      exact joins_known hsum room

/-! ## Selecting the entry -/

def executeAll (env : Env σ) (ops : List Op) : Eval σ Unit := ops.forM (execute env)

theorem executeAll_of_ok {op : Op} {s t : State σ} (h : execute env op s = (.ok (), t))
    (ops : List Op) : executeAll env (op :: ops) s = executeAll env ops t := by
  show (execute env op >>= fun _ => executeAll env ops) s = _
  rw [Fallible.bind_of_ok h]

theorem executeAll_of_error {op : Op} {e : EvalError} {s t : State σ}
    (h : execute env op s = (.error e, t)) (ops : List Op) :
    executeAll env (op :: ops) s = (.error e, t) := by
  show (execute env op >>= fun _ => executeAll env ops) s = _
  rw [Fallible.bind_apply, h]

def followOps : List Op := [.getSlot, .concat, .keccak, .setSlot]

/-- A mapping's entry is selected for a key, which was charged with a word behind it. -/
structure Selected (s : State σ) (rest : List (Value Question)) (key : Bytes) (t : State σ) :
    Prop where
  frame : t.frame = { s.frame with
    slot := keccak256 (key ++ s.frame.slot.toBytes), stack := rest }
  outputs : t.outputs = s.outputs
  trace : t.trace = { s.trace with
    allocLeft := s.trace.allocLeft - clampSize (key.length + 32) }

/-- Two ways to select a mapping's entry give the same: there are too few bytes left for the key and
a word, or the entry is selected and nothing tells earlier values apart. -/
inductive SelectAlike (s : State σ) (rest : List (Value Question)) (key : Bytes) :
    Except EvalError Unit × State σ → Except EvalError Unit × State σ → Prop
  | refused {t u : State σ} (h : s.trace.allocLeft < clampSize (key.length + 32)) :
    SelectAlike s rest key (.error (.budget (.allocOverflow s.trace.allocLimit)), t)
      (.error (.budget (.allocOverflow s.trace.allocLimit)), u)
  | selected {t u : State σ} (h : clampSize (key.length + 32) ≤ s.trace.allocLeft)
    (left : Selected s rest key t) (right : Selected s rest key u)
    (same : t.session.SameBelow s.session.next u.session) :
    SelectAlike s rest key (.ok (), t) (.ok (), u)

theorem execute_keccak (h : v.resolve env.source.answers s.session = (.ok bytes, t))
    (room : rest.length < s.frame.maxStack) :
    execute env .keccak (s.withStack (v :: rest)) =
      (.ok (), (s.withSession t).withStack (.known (keccak256 bytes).toBytes :: rest)) := by
  show (popBytes env >>= fun bytes => push (.known (keccak256 bytes).toBytes)) _ = _
  rw [Fallible.bind_of_ok (popBytes_of_ok h)]
  exact push_withStack _ room

theorem execute_setSlot (env : Env σ) (s : State σ) (w : Word) (rest : List (Value Question)) :
    execute env .setSlot (s.withStack (.known w.toBytes :: rest)) =
      (.ok (), { s with frame := { s.frame with slot := w, stack := rest } }) := by
  show (popWord env >>= fun slot => modifyFrame fun f => { f with slot }) _ = _
  rw [Fallible.bind_of_ok (popWord_known s w rest)]
  rfl

theorem execute_follow (h : v.resolve env.source.answers s.session = (.ok key, t))
    (rest : List (Value Question)) :
    execute env .follow (s.withStack (v :: rest)) =
      (onTrace (Trace.alloc (clampSize (key.length + 32))) >>= fun _ =>
        modifyFrame fun f => { f with slot := followSlot key f.slot })
          ((s.withSession t).withStack rest) := by
  show (popBytes env >>= fun key => onTrace (Trace.alloc (clampSize (key.length + 32))) >>= fun _ =>
    modifyFrame fun f => { f with slot := followSlot key f.slot }) _ = _
  rw [Fallible.bind_of_ok (popBytes_of_ok h)]

/-- The short and the long form select the same entry if the length that is there of the key without
work is the one that it has. -/
theorem selectAlike (hst : s.frame.stack = v :: rest) (hs : s.session.Fresh)
    (hl : ∀ n, v.length? s.session = some n → clampSize n = clampSize key.length)
    (h : v.resolve env.source.answers s.session = (.ok key, t))
    (room : s.frame.size < s.frame.maxStack) :
    SelectAlike s rest key (execute env .follow s) (executeAll env followOps s) := by
  let word := s.frame.slot.toBytes
  have hsize : rest.length < s.frame.maxStack := by
    have : s.frame.size = rest.length + 1 := by rw [Frame.size, hst, List.length_cons]
    omega
  have hcost : (key ++ word).length = key.length + 32 := by
    rw [List.length_append, Word.length_toBytes]
  have getSlot : execute env .getSlot s = (.ok (), s.withStack (.known word :: v :: rest)) :=
    hst ▸ push_of_lt (.known word) room
  have top : s.withStack (v :: rest) = s := hst ▸ rfl
  have follow := execute_follow h rest
  rw [top] at follow
  have joins : Joins env s t rest (key ++ word)
      (execute env .concat (s.withStack (.known word :: v :: rest))) :=
    concat_known word hs hl h hsize
  rw [followOps, executeAll_of_ok getSlot, follow]
  generalize concat : execute env .concat _ = p at joins
  cases joins with
  | refused ha =>
    rw [hcost] at ha
    rw [executeAll_of_error concat, Fallible.bind_apply,
      onTrace_alloc_error (s := (s.withSession t).withStack rest) ha]
    exact .refused (Nat.lt_of_not_le ha)
  | @joined pair u u' ha resolves same =>
    rw [hcost] at ha concat
    let paid := charged s (clampSize (key.length + 32))
    have keccak : execute env .keccak ((paid.withSession u).withStack (pair :: rest)) = _ :=
      execute_keccak resolves hsize
    have setSlot := execute_setSlot env ((paid.withSession u).withSession u')
      (keccak256 (key ++ word)) rest
    rw [executeAll_of_ok concat, executeAll_of_ok keccak, executeAll_of_ok setSlot,
      Fallible.bind_of_ok (onTrace_alloc (s := (s.withSession t).withStack rest) ha)]
    exact .selected ha ⟨rfl, rfl, rfl⟩ ⟨rfl, rfl, rfl⟩ same

end Eval

def State.withAllocLeft (s : State σ) (left : Nat) : State σ :=
  { s with trace := { s.trace with allocLeft := left } }

open Eval

/-- At every step of an evaluation, and whatever bytes are left then, selecting a mapping's entry
and the operations that it is short for do the same with a key that resolves, whether the key is
known, pending with a declared length or pending without. -/
theorem follow_followOps {env : Env σ} {program : Program} {session : Session σ}
    (hs : session.Fresh) {x : Execution σ} (hx : env.Visits program session (.running x))
    {v : Value Question} {rest : List (Value Question)} (hst : x.state.frame.stack = v :: rest)
    (room : x.state.frame.size < x.state.frame.maxStack) {key : Bytes}
    (hk : (v.resolve env.source.answers x.state.session).1 = .ok key) (left : Nat) :
    let s := x.state.withAllocLeft left
    SelectAlike s rest key (execute env .follow s) (executeAll env followOps s) := by
  obtain ⟨w, honours, hinted⟩ := Env.visits_hinted hs hx
  have top := hinted v (hst ▸ List.mem_cons_self)
  intro s
  exact selectAlike (s := s) hst honours.is_fresh
    (fun n hn => (hinted_length? top honours hn hk).clamped) (Prod.ext hk rfl) room

/-- A key that is pending, with bytes left for it and a word, and with one byte less. -/
theorem follow_followOps_pending :
    let chain := Chain.withStorage {} 0 0 7
    let env : Env Nat := ⟨chain.source, {}⟩
    let program : Program := ⟨0, Instruction.encodeAll [.plain .readSlot]⟩
    let key : Bytes := Word.toBytes 7
    ∃ x, env.Visits program { source := 0 } (.running x) ∧
      x.state.frame.stack = [.asked 0 (some 32) (.storage 0 0)] ∧
      ∀ left ∈ [64, 63], SelectAlike (x.state.withAllocLeft left) [] key
        (execute env .follow (x.state.withAllocLeft left))
        (executeAll env followOps (x.state.withAllocLeft left)) := by
  intro chain env program key
  let x : Execution Nat :=
    ⟨(execute env .readSlot (env.start program { source := 0 })).2, .reading ⟨2, []⟩, []⟩
  have hx : env.Visits program { source := 0 } (.running x) := ⟨1, rfl⟩
  have hst : x.state.frame.stack = [.asked 0 (some 32) (.storage 0 0)] := rfl
  refine ⟨x, hx, hst, fun left _ => ?_⟩
  exact follow_followOps (fun _ _ => rfl) hx hst (by decide +kernel) rfl left

end ChainRead
