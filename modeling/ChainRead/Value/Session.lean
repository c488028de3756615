import ChainRead.Fallible
import ChainRead.Value.Basic

/-! # Resolving values

A session numbers the pending values and keeps what each one resolved to, next to the state of
whatever answers the questions. A pending value is computed at its first use. Parts are resolved
from left to right, and the first failure ends the resolution.
-/

namespace ChainRead

structure Session (σ : Type) where
  source : σ
  next : Nat := 0
  /-- What pending values resolved to, latest first. -/
  settled : List (Nat × Outcome) := []
  /-- The numbers of the values whose question was asked or whose function was applied, latest
  first. -/
  ran : List Nat := []

abbrev Answers (Q σ : Type) := Q → Fallible EvalError σ Bytes

variable {Q σ : Type}

namespace Session

def outcome? (s : Session σ) (id : Nat) : Option Outcome := s.settled.lookup id

def mark (id : Nat) : Fallible EvalError (Session σ) Unit := fun s =>
  (.ok (), { s with ran := id :: s.ran })

def ask (answers : Answers Q σ) (question : Q) : Fallible EvalError (Session σ) Bytes :=
  Fallible.zoom Session.source (fun source s => { s with source }) (answers question)

/-- What a value resolved to, computing it now if it has not been yet. -/
def once (id : Nat) (compute : Fallible EvalError (Session σ) Bytes) :
    Fallible EvalError (Session σ) Bytes := fun s =>
  match s.outcome? id with
  | some outcome => (outcome, s)
  | none =>
    let (outcome, s) := compute s
    (outcome, { s with settled := (id, outcome) :: s.settled })

end Session

namespace Value

open Session

mutual

def resolve (answers : Answers Q σ) : Value Q → Fallible EvalError (Session σ) Bytes
  | known bytes => pure bytes
  | asked id _ question => once id do
    mark id
    ask answers question
  | joined id _ parts => once id do
    let bytes ← resolveAll answers parts
    return bytes.flatten
  | mapped id _ base f => once id do
    let bytes ← resolve answers base
    mark id
    .ofExcept (f bytes)

def resolveAll (answers : Answers Q σ) :
    List (Value Q) → Fallible EvalError (Session σ) (List Bytes)
  | [] => pure []
  | v :: vs => do
    let bytes ← resolve answers v
    let rest ← resolveAll answers vs
    return bytes :: rest

end

/-- The bytes of a value, if they are there without any work. -/
def peek (s : Session σ) : Value Q → Option Bytes
  | known bytes => some bytes
  | v => match v.id?.bind s.outcome? with
    | some (.ok bytes) => some bytes
    | _ => none

/-- The length of a value, if it is there without any work. -/
def length? (s : Session σ) (v : Value Q) : Option Nat := v.hint? <|> (v.peek s).map List.length

def ofQuestion (hint : Option Nat) (question : Q) : StateM (Session σ) (Value Q) := fun s =>
  (asked s.next hint question, { s with next := s.next + 1 })

def ofParts (hint : Option Nat) (parts : List (Value Q)) : StateM (Session σ) (Value Q) := fun s =>
  (joined s.next hint parts, { s with next := s.next + 1 })

/-- Apply a function to a value's bytes. On a known value it is applied now; a failure then waits
in a pending value. On a pending value it is applied when the result is resolved. -/
def map (v : Value Q) (hint : Option Nat) (f : Bytes → Outcome) : StateM (Session σ) (Value Q) :=
  fun s =>
    let id := s.next
    let s := { s with next := id + 1 }
    match v with
    | known bytes =>
      let s := { s with ran := id :: s.ran }
      match f bytes with
      | .ok result => (known result, s)
      | .error cause => (mapped id hint v f, { s with settled := (id, .error cause) :: s.settled })
    | _ => (mapped id hint v f, s)

end Value

end ChainRead
