import ChainRead.Word.Basic

/-! # Hexadecimal text

Byte strings, words and addresses are written with the sign 0x and two lowercase digits for each
byte. Reading takes digits of either case.
-/

namespace ChainRead.Hex

def digit (n : Nat) : Char := if n < 10 then Char.ofNat (48 + n) else Char.ofNat (87 + n)

def pair (b : UInt8) : List Char := [digit (b.toNat / 16), digit (b.toNat % 16)]

def digits (bytes : Bytes) : List Char := bytes.flatMap pair

def ofBytes (bytes : Bytes) : String := String.ofList ('0' :: 'x' :: digits bytes)

def ofWord (w : Word) : String := ofBytes w.toBytes

def ofAddress (a : Address) : String := ofBytes a.toBytes

def value? (c : Char) : Option Nat :=
  if '0' ≤ c ∧ c ≤ '9' then some (c.toNat - 48)
  else if 'a' ≤ c ∧ c ≤ 'f' then some (c.toNat - 87)
  else if 'A' ≤ c ∧ c ≤ 'F' then some (c.toNat - 55)
  else none

def number? (cs : List Char) : Option Nat :=
  cs.foldlM (fun n c => (value? c).map (16 * n + ·)) 0

/-- The number behind the sign 0x. -/
def toNat? (text : String) : Option Nat :=
  match text.toList with
  | '0' :: 'x' :: cs => number? cs
  | _ => none

def pairs? : List Char → Option Bytes
  | [] => some []
  | a :: b :: cs => do
    let high ← value? a
    let low ← value? b
    let rest ← pairs? cs
    return UInt8.ofNat (16 * high + low) :: rest
  | [_] => none

/-- The bytes behind the sign 0x. -/
def toBytes? (text : String) : Option Bytes :=
  match text.toList with
  | '0' :: 'x' :: cs => pairs? cs
  | _ => none

end ChainRead.Hex
