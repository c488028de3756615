import ChainRead.Word.Basic

/-! # Labels as text

A label is stored as UTF-8. Bytes that are not UTF-8 still read as text: each maximal invalid part
becomes one replacement character.
-/

namespace ChainRead.Utf8

def encode (text : String) : Bytes := text.toUTF8.data.toList

/-- The first character of a byte string, if one is encoded there. -/
def first? (bytes : Bytes) : Option Char := (bytes.take 4).toByteArray.utf8DecodeChar? 0

def isContinuation (b : UInt8) : Bool := 0x80 ≤ b && b ≤ 0xbf

/-- Whether `b` may follow the lead byte `lead` of a sequence of three or four bytes. -/
def mayFollow (lead b : UInt8) : Bool :=
  if lead = 0xe0 then 0xa0 ≤ b && b ≤ 0xbf
  else if lead = 0xed then 0x80 ≤ b && b ≤ 0x9f
  else if lead = 0xf0 then 0x90 ≤ b && b ≤ 0xbf
  else if lead = 0xf4 then 0x80 ≤ b && b ≤ 0x8f
  else isContinuation b

/-- The length of the longest start of a character's encoding, at least one byte. -/
def invalidLength : Bytes → Nat
  | lead :: b :: c :: _ =>
    if 0xe0 ≤ lead && lead ≤ 0xf4 && mayFollow lead b then
      if 0xf0 ≤ lead && isContinuation c then 3 else 2
    else 1
  | [lead, b] => if 0xe0 ≤ lead && lead ≤ 0xf4 && mayFollow lead b then 2 else 1
  | _ => 1

/-- Read at most `fuel` characters; no byte string holds more of them than bytes. -/
def decodeChars : Nat → Bytes → List Char
  | 0, _ => []
  | _, [] => []
  | fuel + 1, bytes =>
    match first? bytes with
    | some c => c :: decodeChars fuel (bytes.drop c.utf8Size)
    | none => Char.ofNat 0xfffd :: decodeChars fuel (bytes.drop (invalidLength bytes))

def decode (bytes : Bytes) : String := String.ofList (decodeChars bytes.length bytes)

end ChainRead.Utf8
