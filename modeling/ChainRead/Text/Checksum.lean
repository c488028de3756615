import ChainRead.Hash.Keccak
import ChainRead.Text.Hex

/-! # Checksummed addresses

The letter case of an address's digits carries a checksum: a letter is a capital when the digit
in its place of the hash of the lowercase digits is eight or more.
-/

namespace ChainRead.Address

/-- The lowercase digits of an address, with the letters raised that the hash picks. -/
def checksummed (a : Address) : String :=
  let plain := Hex.digits a.toBytes
  let hash := Hex.digits (keccak256 (plain.map fun c => UInt8.ofNat c.toNat)).toBytes
  let raised := List.zipWith (fun c h => if '8' ≤ h then c.toUpper else c) plain hash
  String.ofList ('0' :: 'x' :: raised)

end ChainRead.Address
