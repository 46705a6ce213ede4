import NativeBuild.Text

/-!
# Argument checksums

`Checksum.crc` is the reflected CRC-32C (Castagnoli) of a byte text, one table look-up per
byte. A stamp puts the low word of the length behind it, so two texts with one checksum still
have different stamps unless their lengths agree too.
-/
namespace NativeBuild.Checksum

/-- The Castagnoli polynomial with its bits reversed. -/
def polynomial : UInt32 := 0x82F63B78

/-- One bit: shift right, and subtract the polynomial if the bit shifted out was set. -/
def step (crc : UInt32) : UInt32 :=
  if crc &&& 1 = 1 then (crc >>> 1) ^^^ polynomial else crc >>> 1

def steps : Nat → UInt32 → UInt32
  | 0, crc => crc
  | n + 1, crc => steps n (step crc)

/-- Entry `i` is the register `i` after eight bit steps. -/
def table : Array UInt32 := Array.ofFn fun i : Fin 256 => steps 8 i.val.toUInt32

@[simp] theorem size_table : table.size = 256 := by simp [table]

/-- The register after one more byte. -/
def update (crc : UInt32) (b : UInt8) : UInt32 :=
  let index := (crc ^^^ b.toUInt32) &&& 0xFF
  table[index.toNat]?.getD 0 ^^^ (crc >>> 8)

/-- The CRC-32C of a text. -/
def crc (t : Text) : UInt32 := t.foldl update 0xFFFFFFFF ^^^ 0xFFFFFFFF

/-- Eight digits of checksum, then eight digits of length modulo `2 ^ 32`. -/
def stamp (t : Text) : Text :=
  Text.hex 8 (crc t).toNat ++ Text.hex 8 (t.length % 0x100000000)

@[simp] theorem length_stamp (t : Text) : (stamp t).length = 16 := by simp [stamp]

end NativeBuild.Checksum
