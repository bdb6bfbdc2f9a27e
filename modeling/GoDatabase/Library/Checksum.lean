import GoDatabase.Library.Bytes

/-!
# Checksummed blocks

CRC-32 with the IEEE polynomial, and blocks that carry their own checksum in a field
that counts as zero while the checksum is computed.
-/

namespace Library

/-- One step of the division by the reversed IEEE polynomial. -/
def crcBit (crc : UInt32) : UInt32 :=
  if crc &&& 1 = 1 then (crc >>> 1) ^^^ 0xedb88320 else crc >>> 1

def crcByte (crc : UInt32) (byte : UInt8) : UInt32 := Nat.repeat crcBit 8 (crc ^^^ byte.toUInt32)

/-- `crc32.ChecksumIEEE` -/
def checksumIEEE (data : Bytes) : Nat :=
  (data.foldl crcByte 0xffffffff ^^^ 0xffffffff).toNat

theorem checksumIEEE_lt (data : Bytes) : checksumIEEE data < 256 ^ 4 := UInt32.toNat_lt _

-- The check value of the algorithm, the checksum of the digits 1 to 9.
example : checksumIEEE [0x31, 0x32, 0x33, 0x34, 0x35, 0x36, 0x37, 0x38, 0x39] = 0xcbf43926 := by
  decide +kernel

/-- Store the checksum of a block in its field at `pos`. -/
def putChecksum (block : Bytes) (pos : Nat) : Bytes := writeLE block pos 4 (checksumIEEE block)

/-- The field at `pos` holds the checksum of the block with that field cleared. -/
def ChecksumHolds (block : Bytes) (pos : Nat) : Prop :=
  checksumIEEE (writeLE block pos 4 0) = readLE block pos 4

instance (block : Bytes) (pos : Nat) : Decidable (ChecksumHolds block pos) :=
  inferInstanceAs (Decidable (_ = _))

/-- A block whose parts are `front`, the checksum and `back`. -/
def sealBlock (front back : Bytes) : Bytes :=
  front ++ (leBytes 4 (checksumIEEE (front ++ (leBytes 4 0 ++ back))) ++ back)

variable {front back : Bytes} {pos : Nat}

theorem putChecksum_blank (start : front.length = pos) :
    putChecksum (front ++ (leBytes 4 0 ++ back)) pos = sealBlock front back := by
  rw [putChecksum, writeLE]
  exact patch_middle start (by simp)

theorem length_sealBlock : (sealBlock front back).length = front.length + (4 + back.length) := by
  simp only [sealBlock, List.length_append, length_leBytes]

/-- A sealed block passes its check. -/
theorem checksumHolds_sealBlock (start : front.length = pos) :
    ChecksumHolds (sealBlock front back) pos := by
  have cleared : writeLE (sealBlock front back) pos 4 0 = front ++ (leBytes 4 0 ++ back) := by
    rw [writeLE, sealBlock]
    exact patch_middle start (by simp)
  rw [ChecksumHolds, cleared, sealBlock]
  exact (readLE_middle start (checksumIEEE_lt _)).symm

end Library
