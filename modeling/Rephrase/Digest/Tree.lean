import Rephrase.Decimal.Digits
import Rephrase.Digest.Compression

/-!
The BLAKE3 digest of a text. Its bytes are cut into chunks of 1024, the chunks are the leaves of a
binary tree whose left sides are full, and the digest is the root's chaining value.
-/

namespace Rephrase.Digest

/-- The word that four bytes write, the lowest first; missing bytes are zero. -/
def wordAt (bytes : Array UInt8) (i : Nat) : UInt32 :=
  let byte (k : Nat) : UInt32 := (bytes.getD (i + k) 0).toUInt32
  byte 0 ||| (byte 1 <<< 8) ||| (byte 2 <<< 16) ||| (byte 3 <<< 24)

def blockOf (bytes : List UInt8) : Block :=
  let bytes := bytes.toArray
  Vector.ofFn fun i : Fin 16 => wordAt bytes (4 * i.val)

/-- The last compression of a chunk, after those of its other blocks have been made. -/
def chunkFrom (counter : Nat) (chaining : Chaining) (start : UInt32) (bytes : List UInt8) :
    Input :=
  if bytes.length ≤ 64 then
    ⟨chaining, blockOf bytes, counter, bytes.length, start ||| chunkEnd⟩
  else
    chunkFrom counter (compress ⟨chaining, blockOf (bytes.take 64), counter, 64, start⟩) 0
      (bytes.drop 64)
termination_by bytes.length
decreasing_by grind

/-- How many bytes go into the left side of a tree. -/
def leftSize (size : Nat) : Nat :=
  -- The largest power of two of chunks that leaves something for the right side.
  1024 <<< ((size - 1) / 1024).log2

theorem leftSize_pos (size : Nat) : 0 < leftSize size := by
  rw [leftSize, Nat.shiftLeft_eq]
  exact Nat.mul_pos (by decide) (Nat.two_pow_pos _)

theorem leftSize_lt {size : Nat} (h : 1024 < size) : leftSize size < size := by
  have chunks : (size - 1) / 1024 ≠ 0 := by omega
  have := Nat.log2_self_le chunks
  have := Nat.div_mul_le_self (size - 1) 1024
  rw [leftSize, Nat.shiftLeft_eq]
  omega

def pair (left right : Chaining) : Block :=
  left ++ right

/-- The last compression of a tree over the bytes, whose first chunk has the given number. It is not
made yet, since the root is marked before. -/
def treeFrom (counter : Nat) (bytes : List UInt8) : Input :=
  if h : bytes.length ≤ 1024 then
    chunkFrom counter initial chunkStart bytes
  else
    let size := leftSize bytes.length
    have := leftSize_lt (Nat.lt_of_not_le h)
    have := leftSize_pos bytes.length
    let left := compress (treeFrom counter (bytes.take size))
    let right := compress (treeFrom (counter + size / 1024) (bytes.drop size))
    ⟨initial, pair left right, 0, 64, parent⟩
termination_by bytes.length
decreasing_by all_goals grind

def words (bytes : List UInt8) : Chaining :=
  let last := treeFrom 0 bytes
  -- At the root the counter is that of the blocks of output, of which only the first is needed.
  compress { last with counter := 0, marks := last.marks ||| root }

def hexByte (n : Nat) : List Char :=
  [Decimal.hexChar (n / 16 % 16), Decimal.hexChar (n % 16)]

def hexWord (w : UInt32) : List Char :=
  let n := w.toNat
  hexByte n ++ hexByte (n >>> 8) ++ hexByte (n >>> 16) ++ hexByte (n >>> 24)

def ofText (text : String) : String :=
  String.ofList ((words text.toUTF8.toList).toList.flatMap hexWord)

end Rephrase.Digest
