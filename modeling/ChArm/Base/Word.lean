import Mathlib

/-!
# Words, bytes and little-endian layout

The fixed-width integers of the emulator and the byte order in which it reads
and writes them.
-/

namespace ChArm

/-- `uint64_t`. -/
abbrev Word := BitVec 64

/-- `byte_t`, a byte of memory. -/
abbrev Byte := BitVec 8

/-- Byte `k` of a little-endian doubleword, `((uint8_t *) &data)[k]`. -/
def byteOf (val : Word) (k : Nat) : Byte := (val >>> (8 * k)).setWidth 8

/-- The little-endian value of the first `n` bytes of `f`, most significant byte
first shifted in. -/
def leValue (f : Nat → Byte) (n : Nat) : Word :=
  (List.range n).foldr (fun k acc => (acc <<< 8) + (f k).setWidth 64) 0

theorem leValue_congr {f g : Nat → Byte} {n : Nat} (h : ∀ k < n, f k = g k) :
    leValue f n = leValue g n := by
  unfold leValue
  refine List.foldr_ext _ _ _ ?_
  intro k hk acc
  rw [h k (List.mem_range.1 hk)]

/-- `memcpy(dst, src, n)` on byte buffers. -/
def memcpy (dst src : Nat → Byte) (n : Nat) : Nat → Byte :=
  fun k => if k < n then src k else dst k

theorem memcpy_of_lt {dst src : Nat → Byte} {n k : Nat} (h : k < n) :
    memcpy dst src n k = src k := if_pos h

end ChArm
