import BitCash.Lib.Codec
import BitCash.Script.SigHash

/-!
# Streams

The readers of `serialize.h` that `compactBytes` and `vectorBytes` are the writers of.
-/

variable {n : Nat}

namespace BitCash
open Wire Codec UInt8

def MAX_SIZE : Nat := 0x02000000

def CDataStream.eof : Stop := .throws "CDataStream::read(): end of data"

def CAutoFile.eof : Stop := .throws "CAutoFile::read: end of file"

variable (eof : Stop)

def readWide (n least : Nat) : Reader Stop Nat := do
  let x ← number eof n
  if x < least then fail (.throws "non-canonical ReadCompactSize()") else pure x

def readUnbounded (chSize : UInt8) : Reader Stop Nat :=
  if chSize < 253 then pure chSize.toNat
  else if chSize = 253 then readWide eof 2 253
  else if chSize = 254 then readWide eof 4 0x10000
  else readWide eof 8 0x100000000

def readCompactSize : Reader Stop Nat := do
  let chSize ← byte eof
  let n ← readUnbounded eof chSize
  if MAX_SIZE < n then fail (.throws "ReadCompactSize(): size too large") else pure n

def readVector : Reader Stop Bytes := do
  let n ← readCompactSize eof
  take eof n

theorem reads_wide {least x : Nat} (hx : x < 256 ^ n) (hl : least ≤ x) : Reads (readWide eof n least) (le n x) x := by
  have hread := reads_le eof n x hx
  have hpure : Reads (if x < least then fail (.throws "non-canonical ReadCompactSize()") else
      (pure x : Reader Stop Nat)) [] x := by
    rw [if_neg (by omega)]
    exact reads_pure x
  have h := hread.bind (f := fun x => if x < least then
    fail (.throws "non-canonical ReadCompactSize()") else (pure x : Reader Stop Nat)) hpure
  rwa [List.append_nil] at h

theorem reads_unbounded (hn : n < 2 ^ 64) :
    ∃ b rest, compactBytes n = b :: rest ∧ Reads (readUnbounded eof b) rest n := by
  unfold compactBytes
  by_cases h1 : n < 253
  · rw [if_pos h1]
    refine ⟨_, [], rfl, ?_⟩
    have hb : (ofNat n).toNat = n := by
      rw [toNat_ofNat']
      omega
    have hlt : ofNat n < 253 := by
      rw [lt_iff_toNat_lt, hb]
      exact h1
    rw [readUnbounded, if_pos hlt, hb]
    exact reads_pure n
  · rw [if_neg h1]
    by_cases h2 : n ≤ 0xffff
    · rw [if_pos h2]
      exact ⟨253, _, rfl, reads_wide eof (by omega) (by omega)⟩
    · rw [if_neg h2]
      by_cases h3 : n ≤ 0xffffffff
      · rw [if_pos h3]
        exact ⟨254, _, rfl, reads_wide eof (by omega) (by omega)⟩
      · rw [if_neg h3]
        exact ⟨255, _, rfl, reads_wide eof (by omega) (by omega)⟩

theorem readCompactSize_append (hn : n < 2 ^ 64) (rest : Bytes) : readCompactSize eof (compactBytes n ++ rest) =
      if MAX_SIZE < n then .error (.throws "ReadCompactSize(): size too large") else .ok (n, rest) := by
  obtain ⟨b, m, hbytes, hread⟩ := reads_unbounded eof hn
  rw [hbytes, readCompactSize, bind_eq, List.cons_append]
  show (readUnbounded eof b >>= _) (m ++ rest) = _
  rw [bind_eq, hread]
  show (if MAX_SIZE < n then fail _ else pure n : Reader Stop Nat) rest = _
  split
  · rfl
  · rfl

/-- what `WriteCompactSize` writes is read back up to `MAX_SIZE` -/
theorem reads_compactSize (hn : n ≤ MAX_SIZE) : Reads (readCompactSize eof) (compactBytes n) n := by
  intro rest
  have hlt : n < 2 ^ 64 := lt_of_le_of_lt hn (by decide)
  rw [readCompactSize_append eof hlt, if_neg (by omega)]

theorem reads_vector {b : Bytes} (hb : b.length ≤ MAX_SIZE) : Reads (readVector eof) (vectorBytes b) b :=
  (reads_compactSize eof hb).bind (reads_take eof b)

end BitCash
