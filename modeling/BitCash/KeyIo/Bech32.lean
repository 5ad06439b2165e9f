import BitCash.KeyIo.Base58

/-!
# Bech32

`bech32.cpp` and `ConvertBits` of `utilstrencodings.h`: the texts of the witness destinations.
-/

namespace BitCash
open List Option

def bech32Charset : Bytes := textBytes "qpzry9x8gf2tvdw0s3jn54khce6mua7l"

def bech32CharsetRev : List Int := [
  -1, -1, -1, -1, -1, -1, -1, -1, -1, -1, -1, -1, -1, -1, -1, -1,
  -1, -1, -1, -1, -1, -1, -1, -1, -1, -1, -1, -1, -1, -1, -1, -1,
  -1, -1, -1, -1, -1, -1, -1, -1, -1, -1, -1, -1, -1, -1, -1, -1,
  15, -1, 10, 17, 21, 20, 26, 30,  7,  5, -1, -1, -1, -1, -1, -1,
  -1, 29, -1, 24, 13, 25,  9,  8, 23, -1, 18, 22, 31, 27, 19, -1,
   1,  0,  3, 16, 11, 28, 12, 14,  6,  4,  2, -1, -1, -1, -1, -1,
  -1, 29, -1, 24, 13, 25,  9,  8, 23, -1, 18, 22, 31, 27, 19, -1,
   1,  0,  3, 16, 11, 28, 12, 14,  6,  4,  2, -1, -1, -1, -1, -1]

def polyModStep (c : UInt32) (v : UInt8) : UInt32 :=
  let c0 := (c >>> 25).toUInt8
  let c := ((c &&& 0x1ffffff) <<< 5) ^^^ v.toUInt32
  let c := if c0 &&& 1 ≠ 0 then c ^^^ 0x3b6a57b2 else c
  let c := if c0 &&& 2 ≠ 0 then c ^^^ 0x26508e6d else c
  let c := if c0 &&& 4 ≠ 0 then c ^^^ 0x1ea119fa else c
  let c := if c0 &&& 8 ≠ 0 then c ^^^ 0x3d4233dd else c
  if c0 &&& 16 ≠ 0 then c ^^^ 0x2a1462b3 else c

def polyMod (v : Bytes) : UInt32 := v.foldl polyModStep 1

def lowerCase (c : UInt8) : UInt8 := if 65 ≤ c ∧ c ≤ 90 then c - 65 + 97 else c

def expandHRP (hrp : Bytes) : Bytes := hrp.map (fun c : UInt8 => c >>> 5) ++ 0 :: hrp.map (fun c : UInt8 => c &&& 0x1f)

def verifyChecksum (hrp values : Bytes) : Bool := polyMod (expandHRP hrp ++ values) = 1

def createChecksum (hrp values : Bytes) : Bytes :=
  let mod := polyMod (expandHRP hrp ++ values ++ List.replicate 6 0) ^^^ 1
  (List.range 6).map fun i => ((mod >>> UInt32.ofNat (5 * (5 - i))) &&& 31).toUInt8

def bech32Encode (hrp values : Bytes) : Bytes :=
  hrp ++ 49 :: (values ++ createChecksum hrp values).map (bech32Charset.getD ·.toNat 0)

/-- the value of a character; `none` is `-1` -/
def bech32Value (c : UInt8) : Option UInt8 :=
  let rev := if c < 33 ∨ 126 < c then -1 else bech32CharsetRev.getD c.toNat (-1)
  if rev = -1 then none else some (UInt8.ofNat rev.toNat)

def rfindOne (str : Bytes) : Option Nat := (str.reverse.findIdx? (· = 49)).map (str.length - 1 - ·)

def bech32Malformed (str : Bytes) : Bool :=
  str.any (fun c => c < 33 || 126 < c) ||
    (str.any (fun c => 97 ≤ c && c ≤ 122) && str.any (fun c => 65 ≤ c && c ≤ 90))

/-- `bech32::Decode`: the human-readable part and the values; `none` is the pair of empty strings -/
def bech32Decode (str : Bytes) : Option (Bytes × Bytes) := do
  if bech32Malformed str then none
  let pos ← rfindOne str
  if 90 < str.length ∨ pos = 0 ∨ str.length < pos + 7 then none
  let values ← (str.drop (pos + 1)).mapM bech32Value
  let hrp := (str.take pos).map lowerCase
  if verifyChecksum hrp values then some (hrp, values.take (values.length - 6)) else none

/-! ## regrouping of bits -/

def drainBits (tobits acc : Nat) : Nat → Nat → Bytes × Nat
  | 0, bits => ([], bits)
  | fuel + 1, bits =>
    if tobits ≤ bits then
      let r := drainBits tobits acc fuel (bits - tobits)
      (UInt8.ofNat ((acc >>> (bits - tobits)) &&& (2 ^ tobits - 1)) :: r.1, r.2)
    else ([], bits)

def shiftBits (frombits tobits : Nat) : Bytes → Nat → Nat → Bytes × Nat × Nat
  | [], acc, bits => ([], acc, bits)
  | c :: cs, acc, bits =>
    let acc := ((acc <<< frombits) ||| c.toNat) &&& (2 ^ (frombits + tobits - 1) - 1)
    let d := drainBits tobits acc (bits + frombits) (bits + frombits)
    let r := shiftBits frombits tobits cs acc d.2
    (d.1 ++ r.1, r.2)

/-- `ConvertBits`; `none` where it returns false -/
def convertBits (frombits tobits : Nat) (pad : Bool) (data : Bytes) : Option Bytes :=
  let r := shiftBits frombits tobits data 0 0
  let acc := r.2.1
  let bits := r.2.2
  let last := (acc <<< (tobits - bits)) &&& (2 ^ tobits - 1)
  if pad then some (if bits ≠ 0 then r.1 ++ [UInt8.ofNat last] else r.1)
  else if frombits ≤ bits ∨ last ≠ 0 then none
  else some r.1

theorem drainBits_eight (acc fuel : Nat) {bits : Nat} (hbits : bits < 13) :
    (drainBits 8 acc fuel bits).1.length ≤ 1 ∧ ((drainBits 8 acc fuel bits).2 < 8 ∨ fuel = 0) := by
  cases fuel with
  | zero => exact ⟨Nat.zero_le _, .inr rfl⟩
  | succ fuel =>
    unfold drainBits
    split
    · -- fewer than 8 bits are left, so that the loop ends here
      have hstop : drainBits 8 acc fuel (bits - 8) = ([], bits - 8) := by
        cases fuel with
        | zero => rfl
        | succ fuel =>
          unfold drainBits
          rw [if_neg (by omega)]
      dsimp only
      rw [hstop]
      refine ⟨le_rfl, .inl ?_⟩
      dsimp only
      omega
    · next hlt =>
      refine ⟨Nat.zero_le _, .inl ?_⟩
      dsimp only
      omega

theorem length_shiftBits (cs : Bytes) (acc bits : Nat) (hbits : bits < 8) :
    (shiftBits 5 8 cs acc bits).1.length ≤ cs.length := by
  induction cs generalizing acc bits with
  | nil => exact le_rfl
  | cons c cs ih =>
    unfold shiftBits
    dsimp only
    generalize ((acc <<< 5) ||| c.toNat) &&& (2 ^ (5 + 8 - 1) - 1) = acc'
    have hbound : bits + 5 < 13 := by omega
    obtain ⟨hone, hleft⟩ := drainBits_eight acc' (bits + 5) hbound
    have hlt : (drainBits 8 acc' (bits + 5) (bits + 5)).2 < 8 := hleft.resolve_right (by omega)
    have hrest := ih acc' _ hlt
    rw [length_append, length_cons]
    omega

theorem length_convertBits {data out : Bytes} (h : convertBits 5 8 false data = some out) :
    out.length ≤ data.length := by
  unfold convertBits at h
  dsimp only at h
  rw [if_neg Bool.false_ne_true] at h
  split at h
  · cases h
  · rw [← some.inj h]
    exact length_shiftBits data 0 0 (by decide)

/-! ## what a text gives -/

theorem length_mapM {α β : Type} {f : α → Option β} {l : List α} {r : List β}
    (h : l.mapM f = some r) : r.length = l.length := by
  induction l generalizing r with
  | nil =>
    rw [mapM_nil] at h
    rw [← some.inj h]
    rfl
  | cons x l ih =>
    rw [mapM_cons] at h
    obtain ⟨y, -, h⟩ := bind_eq_some_iff.1 h
    obtain ⟨ys, hys, h⟩ := bind_eq_some_iff.1 h
    rw [← some.inj h, length_cons, length_cons, ih hys]

theorem bech32Decode_some {str hrp data : Bytes} (h : bech32Decode str = some (hrp, data)) :
    ∃ pos, 0 < pos ∧ pos < str.length ∧ hrp = (str.take pos).map lowerCase ∧
      data.length ≤ str.length - (pos + 1) := by
  unfold bech32Decode at h
  simp only [bind_eq_bind] at h
  split at h
  · cases h
  obtain ⟨-, -, h⟩ := bind_eq_some_iff.1 h
  obtain ⟨pos, -, h⟩ := bind_eq_some_iff.1 h
  split at h
  · cases h
  next hpos =>
  obtain ⟨-, -, h⟩ := bind_eq_some_iff.1 h
  obtain ⟨values, hvalues, h⟩ := bind_eq_some_iff.1 h
  split at h
  · obtain ⟨rfl, rfl⟩ := Prod.mk.inj (some.inj h)
    refine ⟨pos, by omega, by omega, rfl, ?_⟩
    have hlen := length_mapM hvalues
    rw [length_drop] at hlen
    rw [length_take]
    omega
  · cases h

end BitCash
