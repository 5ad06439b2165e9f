import Mathlib.Data.ZMod.Basic
import BitCash.Primitives.Amount

/-!
# Keys

`CKey` and the curve functions that the wallet calls.
-/

set_option linter.unusedSectionVars false

variable {k : CKey} {x : Nat}

namespace BitCash
open Nat

def beNat : Bytes → Nat
  | [] => 0
  | b :: l => b.toNat * 256 ^ l.length + beNat l

@[simp] theorem length_bytesOf (n x : Nat) : (bytesOf n x).length = n := by
  induction n with
  | zero => rfl
  | succ n ih => rw [bytesOf, List.length_cons, ih]

theorem beNat_bytesOf (n x : Nat) : beNat (bytesOf n x) = x % 256 ^ n := by
  induction n with
  | zero => rw [Nat.pow_zero, mod_one]; rfl
  | succ n ih =>
    show (UInt8.ofNat (x / 256 ^ n % 256)).toNat * 256 ^ (bytesOf n x).length + beNat (bytesOf n x) = _
    rw [ih, length_bytesOf, UInt8.toNat_ofNat', mod_mod, Nat.pow_succ, mod_mul, Nat.mul_comm, Nat.add_comm]

/-! ## private keys -/

def secpOrder : Nat := 0xFFFFFFFFFFFFFFFFFFFFFFFFFFFFFFFEBAAEDCE6AF48A03BBFD25E8CD0364141

structure CKey where
  keydata : Bytes
  fValid : Bool
  fCompressed : Bool
  length_keydata : keydata.length = 32
  deriving DecidableEq

instance : Inhabited CKey := ⟨⟨List.replicate 32 0, false, false, List.length_replicate⟩⟩

def CKey.check (vch : Bytes) : Bool := decide (0 < beNat vch) && decide (beNat vch < secpOrder)

theorem CKey.check_iff {vch : Bytes} : CKey.check vch ↔ 0 < beNat vch ∧ beNat vch < secpOrder := by
  rw [CKey.check, Bool.and_eq_true, decide_eq_true_eq, decide_eq_true_eq]

def CKey.set (k : CKey) (vch : Bytes) (fCompressedIn : Bool) : CKey :=
  if h : vch.length = 32 then
    if check vch then ⟨vch, true, fCompressedIn, h⟩ else { k with fValid := false }
  else { k with fValid := false }

def CKey.bytes (k : CKey) : Bytes := if k.fValid then k.keydata else []

def CKey.secret (k : CKey) : Nat := beNat k.bytes

def CKey.deleteFirstBit (k : CKey) : CKey where
  keydata := k.keydata.modifyHead (· &&& 0x7F)
  fValid := k.fValid
  fCompressed := k.fCompressed
  length_keydata := by rw [List.length_modifyHead, k.length_keydata]

structure CKey.Good (k : CKey) : Prop where
  fValid : k.fValid = true
  check : CKey.check k.keydata = true

theorem CKey.Good.bytes (h : k.Good) : k.bytes = k.keydata := if_pos h.fValid

theorem CKey.Good.secret_pos (h : k.Good) : 0 < k.secret := by
  rw [CKey.secret, h.bytes]
  exact (check_iff.1 h.check).1

theorem CKey.Good.secret_lt (h : k.Good) : k.secret < secpOrder := by
  rw [CKey.secret, h.bytes]
  exact (check_iff.1 h.check).2

theorem CKey.set_bytesOf (k : CKey) (c : Bool) (h0 : 0 < x) (hx : x < secpOrder) :
    (k.set (bytesOf 32 x) c).Good ∧ (k.set (bytesOf 32 x) c).secret = x ∧
      (k.set (bytesOf 32 x) c).fCompressed = c := by
  have hval : beNat (bytesOf 32 x) = x := by
    rw [beNat_bytesOf, mod_eq_of_lt (hx.trans (by decide))]
  have hcheck : check (bytesOf 32 x) := by
    rw [check_iff, hval]
    exact ⟨h0, hx⟩
  have hset : k.set (bytesOf 32 x) c = ⟨bytesOf 32 x, true, c, length_bytesOf 32 x⟩ := by
    unfold set
    rw [dif_pos (length_bytesOf 32 x), if_pos hcheck]
  rw [hset]
  exact ⟨⟨rfl, hcheck⟩, hval, rfl⟩

theorem CKey.set_bytesOf_large (k : CKey) (c : Bool) (hx : secpOrder ≤ x)
    (hx' : x < 256 ^ 32) : (k.set (bytesOf 32 x) c).fValid = false := by
  have hval : beNat (bytesOf 32 x) = x := by
    rw [beNat_bytesOf, mod_eq_of_lt hx']
  have hcheck : check (bytesOf 32 x) ≠ true := by
    rw [Ne, check_iff, hval]
    omega
  unfold set
  rw [dif_pos (length_bytesOf 32 x), if_neg hcheck]

/-! ## the curve -/

def masterPubKey : Bool → CPubKey
  | false => ⟨bytesOf 33 0x0308f4619d0ecea2cbfe31cb0ae6d62979f2b2f10d60d8f64c7fee84fb634bda89, by decide⟩
  | true => ⟨bytesOf 65
      0x0496b538e853519c726a2c91e61ec11600ae1390813a627c66fb8be7947be63c52da7589379515d4e0a604f8141781e62294721166bf621e73a82cbf2342c858ee, by decide⟩

structure Secp256k1 (P : Type) [AddCommGroup P] where
  G : P
  order : addOrderOf G = secpOrder
  serialize : Bool → P → CPubKey
  size_serialize : ∀ c p, p ≠ 0 → (serialize c p).size = if c then 33 else 65
  point : CPubKey → P
  point_serialize : ∀ c p, p ≠ 0 → point (serialize c p) = p

variable {P : Type} [AddCommGroup P] [DecidableEq P] (C : Secp256k1 P)

def Secp256k1.point2bn (p : P) : Nat := if p = 0 then 0 else beNat (C.serialize true p).vch

def Secp256k1.pubKey (p : P) : CPubKey := if p = 0 then default else C.serialize true p

/-- `CKey::GetPubKey`; `none` is a failed assertion -/
def CKey.getPubKey (k : CKey) : Option CPubKey :=
  if k.fValid && CKey.check k.keydata then some (C.serialize k.fCompressed (beNat k.keydata • C.G))
  else none

theorem CKey.Good.getPubKey (h : k.Good) : k.getPubKey C = some (C.serialize k.fCompressed (k.secret • C.G)) := by
  unfold CKey.getPubKey
  rw [h.fValid, h.check, CKey.secret, h.bytes]
  rfl

theorem Secp256k1.nsmul_eq_zero_iff (k : Nat) : k • C.G = 0 ↔ secpOrder ∣ k := by
  rw [← C.order]
  exact addOrderOf_dvd_iff_nsmul_eq_zero.symm

theorem CKey.Good.nsmul_ne_zero (h : k.Good) : k.secret • C.G ≠ 0 := by
  rw [Ne, C.nsmul_eq_zero_iff]
  intro hdvd
  have := le_of_dvd h.secret_pos hdvd
  have := h.secret_lt
  omega

theorem CKey.Good.point_getPubKey {pub : CPubKey} (h : k.Good)
    (hpub : k.getPubKey C = some pub) : C.point pub = k.secret • C.G := by
  rw [h.getPubKey C] at hpub
  rw [← Option.some.inj hpub]
  exact C.point_serialize _ _ (h.nsmul_ne_zero C)

/-! ## an instance -/

instance : NeZero secpOrder := ⟨by decide⟩

/-- a point by its logarithm: the first byte, the logarithm, and zeros -/
def logKey : Bool → ZMod secpOrder → CPubKey
  | true, p => ⟨2 :: bytesOf 32 p.val, by simp [CPubKey.wellFormed, CPubKey.getLen]⟩
  | false, p => ⟨4 :: (bytesOf 32 p.val ++ List.replicate 32 0), by
      simp [CPubKey.wellFormed, CPubKey.getLen]⟩

def logPoint (k : CPubKey) : ZMod secpOrder := (beNat ((k.vch.drop 1).take 32) : Nat)

theorem beNat_val (p : ZMod secpOrder) : beNat (bytesOf 32 p.val) = p.val := by
  rw [beNat_bytesOf, mod_eq_of_lt (p.val_lt.trans (by decide))]

theorem logPoint_logKey (c : Bool) (p : ZMod secpOrder) : logPoint (logKey c p) = p := by
  have htake : (((logKey c p).vch.drop 1).take 32) = bytesOf 32 p.val := by
    cases c with
    | true => exact List.take_of_length_le (length_bytesOf 32 p.val).le
    | false => exact List.take_left' (length_bytesOf 32 p.val)
  rw [logPoint, htake, beNat_val, ZMod.natCast_zmod_val]

def logCurve : Secp256k1 (ZMod secpOrder) where
  G := 1
  order := ZMod.addOrderOf_one secpOrder
  serialize := logKey
  size_serialize c p _ := by
    cases c <;> simp [logKey, CPubKey.size]
  point := logPoint
  point_serialize c p _ := logPoint_logKey c p

def keyOf (x : Nat) : CKey := (default : CKey).set (bytesOf 32 x) true

theorem keyOf_good (h0 : 0 < x) (hx : x < secpOrder) : (keyOf x).Good := ((default : CKey).set_bytesOf true h0 hx).1

theorem secret_keyOf (h0 : 0 < x) (hx : x < secpOrder) : (keyOf x).secret = x :=
  ((default : CKey).set_bytesOf true h0 hx).2.1

end BitCash
