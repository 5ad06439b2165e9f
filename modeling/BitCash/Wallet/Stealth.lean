import BitCash.Wallet.Key

/-!
# One-time destinations

A payment to an address goes to the public key `a G + s G`, where `s` is 248 bits of the point that the ephemeral
key `r` shares with the master key.
-/

namespace BitCash

variable {P : Type} [AddCommGroup P] [DecidableEq P] (C : Secp256k1 P) {dummy : Bool} {a : CKey}

def sharedSecret (privkey : CKey) (usemasterkeydummy : Bool) : Nat :=
  C.point2bn (privkey.secret • C.point (masterPubKey usemasterkeydummy)) % 2 ^ 248

def calculateOnetimeDestPubKey (pubkey : CPubKey) (privkey : CKey) (usemasterkeydummy : Bool) : CPubKey :=
  C.pubKey (sharedSecret C privkey usemasterkeydummy • C.G + C.point pubkey)

/-- `CalculateOnetimeDestPrivateKey`; the sum is written into 32 bytes, and `none` is a write in front
of them -/
def calculateOnetimeDestPrivateKey (privkeyfromAddress privkey : CKey) (usemasterkeydummy : Bool) :
    Option CKey :=
  let pri := privkeyfromAddress.secret + sharedSecret C privkey usemasterkeydummy
  if 256 ^ 32 ≤ pri then none else some ((default : CKey).set (bytesOf 32 pri) true)

def OnetimeSpendable (a r : CKey) (usemasterkeydummy : Bool) : Prop :=
  ∃ key pub, calculateOnetimeDestPrivateKey C a r usemasterkeydummy = some key ∧ key.fValid = true ∧
    key.bytes.length = 32 ∧ a.getPubKey C = some pub ∧
    key.getPubKey C = some (calculateOnetimeDestPubKey C pub r usemasterkeydummy)

theorem sharedSecret_lt (r : CKey) (dummy : Bool) : sharedSecret C r dummy < 2 ^ 248 :=
  Nat.mod_lt _ (Nat.two_pow_pos 248)

theorem point_onetime {pub : CPubKey} (ha : a.Good) (hpub : a.getPubKey C = some pub) (s : Nat) :
    s • C.G + C.point pub = (a.secret + s) • C.G := by
  rw [ha.point_getPubKey C hpub, add_comm, add_nsmul]

theorem privateKey_of_lt {r : CKey} (ha : a.Good) (h : a.secret + sharedSecret C r dummy < secpOrder) :
    ∃ key, calculateOnetimeDestPrivateKey C a r dummy = some key ∧ key.Good ∧ key.fCompressed ∧
      key.secret = a.secret + sharedSecret C r dummy := by
  have hpos := ha.secret_pos
  obtain ⟨hgood, hsecret, hcomp⟩ := (default : CKey).set_bytesOf true
    (x := a.secret + sharedSecret C r dummy) (by omega) h
  refine ⟨_, if_neg ?_, hgood, hcomp, hsecret⟩
  have hbig : secpOrder < 256 ^ 32 := by decide
  omega

theorem privateKey_of_le {r key : CKey} (h : secpOrder ≤ a.secret + sharedSecret C r dummy)
    (hkey : calculateOnetimeDestPrivateKey C a r dummy = some key) : key.fValid = false := by
  unfold calculateOnetimeDestPrivateKey at hkey
  dsimp only at hkey
  split at hkey
  · cases hkey
  · next hlt =>
    rw [← Option.some.inj hkey]
    exact CKey.set_bytesOf_large default true h (by omega)

/-- **stealth payments are spendable exactly when the sum is below the order** -/
theorem onetime_spendable_iff {a r : CKey} {dummy : Bool} (ha : a.Good)
    (hsum : ¬ secpOrder ∣ a.secret + sharedSecret C r dummy) :
    OnetimeSpendable C a r dummy ↔ a.secret + sharedSecret C r dummy < secpOrder := by
  constructor
  · rintro ⟨key, pub, hkey, hvalid, -, -, -⟩
    by_contra hlt
    rw [privateKey_of_le C (by omega) hkey] at hvalid
    cases hvalid
  · intro hlt
    obtain ⟨key, hkey, hgood, hcomp, hsecret⟩ := privateKey_of_lt C ha hlt
    have hlen : key.bytes.length = 32 := by
      rw [hgood.bytes]
      exact key.length_keydata
    refine ⟨key, _, hkey, hgood.fValid, hlen, ha.getPubKey C, ?_⟩
    rw [hgood.getPubKey C, hcomp, hsecret]
    unfold calculateOnetimeDestPubKey Secp256k1.pubKey
    rw [point_onetime C ha (ha.getPubKey C), if_neg]
    rw [C.nsmul_eq_zero_iff]
    exact hsum

/-! ## where the logarithms are known -/

theorem point2bn_log (p : ZMod secpOrder) : logCurve.point2bn p % 2 ^ 248 = p.val % 2 ^ 248 := by
  unfold Secp256k1.point2bn
  by_cases hp : p = 0
  · rw [if_pos hp, hp, ZMod.val_zero]
  · have hvch : beNat (logCurve.serialize true p).vch = 2 * 256 ^ 32 + p.val := by
      show 2 * 256 ^ (bytesOf 32 p.val).length + beNat (bytesOf 32 p.val) = _
      rw [beNat_val, length_bytesOf]
    rw [if_neg hp, hvch]
    omega

theorem sharedSecret_log (r : CKey) (dummy : Bool) : sharedSecret logCurve r dummy =
    r.secret * beNat (((masterPubKey dummy).vch.drop 1).take 32) % secpOrder % 2 ^ 248 := by
  unfold sharedSecret
  rw [point2bn_log]
  show (r.secret • logPoint (masterPubKey dummy)).val % 2 ^ 248 = _
  rw [logPoint, nsmul_eq_mul, ← Nat.cast_mul, ZMod.val_natCast]

/-- the largest key, and a shared secret that takes the sum above the order: the receiver gets no key -/
theorem onetime_unspendable_largest : (keyOf (secpOrder - 1)).Good ∧ (keyOf 1).Good ∧
      ¬ secpOrder ∣ (keyOf (secpOrder - 1)).secret + sharedSecret logCurve (keyOf 1) false ∧
      ¬ OnetimeSpendable logCurve (keyOf (secpOrder - 1)) (keyOf 1) false := by
  have hsum : (keyOf (secpOrder - 1)).secret + sharedSecret logCurve (keyOf 1) false = secpOrder - 1 +
      0xf4619d0ecea2cbfe31cb0ae6d62979f2b2f10d60d8f64c7fee84fb634bda89 := by
    rw [sharedSecret_log, secret_keyOf (by decide) (by decide), secret_keyOf (by decide) (by decide)]
    decide
  refine ⟨keyOf_good (by decide) (by decide), keyOf_good (by decide) (by decide), ?_, ?_⟩
  · rw [hsum]
    decide
  · rintro ⟨key, pub, hkey, hvalid, -⟩
    rw [privateKey_of_le logCurve (by rw [hsum]; decide) hkey] at hvalid
    cases hvalid

theorem onetime_spendable_one :
    (keyOf 1).Good ∧ ¬ secpOrder ∣ (keyOf 1).secret + sharedSecret logCurve (keyOf 1) false ∧
      OnetimeSpendable logCurve (keyOf 1) (keyOf 1) false := by
  have hgood : (keyOf 1).Good := keyOf_good (by decide) (by decide)
  have hsum : (keyOf 1).secret + sharedSecret logCurve (keyOf 1) false =
      0xf4619d0ecea2cbfe31cb0ae6d62979f2b2f10d60d8f64c7fee84fb634bda8a := by
    rw [sharedSecret_log, secret_keyOf (by decide) (by decide)]
    decide
  have hdvd : ¬ secpOrder ∣ (keyOf 1).secret + sharedSecret logCurve (keyOf 1) false := by
    rw [hsum]
    decide
  exact ⟨hgood, hdvd, (onetime_spendable_iff logCurve hgood hdvd).2 (by rw [hsum]; decide)⟩

end BitCash
