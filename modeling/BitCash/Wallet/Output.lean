import BitCash.KeyIo.Destination
import BitCash.Serialize.Objects
import BitCash.Wallet.Stealth

/-!
# What the wallet reads of an output

A private output pays a one-time key.
-/

variable {pubkey : CPubKey} {key : CKey}

namespace BitCash
open Memory (Uint256)

/-! ## scripts -/

def readSize (n : Nat) (pc : Bytes) : Option (Nat × Bytes) :=
  if pc.length < n then none else some (Codec.ofLe (pc.take n), pc.drop n)

def operandSize (opcode : UInt8) (pc : Bytes) : Option (Nat × Bytes) :=
  if opcode < 0x4c then some (opcode.toNat, pc)
  else if opcode = 0x4c then readSize 1 pc
  else if opcode = 0x4d then readSize 2 pc
  else readSize 4 pc

def getScriptOp : Bytes → Option (UInt8 × Bytes × Bytes)
  | [] => none
  | opcode :: pc =>
    if opcode ≤ 0x4e then do
      let (nSize, pc) ← operandSize opcode pc
      if pc.length < nSize then none else some (opcode, pc.take nSize, pc.drop nSize)
    else some (opcode, [], pc)

def CPubKey.validSize (vch : Bytes) : Bool := decide (vch ≠ []) && CPubKey.wellFormed vch

/-- `ExtractCompletePubKey`: the template of `TX_PUBKEY` in `Solver`.  The shapes that `Solver` tries
first begin with an opcode that pushes no key. -/
def extractCompletePubKey (script : CScript) : Option CPubKey := do
  let (_, vch1, rest) ← getScriptOp script
  if CPubKey.validSize vch1 then
    let (opcode1, vch2, rest) ← getScriptOp rest
    if opcode1 = OP_CHECKSIG ∧ vch2 = [] ∧ rest = [] then some (CPubKey.set vch1) else none
  else none

theorem extractCompletePubKey_raw {key : CPubKey} (h : key.isValid) :
    extractCompletePubKey (getScriptForRawPubKey key) = some key := by
  have hsize : key.size = 33 ∨ key.size = 65 := by
    rcases key.size_cases with rfl | hsize
    · cases h
    · exact hsize
  have hop : getScriptOp (getScriptForRawPubKey key) = some (UInt8.ofNat key.size, key.vch, [OP_CHECKSIG]) := by
    have htake : (key.vch ++ [OP_CHECKSIG]).take key.size = key.vch := List.take_left
    have hdrop : (key.vch ++ [OP_CHECKSIG]).drop key.size = [OP_CHECKSIG] := List.drop_left
    have hlong : ¬ (key.vch ++ [OP_CHECKSIG]).length < key.size := by
      rw [List.length_append]
      unfold CPubKey.size
      omega
    have hbyte : UInt8.ofNat key.size ≤ 0x4e ∧ UInt8.ofNat key.size < 0x4c ∧
        (UInt8.ofNat key.size).toNat = key.size := by
      rcases hsize with h | h <;> rw [h] <;> decide
    show getScriptOp (UInt8.ofNat key.size :: (key.vch ++ [OP_CHECKSIG])) = _
    have hoperand : operandSize (UInt8.ofNat key.size) (key.vch ++ [OP_CHECKSIG]) =
        some (key.size, key.vch ++ [OP_CHECKSIG]) := by
      unfold operandSize
      rw [if_pos hbyte.2.1, hbyte.2.2]
    unfold getScriptOp
    dsimp only
    rw [if_pos hbyte.1, hoperand]
    show (if (key.vch ++ [OP_CHECKSIG]).length < key.size then none else
      some (UInt8.ofNat key.size, _, _)) = _
    rw [if_neg hlong, htake, hdrop]
  have hvalid : CPubKey.validSize key.vch := by
    unfold CPubKey.validSize
    rw [key.wf, Bool.and_true, decide_eq_true_eq]
    intro hnil
    unfold CPubKey.size at hsize
    rw [hnil] at hsize
    exact absurd hsize (by decide)
  unfold extractCompletePubKey
  rw [hop]
  show (if CPubKey.validSize key.vch = true then _ else _) = _
  rw [if_pos hvalid]
  show some (CPubKey.set key.vch) = some key
  exact congrArg some (dif_pos key.wf)

theorem extractCompletePubKey_valid {script : CScript} {key : CPubKey}
    (h : extractCompletePubKey script = some key) : key.isValid := by
  obtain ⟨⟨_, vch1, rest⟩, -, h⟩ := Option.bind_eq_some_iff.1 h
  dsimp only at h
  split at h
  · next hvalid =>
    obtain ⟨⟨opcode1, vch2, rest'⟩, -, h⟩ := Option.bind_eq_some_iff.1 h
    dsimp only at h
    split at h
    · unfold CPubKey.validSize at hvalid
      rw [Bool.and_eq_true, decide_eq_true_eq] at hvalid
      rw [← Option.some.inj h]
      unfold CPubKey.isValid CPubKey.size CPubKey.set
      rw [dif_pos hvalid.2, decide_eq_true_eq]
      exact List.length_pos_of_ne_nil hvalid.1
    · cases h
  · cases h

/-! ## keys and ciphers -/

abbrev WalletTxOut := Memory.CTxOut CPubKey

structure WalletEnv (P : Type) [AddCommGroup P] where
  curve : Secp256k1 P
  parses : CPubKey → Bool
  parses_serialize : ∀ c p, p ≠ 0 → parses (curve.serialize c p) = true
  addressHash : AddressHash
  coordinates : P → Bytes
  aesEncrypt : Bytes → Uint256 → Uint256
  aesDecrypt : Bytes → Uint256 → Uint256
  /-- bytes of a public key that were never set -/
  unset : Nat → UInt8

section
variable {P : Type} [AddCommGroup P] [DecidableEq P] (W : WalletEnv P)

def calculateEncryptionKey (pubkey : CPubKey) (privkey : CKey) : Bytes :=
  let secret := privkey.secret • W.curve.point pubkey
  if secret = 0 then [] else W.coordinates secret

def encryptPrivateKey (privatekey : Uint256) (pubkey : CPubKey) (privkey : CKey) : Uint256 :=
  W.aesEncrypt (calculateEncryptionKey W pubkey privkey) privatekey

def decryptPrivateKey (privatekey : Uint256) (pubkey : CPubKey) (privkey : CKey) : Uint256 :=
  W.aesDecrypt (calculateEncryptionKey W pubkey privkey) privatekey

def getViewKeyForPrivateKey (key : CKey) : CKey :=
  ((default : CKey).set (W.addressHash.hash key.keydata) true).deleteFirstBit

def HasSecret (key : CKey) (pubkey : CPubKey) : Prop :=
  key.Good ∧ W.parses pubkey = true ∧ W.curve.point pubkey = key.secret • W.curve.G

def verifyPubKey (key : CKey) (pubkey : CPubKey) : Bool :=
  (decide (pubkey.size = 33) == key.fCompressed) && key.fValid && CKey.check key.keydata &&
    W.parses pubkey && decide (W.curve.point pubkey = key.secret • W.curve.G)

theorem hasSecret_of_verifyPubKey (h : verifyPubKey W key pubkey) : HasSecret W key pubkey := by
  unfold verifyPubKey at h
  simp only [Bool.and_eq_true, decide_eq_true_eq] at h
  obtain ⟨⟨⟨⟨-, hvalid⟩, hcheck⟩, hparses⟩, hpoint⟩ := h
  exact ⟨⟨hvalid, hcheck⟩, hparses, hpoint⟩

theorem hasSecret_getPubKey (h : key.Good) (hpub : key.getPubKey W.curve = some pubkey) : HasSecret W key pubkey := by
  refine ⟨h, ?_, h.point_getPubKey W.curve hpub⟩
  rw [h.getPubKey W.curve] at hpub
  rw [← Option.some.inj hpub]
  exact W.parses_serialize _ _ (h.nsmul_ne_zero W.curve)

theorem verifyPubKey_getPubKey (h : key.Good)
    (hpub : key.getPubKey W.curve = some pubkey) : verifyPubKey W key pubkey := by
  obtain ⟨-, hparses, hpoint⟩ := hasSecret_getPubKey W h hpub
  have hsize : (decide (pubkey.size = 33) == key.fCompressed) := by
    rw [h.getPubKey W.curve] at hpub
    rw [← Option.some.inj hpub, W.curve.size_serialize _ _ (h.nsmul_ne_zero W.curve)]
    cases key.fCompressed <;> rfl
  unfold verifyPubKey
  rw [hsize, h.fValid, h.check, hparses, decide_eq_true hpoint]
  rfl

def openOutput (out : WalletTxOut) (opener : CKey) : CKey :=
  (default : CKey).set (decryptPrivateKey W out.randomPrivatKey out.randomPubKey opener).1 true

def otherRecipient (out : WalletTxOut) (pubkey : CPubKey) : Bool :=
  out.hasrecipientid && ((out.recipientid1 ≠ 0 || out.recipientid2 ≠ 0) || out.currencyisactive) &&
    (out.recipientid1 ≠ pubkey.vch.getD 10 (W.unset 10) || out.recipientid2 ≠ pubkey.vch.getD 20 (W.unset 20))

def decryptRealRecipient (pubkey : CPubKey) (privkey : CKey) (onetimepubkey : CPubKey) : CPubKey :=
  let secret := W.curve.point2bn (privkey.secret • W.curve.point pubkey) % 2 ^ 248
  W.curve.pubKey (W.curve.point onetimepubkey - secret • W.curve.G)

end

/-! ## the wallet -/

def getSecondPubKeyForDestination (dest : CTxDestination) : CPubKey := CPubKey.set dest.tag.recokey

def getViewPubKeyForDestination : CTxDestination → CPubKey
  | .keyID id => CPubKey.set id.viewkey
  | _ => default

def getHasViewKeyForDestination : CTxDestination → Bool
  | .keyID id => id.hasviewkey
  | _ => false

def getNonPrivateForDestination : CTxDestination → Bool
  | .keyID id => id.nonprivate
  | _ => false

/-- the parts of the wallet that the recognition of outputs reads: the keys by their id, scripts that
are watched, what is known of earlier outputs, the master key of the configuration and the address book -/
structure CWallet where
  mapKeys : Bytes → Option CKey
  setWatchOnly : CScript → Bool
  stealthaddresses : CScript → Option CPubKey
  viewkeyforstealthaddresses : CScript → Option CPubKey
  reflines : Bytes → Bool
  masterPrivatKey : Option CKey
  mapAddressBook : List CTxDestination

section
variable {P : Type} [AddCommGroup P] [DecidableEq P] (W : WalletEnv P)

def CWallet.getKey (wallet : CWallet) (pubkey : CPubKey) : Option CKey :=
  wallet.mapKeys (W.addressHash.hash160 pubkey.vch)

def CWallet.getRealAddressAndRefline (wallet : CWallet) (out : WalletTxOut) : Option CPubKey :=
  match wallet.stealthaddresses out.scriptPubKey, wallet.reflines out.referenceline with
  | some recipientpubkey, true => some recipientpubkey
  | _, _ =>
    if out.masterkeyisremoved then none
    else wallet.masterPrivatKey.map fun masterprivatekey =>
      match extractCompletePubKey out.scriptPubKey with
      | some onetimedestpubkey =>
        if out.isnonprivate then onetimedestpubkey
        else decryptRealRecipient W out.randomPubKey masterprivatekey onetimedestpubkey
      | none => default

end

end BitCash
