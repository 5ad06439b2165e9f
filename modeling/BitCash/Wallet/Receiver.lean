import BitCash.Wallet.Recognition

/-!
# The name of the recipient

`FillTxOutForTransaction` makes a private output: the ephemeral secret is encrypted for the recipient's key or its
view key.
-/

variable {r : CKey} {wallet : CWallet} {dummy : Bool} {pubkey : CPubKey}

namespace BitCash
open Memory (Uint256)

section
variable {P : Type} [AddCommGroup P] [DecidableEq P] (W : WalletEnv P)

/-! ## the sender -/

structure Payment where
  recipientpubkey : CPubKey
  referenceline : Bytes
  currency : UInt8
  nonprivate : Bool
  withviewkey : Bool
  viewpubkey : CPubKey
  masterkeyisremoved : Bool

def CKey.chars (k : CKey) : Uint256 := ⟨k.keydata, k.length_keydata⟩

def Payment.target (pay : Payment) : CPubKey :=
  if pay.withviewkey then pay.viewpubkey else pay.recipientpubkey

/-- `FillTxOutForTransaction`, with the key `GetKeyFromPool` gave.  `encryptRefLine` is the encryption of
the reference line for the master key. -/
def fillTxOutForTransaction (sender : CWallet) (encryptRefLine : Bytes → CPubKey → CKey → Bytes)
    (senderpubkey : CPubKey) (out : WalletTxOut) (pay : Payment) : Option (WalletTxOut × CWallet) := do
  let vchSecret ← sender.getKey W senderpubkey
  let plain := if vchSecret.fValid then vchSecret.chars else out.randomPrivatKey
  let destinationPubKey :=
    if pay.nonprivate then pay.recipientpubkey
    else calculateOnetimeDestPubKey W.curve pay.recipientpubkey vchSecret pay.masterkeyisremoved
  let filled : WalletTxOut := { out with
    isnonprivate := pay.nonprivate
    randomPubKey := senderpubkey
    nValueBitCash := out.nValue
    randomPrivatKey := encryptPrivateKey W plain pay.target vchSecret
    recipientid1 := pay.recipientpubkey.vch.getD 10 (W.unset 10)
    recipientid2 := pay.recipientpubkey.vch.getD 20 (W.unset 20)
    hasrecipientid := true
    masterkeyisremoved := pay.masterkeyisremoved
    scriptPubKey := getScriptForRawPubKey destinationPubKey
    currency := pay.currency
    referenceline := encryptRefLine pay.referenceline (masterPubKey pay.masterkeyisremoved) vchSecret }
  some (filled, if !pay.nonprivate && pay.withviewkey then
    sender.setViewkeyStealthAddress filled.scriptPubKey pay.viewpubkey else sender)

/-! ## the receiver -/

def openTwice (out : WalletTxOut) (key opener : CKey) : CKey :=
  let randprivkey := decryptPrivateKey W out.randomPrivatKey out.randomPubKey key
  (default : CKey).set (decryptPrivateKey W randprivkey out.randomPubKey opener).1 true

def CWallet.opensTwice (wallet : CWallet) (out : WalletTxOut) (onetimedestpubkey : CPubKey)
    (item : CTxDestination) : Bool :=
  let pubkey := getSecondPubKeyForDestination item
  let havekey := wallet.getKey W pubkey
  let key := havekey.getD default
  !skipsEntry W out item && (havekey.isSome || getHasViewKeyForDestination item) &&
    decide (onetimedestpubkey = calculateOnetimeDestPubKey W.curve pubkey
      (openTwice W out key (wallet.opener W item key)) out.masterkeyisremoved)

def CWallet.getRealAddressAsReceiver (wallet : CWallet) (out : WalletTxOut) :
    Option (CPubKey × Bool × CPubKey) × CWallet :=
  match wallet.stealthaddresses out.scriptPubKey with
  | some recipientpubkey =>
    match wallet.viewkeyforstealthaddresses out.scriptPubKey with
    | some viewkey => (some (recipientpubkey, true, viewkey), wallet)
    | none => (some (recipientpubkey, false, default), wallet)
  | none =>
    match extractCompletePubKey out.scriptPubKey with
    | none => (none, wallet)
    | some onetimedestpubkey =>
      if out.isnonprivate then (some (onetimedestpubkey, false, default), wallet)
      else
        match wallet.mapAddressBook.find? (wallet.opensTwice W out onetimedestpubkey) with
        | none => (none, wallet)
        | some item => (some (getSecondPubKeyForDestination item, getHasViewKeyForDestination item,
            getViewPubKeyForDestination item), wallet.setStealth out.scriptPubKey item)

def Names (wallet : CWallet) (out : WalletTxOut) (recipientpubkey : CPubKey) : Prop :=
  ∃ hasviewkey viewkey, (wallet.getRealAddressAsReceiver W out).1 = some (recipientpubkey, hasviewkey, viewkey)

variable {W}

/-! ## one decryption -/

structure FilledWith (W : WalletEnv P) (r : CKey) (senderpubkey : CPubKey) (pay : Payment)
    (out : WalletTxOut) : Prop where
  isnonprivate : out.isnonprivate = pay.nonprivate
  randomPubKey : out.randomPubKey = senderpubkey
  randomPrivatKey : out.randomPrivatKey = encryptPrivateKey W r.chars pay.target r
  recipientid1 : out.recipientid1 = pay.recipientpubkey.vch.getD 10 (W.unset 10)
  recipientid2 : out.recipientid2 = pay.recipientpubkey.vch.getD 20 (W.unset 20)
  masterkeyisremoved : out.masterkeyisremoved = pay.masterkeyisremoved
  scriptPubKey : pay.nonprivate = false → out.scriptPubKey = getScriptForRawPubKey
    (calculateOnetimeDestPubKey W.curve pay.recipientpubkey r pay.masterkeyisremoved)

variable {senderpubkey : CPubKey} {pay : Payment}

theorem fillTxOut_some {sender sender' : CWallet} {encryptRefLine : Bytes → CPubKey → CKey → Bytes}
    {out0 out : WalletTxOut} (hsecret : sender.getKey W senderpubkey = some r) (hr : r.Good)
    (h : fillTxOutForTransaction W sender encryptRefLine senderpubkey out0 pay = some (out, sender')) :
    FilledWith W r senderpubkey pay out := by
  unfold fillTxOutForTransaction at h
  rw [hsecret, Option.bind_eq_bind, Option.bind_some] at h
  dsimp only at h
  rw [if_pos hr.fValid] at h
  obtain ⟨rfl, -⟩ := Prod.mk.inj (Option.some.inj h)
  refine ⟨rfl, rfl, rfl, rfl, rfl, rfl, ?_⟩
  intro hprivate
  show getScriptForRawPubKey (if pay.nonprivate = true then _ else _) = _
  rw [hprivate, if_neg Bool.false_ne_true]

variable {out : WalletTxOut} {opener key : CKey} {K : CPubKey}

theorem FilledWith.extract (h : FilledWith W r senderpubkey pay out) (hprivate : pay.nonprivate = false)
    (hvalid : (calculateOnetimeDestPubKey W.curve pay.recipientpubkey r pay.masterkeyisremoved).isValid) :
    extractCompletePubKey out.scriptPubKey =
      some (calculateOnetimeDestPubKey W.curve pay.recipientpubkey r pay.masterkeyisremoved) := by
  rw [h.scriptPubKey hprivate]
  exact extractCompletePubKey_raw hvalid

theorem FilledWith.otherRecipient_eq (h : FilledWith W r senderpubkey pay out) :
    otherRecipient W out pay.recipientpubkey = false := by
  unfold otherRecipient
  rw [h.recipientid1, h.recipientid2]
  simp

theorem secret_set_keydata (hr : r.Good) : ((default : CKey).set r.keydata true).secret = r.secret := by
  unfold CKey.set
  rw [dif_pos r.length_keydata, if_pos hr.check]
  show beNat r.keydata = r.secret
  rw [CKey.secret, hr.bytes]

theorem sharedSecret_congr {a b : CKey} (h : a.secret = b.secret) (dummy : Bool) :
    sharedSecret W.curve a dummy = sharedSecret W.curve b dummy := by
  unfold sharedSecret
  rw [h]

theorem agree_of_hasSecret {target : CPubKey}
    (hopener : HasSecret W opener target) (hr : HasSecret W r senderpubkey) :
    calculateEncryptionKey W senderpubkey opener = calculateEncryptionKey W target r := by
  unfold calculateEncryptionKey
  dsimp only
  rw [hopener.2.2, hr.2.2, ← mul_nsmul, ← mul_nsmul, Nat.mul_comm]

theorem open_once (hcipher : ∀ k x, W.aesDecrypt k (W.aesEncrypt k x) = x) (hr : r.Good)
    (h : FilledWith W r senderpubkey pay out)
    (hagree : calculateEncryptionKey W senderpubkey opener = calculateEncryptionKey W pay.target r) (dummy : Bool) :
    sharedSecret W.curve (openOutput W out opener) dummy = sharedSecret W.curve r dummy := by
  apply sharedSecret_congr
  unfold openOutput decryptPrivateKey
  rw [h.randomPrivatKey, h.randomPubKey, hagree]
  unfold encryptPrivateKey
  rw [hcipher]
  exact secret_set_keydata hr

/-! ## the test of an entry -/

theorem onetime_eq_iff {r' : CKey} (hvalid : (calculateOnetimeDestPubKey W.curve pubkey r dummy).isValid) :
    calculateOnetimeDestPubKey W.curve pubkey r dummy = calculateOnetimeDestPubKey W.curve pubkey r' dummy ↔
      sharedSecret W.curve r' dummy = sharedSecret W.curve r dummy := by
  constructor
  · intro heq
    have hpoint : ∀ k, (calculateOnetimeDestPubKey W.curve pubkey k dummy).isValid = true →
        W.curve.point (calculateOnetimeDestPubKey W.curve pubkey k dummy) =
          sharedSecret W.curve k dummy • W.curve.G + W.curve.point pubkey := fun k hk =>
      (pubKey_parses (W := W) (onetime_ne_zero hk)).2
    have hsum := (hpoint r hvalid).symm.trans ((congrArg W.curve.point heq).trans (hpoint r' (heq ▸ hvalid)))
    have hmul := add_right_cancel hsum
    have hmod : sharedSecret W.curve r dummy ≡ sharedSecret W.curve r' dummy [MOD secpOrder] := by
      rw [← W.curve.order]
      exact nsmul_eq_nsmul_iff_modEq.1 hmul
    have horder : 2 ^ 248 < secpOrder := by decide
    have hlt := sharedSecret_lt W.curve r dummy
    have hlt' := sharedSecret_lt W.curve r' dummy
    exact (Nat.ModEq.eq_of_lt_of_lt hmod (by omega) (by omega)).symm
  · intro heq
    unfold calculateOnetimeDestPubKey
    rw [heq]

def TwiceAgrees (W : WalletEnv P) (wallet : CWallet) (out : WalletTxOut) (r key : CKey)
    (item : CTxDestination) : Prop :=
  getNonPrivateForDestination item = false ∧
    sharedSecret W.curve (openTwice W out key (wallet.opener W item key)) out.masterkeyisremoved =
      sharedSecret W.curve r out.masterkeyisremoved

theorem opensTwice_iff {item : CTxDestination} (h : FilledWith W r senderpubkey pay out)
    (hvalid : (calculateOnetimeDestPubKey W.curve pay.recipientpubkey r pay.masterkeyisremoved).isValid)
    (hkey : wallet.getKey W pay.recipientpubkey = some key)
    (hpub : getSecondPubKeyForDestination item = pay.recipientpubkey) : wallet.opensTwice W out
        (calculateOnetimeDestPubKey W.curve pay.recipientpubkey r pay.masterkeyisremoved) item ↔
      TwiceAgrees W wallet out r key item := by
  unfold CWallet.opensTwice skipsEntry TwiceAgrees
  dsimp only
  rw [hpub, hkey, h.otherRecipient_eq, Option.isSome_some, Option.getD_some, Bool.or_false, Bool.true_or,
    Bool.and_true, Bool.and_eq_true, decide_eq_true_eq, h.masterkeyisremoved, onetime_eq_iff hvalid,
    Bool.not_eq_true']

/-! ## the recipient in the address book -/

theorem extract_invalid (h : K.isValid = false) : extractCompletePubKey (getScriptForRawPubKey K) = none := by
  rcases K.size_cases with rfl | hsize
  · decide
  · unfold CPubKey.isValid at h
    rw [decide_eq_false_iff_not] at h
    omega

theorem names_iff (hcache : wallet.stealthaddresses out.scriptPubKey = none) (hprivate : out.isnonprivate = false)
    (hK : extractCompletePubKey out.scriptPubKey = some K) :
    Names W wallet out pubkey ↔ ∃ pre item post, wallet.mapAddressBook = pre ++ item :: post ∧
      (∀ y ∈ pre, wallet.opensTwice W out K y = false) ∧ wallet.opensTwice W out K item ∧
      getSecondPubKeyForDestination item = pubkey := by
  have hanswer : (wallet.getRealAddressAsReceiver W out).1 =
      (wallet.mapAddressBook.find? (wallet.opensTwice W out K)).map fun item =>
        (getSecondPubKeyForDestination item, getHasViewKeyForDestination item, getViewPubKeyForDestination item) := by
    unfold CWallet.getRealAddressAsReceiver
    rw [hcache, hK, hprivate]
    dsimp only
    rw [if_neg Bool.false_ne_true]
    split
    · next hnone => rw [hnone, Option.map_none]
    · next item hsome => rw [hsome, Option.map_some]
  unfold Names
  rw [hanswer]
  constructor
  · rintro ⟨hasviewkey, viewkey, hmap⟩
    obtain ⟨item, hfind, hitem⟩ := Option.map_eq_some_iff.1 hmap
    obtain ⟨hopens, pre, post, hbook, hpre⟩ := List.find?_eq_some_iff_append.1 hfind
    refine ⟨pre, item, post, hbook, ?_, hopens, (Prod.mk.inj hitem).1⟩
    intro y hy
    simpa using hpre y hy
  · rintro ⟨pre, item, post, hbook, hpre, hopens, rfl⟩
    have hfind : wallet.mapAddressBook.find? (wallet.opensTwice W out K) = some item :=
      List.find?_eq_some_iff_append.2 ⟨hopens, pre, post, hbook, fun y hy => by
        rw [hpre y hy, Bool.not_false]⟩
    exact ⟨_, _, by rw [hfind, Option.map_some]⟩

theorem isMine_filled (hcipher : ∀ k x, W.aesDecrypt k (W.aesEncrypt k x) = x) {dest : CTxDestination}
    (hr : r.Good) (hfilled : FilledWith W r senderpubkey pay out) (hprivate : pay.nonprivate = false)
    (hdestprivate : getNonPrivateForDestination dest = false)
    (hpub : getSecondPubKeyForDestination dest = pay.recipientpubkey)
    (hkey : wallet.getKey W pay.recipientpubkey = some key)
    (hagree : calculateEncryptionKey W senderpubkey (wallet.opener W dest key) =
      calculateEncryptionKey W pay.target r)
    (hvalid : (calculateOnetimeDestPubKey W.curve pay.recipientpubkey r pay.masterkeyisremoved).isValid)
    {visited : List CTxDestination} (hdest : dest ∈ visited)
    (hapart : ∀ item ∈ visited, Apart W (calculateOnetimeDestPubKey W.curve pay.recipientpubkey r
      pay.masterkeyisremoved) item)
    (hhandled : ∀ item ∈ visited, EntryHandled W wallet out (calculateOnetimeDestPubKey W.curve
      pay.recipientpubkey r pay.masterkeyisremoved) item) :
    ∃ res wallet', wallet.isMine W out visited = some (res, wallet') ∧ res ≠ .no := by
  have hout : out.isnonprivate = false := hfilled.isnonprivate.trans hprivate
  have hK := hfilled.extract hprivate hvalid
  have hskip : skipsEntry W out dest = false := by
    unfold skipsEntry
    rw [hdestprivate, hpub, hfilled.otherRecipient_eq, Bool.or_false]
  have hopens : wallet.opensOnce W out (calculateOnetimeDestPubKey W.curve pay.recipientpubkey r
      pay.masterkeyisremoved) dest = true := by
    unfold CWallet.opensOnce
    dsimp only
    rw [hpub, hkey, Option.isSome_some, Option.getD_some, Bool.true_or, Bool.true_and, decide_eq_true_eq,
      hfilled.masterkeyisremoved, onetime_eq_iff hvalid]
    exact open_once hcipher hr hfilled hagree pay.masterkeyisremoved
  exact isMine_ne_no hout hK hapart hhandled ⟨dest, hdest, hskip, hopens⟩

/-- **when the receiver names the recipient**, beside what `IsMine` says of the output. -/
theorem receiver_names_iff (hcipher : ∀ k x, W.aesDecrypt k (W.aesEncrypt k x) = x)
    {sender sender' wallet : CWallet} {encryptRefLine : Bytes → CPubKey → CKey → Bytes}
    {senderpubkey : CPubKey} {out0 out : WalletTxOut} {pay : Payment} {r key : CKey} {dest : CTxDestination}
    (hsecret : sender.getKey W senderpubkey = some r) (hr : r.Good)
    (hfill : fillTxOutForTransaction W sender encryptRefLine senderpubkey out0 pay = some (out, sender'))
    (hprivate : pay.nonprivate = false) (hdest : dest ∈ wallet.mapAddressBook)
    (hdestprivate : getNonPrivateForDestination dest = false)
    (hpub : getSecondPubKeyForDestination dest = pay.recipientpubkey)
    (hkey : wallet.getKey W pay.recipientpubkey = some key)
    (hagree : calculateEncryptionKey W senderpubkey (wallet.opener W dest key) =
      calculateEncryptionKey W pay.target r) (hcache : wallet.stealthaddresses out.scriptPubKey = none) :
    (Names W wallet out pay.recipientpubkey ↔
      (calculateOnetimeDestPubKey W.curve pay.recipientpubkey r pay.masterkeyisremoved).isValid = true ∧
        ∃ pre item post, wallet.mapAddressBook = pre ++ item :: post ∧
          (∀ y ∈ pre, wallet.opensTwice W out (calculateOnetimeDestPubKey W.curve pay.recipientpubkey r
            pay.masterkeyisremoved) y = false) ∧ getSecondPubKeyForDestination item = pay.recipientpubkey ∧
          TwiceAgrees W wallet out r key item) ∧
    ((calculateOnetimeDestPubKey W.curve pay.recipientpubkey r pay.masterkeyisremoved).isValid = true →
      ∀ visited : List CTxDestination, (∀ item ∈ wallet.mapAddressBook, item ∈ visited) →
        (∀ item ∈ visited, Apart W (calculateOnetimeDestPubKey W.curve pay.recipientpubkey r
          pay.masterkeyisremoved) item) →
        (∀ item ∈ visited, EntryHandled W wallet out (calculateOnetimeDestPubKey W.curve
          pay.recipientpubkey r pay.masterkeyisremoved) item) →
        ∃ res wallet', wallet.isMine W out visited = some (res, wallet') ∧ res ≠ .no) := by
  have hfilled := fillTxOut_some hsecret hr hfill
  have hout : out.isnonprivate = false := hfilled.isnonprivate.trans hprivate
  constructor
  · cases hvalid : (calculateOnetimeDestPubKey W.curve pay.recipientpubkey r
        pay.masterkeyisremoved).isValid with
    | false =>
      have hnone : extractCompletePubKey out.scriptPubKey = none := by
        rw [hfilled.scriptPubKey hprivate]
        exact extract_invalid hvalid
      constructor
      · rintro ⟨hasviewkey, viewkey, hanswer⟩
        unfold CWallet.getRealAddressAsReceiver at hanswer
        rw [hcache, hnone] at hanswer
        cases hanswer
      · rintro ⟨hno, -⟩
        cases hno
    | true =>
      have hK := hfilled.extract hprivate hvalid
      rw [names_iff hcache hout hK]
      constructor
      · rintro ⟨pre, item, post, hbook, hpre, hopens, hitem⟩
        exact ⟨rfl, pre, item, post, hbook, hpre, hitem, (opensTwice_iff hfilled hvalid hkey hitem).1 hopens⟩
      · rintro ⟨-, pre, item, post, hbook, hpre, hitem, hagrees⟩
        exact ⟨pre, item, post, hbook, hpre, (opensTwice_iff hfilled hvalid hkey hitem).2 hagrees, hitem⟩
  · intro hvalid visited hvisited hapart hhandled
    exact isMine_filled hcipher hr hfilled hprivate hdestprivate hpub hkey hagree hvalid
      (hvisited dest hdest) hapart hhandled

/-! ## the sender and the master key -/

def recipientShare (W : WalletEnv P) (pubkey : CPubKey) (privkey : CKey) : Nat :=
  W.curve.point2bn (privkey.secret • W.curve.point pubkey) % 2 ^ 248

theorem masterShare_eq {m : CKey} {R : CPubKey}
    (hm : W.curve.point (masterPubKey dummy) = m.secret • W.curve.G) (hR : W.curve.point R = r.secret • W.curve.G) :
    recipientShare W R m = sharedSecret W.curve r dummy := by
  unfold recipientShare sharedSecret
  rw [hR, hm, ← mul_nsmul, ← mul_nsmul, Nat.mul_comm]

theorem decryptRealRecipient_onetime {P : CPubKey} {privkey : CKey}
    (hshare : recipientShare W pubkey privkey = sharedSecret W.curve r dummy)
    (hvalid : (calculateOnetimeDestPubKey W.curve P r dummy).isValid) :
    decryptRealRecipient W pubkey privkey (calculateOnetimeDestPubKey W.curve P r dummy) =
      W.curve.pubKey (W.curve.point P) := by
  have hpoint : W.curve.point (calculateOnetimeDestPubKey W.curve P r dummy) =
      sharedSecret W.curve r dummy • W.curve.G + W.curve.point P :=
    (pubKey_parses (W := W) (onetime_ne_zero hvalid)).2
  show W.curve.pubKey (W.curve.point (calculateOnetimeDestPubKey W.curve P r dummy) -
    recipientShare W pubkey privkey • W.curve.G) = _
  rw [hpoint, hshare, add_sub_cancel_left]

/-- **the recipient comes back from the one-time key**, to the sender with the master's public key and to the master
with the ephemeral one. -/
theorem recipient_recovered {m r : CKey} {R : CPubKey} {dummy c : Bool} {p : P}
    (hm : W.curve.point (masterPubKey dummy) = m.secret • W.curve.G)
    (hR : W.curve.point R = r.secret • W.curve.G) (hp : p ≠ 0)
    (hvalid : (calculateOnetimeDestPubKey W.curve (W.curve.serialize c p) r dummy).isValid = true) :
    decryptRealRecipient W (masterPubKey dummy) r
        (calculateOnetimeDestPubKey W.curve (W.curve.serialize c p) r dummy) = W.curve.serialize true p ∧
      decryptRealRecipient W R m
        (calculateOnetimeDestPubKey W.curve (W.curve.serialize c p) r dummy) = W.curve.serialize true p := by
  have hback : W.curve.pubKey (W.curve.point (W.curve.serialize c p)) = W.curve.serialize true p := by
    rw [W.curve.point_serialize c p hp]
    exact if_neg hp
  constructor
  · rw [← hback]
    exact decryptRealRecipient_onetime rfl hvalid
  · rw [← hback]
    exact decryptRealRecipient_onetime (masterShare_eq hm hR) hvalid

end

/-! ## a payment where the logarithms are known -/

theorem xorPad_xorPad (key : Bytes) (text : Uint256) : xorPad key (xorPad key text) = text := by
  obtain ⟨text, htext⟩ := text
  apply Subtype.ext
  show List.zipWith (· ^^^ ·) (List.zipWith (· ^^^ ·) text ((key ++ List.replicate 32 0).take 32))
    ((key ++ List.replicate 32 0).take 32) = text
  have hlen : ((key ++ List.replicate 32 (0 : UInt8)).take 32).length = 32 := by
    simp only [List.length_take, List.length_append, List.length_replicate]
    omega
  apply List.ext_getElem
  · simp only [List.length_zipWith]
    omega
  · intro i _ _
    simp only [List.getElem_zipWith, UInt8.xor_assoc, UInt8.xor_self, UInt8.xor_zero]

def paymentToOne : Payment := ⟨pubOf 1, [], 0, false, false, default, false⟩

theorem length_blank : (List.replicate 32 0 : Bytes).length = 32 := rfl

def blankOut : WalletTxOut := Memory.CTxOut.new (default : CPubKey) ⟨List.replicate 32 0, length_blank⟩

def plainWalletEnv : WalletEnv (ZMod secpOrder) :=
  { logEnv with aesEncrypt := fun _ text => text, aesDecrypt := fun _ text => text }

def onetimeNumber : Nat := 0xe8c33a1d9d4597fc639615cdac52f3e565e21ac1b1ec98ffdd09f6c697b512 + 1

theorem sharedSecret_two : sharedSecret logCurve (keyOf 2) false + 1 = onetimeNumber := by
  rw [sharedSecret_log, secret_keyOf (by decide) (by decide)]
  decide

theorem vch_pubOf {x : Nat} (hx : x < secpOrder) : (pubOf x).vch = 2 :: bytesOf 32 x := by
  show 2 :: bytesOf 32 ((x : Nat) : ZMod secpOrder).val = _
  rw [ZMod.val_natCast, Nat.mod_eq_of_lt hx]

theorem onetime_two : calculateOnetimeDestPubKey logCurve (pubOf 1) (keyOf 2) false = pubOf onetimeNumber := by
  have hsum : sharedSecret logCurve (keyOf 2) false • (1 : ZMod secpOrder) + logPoint (pubOf 1) =
      (onetimeNumber : Nat) := by
    rw [pubOf, logPoint_logKey, nsmul_one, ← Nat.cast_add, sharedSecret_two]
  have hne : ((onetimeNumber : Nat) : ZMod secpOrder) ≠ 0 := by
    rw [Ne, ZMod.natCast_eq_zero_iff]
    decide
  unfold calculateOnetimeDestPubKey
  show logCurve.pubKey (sharedSecret logCurve (keyOf 2) false • (1 : ZMod secpOrder) + logPoint (pubOf 1)) = _
  rw [hsum]
  unfold Secp256k1.pubKey
  rw [if_neg hne]
  rfl

section
variable (W : WalletEnv (ZMod secpOrder))

def paidToOne : Option (WalletTxOut × CWallet) :=
  fillTxOutForTransaction W (walletOf 2) (fun line _ _ => line) (pubOf 2) blankOut paymentToOne

structure Logarithmic : Prop where
  curve : W.curve = logCurve
  addressHash : W.addressHash = endsHash
  parses : ∀ key, W.parses key = key.isValid

variable {W}

theorem opener_addressOf (wallet : CWallet) (x : Nat) (key : CKey) : wallet.opener W (addressOf x) key = key := by
  unfold CWallet.opener
  exact if_neg Bool.false_ne_true

theorem target_paymentToOne : paymentToOne.target = pubOf 1 := by
  unfold Payment.target
  exact if_neg Bool.false_ne_true

section
variable (h : Logarithmic W)
include h

theorem Logarithmic.getKey (x : Nat) : (walletOf x).getKey W (pubOf x) = some (keyOf x) := by
  unfold CWallet.getKey
  rw [h.addressHash]
  exact if_pos rfl

theorem Logarithmic.hasSecret {x : Nat} (h0 : 0 < x) (hx : x < secpOrder) : HasSecret W (keyOf x) (pubOf x) := by
  refine ⟨keyOf_good h0 hx, ?_, ?_⟩
  · rw [h.parses]
    rfl
  · rw [h.curve]
    exact (hasSecret_keyOf h0 hx).2.2

theorem Logarithmic.onetime : calculateOnetimeDestPubKey W.curve paymentToOne.recipientpubkey (keyOf 2)
      paymentToOne.masterkeyisremoved = pubOf onetimeNumber := by
  rw [h.curve]
  exact onetime_two

theorem Logarithmic.apart : Apart W (pubOf onetimeNumber) (addressOf 1) := by
  unfold Apart WalletEnv.idOf
  rw [h.addressHash, secondPubKey_addressOf, vch_pubOf (by decide), vch_pubOf (by decide)]
  decide

theorem Logarithmic.handled (out : WalletTxOut) (K : CPubKey) : EntryHandled W (walletOf 1) out K (addressOf 1) := by
  intro _ _
  refine ⟨keyOf 1, ?_, ?_⟩
  · rw [secondPubKey_addressOf]
    exact h.getKey 1
  · have hlt := sharedSecret_lt W.curve (openOutput W out ((walletOf 1).opener W (addressOf 1) (keyOf 1)))
      out.masterkeyisremoved
    have hone : (keyOf 1).secret = 1 := secret_keyOf (by decide) (by decide)
    have hbig : 2 ^ 248 + 1 < 256 ^ 32 := by decide
    omega

theorem Logarithmic.agree : calculateEncryptionKey W (pubOf 2) ((walletOf 1).opener W (addressOf 1) (keyOf 1)) =
      calculateEncryptionKey W paymentToOne.target (keyOf 2) := by
  rw [opener_addressOf, target_paymentToOne]
  exact agree_of_hasSecret (h.hasSecret (by decide) (by decide)) (h.hasSecret (by decide) (by decide))

theorem Logarithmic.filled : ∃ out sender', paidToOne W = some (out, sender') ∧
    FilledWith W (keyOf 2) (pubOf 2) paymentToOne out := by
  have hgood : (keyOf 2).Good := keyOf_good (by decide) (by decide)
  obtain ⟨paid, hpaid⟩ : ∃ paid, paidToOne W = some paid := by
    unfold paidToOne fillTxOutForTransaction
    rw [h.getKey 2]
    exact ⟨_, rfl⟩
  exact ⟨paid.1, paid.2, hpaid, fillTxOut_some (h.getKey 2) hgood hpaid⟩

end

end

theorem logarithmic_log : Logarithmic logEnv := ⟨rfl, rfl, fun _ => rfl⟩

theorem logarithmic_plain : Logarithmic plainWalletEnv := ⟨rfl, rfl, fun _ => rfl⟩

theorem isValid_pubOf (x : Nat) : (pubOf x).isValid := rfl

def masterNumber : Nat := 0x08f4619d0ecea2cbfe31cb0ae6d62979f2b2f10d60d8f64c7fee84fb634bda89

/-- the address of the key 1, with the ephemeral key 2 -/
theorem recipient_recovered_one :
    decryptRealRecipient logEnv (masterPubKey false) (keyOf 2) (pubOf onetimeNumber) = pubOf 1 ∧
      decryptRealRecipient logEnv (pubOf 2) (keyOf masterNumber) (pubOf onetimeNumber) = pubOf 1 := by
  have hm : logCurve.point (masterPubKey false) = (keyOf masterNumber).secret • logCurve.G := by
    rw [secret_keyOf (by decide) (by decide)]
    show logPoint (masterPubKey false) = masterNumber • (1 : ZMod secpOrder)
    rw [nsmul_one]
    exact congrArg Nat.cast (show beNat (((masterPubKey false).vch.drop 1).take 32) = masterNumber by decide)
  have hR := (hasSecret_keyOf (x := 2) (by decide) (by decide)).2.2
  have hone : ((1 : Nat) : ZMod secpOrder) ≠ 0 := by
    rw [Ne, ZMod.natCast_eq_zero_iff]
    decide
  rw [← onetime_two]
  exact recipient_recovered (W := logEnv) (c := true) hm hR hone
    (by rw [show logEnv.curve.serialize true ((1 : Nat) : ZMod secpOrder) = pubOf 1 from rfl,
      show logEnv.curve = logCurve from rfl, onetime_two]; exact isValid_pubOf _)

theorem openTwice_paid {out : WalletTxOut} (h : FilledWith logEnv (keyOf 2) (pubOf 2) paymentToOne out) :
    openTwice logEnv out (keyOf 1) ((walletOf 1).opener logEnv (addressOf 1) (keyOf 1)) =
      (default : CKey).set (xorPad (bytesOf 32 2) (keyOf 2).chars).1 true := by
  have hpad : calculateEncryptionKey logEnv (pubOf 1) (keyOf 2) = bytesOf 32 2 := by
    have htwo : (keyOf 2).secret • logPoint (pubOf 1) = ((2 : Nat) : ZMod secpOrder) := by
      rw [secret_keyOf (by decide) (by decide), pubOf, logPoint_logKey, Nat.cast_one, nsmul_one]
    have hne : ((2 : Nat) : ZMod secpOrder) ≠ 0 := by
      rw [Ne, ZMod.natCast_eq_zero_iff]
      decide
    unfold calculateEncryptionKey
    show (if (keyOf 2).secret • logPoint (pubOf 1) = 0 then []
      else bytesOf 32 ((keyOf 2).secret • logPoint (pubOf 1)).val) = _
    rw [htwo, if_neg hne, ZMod.val_natCast, Nat.mod_eq_of_lt (by decide)]
  have hsame := logarithmic_log.agree
  rw [opener_addressOf, target_paymentToOne] at hsame
  unfold openTwice decryptPrivateKey
  dsimp only
  rw [opener_addressOf, h.randomPubKey, hsame, h.randomPrivatKey, target_paymentToOne]
  unfold encryptPrivateKey
  rw [hpad]
  exact congrArg (fun text : Uint256 => (default : CKey).set text.1 true) (xorPad_xorPad _ _)

/-- **the receiver does not know its own address.** The key 2 pays the address of the key 1. -/
theorem receiver_names_nobody : (∀ k x, logEnv.aesDecrypt k (logEnv.aesEncrypt k x) = x) ∧
    calculateEncryptionKey logEnv (pubOf 2) ((walletOf 1).opener logEnv (addressOf 1) (keyOf 1)) =
        calculateEncryptionKey logEnv paymentToOne.target (keyOf 2) ∧
    ∃ out sender', paidToOne logEnv = some (out, sender') ∧
      (walletOf 1).stealthaddresses out.scriptPubKey = none ∧ ¬ Names logEnv (walletOf 1) out (pubOf 1) ∧
      ∃ res wallet', (walletOf 1).isMine logEnv out (walletOf 1).mapAddressBook = some (res, wallet') ∧
        res ≠ .no := by
  obtain ⟨out, sender', hpaid, hfilled⟩ := logarithmic_log.filled
  have hvalid : (calculateOnetimeDestPubKey logEnv.curve paymentToOne.recipientpubkey (keyOf 2)
      paymentToOne.masterkeyisremoved).isValid = true := by
    rw [logarithmic_log.onetime]
    exact isValid_pubOf _
  have hK := hfilled.extract rfl hvalid
  refine ⟨xorPad_xorPad, logarithmic_log.agree, out, sender', hpaid, rfl, ?_, ?_⟩
  · rw [names_iff rfl hfilled.isnonprivate hK]
    rintro ⟨pre, item, post, hbook, -, hopens, hpub⟩
    have hitem : item = addressOf 1 := by
      have hmem : item ∈ (walletOf 1).mapAddressBook := by
        rw [hbook]
        exact List.mem_append_right _ List.mem_cons_self
      exact List.mem_singleton.1 hmem
    subst hitem
    have hagrees := ((opensTwice_iff hfilled hvalid (logarithmic_log.getKey 1) hpub).1 hopens).2
    rw [openTwice_paid hfilled, hfilled.masterkeyisremoved] at hagrees
    have hzero : (default : CKey).set (xorPad (bytesOf 32 2) (keyOf 2).chars).1 true = default := by decide
    have hnone : sharedSecret logCurve default false = 0 := by
      rw [sharedSecret_log, show (default : CKey).secret = 0 from rfl, Nat.zero_mul]
      rfl
    have hsome := sharedSecret_two
    rw [hzero] at hagrees
    have hsecret : sharedSecret logCurve (keyOf 2) false = 0 := hagrees.symm.trans hnone
    rw [hsecret] at hsome
    exact absurd hsome (by decide)
  · refine isMine_filled xorPad_xorPad (keyOf_good (by decide) (by decide)) hfilled rfl
      (show getNonPrivateForDestination (addressOf 1) = false from rfl) (secondPubKey_addressOf 1)
      (logarithmic_log.getKey 1) logarithmic_log.agree
      hvalid List.mem_cons_self ?_ ?_
    · intro item hitem
      rw [List.mem_singleton.1 hitem, logarithmic_log.onetime]
      exact logarithmic_log.apart
    · intro item hitem
      rw [List.mem_singleton.1 hitem]
      exact logarithmic_log.handled _ _

/-- where the cipher does nothing, a second decryption does no harm -/
theorem receiver_names_one : ∃ out sender', paidToOne plainWalletEnv = some (out, sender') ∧
      Names plainWalletEnv (walletOf 1) out (pubOf 1) ∧
      ∃ res wallet', (walletOf 1).isMine plainWalletEnv out (walletOf 1).mapAddressBook =
        some (res, wallet') ∧ res ≠ .no := by
  obtain ⟨out, sender', hpaid, hfilled⟩ := logarithmic_plain.filled
  have hgood : (keyOf 2).Good := keyOf_good (by decide) (by decide)
  have hvalid : (calculateOnetimeDestPubKey plainWalletEnv.curve paymentToOne.recipientpubkey (keyOf 2)
      paymentToOne.masterkeyisremoved).isValid = true := by
    rw [logarithmic_plain.onetime]
    exact isValid_pubOf _
  obtain ⟨hnames, hmine⟩ := receiver_names_iff (W := plainWalletEnv) (fun _ _ => rfl)
    (logarithmic_plain.getKey 2) hgood hpaid rfl
    (show addressOf 1 ∈ (walletOf 1).mapAddressBook from List.mem_cons_self) rfl (secondPubKey_addressOf 1)
    (logarithmic_plain.getKey 1) logarithmic_plain.agree rfl
  refine ⟨out, sender', hpaid, hnames.2 ⟨hvalid, [], addressOf 1, [], rfl, ?_, secondPubKey_addressOf 1,
    rfl, ?_⟩, hmine hvalid _ (fun _ hitem => hitem) ?_ ?_⟩
  · intro y hy
    cases hy
  · apply sharedSecret_congr
    unfold openTwice decryptPrivateKey
    rw [hfilled.randomPrivatKey]
    exact secret_set_keydata hgood
  · intro item hitem
    rw [List.mem_singleton.1 hitem, logarithmic_plain.onetime]
    exact logarithmic_plain.apart
  · intro item hitem
    rw [List.mem_singleton.1 hitem]
    exact logarithmic_plain.handled _ _

end BitCash
