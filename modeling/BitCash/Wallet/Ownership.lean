import BitCash.Wallet.Output

/-!
# Which outputs the wallet takes for its own

`IsMineForOneDestination` reports an output as spendable for a destination, and
`DoesTxOutBelongtoPrivKeyCalcOneTimePrivate` says that it belongs to a private key.
-/

set_option linter.unusedSectionVars false

variable {r : CKey} {wallet : CWallet}

namespace BitCash
open Memory (Uint256)

inductive IsMineType
  | no
  | watchOnly
  | spendable
  deriving DecidableEq

section
variable {P : Type} [AddCommGroup P] [DecidableEq P] (W : WalletEnv P)

def CWallet.viewKeyFor (wallet : CWallet) (viewpubkey : CPubKey) (key : CKey) : CKey :=
  (wallet.getKey W viewpubkey).getD (getViewKeyForPrivateKey W key)

def CWallet.opener (wallet : CWallet) (dest : CTxDestination) (key : CKey) : CKey :=
  if getHasViewKeyForDestination dest then wallet.viewKeyFor W (getViewPubKeyForDestination dest) key else key

def CWallet.mineByKey (wallet : CWallet) (out : WalletTxOut) (dest : CTxDestination)
    (onetimedestpubkey : CPubKey) : Option IsMineType :=
  let pubkey := getSecondPubKeyForDestination dest
  let havekey := wallet.getKey W pubkey
  let key := havekey.getD default
  if havekey.isSome || getHasViewKeyForDestination dest then
    if out.isnonprivate then
      if verifyPubKey W key pubkey then some .spendable else none
    else
      let privkey := openOutput W out (wallet.opener W dest key)
      if onetimedestpubkey = calculateOnetimeDestPubKey W.curve pubkey privkey out.masterkeyisremoved then
        some (if havekey.isSome then .spendable else .watchOnly)
      else none
  else none

def CWallet.isMineForOneDestination (wallet : CWallet) (out : WalletTxOut) (dest : CTxDestination) :
    IsMineType :=
  let pubkey := getSecondPubKeyForDestination dest
  if otherRecipient W out pubkey then .no
  else
    match extractCompletePubKey out.scriptPubKey with
    | none => .no
    | some onetimedestpubkey =>
      match wallet.mineByKey W out dest onetimedestpubkey with
      | some mine => mine
      | none =>
        match wallet.getRealAddressAndRefline W out with
        | some recipientpubkey => if recipientpubkey = pubkey then .watchOnly else .no
        | none => .no

/-- `DoesTxOutBelongtoPrivKeyCalcOneTimePrivate`: the answer and `otpk`, where it was set.  `none` is a
failed assertion of `GetPubKey`, or a sum that does not fit its buffer. -/
def doesTxOutBelongtoPrivKeyCalcOneTimePrivate (out : WalletTxOut) (key : CKey) :
    Option (Bool × Option CKey) :=
  match extractCompletePubKey out.scriptPubKey with
  | none => some (false, none)
  | some onetimedestpubkey => do
    let pubkey ← key.getPubKey W.curve
    if out.isnonprivate then some (verifyPubKey W key pubkey, none)
    else if otherRecipient W out pubkey then some (false, none)
    else
      let privkey := openOutput W out key
      if onetimedestpubkey = calculateOnetimeDestPubKey W.curve pubkey privkey out.masterkeyisremoved then
        let otpk ← calculateOnetimeDestPrivateKey W.curve key privkey out.masterkeyisremoved
        some (otpk.fValid, some otpk)
      else
        -- "Test if it is a address with a view key"
        let privkey := openOutput W out (getViewKeyForPrivateKey W key)
        if onetimedestpubkey = calculateOnetimeDestPubKey W.curve pubkey privkey out.masterkeyisremoved then
          let otpk ← calculateOnetimeDestPrivateKey W.curve key privkey out.masterkeyisremoved
          some (otpk.fValid, some otpk)
        else some (false, none)

def PaysOnetime (key r : CKey) (dummy : Bool) (K : CPubKey) : Prop :=
  ∃ otpk, calculateOnetimeDestPrivateKey W.curve key r dummy = some otpk ∧ HasSecret W otpk K

def PaysOwner (out : WalletTxOut) (key r : CKey) (K : CPubKey) : Prop :=
  HasSecret W key K ∨ PaysOnetime W key r out.masterkeyisremoved K

def SamePoint (a b : CPubKey) : Prop :=
  W.parses a = true ∧ W.parses b = true ∧ W.curve.point a = W.curve.point b

variable {W}

/-! ## secrets -/

variable {key : CKey}

theorem hasSecret_iff_samePoint {pubkey K : CPubKey} (h : HasSecret W key pubkey) :
    HasSecret W key K ↔ SamePoint W K pubkey := by
  obtain ⟨hgood, hparses, hpoint⟩ := h
  constructor
  · rintro ⟨-, hK, hKpoint⟩
    exact ⟨hK, hparses, hKpoint.trans hpoint.symm⟩
  · rintro ⟨hK, -, hsame⟩
    exact ⟨hgood, hK, hsame.trans hpoint⟩

variable {pubkey : CPubKey} {dummy : Bool}

variable (h : HasSecret W key pubkey)

include h in
theorem onetime_point : calculateOnetimeDestPubKey W.curve pubkey r dummy =
      W.curve.pubKey ((key.secret + sharedSecret W.curve r dummy) • W.curve.G) := by
  unfold calculateOnetimeDestPubKey
  rw [h.2.2, add_comm, add_nsmul]

theorem pubKey_parses {p : P} (hp : p ≠ 0) : W.parses (W.curve.pubKey p) ∧ W.curve.point (W.curve.pubKey p) = p := by
  unfold Secp256k1.pubKey
  rw [if_neg hp]
  exact ⟨W.parses_serialize true p hp, W.curve.point_serialize true p hp⟩

include h in
theorem hasSecret_onetime_iff {K : CPubKey} :
    PaysOnetime W key r dummy K ↔ key.secret + sharedSecret W.curve r dummy < secpOrder ∧
        SamePoint W K (calculateOnetimeDestPubKey W.curve pubkey r dummy) := by
  have hpoint : key.secret + sharedSecret W.curve r dummy < secpOrder →
      (key.secret + sharedSecret W.curve r dummy) • W.curve.G ≠ 0 := by
    intro hlt
    rw [Ne, W.curve.nsmul_eq_zero_iff]
    have hpos := h.1.secret_pos
    intro hdvd
    have := Nat.le_of_dvd (by omega) hdvd
    omega
  constructor
  · rintro ⟨otpk, hotpk, hgood, hparses, hK⟩
    have hlt : key.secret + sharedSecret W.curve r dummy < secpOrder := by
      by_contra hle
      have hinvalid := privateKey_of_le W.curve (Nat.le_of_not_lt hle) hotpk
      rw [hgood.fValid] at hinvalid
      cases hinvalid
    obtain ⟨otpk', hotpk', -, -, hsecret⟩ := privateKey_of_lt W.curve h.1 hlt
    rw [hotpk] at hotpk'
    obtain rfl := Option.some.inj hotpk'
    obtain ⟨hparses', hpoint'⟩ := pubKey_parses (W := W) (hpoint hlt)
    refine ⟨hlt, hparses, ?_, ?_⟩
    · rwa [onetime_point h]
    · rw [onetime_point h, hpoint', hK, hsecret]
  · rintro ⟨hlt, hparses, -, hsame⟩
    obtain ⟨otpk, hotpk, hgood, -, hsecret⟩ := privateKey_of_lt W.curve h.1 hlt
    refine ⟨otpk, hotpk, hgood, hparses, ?_⟩
    rw [hsame, onetime_point h, (pubKey_parses (W := W) (hpoint hlt)).2, hsecret]

theorem onetime_ne_zero (hvalid : (calculateOnetimeDestPubKey W.curve pubkey r dummy).isValid) :
    sharedSecret W.curve r dummy • W.curve.G + W.curve.point pubkey ≠ 0 := by
  intro hzero
  unfold calculateOnetimeDestPubKey Secp256k1.pubKey at hvalid
  rw [if_pos hzero] at hvalid
  cases hvalid

theorem samePoint_onetime (hvalid : (calculateOnetimeDestPubKey W.curve pubkey r dummy).isValid) :
    SamePoint W (calculateOnetimeDestPubKey W.curve pubkey r dummy)
      (calculateOnetimeDestPubKey W.curve pubkey r dummy) := by
  have hparses := (pubKey_parses (W := W) (onetime_ne_zero hvalid)).1
  exact ⟨hparses, hparses, rfl⟩

include h in
theorem onetime_of_hasSecret (hK : HasSecret W key (calculateOnetimeDestPubKey W.curve pubkey r dummy))
    (hvalid : (calculateOnetimeDestPubKey W.curve pubkey r dummy).isValid) :
    key.secret + sharedSecret W.curve r dummy < secpOrder := by
  have hsum : (key.secret + sharedSecret W.curve r dummy) • W.curve.G ≠ 0 := by
    rw [add_nsmul, add_comm, ← h.2.2]
    exact onetime_ne_zero hvalid
  have hpoint := hK.2.2
  rw [onetime_point h, (pubKey_parses (W := W) hsum).2, add_nsmul, add_eq_left, W.curve.nsmul_eq_zero_iff] at hpoint
  have hsmall := sharedSecret_lt W.curve r dummy
  have horder : 2 ^ 248 < secpOrder := by decide
  have hzero : sharedSecret W.curve r dummy = 0 := Nat.eq_zero_of_dvd_of_lt hpoint (by omega)
  rw [hzero, Nat.add_zero]
  exact h.1.secret_lt

/-! ## what a positive answer says -/

variable {out : WalletTxOut} {dest : CTxDestination} {otpk : Option CKey}

theorem isMineForOneDestination_spendable (h : wallet.isMineForOneDestination W out dest = .spendable) :
    ∃ key K, wallet.getKey W (getSecondPubKeyForDestination dest) = some key ∧
      extractCompletePubKey out.scriptPubKey = some K ∧
      (out.isnonprivate → HasSecret W key (getSecondPubKeyForDestination dest)) ∧
      (out.isnonprivate = false → K = calculateOnetimeDestPubKey W.curve (getSecondPubKeyForDestination dest)
        (openOutput W out (wallet.opener W dest key)) out.masterkeyisremoved) := by
  unfold CWallet.isMineForOneDestination at h
  dsimp only at h
  split at h
  · cases h
  · split at h
    · cases h
    · next K hK =>
      split at h
      · next mine hmine =>
        subst h
        unfold CWallet.mineByKey at hmine
        dsimp only at hmine
        cases hkey : wallet.getKey W (getSecondPubKeyForDestination dest) with
        | none =>
          -- without the key nothing is signed, and a view key only watches
          rw [hkey] at hmine
          split at hmine
          · split at hmine
            · split at hmine
              · next hverify =>
                have hbad := (hasSecret_of_verifyPubKey W hverify).1.fValid
                cases hbad
              · cases hmine
            · split at hmine <;> cases hmine
          · cases hmine
        | some key =>
          rw [hkey] at hmine
          refine ⟨key, K, rfl, hK, ?_, ?_⟩
          · intro hnonprivate
            rw [if_pos (by rfl), if_pos hnonprivate] at hmine
            split at hmine
            · next hverify => exact hasSecret_of_verifyPubKey W hverify
            · cases hmine
          · intro hprivate
            rw [if_pos (by rfl), if_neg (by rw [hprivate]; exact Bool.false_ne_true)] at hmine
            split at hmine
            · next heq => exact heq
            · cases hmine
      · split at h
        · split at h <;> cases h
        · cases h

def openers (W : WalletEnv P) (key : CKey) : List CKey := [key, getViewKeyForPrivateKey W key]

theorem doesTxOutBelong_true (h : doesTxOutBelongtoPrivKeyCalcOneTimePrivate W out key = some (true, otpk)) :
    ∃ K pubkey, extractCompletePubKey out.scriptPubKey = some K ∧ key.getPubKey W.curve = some pubkey ∧
      (out.isnonprivate → HasSecret W key pubkey) ∧
      (out.isnonprivate = false → ∃ opener ∈ openers W key, ∃ otpk', otpk = some otpk' ∧
        K = calculateOnetimeDestPubKey W.curve pubkey (openOutput W out opener) out.masterkeyisremoved ∧
        calculateOnetimeDestPrivateKey W.curve key (openOutput W out opener) out.masterkeyisremoved =
          some otpk' ∧ otpk'.fValid) := by
  unfold doesTxOutBelongtoPrivKeyCalcOneTimePrivate at h
  split at h
  · cases h
  · next K hK =>
    obtain ⟨pubkey, hpub, h⟩ := Option.bind_eq_some_iff.1 h
    refine ⟨K, pubkey, hK, hpub, ?_, ?_⟩
    · intro hnonprivate
      rw [if_pos hnonprivate] at h
      exact hasSecret_of_verifyPubKey W (Prod.mk.inj (Option.some.inj h)).1
    · intro hprivate
      rw [if_neg (by rw [hprivate]; exact Bool.false_ne_true)] at h
      split at h
      · cases h
      · dsimp only at h
        split at h
        · next heq =>
          obtain ⟨otpk', hotpk, h⟩ := Option.bind_eq_some_iff.1 h
          obtain ⟨hvalid, rfl⟩ := Prod.mk.inj (Option.some.inj h)
          exact ⟨key, List.mem_cons_self, otpk', rfl, heq, hotpk, hvalid⟩
        · split at h
          · next heq =>
            obtain ⟨otpk', hotpk, h⟩ := Option.bind_eq_some_iff.1 h
            obtain ⟨hvalid, rfl⟩ := Prod.mk.inj (Option.some.inj h)
            exact ⟨_, List.mem_cons_of_mem _ List.mem_cons_self, otpk', rfl, heq, hotpk, hvalid⟩
          · cases h

variable {K : CPubKey}

theorem isMineForOneDestination_nonprivate (hnonprivate : out.isnonprivate)
    (hother : otherRecipient W out (getSecondPubKeyForDestination dest) = false)
    (hK : extractCompletePubKey out.scriptPubKey = some K)
    (hkey : wallet.getKey W (getSecondPubKeyForDestination dest) = some key)
    (hverify : verifyPubKey W key (getSecondPubKeyForDestination dest)) :
    wallet.isMineForOneDestination W out dest = .spendable := by
  have hmine : wallet.mineByKey W out dest K = some .spendable := by
    unfold CWallet.mineByKey
    dsimp only
    rw [hkey, Option.isSome_some, Bool.true_or, if_pos rfl, if_pos hnonprivate, Option.getD_some, if_pos hverify]
  unfold CWallet.isMineForOneDestination
  dsimp only
  rw [hother, if_neg Bool.false_ne_true, hK]
  dsimp only
  rw [hmine]

theorem doesTxOutBelong_nonprivate (hnonprivate : out.isnonprivate)
    (hK : extractCompletePubKey out.scriptPubKey = some K)
    (hgood : key.Good) : doesTxOutBelongtoPrivKeyCalcOneTimePrivate W out key = some (true, none) := by
  have hpub := hgood.getPubKey W.curve
  unfold doesTxOutBelongtoPrivKeyCalcOneTimePrivate
  rw [hK]
  dsimp only
  rw [hpub]
  simp only [Option.bind_eq_bind, Option.bind_some]
  rw [if_pos hnonprivate, verifyPubKey_getPubKey W hgood hpub]

/-! ## soundness -/

theorem good_of_getPubKey (h : key.getPubKey W.curve = some pubkey) : key.Good := by
  unfold CKey.getPubKey at h
  split at h
  · next hgood =>
    rw [Bool.and_eq_true] at hgood
    exact ⟨hgood.1, hgood.2⟩
  · cases h

variable (W)

def SpendableSound (wallet : CWallet) (out : WalletTxOut) (dest : CTxDestination) : Prop :=
  ∃ key K, wallet.getKey W (getSecondPubKeyForDestination dest) = some key ∧
    extractCompletePubKey out.scriptPubKey = some K ∧
    PaysOwner W out key (openOutput W out (wallet.opener W dest key)) K

def BelongsSound (out : WalletTxOut) (key : CKey) : Prop :=
  ∃ K, extractCompletePubKey out.scriptPubKey = some K ∧
    ∃ opener ∈ openers W key, PaysOwner W out key (openOutput W out opener) K

def SmallSum (out : WalletTxOut) (key r : CKey) : Prop :=
  key.secret + sharedSecret W.curve r out.masterkeyisremoved < secpOrder

def PaysKey (out : WalletTxOut) (key r : CKey) (pubkey K : CPubKey) : Prop :=
  SamePoint W K pubkey ∨ (SmallSum W out key r ∧
    SamePoint W K (calculateOnetimeDestPubKey W.curve pubkey r out.masterkeyisremoved))

variable {W}

include h in
theorem paysOwner_iff : PaysOwner W out key r K ↔ PaysKey W out key r pubkey K :=
  or_congr (hasSecret_iff_samePoint h) (hasSecret_onetime_iff h)

include h in
theorem paysOwner_onetime_iff (hvalid : K.isValid)
    (hK : K = calculateOnetimeDestPubKey W.curve pubkey r out.masterkeyisremoved) :
    PaysOwner W out key r K ↔ SmallSum W out key r := by
  subst hK
  constructor
  · rintro (hown | honetime)
    · exact onetime_of_hasSecret h hown hvalid
    · exact ((hasSecret_onetime_iff h).1 honetime).1
  · intro hsmall
    exact .inr ((hasSecret_onetime_iff h).2 ⟨hsmall, samePoint_onetime hvalid⟩)

theorem spendableSound_iff (hkey : wallet.getKey W (getSecondPubKeyForDestination dest) = some key)
    (hK : extractCompletePubKey out.scriptPubKey = some K) : SpendableSound W wallet out dest ↔
      PaysOwner W out key (openOutput W out (wallet.opener W dest key)) K := by
  constructor
  · rintro ⟨key', K', hkey', hK', hpays⟩
    rw [hkey] at hkey'
    rw [hK] at hK'
    rwa [Option.some.inj hkey', Option.some.inj hK']
  · intro hpays
    exact ⟨key, K, hkey, hK, hpays⟩

theorem belongsSound_iff (hK : extractCompletePubKey out.scriptPubKey = some K) :
    BelongsSound W out key ↔ ∃ opener ∈ openers W key, PaysOwner W out key (openOutput W out opener) K := by
  constructor
  · rintro ⟨K', hK', hpays⟩
    rw [hK] at hK'
    rwa [Option.some.inj hK']
  · intro hpays
    exact ⟨K, hK, hpays⟩

theorem belongsSound_private (h : doesTxOutBelongtoPrivKeyCalcOneTimePrivate W out key = some (true, otpk))
    (hprivate : out.isnonprivate = false) : BelongsSound W out key := by
  obtain ⟨K, pubkey, hK, hpub, -, hpriv⟩ := doesTxOutBelong_true h
  obtain ⟨opener, hopener, otpk', -, heq, hotpk, hvalid⟩ := hpriv hprivate
  have hsecret := hasSecret_getPubKey W (good_of_getPubKey hpub) hpub
  refine ⟨K, hK, opener, hopener, ?_⟩
  rw [paysOwner_onetime_iff hsecret (extractCompletePubKey_valid hK) heq]
  by_contra hlarge
  rw [privateKey_of_le W.curve (Nat.le_of_not_lt hlarge) hotpk] at hvalid
  cases hvalid

/-- **when the wallet is right about an output.**  The wallet keeps under the id of the destination's
key only the secret of that key. -/
theorem ownership_sound_iff (W : WalletEnv P) : (∀ (wallet : CWallet) (out : WalletTxOut) (dest : CTxDestination),
      (∀ key, wallet.getKey W (getSecondPubKeyForDestination dest) = some key →
        HasSecret W key (getSecondPubKeyForDestination dest)) →
      wallet.isMineForOneDestination W out dest = .spendable → (SpendableSound W wallet out dest ↔
        ∀ key K, wallet.getKey W (getSecondPubKeyForDestination dest) = some key →
          extractCompletePubKey out.scriptPubKey = some K →
          (out.isnonprivate = true → PaysKey W out key (openOutput W out (wallet.opener W dest key))
            (getSecondPubKeyForDestination dest) K) ∧ (out.isnonprivate = false →
            SmallSum W out key (openOutput W out (wallet.opener W dest key))))) ∧
    (∀ (out : WalletTxOut) (key : CKey) (otpk : Option CKey),
      doesTxOutBelongtoPrivKeyCalcOneTimePrivate W out key = some (true, otpk) → (BelongsSound W out key ↔
        (out.isnonprivate = true → ∀ pubkey K, key.getPubKey W.curve = some pubkey →
          extractCompletePubKey out.scriptPubKey = some K →
          ∃ opener ∈ openers W key, PaysKey W out key (openOutput W out opener) pubkey K))) := by
  constructor
  · intro wallet out dest hkept hmine
    obtain ⟨key, K, hkey, hK, -, hpriv⟩ := isMineForOneDestination_spendable hmine
    have hsecret := hkept key hkey
    rw [spendableSound_iff hkey hK]
    constructor
    · intro hpays key' K' hkey' hK'
      rw [hkey] at hkey'
      rw [hK] at hK'
      obtain rfl := Option.some.inj hkey'
      obtain rfl := Option.some.inj hK'
      refine ⟨fun _ => (paysOwner_iff hsecret).1 hpays, fun hprivate => ?_⟩
      exact (paysOwner_onetime_iff hsecret (extractCompletePubKey_valid hK) (hpriv hprivate)).1 hpays
    · intro hcond
      obtain ⟨hnon, hsum⟩ := hcond key K hkey hK
      cases hprivate : out.isnonprivate with
      | true => exact (paysOwner_iff hsecret).2 (hnon hprivate)
      | false =>
        exact (paysOwner_onetime_iff hsecret (extractCompletePubKey_valid hK) (hpriv hprivate)).2 (hsum hprivate)
  · intro out key otpk hbelongs
    obtain ⟨K, pubkey, hK, hpub, -, -⟩ := doesTxOutBelong_true hbelongs
    have hsecret := hasSecret_getPubKey W (good_of_getPubKey hpub) hpub
    constructor
    · intro hsound hnonprivate pubkey' K' hpub' hK'
      rw [hpub] at hpub'
      obtain rfl := Option.some.inj hpub'
      obtain ⟨opener, hopener, hpays⟩ := (belongsSound_iff hK').1 hsound
      exact ⟨opener, hopener, (paysOwner_iff hsecret).1 hpays⟩
    · intro hcond
      cases hprivate : out.isnonprivate with
      | true =>
        obtain ⟨opener, hopener, hpays⟩ := hcond hprivate pubkey K hpub hK
        exact ⟨K, hK, opener, hopener, (paysOwner_iff hsecret).2 hpays⟩
      | false => exact belongsSound_private hbelongs hprivate

end

/-! ## where the logarithms are known -/

def xorPad (key : Bytes) (text : Uint256) : Uint256 :=
  ⟨List.zipWith (· ^^^ ·) text.1 ((key ++ List.replicate 32 0).take 32), by
    have := text.2
    simp only [List.length_zipWith, List.length_take, List.length_append, List.length_replicate]
    omega⟩

/-- the last bytes for `Hash160`, the first ones for `Hash` -/
def endsHash : AddressHash where
  hash b := (b ++ List.replicate 32 0).take 32
  length_hash b := by
    simp only [List.length_take, List.length_append, List.length_replicate]
    omega
  hash160 b := (b.reverse ++ List.replicate 20 0).take 20
  length_hash160 b := by
    simp only [List.length_take, List.length_append, List.length_replicate]
    omega

def logEnv : WalletEnv (ZMod secpOrder) where
  curve := logCurve
  parses key := key.isValid
  parses_serialize c p _ := by cases c <;> rfl
  addressHash := endsHash
  coordinates p := bytesOf 32 p.val
  aesEncrypt := xorPad
  aesDecrypt := xorPad
  unset _ := 0

def pubOf (x : Nat) : CPubKey := logKey true (x : ZMod secpOrder)

variable {x : Nat}

theorem getPubKey_keyOf (h0 : 0 < x) (hx : x < secpOrder) : (keyOf x).getPubKey logCurve = some (pubOf x) := by
  have hcompressed : (keyOf x).fCompressed := ((default : CKey).set_bytesOf true h0 hx).2.2
  rw [(keyOf_good h0 hx).getPubKey logCurve, secret_keyOf h0 hx, hcompressed]
  show some (logKey true (x • (1 : ZMod secpOrder))) = _
  rw [nsmul_one]
  rfl

def addressOf (x : Nat) : CTxDestination :=
  .keyID ⟨endsHash.hash160 (pubOf x).vch, (pubOf x).vch, [], 0, false, false, false⟩

def walletOf (x : Nat) : CWallet where
  mapKeys id := if id = endsHash.hash160 (pubOf x).vch then some (keyOf x) else none
  setWatchOnly _ := false
  stealthaddresses _ := none
  viewkeyforstealthaddresses _ := none
  reflines _ := false
  masterPrivatKey := none
  mapAddressBook := [addressOf x]

def nonPrivateOut (x : Nat) : WalletTxOut :=
  { Memory.CTxOut.new (default : CPubKey) ⟨List.replicate 32 0, rfl⟩ with
    scriptPubKey := getScriptForRawPubKey (pubOf x), isnonprivate := true }

theorem secondPubKey_addressOf (x : Nat) : getSecondPubKeyForDestination (addressOf x) = pubOf x := by
  show CPubKey.set (pubOf x).vch = pubOf x
  unfold CPubKey.set
  rw [dif_pos (pubOf x).wf]

theorem getKey_walletOf (x : Nat) :
    (walletOf x).getKey logEnv (getSecondPubKeyForDestination (addressOf x)) = some (keyOf x) := by
  rw [secondPubKey_addressOf]
  exact if_pos rfl

theorem hasSecret_keyOf (h0 : 0 < x) (hx : x < secpOrder) : HasSecret logEnv (keyOf x) (pubOf x) :=
  hasSecret_getPubKey logEnv (keyOf_good h0 hx) (getPubKey_keyOf h0 hx)

theorem extract_nonPrivateOut (x : Nat) : extractCompletePubKey (nonPrivateOut x).scriptPubKey = some (pubOf x) :=
  extractCompletePubKey_raw rfl

theorem verify_keyOf (h0 : 0 < x) (hx : x < secpOrder) : verifyPubKey logEnv (keyOf x) (pubOf x) :=
  verifyPubKey_getPubKey logEnv (keyOf_good h0 hx) (getPubKey_keyOf h0 hx)

theorem isMine_nonPrivateOut (y : Nat) (h0 : 0 < x) (hx : x < secpOrder) :
    (walletOf x).isMineForOneDestination logEnv (nonPrivateOut y) (addressOf x) = .spendable := by
  apply isMineForOneDestination_nonprivate rfl rfl (extract_nonPrivateOut y) (getKey_walletOf x)
  rw [secondPubKey_addressOf]
  exact verify_keyOf h0 hx

theorem belongs_nonPrivateOut (y : Nat) (h0 : 0 < x) (hx : x < secpOrder) :
    doesTxOutBelongtoPrivKeyCalcOneTimePrivate logEnv (nonPrivateOut y) (keyOf x) = some (true, none) :=
  doesTxOutBelong_nonprivate rfl (extract_nonPrivateOut y) (keyOf_good h0 hx)

theorem sharedSecret_nonPrivateOut (y : Nat) (opener : CKey) :
    sharedSecret logEnv.curve (openOutput logEnv (nonPrivateOut y) opener) false = 0 := by
  have hpoint : logPoint (default : CPubKey) = 0 := by
    show ((beNat [] : Nat) : ZMod secpOrder) = 0
    exact Nat.cast_zero
  have hkey : calculateEncryptionKey logEnv (default : CPubKey) opener = [] := by
    unfold calculateEncryptionKey
    show (if opener.secret • logPoint (default : CPubKey) = 0 then _ else _) = _
    rw [hpoint, if_pos (nsmul_zero _)]
  have hopen : openOutput logEnv (nonPrivateOut y) opener = default := by
    unfold openOutput decryptPrivateKey
    rw [show (nonPrivateOut y).randomPubKey = default from rfl, hkey]
    show (default : CKey).set (xorPad [] ⟨List.replicate 32 0, rfl⟩).1 true = default
    decide
  rw [hopen]
  show sharedSecret logCurve default false = 0
  rw [sharedSecret_log, show (default : CKey).secret = 0 from rfl, Nat.zero_mul]
  rfl

theorem onetime_nonPrivateOut (x y : Nat) (opener : CKey) :
    logPoint (calculateOnetimeDestPubKey logEnv.curve (pubOf x)
      (openOutput logEnv (nonPrivateOut y) opener) false) = logPoint (pubOf x) := by
  unfold calculateOnetimeDestPubKey
  rw [sharedSecret_nonPrivateOut, zero_nsmul, zero_add]
  show logPoint (logCurve.pubKey (logPoint (pubOf x))) = logPoint (pubOf x)
  unfold Secp256k1.pubKey
  by_cases hp : logPoint (pubOf x) = 0
  · rw [if_pos hp, hp]
    exact Nat.cast_zero
  · rw [if_neg hp]
    exact logPoint_logKey true _

theorem paysKey_nonPrivateOut {y : Nat} {key opener : CKey}
    (h : PaysKey logEnv (nonPrivateOut y) key (openOutput logEnv (nonPrivateOut y) opener)
      (pubOf x) (pubOf y)) : (y : ZMod secpOrder) = x := by
  have hsame : logPoint (pubOf y) = logPoint (pubOf x) := by
    rcases h with ⟨-, -, hpoint⟩ | ⟨-, -, -, hpoint⟩
    · exact hpoint
    · exact hpoint.trans (onetime_nonPrivateOut x y opener)
  rwa [pubOf, pubOf, logPoint_logKey, logPoint_logKey] at hsame

theorem two_ne_one : ((2 : Nat) : ZMod secpOrder) ≠ (1 : Nat) := by
  intro h
  have hval := (ZMod.natCast_eq_natCast_iff' 2 1 secpOrder).1 h
  exact absurd hval (by decide)

/-- **somebody else's coins.**  The wallet has the key 1, and a non-private output pays the key 2: it is
spendable for the address of the wallet, and belongs to its key -/
theorem ownership_of_others_coins :
    (walletOf 1).isMineForOneDestination logEnv (nonPrivateOut 2) (addressOf 1) = .spendable ∧
      ¬ SpendableSound logEnv (walletOf 1) (nonPrivateOut 2) (addressOf 1) ∧
      doesTxOutBelongtoPrivKeyCalcOneTimePrivate logEnv (nonPrivateOut 2) (keyOf 1) = some (true, none) ∧
      ¬ BelongsSound logEnv (nonPrivateOut 2) (keyOf 1) := by
  have hsecret := hasSecret_keyOf (x := 1) (by decide) (by decide)
  refine ⟨isMine_nonPrivateOut 2 (by decide) (by decide), ?_, belongs_nonPrivateOut 2 (by decide) (by decide), ?_⟩
  · rw [spendableSound_iff (getKey_walletOf 1) (extract_nonPrivateOut 2), paysOwner_iff hsecret]
    intro hpays
    exact two_ne_one (paysKey_nonPrivateOut hpays)
  · rw [belongsSound_iff (extract_nonPrivateOut 2)]
    rintro ⟨opener, -, hpays⟩
    exact two_ne_one (paysKey_nonPrivateOut ((paysOwner_iff hsecret).1 hpays))

/-- its own output is paid to it -/
theorem ownership_of_own_coins :
    (walletOf 1).isMineForOneDestination logEnv (nonPrivateOut 1) (addressOf 1) = .spendable ∧
      SpendableSound logEnv (walletOf 1) (nonPrivateOut 1) (addressOf 1) ∧
      doesTxOutBelongtoPrivKeyCalcOneTimePrivate logEnv (nonPrivateOut 1) (keyOf 1) = some (true, none) ∧
      BelongsSound logEnv (nonPrivateOut 1) (keyOf 1) := by
  have hmine := isMine_nonPrivateOut (x := 1) 1 (by decide) (by decide)
  have hbelongs := belongs_nonPrivateOut (x := 1) 1 (by decide) (by decide)
  have hsecret := hasSecret_keyOf (x := 1) (by decide) (by decide)
  have hpays : ∀ r, PaysKey logEnv (nonPrivateOut 1) (keyOf 1) r (pubOf 1) (pubOf 1) := fun _ =>
    .inl ⟨rfl, rfl, rfl⟩
  refine ⟨hmine, ?_, hbelongs, ?_⟩
  · refine ((ownership_sound_iff logEnv).1 _ _ _ ?_ hmine).2 ?_
    · intro key hkey
      rw [getKey_walletOf] at hkey
      rw [← Option.some.inj hkey, secondPubKey_addressOf]
      exact hsecret
    · intro key K hkey hK
      rw [getKey_walletOf] at hkey
      rw [extract_nonPrivateOut] at hK
      rw [← Option.some.inj hkey, ← Option.some.inj hK, secondPubKey_addressOf]
      exact ⟨fun _ => hpays _, fun hprivate => nomatch hprivate⟩
  · refine ((ownership_sound_iff logEnv).2 _ _ _ hbelongs).2 ?_
    intro _ pubkey K hpub hK
    rw [show CKey.getPubKey logEnv.curve (keyOf 1) = some (pubOf 1) from
      getPubKey_keyOf (by decide) (by decide)] at hpub
    rw [extract_nonPrivateOut] at hK
    rw [← Option.some.inj hpub, ← Option.some.inj hK]
    exact ⟨keyOf 1, List.mem_cons_self, hpays _⟩

end BitCash
