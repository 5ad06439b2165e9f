import BitCash.Consensus.Nicknames
import BitCash.KeyIo.Bech32

/-!
# Destinations and their texts

`EncodeDestination` and `DecodeDestination` of `key_io.cpp`.
-/

set_option linter.unusedSectionVars false

variable {d : CTxDestination}

namespace BitCash
open Option CPubKey

variable {H : Type} [Inhabited H] [DecidableEq H]

def CPubKey.set (b : Bytes) : CPubKey := if h : CPubKey.wellFormed b = true then ⟨b, h⟩ else default

theorem CPubKey.set_vch (key : CPubKey) : set key.vch = key := dif_pos key.wf

theorem CPubKey.size_cases (key : CPubKey) : key = default ∨ key.size = 33 ∨ key.size = 65 := by
  obtain ⟨vch, wf⟩ := key
  cases vch with
  | nil => exact .inl rfl
  | cons b l =>
    right
    unfold wellFormed at wf
    rw [Bool.and_eq_true, decide_eq_true_eq, decide_eq_true_eq] at wf
    obtain ⟨hpos, hlen⟩ := wf
    show (b :: l).length = 33 ∨ (b :: l).length = 65
    rw [hlen]
    unfold getLen at hpos ⊢
    split at hpos
    · next h => exact .inl (if_pos h)
    · next h =>
      split at hpos
      · next h' => exact .inr ((if_neg h).trans (if_pos h'))
      · exact absurd hpos (lt_irrefl 0)

structure CKeyID where
  id : Bytes
  recokey : Bytes
  viewkey : Bytes
  currency : UInt8
  nonprivate : Bool
  isdeposit : Bool
  hasviewkey : Bool
  deriving DecidableEq

def CKeyID.ofHash (id : Bytes) : CKeyID := ⟨id, [], [], 0, false, false, false⟩

structure DestTag where
  recokey : Bytes
  currency : UInt8
  isdeposit : Bool
  deriving DecidableEq

instance : Inhabited DestTag := ⟨⟨[], 0, false⟩⟩

inductive CTxDestination
  | noDestination (tag : DestTag)
  | keyID (id : CKeyID)
  | scriptID (hash : Bytes) (tag : DestTag)
  | witnessV0ScriptHash (hash : Bytes) (tag : DestTag)
  | witnessV0KeyHash (hash : Bytes) (tag : DestTag)
  | witnessUnknown (version : Nat) (program : Bytes) (tag : DestTag)
  deriving DecidableEq

namespace CTxDestination

def tag : CTxDestination → DestTag
  | .keyID id => ⟨id.recokey, id.currency, id.isdeposit⟩
  | .noDestination t | .scriptID _ t | .witnessV0ScriptHash _ t | .witnessV0KeyHash _ t
  | .witnessUnknown _ _ t => t

def withTag : CTxDestination → DestTag → CTxDestination
  | .keyID id, t => .keyID { id with recokey := t.recokey, currency := t.currency, isdeposit := t.isdeposit }
  | .noDestination _, t => .noDestination t
  | .scriptID h _, t => .scriptID h t
  | .witnessV0ScriptHash h _, t => .witnessV0ScriptHash h t
  | .witnessV0KeyHash h _, t => .witnessV0KeyHash h t
  | .witnessUnknown v p _, t => .witnessUnknown v p t

end CTxDestination

def localSetCurrencyForDestination (dest : CTxDestination) (key2 : UInt8) : CTxDestination :=
  dest.withTag { dest.tag with currency := key2 }

def localGetCurrencyForDestination (dest : CTxDestination) : UInt8 := dest.tag.currency

def localSetDepositForDestination (dest : CTxDestination) (isdeposit : Bool) : CTxDestination :=
  dest.withTag { dest.tag with isdeposit := isdeposit }

def localGetDepositForDestination (dest : CTxDestination) : Bool := dest.tag.isdeposit

def copyKey (v : Bytes) (key2 : CPubKey) : Option Bytes :=
  if key2.size ≤ 33 then some (key2.vch ++ ((v ++ List.replicate 33 0).take 33).drop key2.size) else none

def localSetSecondPubKeyForDestination (dest : CTxDestination) (key2 : CPubKey) : Option CTxDestination := do
  let recokey ← copyKey dest.tag.recokey key2
  some (dest.withTag { dest.tag with recokey := recokey })

def localSetNonPrivateForDestination (dest : CTxDestination) (nonprivate : Bool) : CTxDestination :=
  match dest with
  | .keyID id => .keyID { id with nonprivate := nonprivate }
  | dest => dest

def localSetHasViewKeyForDestination (dest : CTxDestination) (hasviewkey : Bool) : CTxDestination :=
  match dest with
  | .keyID id => .keyID { id with hasviewkey := hasviewkey }
  | dest => dest

def localSetViewPubKeyForDestination (dest : CTxDestination) (key2 : CPubKey) : Option CTxDestination :=
  match dest with
  | .keyID id => do
    let viewkey ← copyKey id.viewkey key2
    some (.keyID { id with viewkey := viewkey })
  | dest => some dest

def destinationHasSecondPubKey (dest : CTxDestination) : Bool := decide (0 < dest.tag.recokey.length)

/-! ## the networks -/

structure AddressParams where
  pubkeyAddress : Bytes
  scriptAddress : Bytes
  pubkeyAddressNonPrivate : Bytes
  pubkeyAddressViewKey : Bytes
  pubkeyAddressTrezor : Bytes
  scriptAddressTrezor : Bytes
  bech32HRP : Bytes

inductive Network
  | main
  | test
  | regtest
  deriving DecidableEq

def Network.addressParams : Network → AddressParams
  | .main => ⟨[230], [235], [130], [156], [0], [5], textBytes "bc"⟩
  | .test => ⟨[111], [196], [55], [66], [111], [196], textBytes "tb"⟩
  | .regtest => ⟨[111], [196], [55], [66], [111], [196], textBytes "bcrt"⟩

/-! ## encoding -/

def destinationEncoder (A : AddressHash) (params : AddressParams) : CTxDestination → Option Bytes
  | .keyID id =>
    let data := if id.hasviewkey then params.pubkeyAddressViewKey
      else if id.nonprivate then params.pubkeyAddressNonPrivate else params.pubkeyAddress
    let data := data ++ id.recokey
    encodeBase58Check A (if id.hasviewkey then data ++ id.viewkey else data)
  | .scriptID _ t => encodeBase58Check A (params.scriptAddress ++ t.recokey)
  | .witnessV0KeyHash hash _ | .witnessV0ScriptHash hash _ => do
    some (bech32Encode params.bech32HRP (0 :: (← convertBits 8 5 true hash)))
  | .witnessUnknown version program _ => do
    if version < 1 ∨ 16 < version ∨ program.length < 2 ∨ 40 < program.length then some []
    else some (bech32Encode params.bech32HRP (UInt8.ofNat version :: (← convertBits 8 5 true program)))
  | .noDestination _ => some []

def encodecurrency (dest : CTxDestination) (str : Bytes) : Bytes :=
  if localGetCurrencyForDestination dest = 1 then textBytes "dollar@" ++ str
  else if localGetDepositForDestination dest then textBytes "deposit@" ++ str
  else str

def encodeDestination (A : AddressHash) (params : AddressParams) (dest : CTxDestination) (key2 : CPubKey) :
    Option Bytes := do
  let destnew ← if destinationHasSecondPubKey dest then some dest
    else localSetSecondPubKeyForDestination dest key2
  some (encodecurrency destnew (← destinationEncoder A params destnew))

/-! ## decoding -/

def keyBytes (data : Bytes) (place : Nat) : Bytes := (data.drop place).take 33

def keyHash (A : AddressHash) (recokey : Bytes) : Bytes := A.hash160 (CPubKey.set recokey).vch

def decodeBase58Address (A : AddressHash) (params : AddressParams) (data : Bytes) : Option CTxDestination :=
  let pubkey := params.pubkeyAddress
  let viewkey := params.pubkeyAddressViewKey
  if data.length = 33 + pubkey.length ∧ (pubkey.isPrefixOf data || params.pubkeyAddressTrezor.isPrefixOf data ||
      params.pubkeyAddressNonPrivate.isPrefixOf data) = true then
    some (.keyID { CKeyID.ofHash (keyHash A (keyBytes data pubkey.length)) with
      recokey := keyBytes data pubkey.length
      nonprivate := params.pubkeyAddressNonPrivate.isPrefixOf data })
  else if data.length = 2 * 33 + viewkey.length ∧ viewkey.isPrefixOf data = true then
    some (.keyID { CKeyID.ofHash (keyHash A (keyBytes data pubkey.length)) with
      nonprivate := false
      hasviewkey := true
      recokey := keyBytes data viewkey.length
      viewkey := keyBytes data (viewkey.length + 33) })
  else if data.length = 33 + params.scriptAddress.length ∧ (params.scriptAddress.isPrefixOf data ||
      params.scriptAddressTrezor.isPrefixOf data) = true then
    some (.keyID { CKeyID.ofHash (keyHash A (keyBytes data pubkey.length)) with
      recokey := keyBytes data pubkey.length })
  else none

def decodeBech32Address (params : AddressParams) (str : Bytes) : CTxDestination :=
  match bech32Decode str with
  | some (hrp, version :: values) =>
    if hrp = params.bech32HRP then
      match convertBits 5 8 false values with
      | some data =>
        if version = 0 then
          if data.length = 20 then .witnessV0KeyHash data default
          else if data.length = 32 then .witnessV0ScriptHash data default
          else .noDestination default
        else if 16 < version ∨ data.length < 2 ∨ 40 < data.length then .noDestination default
        else .witnessUnknown version.toNat data default
      | none => .noDestination default
    else .noDestination default
  | _ => .noDestination default

def decodeDestinationNoNickname (A : AddressHash) (params : AddressParams) (str : Bytes) :
    Option CTxDestination := do
  match ← decodeBase58Check A str with
  | some data => some ((decodeBase58Address A params data).getD (decodeBech32Address params str))
  | none => some (decodeBech32Address params str)

def getDestinationforNickname (A : AddressHash) (pubkey : CPubKey)
    (isnonprivatenickname nicknamehasviewkey : Bool) (viewpubkey : CPubKey) : Option CTxDestination := do
  let dest ← localSetSecondPubKeyForDestination (.keyID (CKeyID.ofHash (A.hash160 pubkey.vch))) pubkey
  let dest := localSetNonPrivateForDestination dest isnonprivatenickname
  let dest := localSetHasViewKeyForDestination dest nicknamehasviewkey
  localSetViewPubKeyForDestination dest viewpubkey

def splitCurrency (str : Bytes) : UInt8 × Bool × Bytes :=
  if (textBytes "dollar@").isPrefixOf str then (1, false, str.drop 7)
  else if (textBytes "bitcash@").isPrefixOf str then (0, false, str.drop 8)
  else if (textBytes "deposit@").isPrefixOf str then (0, true, str.drop 8)
  else (0, false, str)

def decodeDestination (A : AddressHash) (params : AddressParams) (n : Nicknames H) (strinput : Bytes) :
    Option CTxDestination := do
  let (currency, isdeposit, str) := splitCurrency strinput
  let dest ← decodeDestinationNoNickname A params str
  let dest := localSetCurrencyForDestination dest currency
  let dest := localSetDepositForDestination dest isdeposit
  match dest with
  | .noDestination _ =>
    let pubkey := n.getAddressForNickname str
    if pubkey.isValid then
      let dest ← getDestinationforNickname A pubkey (n.isNonPrivateNickname str)
        (n.hasViewKeyNickname str) (n.getViewKeyNickname str)
      let dest := localSetCurrencyForDestination dest currency
      some (localSetDepositForDestination dest isdeposit)
    else some (.noDestination default)
  | dest => some dest

/-! ## what comes out -/

def CTxDestination.Bare : CTxDestination → Prop
  | .keyID _ | .scriptID _ _ => False
  | .noDestination t | .witnessV0ScriptHash _ t | .witnessV0KeyHash _ t | .witnessUnknown _ _ t =>
    t.recokey = []

theorem decodeBase58Address_key {A : AddressHash} {params : AddressParams} {data : Bytes}
    (h : decodeBase58Address A params data = some d) : ∃ k, d = .keyID k := by
  unfold decodeBase58Address at h
  dsimp only at h
  split at h
  · exact ⟨_, (some.inj h).symm⟩
  split at h
  · exact ⟨_, (some.inj h).symm⟩
  split at h
  · exact ⟨_, (some.inj h).symm⟩
  · cases h

theorem decodeBech32Address_bare (params : AddressParams) (str : Bytes) : (decodeBech32Address params str).Bare := by
  unfold decodeBech32Address
  repeat' split
  all_goals exact rfl

theorem decodeDestinationNoNickname_eq (A : AddressHash) (params : AddressParams) (str : Bytes) :
    ∃ r, decodeBase58Check A str = some r ∧ decodeDestinationNoNickname A params str =
      some ((r.bind (decodeBase58Address A params)).getD (decodeBech32Address params str)) := by
  obtain ⟨r, hr⟩ := decodeBase58Check_returns A str
  refine ⟨r, hr, ?_⟩
  unfold decodeDestinationNoNickname
  rw [hr]
  cases r <;> rfl

theorem decodeDestinationNoNickname_cases (A : AddressHash) (params : AddressParams) (str : Bytes) :
    (∃ k, decodeDestinationNoNickname A params str = some (.keyID k)) ∨
      decodeDestinationNoNickname A params str = some (decodeBech32Address params str) := by
  obtain ⟨r, -, h⟩ := decodeDestinationNoNickname_eq A params str
  rw [h]
  cases hkey : r.bind (decodeBase58Address A params) with
  | none => exact .inr rfl
  | some d =>
    obtain ⟨data, -, hdata⟩ := bind_eq_some_iff.1 hkey
    obtain ⟨k, rfl⟩ := decodeBase58Address_key hdata
    exact .inl ⟨k, rfl⟩

variable {A : AddressHash} {params : AddressParams} {n : Nicknames H} {strinput str : Bytes}
  {currency : UInt8} {isdeposit : Bool}

theorem decodeDestination_key (hsplit : splitCurrency strinput = (currency, isdeposit, str)) {k : CKeyID}
    (hkey : decodeDestinationNoNickname A params str = some (.keyID k)) :
    decodeDestination A params n strinput =
      some (.keyID { k with currency := currency, isdeposit := isdeposit }) := by
  unfold decodeDestination
  rw [hsplit]
  dsimp only
  rw [hkey]
  rfl

def decodeNickname (A : AddressHash) (n : Nicknames H) (currency : UInt8) (isdeposit : Bool) (str : Bytes) :
    Option CTxDestination :=
  if (n.getAddressForNickname str).isValid then do
    let recokey ← copyKey [] (n.getAddressForNickname str)
    let viewkey ← copyKey [] (n.getViewKeyNickname str)
    some (.keyID
      { id := A.hash160 (n.getAddressForNickname str).vch, recokey := recokey, viewkey := viewkey
        currency := currency, nonprivate := n.isNonPrivateNickname str, isdeposit := isdeposit
        hasviewkey := n.hasViewKeyNickname str })
  else some (.noDestination default)

section
variable (hsplit : splitCurrency strinput = (currency, isdeposit, str))
include hsplit

theorem decodeDestination_nickname {t : DestTag}
    (hno : decodeDestinationNoNickname A params str = some (.noDestination t)) :
    decodeDestination A params n strinput = decodeNickname A n currency isdeposit str := by
  unfold decodeDestination decodeNickname
  rw [hsplit]
  dsimp only
  rw [hno]
  show (if (n.getAddressForNickname str).isValid then _ else _) = _
  split
  · unfold getDestinationforNickname localSetSecondPubKeyForDestination
    show (((copyKey [] (n.getAddressForNickname str)).bind _).bind _).bind _ =
      (copyKey [] (n.getAddressForNickname str)).bind _
    cases copyKey [] (n.getAddressForNickname str) with
    | none => rfl
    | some recokey =>
      show ((copyKey [] (n.getViewKeyNickname str)).bind _).bind _ =
        (copyKey [] (n.getViewKeyNickname str)).bind _
      cases copyKey [] (n.getViewKeyNickname str) with
      | none => rfl
      | some viewkey => rfl
  · rfl

theorem decodeDestination_witness (hdec : decodeDestinationNoNickname A params str = some d) (hbare : d.Bare)
    (hno : ∀ t, d ≠ .noDestination t) : decodeDestination A params n strinput =
      some (d.withTag { d.tag with currency := currency, isdeposit := isdeposit }) := by
  unfold decodeDestination
  rw [hsplit]
  dsimp only
  rw [hdec]
  cases d with
  | noDestination t => exact absurd rfl (hno t)
  | keyID k => exact absurd hbare id
  | scriptID h t => exact absurd hbare id
  | witnessV0ScriptHash h t => rfl
  | witnessV0KeyHash h t => rfl
  | witnessUnknown v p t => rfl

theorem decodeDestination_ne_key (hdec : decodeDestinationNoNickname A params str = some d) (hbare : d.Bare)
    (hno : ∀ t, d ≠ .noDestination t) (k : CKeyID) : decodeDestination A params n strinput ≠ some (.keyID k) := by
  rw [decodeDestination_witness hsplit hdec hbare hno]
  intro h
  have hkey := some.inj h
  cases d with
  | keyID k => exact hbare
  | scriptID g u => exact hbare
  | noDestination u => cases hkey
  | witnessV0ScriptHash g u => cases hkey
  | witnessV0KeyHash g u => cases hkey
  | witnessUnknown v p u => cases hkey

end

/-- a text decodes to a key, or to a destination without marks -/
theorem decodeDestination_cases {e : CTxDestination}
    (h : decodeDestination A params n strinput = some e) : (∃ k, e = .keyID k) ∨ e.Bare := by
  rcases hsplit : splitCurrency strinput with ⟨currency, isdeposit, str⟩
  rcases decodeDestinationNoNickname_cases A params str with ⟨k, hkey⟩ | hbech
  · rw [decodeDestination_key hsplit hkey] at h
    exact .inl ⟨_, (some.inj h).symm⟩
  · have hbare := decodeBech32Address_bare params str
    by_cases hno : ∃ t, decodeBech32Address params str = .noDestination t
    · obtain ⟨t, ht⟩ := hno
      rw [ht] at hbech
      rw [decodeDestination_nickname hsplit hbech] at h
      unfold decodeNickname at h
      split at h
      · obtain ⟨_, -, h⟩ := bind_eq_some_iff.1 h
        obtain ⟨_, -, h⟩ := bind_eq_some_iff.1 h
        exact .inl ⟨_, (some.inj h).symm⟩
      · rw [← some.inj h]
        exact .inr rfl
    · rw [decodeDestination_witness hsplit hbech hbare fun t ht => hno ⟨t, ht⟩] at h
      rw [← some.inj h]
      right
      revert hbare
      cases decodeBech32Address params str <;> exact fun h => h

end BitCash
