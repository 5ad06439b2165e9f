import BitCash.Serialize.Compressor
import BitCash.Wallet.Ownership

/-!
# `IsMine`: the loop that recognises an output

`IsMine` asks the key store first.
-/

set_option linter.unusedSectionVars false

variable {wallet : CWallet} {out : WalletTxOut} {K : CPubKey} {st : IsMineState}
    {item : CTxDestination} {visited : List CTxDestination}

namespace BitCash
open CWallet Option List

section
variable {P : Type} [AddCommGroup P] [DecidableEq P] (W : WalletEnv P)

def CWallet.isMineBasic (wallet : CWallet) (script : CScript) : IsMineType :=
  if ((extractCompletePubKey script).bind (wallet.getKey W)).isSome then .spendable
  else if wallet.setWatchOnly script then .watchOnly
  else .no

def CWallet.setStealthAddress (wallet : CWallet) (script : CScript) (address : CPubKey) : CWallet :=
  { wallet with stealthaddresses := Function.update wallet.stealthaddresses script (some address) }

def CWallet.setViewkeyStealthAddress (wallet : CWallet) (script : CScript) (viewkey : CPubKey) : CWallet :=
  { wallet with
    viewkeyforstealthaddresses := Function.update wallet.viewkeyforstealthaddresses script (some viewkey) }

def CWallet.setStealth (wallet : CWallet) (script : CScript) (item : CTxDestination) : CWallet :=
  let wallet := wallet.setStealthAddress script (getSecondPubKeyForDestination item)
  if getHasViewKeyForDestination item then
    wallet.setViewkeyStealthAddress script (getViewPubKeyForDestination item)
  else wallet

def CWallet.addWatchOnly (wallet : CWallet) (script : CScript) : CWallet :=
  { wallet with setWatchOnly := Function.update wallet.setWatchOnly script true }

def CWallet.removeWatchOnly (wallet : CWallet) (script : CScript) : CWallet :=
  { wallet with setWatchOnly := Function.update wallet.setWatchOnly script false }

def CWallet.addKeyPubKeyWithDB (wallet : CWallet) (secret : CKey) (pubkey : CPubKey) : CWallet :=
  let id := W.addressHash.hash160 pubkey.vch
  let wallet := { wallet with mapKeys := Function.update wallet.mapKeys id (some secret) }
  let wallet := wallet.removeWatchOnly ([OP_DUP, OP_HASH160, 20] ++ id ++ [OP_EQUALVERIFY, OP_CHECKSIG])
  wallet.removeWatchOnly (getScriptForRawPubKey pubkey)

def CWallet.cacheRealAddress (wallet : CWallet) (out : WalletTxOut) : CWallet :=
  if (wallet.stealthaddresses out.scriptPubKey).isSome && wallet.reflines out.referenceline then wallet
  else if out.masterkeyisremoved || wallet.masterPrivatKey.isNone then wallet
  else
    let recipient := wallet.getRealAddressAndRefline W out
    let wallet := { wallet with reflines := Function.update wallet.reflines out.referenceline true }
    match recipient with
    | some recipientpubkey =>
      if (extractCompletePubKey out.scriptPubKey).isSome && !out.isnonprivate then
        wallet.setStealthAddress out.scriptPubKey recipientpubkey
      else wallet
    | none => wallet

structure IsMineState where
  res : IsMineType
  found : Bool
  wallet : CWallet

def CWallet.watchThrough (wallet : CWallet) (out : WalletTxOut) (pubkey : CPubKey) : IsMineType × CWallet :=
  let res := wallet.isMineBasic W (getScriptForRawPubKey pubkey)
  if res = .watchOnly then
    let wallet := wallet.addWatchOnly out.scriptPubKey
    (wallet.isMineBasic W out.scriptPubKey, wallet)
  else (res, wallet)

def isMineFound (out : WalletTxOut) (onetimedestpubkey : CPubKey) (item : CTxDestination)
    (havekey : Option CKey) (privkey : CKey) (wallet : CWallet) : Option IsMineState :=
  match havekey with
  | none =>
    let wallet := wallet.setStealth out.scriptPubKey item
    let (res, wallet) := wallet.watchThrough W out (getSecondPubKeyForDestination item)
    some ⟨res, true, wallet⟩
  | some key => do
    let otpk ← calculateOnetimeDestPrivateKey W.curve key privkey out.masterkeyisremoved
    let wallet := wallet.addKeyPubKeyWithDB W otpk onetimedestpubkey
    let wallet := wallet.setStealth out.scriptPubKey item
    some ⟨wallet.isMineBasic W out.scriptPubKey, true, wallet⟩

def CWallet.opensOnce (wallet : CWallet) (out : WalletTxOut) (onetimedestpubkey : CPubKey)
    (item : CTxDestination) : Bool :=
  let pubkey := getSecondPubKeyForDestination item
  let havekey := wallet.getKey W pubkey
  (havekey.isSome || getHasViewKeyForDestination item) &&
    decide (onetimedestpubkey = calculateOnetimeDestPubKey W.curve pubkey
      (openOutput W out (wallet.opener W item (havekey.getD default))) out.masterkeyisremoved)

def isMineMaster (out : WalletTxOut) (st : IsMineState) : IsMineState :=
  match st.wallet.getRealAddressAndRefline W out with
  | none => st
  | some recipientpubkey =>
    let (res, wallet) := (st.wallet.cacheRealAddress W out).watchThrough W out recipientpubkey
    ⟨res, st.found, wallet⟩

def skipsEntry (out : WalletTxOut) (item : CTxDestination) : Bool :=
  getNonPrivateForDestination item || otherRecipient W out (getSecondPubKeyForDestination item)

/-- one entry of the address book; `none` is a sum that does not fit its buffer -/
def isMineStep (out : WalletTxOut) (onetimedestpubkey : CPubKey) (st : IsMineState)
    (item : CTxDestination) : Option IsMineState :=
  if skipsEntry W out item then some st
  else if st.wallet.opensOnce W out onetimedestpubkey item then
    let havekey := st.wallet.getKey W (getSecondPubKeyForDestination item)
    let privkey := openOutput W out (st.wallet.opener W item (havekey.getD default))
    isMineFound W out onetimedestpubkey item havekey privkey st.wallet
  else if st.found then some st
  else some (isMineMaster W out st)

def CWallet.isMine (wallet : CWallet) (out : WalletTxOut) (visited : List CTxDestination) :
    Option (IsMineType × CWallet) :=
  let res := wallet.isMineBasic W out.scriptPubKey
  if res = .no ∧ out.isnonprivate = false then
    match extractCompletePubKey out.scriptPubKey with
    | none => some (res, wallet)
    | some onetimedestpubkey =>
      (visited.foldlM (isMineStep W out onetimedestpubkey) ⟨res, false, wallet⟩).map
        fun st => (st.res, st.wallet)
  else some (res, wallet)

/-! ## keys that the loop does not touch -/

def WalletEnv.idOf (pubkey : CPubKey) : Bytes := W.addressHash.hash160 pubkey.vch

def Apart (K : CPubKey) (item : CTxDestination) : Prop :=
  W.idOf (getSecondPubKeyForDestination item) ≠ W.idOf K ∧
    W.idOf (getViewPubKeyForDestination item) ≠ W.idOf K

def EntryHandled (wallet : CWallet) (out : WalletTxOut) (K : CPubKey) (item : CTxDestination) : Prop :=
  skipsEntry W out item = false → wallet.opensOnce W out K item = true →
    ∃ key, wallet.getKey W (getSecondPubKeyForDestination item) = some key ∧
      key.secret + sharedSecret W.curve (openOutput W out (wallet.opener W item key))
        out.masterkeyisremoved < 256 ^ 32

structure Recognised (wallet : CWallet) (K : CPubKey) (st : IsMineState) : Prop where
  keys : ∀ id, id ≠ W.idOf K → st.wallet.mapKeys id = wallet.mapKeys id
  spendable : st.found = true → st.res = .spendable ∧ (st.wallet.getKey W K).isSome = true

variable {W}

@[simp] theorem CWallet.mapKeys_setStealth (wallet : CWallet) (script : CScript) (item : CTxDestination) :
    (wallet.setStealth script item).mapKeys = wallet.mapKeys := by
  unfold setStealth
  dsimp only
  split <;> rfl

@[simp] theorem CWallet.mapKeys_watchThrough (wallet : CWallet) (out : WalletTxOut) (pubkey : CPubKey) :
    (wallet.watchThrough W out pubkey).2.mapKeys = wallet.mapKeys := by
  unfold watchThrough
  dsimp only
  split <;> rfl

@[simp] theorem CWallet.mapKeys_cacheRealAddress (wallet : CWallet) (out : WalletTxOut) :
    (wallet.cacheRealAddress W out).mapKeys = wallet.mapKeys := by
  unfold cacheRealAddress
  dsimp only
  split
  · rfl
  · split
    · rfl
    · split
      · split <;> rfl
      · rfl

theorem mapKeys_isMineMaster (out : WalletTxOut) (st : IsMineState) :
    (isMineMaster W out st).wallet.mapKeys = st.wallet.mapKeys ∧ (isMineMaster W out st).found = st.found := by
  unfold isMineMaster
  split
  · exact ⟨rfl, rfl⟩
  · refine ⟨?_, rfl⟩
    show ((st.wallet.cacheRealAddress W out).watchThrough W out _).2.mapKeys = _
    rw [mapKeys_watchThrough, mapKeys_cacheRealAddress]

theorem Recognised.getKey_eq {pubkey : CPubKey} (h : Recognised W wallet K st) (hapart : W.idOf pubkey ≠ W.idOf K) :
    st.wallet.getKey W pubkey = wallet.getKey W pubkey := h.keys _ hapart

theorem Recognised.opener_eq (h : Recognised W wallet K st) (hapart : Apart W K item) (key : CKey) :
    st.wallet.opener W item key = wallet.opener W item key := by
  unfold opener viewKeyFor
  rw [h.getKey_eq hapart.2]

theorem Recognised.opensOnce_eq (h : Recognised W wallet K st) (hapart : Apart W K item) :
    st.wallet.opensOnce W out K item = wallet.opensOnce W out K item := by
  unfold opensOnce
  dsimp only
  rw [h.getKey_eq hapart.1, h.opener_eq hapart]

/-! ## one entry, and the loop -/

section
variable (hK : extractCompletePubKey out.scriptPubKey = some K)
include hK

theorem isMineFound_some {st : CWallet} {key privkey : CKey}
    (hkeys : ∀ id, id ≠ W.idOf K → st.mapKeys id = wallet.mapKeys id)
    (hfits : key.secret + sharedSecret W.curve privkey out.masterkeyisremoved < 256 ^ 32) :
    ∃ st', isMineFound W out K item (some key) privkey st = some st' ∧ Recognised W wallet K st' ∧ st'.found := by
  obtain ⟨otpk, hotpk⟩ : ∃ otpk,
      calculateOnetimeDestPrivateKey W.curve key privkey out.masterkeyisremoved = some otpk :=
    ⟨_, if_neg (Nat.not_le.2 hfits)⟩
  have hnew : ((st.addKeyPubKeyWithDB W otpk K).setStealth out.scriptPubKey item).mapKeys =
      Function.update st.mapKeys (W.idOf K) (some otpk) := mapKeys_setStealth _ _ _
  have hhave : ((st.addKeyPubKeyWithDB W otpk K).setStealth out.scriptPubKey item).getKey W K =
      some otpk := by
    show ((st.addKeyPubKeyWithDB W otpk K).setStealth out.scriptPubKey item).mapKeys (W.idOf K) = _
    rw [hnew, Function.update_self]
  refine ⟨⟨.spendable, true, (st.addKeyPubKeyWithDB W otpk K).setStealth out.scriptPubKey item⟩, ?_, ⟨?_, ?_⟩, rfl⟩
  · unfold isMineFound
    dsimp only
    rw [hotpk, bind_eq_bind, bind_some]
    unfold isMineBasic
    rw [hK, bind_some, hhave, isSome_some, if_pos rfl]
  · intro id hid
    show ((st.addKeyPubKeyWithDB W otpk K).setStealth out.scriptPubKey item).mapKeys id = _
    rw [hnew, Function.update_of_ne hid, hkeys id hid]
  · intro _
    refine ⟨rfl, ?_⟩
    show (((st.addKeyPubKeyWithDB W otpk K).setStealth out.scriptPubKey item).getKey W K).isSome = true
    rw [hhave, isSome_some]

theorem isMineStep_keeps (h : Recognised W wallet K st) (hapart : Apart W K item)
    (hhandled : EntryHandled W wallet out K item) :
    ∃ st', isMineStep W out K st item = some st' ∧ Recognised W wallet K st' ∧
      (st.found ∨ (skipsEntry W out item = false ∧ wallet.opensOnce W out K item) → st'.found) := by
  unfold isMineStep
  dsimp only
  cases hskip : skipsEntry W out item with
  | true =>
    rw [if_pos rfl]
    refine ⟨st, rfl, h, ?_⟩
    rintro (hfound | ⟨hno, -⟩)
    · exact hfound
    · cases hno
  | false =>
    rw [if_neg Bool.false_ne_true, h.opensOnce_eq hapart, h.getKey_eq hapart.1, h.opener_eq hapart]
    cases hopens : wallet.opensOnce W out K item with
    | true =>
      obtain ⟨key, hkey, hfits⟩ := hhandled hskip hopens
      rw [if_pos rfl, hkey, getD_some]
      obtain ⟨st', hst', hrec, hfound⟩ := isMineFound_some hK h.keys hfits
      exact ⟨st', hst', hrec, fun _ => hfound⟩
    | false =>
      rw [if_neg Bool.false_ne_true]
      cases hfound : st.found with
      | true =>
        rw [if_pos rfl]
        exact ⟨st, rfl, h, fun _ => hfound⟩
      | false =>
        rw [if_neg Bool.false_ne_true]
        obtain ⟨hkeys, hsame⟩ := mapKeys_isMineMaster (W := W) out st
        refine ⟨_, rfl, ⟨?_, ?_⟩, ?_⟩
        · intro id hid
          rw [hkeys]
          exact h.keys id hid
        · intro hnow
          rw [hsame, hfound] at hnow
          cases hnow
        · rintro (hno | ⟨-, hno⟩) <;> cases hno

theorem isMineLoop_keeps (hapart : ∀ item ∈ visited, Apart W K item)
    (hhandled : ∀ item ∈ visited, EntryHandled W wallet out K item) (h : Recognised W wallet K st) :
    ∃ st', visited.foldlM (isMineStep W out K) st = some st' ∧ Recognised W wallet K st' ∧
      ((st.found ∨ ∃ item ∈ visited, skipsEntry W out item = false ∧ wallet.opensOnce W out K item) → st'.found) := by
  induction visited generalizing st with
  | nil =>
    refine ⟨st, rfl, h, ?_⟩
    rintro (hfound | ⟨item, hmem, -⟩)
    · exact hfound
    · cases hmem
  | cons item visited ih =>
    obtain ⟨st1, hst1, h1, hfound1⟩ := isMineStep_keeps hK h (hapart item mem_cons_self)
      (hhandled item mem_cons_self)
    obtain ⟨st', hst', h', hfound'⟩ := ih (fun y hy => hapart y (mem_cons_of_mem _ hy))
      (fun y hy => hhandled y (mem_cons_of_mem _ hy)) h1
    refine ⟨st', ?_, h', ?_⟩
    · rw [foldlM_cons, hst1]
      exact hst'
    · rintro (hfound | ⟨y, hy, hopens⟩)
      · exact hfound' (.inl (hfound1 (.inl hfound)))
      · rcases mem_cons.1 hy with rfl | hy
        · exact hfound' (.inl (hfound1 (.inr hopens)))
        · exact hfound' (.inr ⟨y, hy, hopens⟩)

end

theorem isMine_ne_no (hprivate : out.isnonprivate = false) (hK : extractCompletePubKey out.scriptPubKey = some K)
    (hapart : ∀ item ∈ visited, Apart W K item) (hhandled : ∀ item ∈ visited, EntryHandled W wallet out K item)
    (hopens : ∃ item ∈ visited, skipsEntry W out item = false ∧ wallet.opensOnce W out K item) :
    ∃ res wallet', wallet.isMine W out visited = some (res, wallet') ∧ res ≠ .no := by
  unfold isMine
  dsimp only
  by_cases hres : wallet.isMineBasic W out.scriptPubKey = .no
  · have hstart : Recognised W wallet K ⟨wallet.isMineBasic W out.scriptPubKey, false, wallet⟩ :=
      ⟨fun _ _ => rfl, fun hno => nomatch hno⟩
    obtain ⟨st', hst', hrec, hfound⟩ := isMineLoop_keeps hK hapart hhandled hstart
    rw [if_pos ⟨hres, hprivate⟩, hK]
    dsimp only
    rw [hst', map_some]
    refine ⟨st'.res, st'.wallet, rfl, ?_⟩
    rw [(hrec.spendable (hfound (.inr hopens))).1]
    exact fun hno => nomatch hno
  · rw [if_neg (fun hno => hres hno.1)]
    exact ⟨_, wallet, rfl, hres⟩

end

end BitCash
