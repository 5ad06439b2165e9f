import BitCash.KeyIo.Address
import BitCash.Mempool.Names

/-!
# Resolving a nickname

`DecodeDestination` looks a text up as a nickname when it is no address.
-/

set_option linter.unusedSectionVars false

namespace BitCash
open Checks Function Option UInt8 Prod CPubKey

variable {H : Type} [Inhabited H] [DecidableEq H] {env : Env H}

inductive NamesReached (env : Env H) : Nicknames H → (Bytes → Option (CTxIn H)) → Prop
  | empty : NamesReached env .empty fun _ => none
  | register {n : Nicknames H} {latest : Bytes → Option (CTxIn H)} {i : CTxIn H}
      (h : NamesReached env n latest) (hash bh : H) (usehash : Bool)
      (hcheck : checkNicknameInput env n bh usehash i = .ok ()) :
      NamesReached env (addNickname env hash n i)
        (Function.update latest (toUpperCopy i.nickname) (some i))

structure EntryOf (d : CNicknameBookData H) (i : CTxIn H) : Prop where
  pubkey : d.pubkey = i.address
  isnonprivate : d.isnonprivate = i.isnonprivatenickname
  hasviewkey : d.hasviewkey = i.nicknamehasviewkey
  viewkey : d.viewkey = i.viewpubkey

structure NamesMatch (env : Env H) (n : Nicknames H) (latest : Bytes → Option (CTxIn H)) : Prop where
  form : ∀ u i, latest u = some i → NameForm env i ∧ toUpperCopy i.nickname = u
  entry : ∀ u i, latest u = some i → EntryOf (n.mapNicknameBook u) i
  free : ∀ u, latest u = none → n.mapNicknameBook u = default
  names : ∀ a, 0 < (n.getNicknameForAddress a).length →
    latest (toUpperCopy (n.getNicknameForAddress a)) ≠ none

variable {i : CTxIn H}

theorem checkNicknameInput_form {nicks : Nicknames H} {bh : H} {usehash : Bool}
    (h : checkNicknameInput env nicks bh usehash i = .ok ()) : NameForm env i := by
  simp only [checkNicknameInput, bind_ok, need_ok, exists_const, decide_eq_true_eq] at h
  exact ⟨h.1, h.2.1, h.2.2.1, h.2.2.2.2.1, h.2.2.2.2.2.2⟩

theorem NamesMatch.empty : NamesMatch env (.empty : Nicknames H) fun _ => none where
  form _ _ h := nomatch h
  entry _ _ h := nomatch h
  free _ _ := rfl
  names _ h := absurd h (lt_irrefl 0)

variable {latest : Bytes → Option (CTxIn H)} {n : Nicknames H}

theorem NamesMatch.register (h : NamesMatch env n latest) (hi : NameForm env i) (hash : H) :
    NamesMatch env (addNickname env hash n i) (update latest (toUpperCopy i.nickname) (some i)) := by
  constructor
  · intro u j hj
    by_cases hu : u = toUpperCopy i.nickname
    · rw [hu, update_self] at hj
      cases hj
      exact ⟨hi, hu.symm⟩
    · rw [update_of_ne hu] at hj
      exact h.form u j hj
  · intro u j hj
    by_cases hu : u = toUpperCopy i.nickname
    · rw [hu, update_self] at hj
      cases hj
      rw [hu, addNickname_entry]
      exact ⟨rfl, rfl, rfl, rfl⟩
    · rw [update_of_ne hu] at hj
      have hold := h.entry u j hj
      rw [addNickname_other i hu]
      split
      · exact ⟨hold.pubkey, hold.isnonprivate, hold.hasviewkey, hold.viewkey⟩
      · exact hold
  · intro u hnone
    by_cases hu : u = toUpperCopy i.nickname
    · rw [hu, update_self] at hnone
      cases hnone
    · rw [update_of_ne hu] at hnone
      rw [addNickname_other i hu, if_neg]
      · exact h.free u hnone
      · -- the old name of the address is a registered one
        rintro ⟨hpos, rfl⟩
        exact h.names _ hpos hnone
  · intro a hpos
    have hkeep : ∀ u, latest u ≠ none →
        update latest (toUpperCopy i.nickname) (some i) u ≠ none := by
      intro u hu
      by_cases heq : u = toUpperCopy i.nickname
      · rw [heq, update_self]
        exact some_ne_none i
      · rwa [update_of_ne heq]
    by_cases ha : a = i.address
    · have hname : (addNickname env hash n i).getNicknameForAddress a = i.nickname := by
        rw [ha]
        exact addNickname_name i
      rw [hname, update_self]
      exact some_ne_none i
    · have hsame : (addNickname env hash n i).getNicknameForAddress a = n.getNicknameForAddress a :=
        congrArg _ (addNickname_address i ha)
      rw [hsame] at hpos ⊢
      exact hkeep _ (h.names a hpos)

theorem NamesReached.matches (h : NamesReached env n latest) : NamesMatch env n latest := by
  induction h with
  | empty => exact .empty
  | register h hash bh usehash hcheck ih => exact ih.register (checkNicknameInput_form hcheck) hash

/-! ## the text of a nickname -/

inductive CurrencyMark
  | none
  | dollar
  | bitcash
  | deposit

def CurrencyMark.text : CurrencyMark → Bytes
  | .none => []
  | .dollar => textBytes "dollar@"
  | .bitcash => textBytes "bitcash@"
  | .deposit => textBytes "deposit@"

def CurrencyMark.currency : CurrencyMark → UInt8
  | .dollar => 1
  | _ => 0

def CurrencyMark.isdeposit : CurrencyMark → Bool
  | .deposit => true
  | _ => false

def atName (atSign : Bool) (x : Bytes) : Bytes := if atSign then 64 :: x else x

def nicknameText (mark : CurrencyMark) (atSign : Bool) (x : Bytes) : Bytes := mark.text ++ atName atSign x

variable {x : Bytes}

theorem at_not_mem_name (hi : NameForm env i) (hx : toUpperCopy i.nickname = toUpperCopy x) : (64 : UInt8) ∉ x := by
  intro hmem
  have hup : (64 : UInt8) ∈ toUpperCopy i.nickname := by
    rw [hx]
    exact List.mem_map.2 ⟨64, hmem, by decide⟩
  obtain ⟨c, hc, hc64⟩ := List.mem_map.1 hup
  have hall : ∀ k < 256, validCharacter (ofNat k) = true → toUpper (ofNat k) ≠ 64 := by
    decide +kernel
  have hvalid := hall c.toNat c.toNat_lt
  rw [UInt8.ofNat_toNat] at hvalid
  exact hvalid (List.all_eq_true.1 hi.chars c hc) hc64

theorem splitCurrency_nicknameText (mark : CurrencyMark) (atSign : Bool) (hx : (64 : UInt8) ∉ x) :
    splitCurrency (nicknameText mark atSign x) = (mark.currency, mark.isdeposit, atName atSign x) := by
  cases mark with
  | none =>
    cases atSign with
    | false => exact splitCurrency_of_not_mem hx
    | true => rfl
  | dollar => exact splitCurrency_dollar _
  | bitcash => exact splitCurrency_bitcash _
  | deposit => exact splitCurrency_deposit _

/-! ## a name as an address -/

def WitnessText (params : AddressParams) (x : Bytes) : Prop :=
  ∃ version values data, bech32Decode x = some (params.bech32HRP, version :: values) ∧
    convertBits 5 8 false values = some data ∧ 1 ≤ version ∧ version ≤ 16 ∧ 2 ≤ data.length

theorem decodeDestinationNoNickname_short (A : AddressHash) (net : Network) (str : Bytes) (hlen : str.length ≤ 21) :
    decodeDestinationNoNickname A net.addressParams str = some (decodeBech32Address net.addressParams str) := by
  obtain ⟨r, hr, heq⟩ := decodeDestinationNoNickname_eq A net.addressParams str
  rw [heq]
  cases r with
  | none => rfl
  | some data =>
    have hdata := length_decodeBase58Check hr
    have hshort : data.length ≤ 33 := by omega
    have hnone : decodeBase58Address A net.addressParams data = none := by
      unfold decodeBase58Address
      dsimp only
      rw [if_neg, if_neg, if_neg]
      all_goals
        rintro ⟨h, -⟩
        cases net <;> simp [Network.addressParams] at h <;> omega
    show some ((decodeBase58Address A net.addressParams data).getD _) = _
    rw [hnone]
    rfl

theorem decodeBech32Address_at (net : Network) (x : Bytes) :
    decodeBech32Address net.addressParams (64 :: x) = .noDestination default := by
  have hhrp : ∀ hrp data, bech32Decode (64 :: x) = some (hrp, data) → hrp ≠ net.addressParams.bech32HRP := by
    intro hrp data h heq
    obtain ⟨pos, hpos, -, hhrp, -⟩ := bech32Decode_some h
    obtain ⟨p, rfl⟩ : ∃ p, pos = p + 1 := ⟨pos - 1, by omega⟩
    rw [hhrp, List.take_succ_cons, List.map_cons] at heq
    have hhead : some (64 : UInt8) = net.addressParams.bech32HRP.head? := congrArg List.head? heq
    revert hhead
    cases net <;> decide
  unfold decodeBech32Address
  split
  · next hrp version values h =>
    rw [if_neg (hhrp _ _ h)]
  · rfl

theorem decodeBech32Address_name (net : Network) (hlen : x.length ≤ 20) :
    (∃ t, decodeBech32Address net.addressParams x = .noDestination t) ↔ ¬ WitnessText net.addressParams x := by
  unfold decodeBech32Address
  split
  · next hrp version values hdec =>
    by_cases hhrp : hrp = net.addressParams.bech32HRP
    · rw [if_pos hhrp]
      obtain ⟨pos, -, -, -, hvalues⟩ := bech32Decode_some hdec
      rw [List.length_cons] at hvalues
      cases hdata : convertBits 5 8 false values with
      | none =>
        refine iff_of_true ⟨_, rfl⟩ ?_
        rintro ⟨version', values', data, hdec', hdata', -⟩
        rw [hdec] at hdec'
        obtain ⟨rfl, rfl⟩ := List.cons.inj (mk.inj (some.inj hdec')).2
        rw [hdata] at hdata'
        cases hdata'
      | some data =>
        have hbytes := length_convertBits hdata
        dsimp only
        by_cases hzero : version = 0
        · rw [if_pos hzero, if_neg (by omega), if_neg (by omega)]
          refine iff_of_true ⟨_, rfl⟩ ?_
          rintro ⟨version', values', data', hdec', -, hone, -⟩
          rw [hdec] at hdec'
          obtain ⟨rfl, rfl⟩ := List.cons.inj (mk.inj (some.inj hdec')).2
          rw [hzero] at hone
          exact absurd hone (by decide)
        · rw [if_neg hzero]
          by_cases hother : 16 < version ∨ data.length < 2 ∨ 40 < data.length
          · rw [if_pos hother]
            refine iff_of_true ⟨_, rfl⟩ ?_
            rintro ⟨version', values', data', hdec', hdata', -, hsixteen, htwo⟩
            rw [hdec] at hdec'
            obtain ⟨rfl, rfl⟩ := List.cons.inj (mk.inj (some.inj hdec')).2
            rw [hdata] at hdata'
            obtain rfl := some.inj hdata'
            rcases hother with h | h | h
            · exact absurd hsixteen (UInt8.not_le.2 h)
            · omega
            · omega
          · rw [if_neg hother]
            refine iff_of_false ?_ (not_not.2 ?_)
            · rintro ⟨t, ht⟩
              cases ht
            · have hone : 1 ≤ version := by
                rw [le_iff_toNat_le]
                have hne : version.toNat ≠ 0 := fun h => hzero (UInt8.toNat_inj.1 h)
                show 1 ≤ version.toNat
                omega
              refine ⟨version, values, data, ?_, hdata, hone, ?_, by omega⟩
              · rw [hdec, hhrp]
              · exact UInt8.not_lt.1 fun h => hother (.inl h)
    · rw [if_neg hhrp]
      refine iff_of_true ⟨_, rfl⟩ ?_
      rintro ⟨version', values', data, hdec', -⟩
      rw [hdec] at hdec'
      exact hhrp (mk.inj (some.inj hdec')).1
  · next hno =>
    refine iff_of_true ⟨_, rfl⟩ ?_
    rintro ⟨version, values, data, hdec, -⟩
    exact hno _ _ _ hdec

/-! ## what a name resolves to -/

structure Carries (k : CKeyID) (i : CTxIn H) : Prop where
  recokey : CPubKey.set k.recokey = i.address
  nonprivate : k.nonprivate = i.isnonprivatenickname
  hasviewkey : k.hasviewkey = i.nicknamehasviewkey
  viewkey : CPubKey.set k.viewkey = i.viewpubkey

theorem copyKey_eq (key : CPubKey) : (key.size ≤ 33 ∧ ∃ v, copyKey [] key = some v ∧ set v = key) ∨
      (¬ key.size ≤ 33 ∧ copyKey [] key = none) := by
  unfold copyKey
  by_cases hsize : key.size ≤ 33
  · left
    rw [if_pos hsize]
    refine ⟨hsize, _, rfl, ?_⟩
    rcases key.size_cases with rfl | h | h
    · decide
    · have hdrop : (([] ++ List.replicate 33 (0 : UInt8)).take 33).drop key.size = [] := by
        rw [h]
        rfl
      rw [hdrop, List.append_nil]
      exact set_vch key
    · omega
  · right
    rw [if_neg hsize]
    exact ⟨hsize, rfl⟩

theorem decodeNickname_carries (A : AddressHash) (currency : UInt8) (isdeposit : Bool)
    {str : Bytes} (hvalid : i.address.isValid) (haddress : n.getAddressForNickname str = i.address) :
    (∃ k, decodeNickname A n currency isdeposit str = some (.keyID k) ∧ Carries k i) ↔
      i.address.size ≤ 33 ∧ n.isNonPrivateNickname str = i.isnonprivatenickname ∧
        n.hasViewKeyNickname str = i.nicknamehasviewkey ∧ n.getViewKeyNickname str = i.viewpubkey ∧
        i.viewpubkey.size ≤ 33 := by
  unfold decodeNickname
  rw [haddress, if_pos hvalid]
  rcases copyKey_eq i.address with ⟨hsize, recokey, hcopy, hreco⟩ | ⟨hsize, hcopy⟩
  · rcases copyKey_eq (n.getViewKeyNickname str) with ⟨hvsize, viewkey, hvcopy, hview⟩ | ⟨hvsize, hvcopy⟩
    · rw [hcopy, hvcopy]
      constructor
      · rintro ⟨k, hk, hcarries⟩
        cases hk
        have hsame : n.getViewKeyNickname str = i.viewpubkey := hview.symm.trans hcarries.viewkey
        rw [hsame] at hvsize
        exact ⟨hsize, hcarries.nonprivate, hcarries.hasviewkey, hsame, hvsize⟩
      · rintro ⟨-, hnonprivate, hhasview, hsame, -⟩
        exact ⟨_, rfl, hreco, hnonprivate, hhasview, hview.trans hsame⟩
    · rw [hcopy, hvcopy]
      refine iff_of_false ?_ ?_
      · rintro ⟨k, hk, -⟩
        cases hk
      · rintro ⟨-, -, -, hsame, hle⟩
        rw [hsame] at hvsize
        exact hvsize hle
  · rw [hcopy]
    refine iff_of_false ?_ fun h => hsize h.1
    rintro ⟨k, hk, -⟩
    cases hk

section
variable (h : NamesMatch env n latest)
include h

section
variable (hx : latest (toUpperCopy x) = some i)
include hx

theorem NamesMatch.length : x.length ≤ 20 := by
  obtain ⟨hform, hname⟩ := h.form _ _ hx
  have hlong := hform.long
  have hlen := congrArg List.length hname
  unfold toUpperCopy at hlen
  rw [List.length_map, List.length_map] at hlen
  omega

theorem NamesMatch.at_not_mem : (64 : UInt8) ∉ x :=
  at_not_mem_name (h.form _ _ hx).1 (h.form _ _ hx).2

theorem NamesMatch.address (hvalid : (n.mapNicknameBook (toUpperCopy x)).invalid = false) (atSign : Bool) :
    n.getAddressForNickname (atName atSign x) = i.address := by
  have hdrop : dropAt (atName atSign x) = x := by
    cases atSign with
    | true => rfl
    | false =>
      show dropAt x = x
      unfold dropAt
      split
      · exact absurd List.mem_cons_self (h.at_not_mem hx)
      · rfl
  unfold Nicknames.getAddressForNickname
  rw [hdrop]
  dsimp only
  rw [hvalid, if_neg Bool.false_ne_true]
  exact (h.entry _ _ hx).pubkey

end

theorem NamesMatch.at_default (x : Bytes) : n.mapNicknameBook (toUpperCopy (64 :: x)) = default := by
  apply h.free
  cases hlatest : latest (toUpperCopy (64 :: x)) with
  | none => rfl
  | some j => exact absurd List.mem_cons_self (h.at_not_mem hlatest)

end

/-- **What a registered name resolves to.**  The destination carries what was registered last exactly when
the address has 33 bytes and, behind an `@`, there is no private flag and no view key, or, without the
`@`, the view key is not longer and the name is no witness address. -/
theorem nickname_resolves_iff (A : AddressHash) (net : Network) {n : Nicknames H}
    {latest : Bytes → Option (CTxIn H)} (hn : NamesReached env n latest) {x : Bytes} {i : CTxIn H}
    (hx : latest (toUpperCopy x) = some i)
    (hvalid : (n.mapNicknameBook (toUpperCopy x)).invalid = false) (mark : CurrencyMark) (atSign : Bool) :
    (∃ k, decodeDestination A net.addressParams n (nicknameText mark atSign x) = some (.keyID k) ∧ Carries k i) ↔
      i.address.size = 33 ∧
        if atSign then i.isnonprivatenickname = false ∧ i.nicknamehasviewkey = false ∧ i.viewpubkey = default
        else i.viewpubkey.size ≤ 33 ∧ ¬ WitnessText net.addressParams x := by
  have hmatch := hn.matches
  have hform := (hmatch.form _ _ hx).1
  have hlen := hmatch.length hx
  have hsplit := splitCurrency_nicknameText mark atSign (hmatch.at_not_mem hx)
  have hcarries := decodeNickname_carries A mark.currency mark.isdeposit hform.address
    (hmatch.address hx hvalid atSign)
  have hsize : i.address.size ≤ 33 ↔ i.address.size = 33 := by
    have hpos : 0 < i.address.size := of_decide_eq_true hform.address
    rcases i.address.size_cases with h | h | h
    · rw [h] at hpos
      exact absurd hpos (lt_irrefl 0)
    · omega
    · omega
  rw [hsize] at hcarries
  cases atSign with
  | true =>
    have hno := decodeDestinationNoNickname_short A net (64 :: x) (by rw [List.length_cons]; omega)
    rw [decodeBech32Address_at] at hno
    rw [decodeDestination_nickname hsplit hno, hcarries, if_pos rfl]
    have hdefault := hmatch.at_default x
    have hflags : n.isNonPrivateNickname (64 :: x) = false ∧ n.hasViewKeyNickname (64 :: x) = false ∧
        n.getViewKeyNickname (64 :: x) = default := by
      unfold Nicknames.isNonPrivateNickname Nicknames.hasViewKeyNickname Nicknames.getViewKeyNickname
      rw [hdefault]
      exact ⟨rfl, rfl, rfl⟩
    show _ ∧ n.isNonPrivateNickname (64 :: x) = _ ∧ n.hasViewKeyNickname (64 :: x) = _ ∧
      n.getViewKeyNickname (64 :: x) = _ ∧ _ ↔ _
    rw [hflags.1, hflags.2.1, hflags.2.2]
    constructor
    · rintro ⟨hkey, hnonprivate, hview, hkey', -⟩
      exact ⟨hkey, hnonprivate.symm, hview.symm, hkey'.symm⟩
    · rintro ⟨hkey, hnonprivate, hview, hkey'⟩
      refine ⟨hkey, hnonprivate.symm, hview.symm, hkey'.symm, ?_⟩
      rw [hkey']
      exact Nat.zero_le _
  | false =>
    have hno := decodeDestinationNoNickname_short A net x (by omega)
    have hentry := hmatch.entry _ _ hx
    rw [if_neg Bool.false_ne_true]
    by_cases hwitness : WitnessText net.addressParams x
    · -- the name is read as an address
      refine iff_of_false ?_ fun h => h.2.2 hwitness
      rintro ⟨k, hk, -⟩
      have hnot := mt (decodeBech32Address_name net hlen).1 (not_not.2 hwitness)
      have hbare := decodeBech32Address_bare net.addressParams x
      exact decodeDestination_ne_key hsplit hno hbare (fun t ht => hnot ⟨t, ht⟩) k hk
    · obtain ⟨t, ht⟩ := (decodeBech32Address_name net hlen).2 hwitness
      rw [ht] at hno
      rw [decodeDestination_nickname hsplit hno, hcarries]
      constructor
      · rintro ⟨hkey, -, -, -, hview⟩
        exact ⟨hkey, hview, hwitness⟩
      · rintro ⟨hkey, hview, -⟩
        exact ⟨hkey, hentry.isnonprivate, hentry.hasviewkey, hentry.viewkey, hview⟩

def publicName (nickname : Bytes) : CTxIn Digest := registerInput nickname dev1ScriptPubKey true

def publicBook (nickname : Bytes) : Nicknames Digest :=
  addNickname symEnv default .empty (publicName nickname)

/-- "ann" in capital letters, as a Dollar address -/
theorem nickname_resolves_ann :
    ∃ k, decodeDestination zeroHash Network.main.addressParams (publicBook (textBytes "ann"))
        (nicknameText .dollar false (textBytes "ANN")) = some (.keyID k) ∧
      Carries k (publicName (textBytes "ann")) :=
  (nickname_resolves_iff zeroHash .main
    (.register .empty default default false (by decide) :
      NamesReached symEnv (publicBook (textBytes "ann")) _)
    (by decide) (by decide) .dollar false).2
    ⟨by decide, by decide, fun ⟨_, _, _, h, _⟩ => by
      have hnone : bech32Decode (textBytes "ANN") = none := by decide
      rw [hnone] at h
      cases h⟩

/-- two accepted names: "@ann" is read as a private address, and "bc1pw50s7p8rrj" as a witness address -/
theorem nickname_resolves_wrongly :
    checkNicknameInput symEnv .empty default false (publicName (textBytes "ann")) = .ok () ∧
      decodeDestination zeroHash Network.main.addressParams (publicBook (textBytes "ann")) (textBytes "@ann") =
        some (.keyID ⟨List.replicate 20 0, dev1ScriptPubKey.vch, List.replicate 33 0, 0, false, false, false⟩) ∧
      (publicName (textBytes "ann")).isnonprivatenickname = true ∧
      checkNicknameInput symEnv .empty default false (publicName (textBytes "bc1pw50s7p8rrj")) = .ok () ∧
      decodeDestination zeroHash Network.main.addressParams (publicBook (textBytes "bc1pw50s7p8rrj"))
          (textBytes "bc1pw50s7p8rrj") = some (.witnessUnknown 1 [117, 31] default) := by
  decide +kernel

end BitCash
