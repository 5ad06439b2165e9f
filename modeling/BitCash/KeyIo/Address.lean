import BitCash.KeyIo.Destination

/-!
# The text of an address and back

`DecodeDestination` reads the text that `EncodeDestination` writes.
-/

variable {t : Bytes} {k : CKeyID}

namespace BitCash
open List CKeyID Network Option

variable {H : Type} [Inhabited H] [DecidableEq H] {A : AddressHash} {net : Network} {n : Nicknames H}
  {v r : Bytes} {d : CTxDestination}

/-- the same kind of destination with the same settings; a view key counts where there is one.  The
hash of a key destination is left out, it is that of a key. -/
def SameSettings : CTxDestination → CTxDestination → Prop
  | .keyID a, .keyID b => a.recokey = b.recokey ∧ a.nonprivate = b.nonprivate ∧
      a.hasviewkey = b.hasviewkey ∧ (a.hasviewkey = true → a.viewkey = b.viewkey) ∧
      a.currency = b.currency ∧ a.isdeposit = b.isdeposit
  | .scriptID h s, .scriptID g t | .witnessV0ScriptHash h s, .witnessV0ScriptHash g t
  | .witnessV0KeyHash h s, .witnessV0KeyHash g t => h = g ∧ s = t
  | .witnessUnknown v p s, .witnessUnknown w q t => v = w ∧ p = q ∧ s = t
  | .noDestination s, .noDestination t => s = t
  | _, _ => False

structure TextKeeps (k : CKeyID) : Prop where
  view : k.hasviewkey = true → k.viewkey.length = 33 ∧ k.nonprivate = false
  currency : k.currency = 0 ∨ k.currency = 1 ∧ k.isdeposit = false

/-! ## the currency in front of a text -/

theorem splitCurrency_of_not_mem (h : (64 : UInt8) ∉ t) : splitCurrency t = (0, false, t) := by
  have hpre : ∀ p : Bytes, (64 : UInt8) ∈ p → p.isPrefixOf t = false := by
    intro p hp
    rw [Bool.eq_false_iff]
    intro hpre
    exact h (( isPrefixOf_iff_prefix.1 hpre).subset hp)
  unfold splitCurrency
  rw [hpre _ (by decide), hpre _ (by decide), hpre _ (by decide)]
  rfl

theorem splitCurrency_dollar (t : Bytes) : splitCurrency (textBytes "dollar@" ++ t) = (1, false, t) := by
  have hpre : (textBytes "dollar@").isPrefixOf (textBytes "dollar@" ++ t) = true :=
    isPrefixOf_iff_prefix.2 (prefix_append _ _)
  unfold splitCurrency
  rw [hpre]
  rfl

theorem splitCurrency_bitcash (t : Bytes) : splitCurrency (textBytes "bitcash@" ++ t) = (0, false, t) := rfl

theorem splitCurrency_deposit (t : Bytes) : splitCurrency (textBytes "deposit@" ++ t) = (0, true, t) := rfl

theorem splitCurrency_encodecurrency (d : CTxDestination) (h : (64 : UInt8) ∉ t) :
    splitCurrency (encodecurrency d t) =
      (if d.tag.currency = 1 then 1 else 0, d.tag.currency ≠ 1 && d.tag.isdeposit, t) := by
  unfold encodecurrency localGetCurrencyForDestination localGetDepositForDestination
  by_cases hcurrency : d.tag.currency = 1
  · rw [if_pos hcurrency, splitCurrency_dollar, if_pos hcurrency, decide_eq_false (fun h => h hcurrency)]
    rfl
  · rw [if_neg hcurrency, if_neg hcurrency, decide_eq_true hcurrency, Bool.true_and]
    cases d.tag.isdeposit with
    | true => exact splitCurrency_deposit t
    | false => exact splitCurrency_of_not_mem h

theorem at_not_mem_encodeBase58Check (h : encodeBase58Check A v = some t) : (64 : UInt8) ∉ t := by
  unfold encodeBase58Check at h
  rw [encodeBase58_eq] at h
  rw [← some.inj h]
  intro hmem
  rcases mem_append.1 hmem with hmem | hmem
  · exact absurd (eq_of_mem_replicate hmem) (by decide)
  · exact (mem_numberText hmem).2.2 (by decide)

/-! ## the bytes of an address -/

theorem keyBytes_append {p : Bytes} (hr : r.length = 33) : keyBytes (p ++ r ++ v) p.length = r := by
  unfold keyBytes
  rw [append_assoc, drop_left, ← hr, take_left]

theorem decodeBase58Address_plain (A : AddressHash) (net : Network) (nonprivate : Bool) (hr : r.length = 33) :
    decodeBase58Address A net.addressParams ((if nonprivate then
        net.addressParams.pubkeyAddressNonPrivate else net.addressParams.pubkeyAddress) ++ r) =
      some (.keyID { ofHash (keyHash A r) with recokey := r, nonprivate := nonprivate }) := by
  have hbytes : ∀ p : UInt8, keyBytes (p :: r) 1 = r := by
    intro p
    have h := keyBytes_append (p := [p]) (v := []) hr
    rwa [append_nil] at h
  cases net <;> cases nonprivate <;> simp [decodeBase58Address, addressParams, hbytes, hr, isPrefixOf]

theorem decodeBase58Address_view (A : AddressHash) (net : Network) (hr : r.length = 33) :
    decodeBase58Address A net.addressParams (net.addressParams.pubkeyAddressViewKey ++ r ++ v) =
      if v.length = 33 then some (.keyID { ofHash (keyHash A r) with
        nonprivate := false, hasviewkey := true, recokey := r, viewkey := v })
      else none := by
  have hbytes : ∀ p : UInt8, keyBytes (p :: (r ++ v)) 1 = r := by
    intro p
    exact keyBytes_append (p := [p]) hr
  have hview : v.length = 33 → ∀ p : UInt8, keyBytes (p :: (r ++ v)) (1 + 33) = v := by
    intro hv p
    have h := keyBytes_append (p := p :: r) (v := []) hv
    rwa [append_nil, length_cons, hr] at h
  by_cases hv : v.length = 33
  · cases net <;> simp [decodeBase58Address, addressParams, hbytes, hview hv, hr, hv, isPrefixOf]
  · have hlen : ¬ 33 + v.length = 66 := by omega
    cases net <;> simp [decodeBase58Address, addressParams, hr, hv, hlen, isPrefixOf]

/-! ## a key destination -/

def addressData (params : AddressParams) (k : CKeyID) : Bytes :=
  if k.hasviewkey then params.pubkeyAddressViewKey ++ k.recokey ++ k.viewkey
  else (if k.nonprivate then params.pubkeyAddressNonPrivate else params.pubkeyAddress) ++ k.recokey

def CKeyID.inText (A : AddressHash) (k : CKeyID) : CKeyID :=
  { CKeyID.ofHash (keyHash A k.recokey) with
    recokey := k.recokey
    nonprivate := !k.hasviewkey && k.nonprivate
    hasviewkey := k.hasviewkey
    viewkey := if k.hasviewkey then k.viewkey else [] }

theorem destinationEncoder_key (A : AddressHash) (params : AddressParams) (k : CKeyID) :
    destinationEncoder A params (.keyID k) = encodeBase58Check A (addressData params k) := by
  unfold destinationEncoder addressData
  dsimp only
  cases k.hasviewkey <;> rfl

theorem decodeBase58Address_data (A : AddressHash) (net : Network) (hk : k.recokey.length = 33) :
    decodeBase58Address A net.addressParams (addressData net.addressParams k) =
      if k.hasviewkey ∧ k.viewkey.length ≠ 33 then none else some (.keyID (k.inText A)) := by
  unfold addressData inText
  cases hview : k.hasviewkey with
  | false =>
    rw [if_neg Bool.false_ne_true, decodeBase58Address_plain A net k.nonprivate hk,
      if_neg fun h => Bool.false_ne_true h.1]
    rfl
  | true =>
    rw [if_pos rfl, decodeBase58Address_view A net hk]
    by_cases hv : k.viewkey.length = 33
    · rw [if_pos hv, if_neg fun h => h.2 hv]
      rfl
    · rw [if_neg hv, if_pos ⟨rfl, hv⟩]

theorem addressText_decoded (A : AddressHash) (net : Network) (hk : k.recokey.length = 33) :
    ∃ t, destinationEncoder A net.addressParams (.keyID k) = some t ∧ (64 : UInt8) ∉ t ∧
      decodeDestinationNoNickname A net.addressParams t =
        some (if k.hasviewkey ∧ k.viewkey.length ≠ 33 then decodeBech32Address net.addressParams t
          else .keyID (k.inText A)) := by
  have hback := decodeBase58Check_encodeBase58Check A (addressData net.addressParams k)
  obtain ⟨t, ht, hdec⟩ := bind_eq_some_iff.1 hback
  refine ⟨t, (destinationEncoder_key ..).trans ht, at_not_mem_encodeBase58Check ht, ?_⟩
  obtain ⟨r, hr, heq⟩ := decodeDestinationNoNickname_eq A net.addressParams t
  rw [hdec] at hr
  rw [heq, ← some.inj hr]
  show some ((decodeBase58Address A net.addressParams (addressData net.addressParams k)).getD _) = _
  rw [decodeBase58Address_data A net hk]
  split <;> rfl

theorem encodeDestination_of_secondKey (A : AddressHash) (params : AddressParams)
    (h : d.tag.recokey.length = 33) (key2 : CPubKey) :
    encodeDestination A params d key2 = (destinationEncoder A params d).map (encodecurrency d) := by
  have hsecond : destinationHasSecondPubKey d := by
    unfold destinationHasSecondPubKey
    rw [h]
    rfl
  unfold encodeDestination
  rw [hsecond]
  show (destinationEncoder A params d).bind _ = _
  cases destinationEncoder A params d <;> rfl

theorem SameSettings.key {text : Bytes} {params : AddressParams} {e : CTxDestination}
    (h : SameSettings d e) (hd : d.tag.recokey.length = 33)
    (he : decodeDestination A params n text = some e) : ∃ a b, d = .keyID a ∧ e = .keyID b := by
  have hshort : ∀ t : DestTag, t.recokey.length = 33 → t.recokey ≠ [] := by
    intro t ht hnil
    rw [hnil] at ht
    cases ht
  rcases decodeDestination_cases he with ⟨b, rfl⟩ | hbare
  · cases d with
    | keyID a => exact ⟨a, b, rfl, rfl⟩
    | noDestination t => exact absurd h id
    | scriptID g t => exact absurd h id
    | witnessV0ScriptHash g t => exact absurd h id
    | witnessV0KeyHash g t => exact absurd h id
    | witnessUnknown v p t => exact absurd h id
  · exfalso
    cases d <;> cases e <;> first
      | exact h
      | exact hbare
      | exact hshort _ hd (h ▸ hbare)
      | exact hshort _ hd (h.2 ▸ hbare)
      | exact hshort _ hd (h.2.2 ▸ hbare)

/-! ## round trip -/

def CKeyID.decoded (A : AddressHash) (k : CKeyID) : CKeyID :=
  { k.inText A with
    currency := if k.currency = 1 then 1 else 0
    isdeposit := k.currency ≠ 1 && k.isdeposit }

theorem decodeDestination_text (hk : k.recokey.length = 33)
    (ht : destinationEncoder A net.addressParams (.keyID k) = some t)
    (hnick : (n.getAddressForNickname t).isValid = false) {b : CKeyID} :
    decodeDestination A net.addressParams n (encodecurrency (.keyID k) t) = some (.keyID b) ↔
      (k.hasviewkey → k.viewkey.length = 33) ∧ b = k.decoded A := by
  obtain ⟨t', ht', hat, hdec⟩ := addressText_decoded A net hk
  obtain rfl : t = t' := some.inj (ht.symm.trans ht')
  have hsplit := splitCurrency_encodecurrency (.keyID k) hat
  by_cases hview : k.hasviewkey = true ∧ k.viewkey.length ≠ 33
  · rw [if_pos hview] at hdec
    refine ⟨fun h => ?_, fun h => absurd (h.1 hview.1) hview.2⟩
    exfalso
    have hbare := decodeBech32Address_bare net.addressParams t
    by_cases hno : ∃ u, decodeBech32Address net.addressParams t = .noDestination u
    · obtain ⟨u, hu⟩ := hno
      rw [hu] at hdec
      rw [decodeDestination_nickname hsplit hdec] at h
      unfold decodeNickname at h
      rw [hnick] at h
      cases h
    · exact decodeDestination_ne_key hsplit hdec hbare (fun u hu => hno ⟨u, hu⟩) b h
  · rw [if_neg hview] at hdec
    rw [decodeDestination_key hsplit hdec, some.injEq, CTxDestination.keyID.injEq]
    constructor
    · intro hb
      exact ⟨fun h => not_not.1 fun hne => hview ⟨h, hne⟩, hb.symm⟩
    · intro hb
      exact hb.2.symm

theorem sameSettings_decoded (A : AddressHash) (k : CKeyID) (hview : k.hasviewkey → k.viewkey.length = 33) :
    SameSettings (.keyID k) (.keyID (k.decoded A)) ↔ TextKeeps k := by
  constructor
  · rintro ⟨-, hnonprivate, -, -, hcurrency, hdeposit⟩
    change k.nonprivate = (!k.hasviewkey && k.nonprivate) at hnonprivate
    change k.currency = (if k.currency = 1 then 1 else 0) at hcurrency
    change k.isdeposit = (k.currency ≠ 1 && k.isdeposit) at hdeposit
    refine ⟨fun h => ⟨hview h, ?_⟩, ?_⟩
    · rw [h, Bool.not_true, Bool.false_and] at hnonprivate
      exact hnonprivate
    · by_cases hone : k.currency = 1
      · rw [decide_eq_false (fun h => h hone), Bool.false_and] at hdeposit
        exact .inr ⟨hone, hdeposit⟩
      · rw [if_neg hone] at hcurrency
        exact .inl hcurrency
  · intro h
    refine ⟨rfl, ?_, rfl, ?_, ?_, ?_⟩
    · show k.nonprivate = (!k.hasviewkey && k.nonprivate)
      cases hv : k.hasviewkey with
      | true => exact (h.view hv).2
      | false => rfl
    · intro hv
      show k.viewkey = if k.hasviewkey then k.viewkey else []
      rw [if_pos hv]
    · show k.currency = if k.currency = 1 then 1 else 0
      rcases h.currency with h0 | ⟨h1, -⟩
      · rw [h0]
        rfl
      · rw [h1]
        rfl
    · show k.isdeposit = (k.currency ≠ 1 && k.isdeposit)
      rcases h.currency with h0 | ⟨h1, hdep⟩
      · rw [h0]
        rfl
      · rw [h1, hdep]
        rfl

/-- **The round trip.** A destination with a second key of 33 bytes comes back with its settings exactly when it is
a key destination whose text says everything; the hash comes back too exactly when it is that of the second key. -/
theorem address_round_trip_iff (A : AddressHash) (net : Network) (n : Nicknames H) (d : CTxDestination)
    (key2 : CPubKey) (hd : d.tag.recokey.length = 33)
    (hnick : ∀ t, destinationEncoder A net.addressParams d = some t → (n.getAddressForNickname t).isValid = false) :
    ((∃ text e, encodeDestination A net.addressParams d key2 = some text ∧
        decodeDestination A net.addressParams n text = some e ∧ SameSettings d e) ↔ ∃ k, d = .keyID k ∧ TextKeeps k) ∧
    ((∃ text b, encodeDestination A net.addressParams d key2 = some text ∧
        decodeDestination A net.addressParams n text = some (.keyID b) ∧ SameSettings d (.keyID b) ∧
        ∀ k, d = .keyID k → b.id = k.id) ↔ ∃ k, d = .keyID k ∧ TextKeeps k ∧ keyHash A k.recokey = k.id) := by
  have henc := encodeDestination_of_secondKey A net.addressParams hd key2
  -- what is read back for a key destination
  have hkey : ∀ a b text, d = .keyID a → encodeDestination A net.addressParams d key2 = some text →
      decodeDestination A net.addressParams n text = some (.keyID b) → SameSettings d (.keyID b) →
      TextKeeps a ∧ b = a.decoded A := by
    rintro a b text rfl htext hdec hsame
    rw [henc] at htext
    obtain ⟨t, ht, rfl⟩ := Option.map_eq_some_iff.1 htext
    obtain ⟨hview, rfl⟩ := (decodeDestination_text hd ht (hnick t ht)).1 hdec
    exact ⟨(sameSettings_decoded A a hview).1 hsame, rfl⟩
  have hback : ∀ k, d = .keyID k → TextKeeps k → ∃ text, encodeDestination A net.addressParams d key2 = some text ∧
      decodeDestination A net.addressParams n text = some (.keyID (k.decoded A)) ∧
      SameSettings d (.keyID (k.decoded A)) := by
    rintro k rfl hkeeps
    obtain ⟨t, ht, -, -⟩ := addressText_decoded A net hd
    have hview : k.hasviewkey = true → k.viewkey.length = 33 := fun h => (hkeeps.view h).1
    refine ⟨encodecurrency (.keyID k) t, ?_, (decodeDestination_text hd ht (hnick t ht)).2 ⟨hview, rfl⟩,
      (sameSettings_decoded A k hview).2 hkeeps⟩
    rw [henc, ht]
    rfl
  constructor
  · constructor
    · rintro ⟨text, e, htext, hdec, hsame⟩
      obtain ⟨a, b, hda, rfl⟩ := hsame.key hd hdec
      exact ⟨a, hda, (hkey a b text hda htext hdec hsame).1⟩
    · rintro ⟨k, hdk, hkeeps⟩
      obtain ⟨text, htext, hdec, hsame⟩ := hback k hdk hkeeps
      exact ⟨text, _, htext, hdec, hsame⟩
  · constructor
    · rintro ⟨text, b, htext, hdec, hsame, hid⟩
      obtain ⟨a, -, hda, -⟩ := hsame.key hd hdec
      obtain ⟨hkeeps, rfl⟩ := hkey a b text hda htext hdec hsame
      exact ⟨a, hda, hkeeps, hid a hda⟩
    · rintro ⟨k, hdk, hkeeps, hid⟩
      obtain ⟨text, htext, hdec, hsame⟩ := hback k hdk hkeeps
      refine ⟨text, _, htext, hdec, hsame, fun k' hk' => ?_⟩
      rw [hdk] at hk'
      cases hk'
      exact hid

def zeroHash : AddressHash :=
  ⟨fun _ => List.replicate 32 0, fun _ => rfl, fun _ => List.replicate 20 0, fun _ => rfl⟩

def viewAddress : CKeyID :=
  ⟨List.replicate 20 0, nicknameMasterPubKey.vch, dev1ScriptPubKey.vch, 1, false, false, true⟩

theorem address_round_trip_view :
    ∃ text e, encodeDestination zeroHash Network.main.addressParams (.keyID viewAddress) default = some text ∧
      decodeDestination zeroHash Network.main.addressParams (.empty : Nicknames Nat) text = some e ∧
      SameSettings (.keyID viewAddress) e :=
  ((address_round_trip_iff zeroHash .main .empty (.keyID viewAddress) default rfl fun _ _ => rfl).1).2
    ⟨viewAddress, rfl, fun _ => ⟨rfl, rfl⟩, .inr ⟨rfl, rfl⟩⟩

/-- a script destination is read as a key destination, and a witness destination without its second key -/
theorem address_text_loses :
    let reread := fun d => (encodeDestination zeroHash Network.main.addressParams d default).bind
      (decodeDestination zeroHash Network.main.addressParams (.empty : Nicknames Nat))
    let tag : DestTag := ⟨nicknameMasterPubKey.vch, 0, false⟩
    reread (.scriptID (List.replicate 20 7) tag) =
        some (.keyID { CKeyID.ofHash (List.replicate 20 0) with recokey := nicknameMasterPubKey.vch }) ∧
      reread (.witnessV0KeyHash (List.replicate 20 7) tag) =
        some (.witnessV0KeyHash (List.replicate 20 7) ⟨[], 0, false⟩) := by
  decide +kernel

end BitCash
