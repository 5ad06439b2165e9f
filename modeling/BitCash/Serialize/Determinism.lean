import BitCash.Serialize.RoundTrip

/-!
# Decoding depends on memory

`CPubKey::Unserialize` sets as many bytes as the stream announces, but how many bytes are the key is told by the
first one.
-/

namespace BitCash.Memory
open Wire Codec TwoWay List BitCash.CPubKey

/-! ## one key -/

def KeyRecord.Complete : KeyRecord → Prop
  | .data [] => True
  | .data (c :: b) => BitCash.CPubKey.getLen c ≤ (c :: b).length
  | .skipped => True

variable {r : KeyRecord}

theorem same_of_complete (hr : r.Complete) {k k' : CPubKey}
    (hk : Filled CPubKey.IsNew k r) (hk' : Filled CPubKey.IsNew k' r) : k.Same k' := by
  obtain ⟨k₀, hnew, rfl⟩ := hk
  obtain ⟨k₁, hnew', rfl⟩ := hk'
  cases r with
  | skipped =>
    refine ⟨rfl, ?_⟩
    show (k₀.overwrite [0xff]).bytes = (k₁.overwrite [0xff]).bytes
    rw [bytes_overwrite k₀ (by decide), bytes_overwrite k₁ (by decide)]
  | data b =>
    cases b with
    | nil =>
      show (k₀.overwrite []).Same (k₁.overwrite [])
      rw [overwrite_nil, overwrite_nil]
      exact ⟨hnew.trans hnew'.symm, hnew.bytes.trans hnew'.bytes.symm⟩
    | cons c b =>
      refine ⟨rfl, ?_⟩
      show (k₀.overwrite (c :: b)).bytes = (k₁.overwrite (c :: b)).bytes
      rw [bytes_overwrite k₀ hr, bytes_overwrite k₁ hr]

def allBytes (x : UInt8) (n : Nat) : Chars n := ⟨List.replicate n x, List.length_replicate⟩

def MadeOf (x : UInt8) (k : CPubKey) : Prop := k = .new (allBytes x 64)

theorem getElem_of_incomplete (hr : ¬ r.Complete) :
    ∃ n : Nat, ∀ {x : UInt8} {k : CPubKey}, Filled (MadeOf x) k r → k.bytes[n]? = some x := by
  cases r with
  | skipped => exact absurd trivial hr
  | data b =>
    cases b with
    | nil => exact absurd trivial hr
    | cons c b =>
      have hshort : (c :: b).length < getLen c := Nat.not_le.1 hr
      have hlen := getLen_le c
      refine ⟨(c :: b).length, fun {x k} hk => ?_⟩
      obtain ⟨k₀, rfl, rfl⟩ := hk
      have htake : (c :: b).take 65 = c :: b := take_of_length_le (by omega)
      show (((c :: b).take 65 ++ (0xff :: replicate 64 x).drop (c :: b).length).take
        (getLen c))[(c :: b).length]? = some x
      rw [getElem?_take_of_lt hshort, htake, getElem?_append_right (Nat.le_refl _),
        Nat.sub_self, length_cons, drop_succ_cons, drop_replicate,
        getElem?_replicate, if_pos (by rw [length_cons] at hshort; omega)]

theorem differ_of_incomplete (hr : ¬ r.Complete) {k k' : CPubKey}
    (hk : Filled (MadeOf 0) k r) (hk' : Filled (MadeOf 1) k' r) : ¬ k.Same k' := by
  obtain ⟨n, hn⟩ := getElem_of_incomplete hr
  intro hsame
  have h0 := hn hk
  have h1 := hn hk'
  rw [hsame.2, h1] at h0
  cases h0

/-! ## transactions -/

structure CMutableTransaction.CompleteKeys (p : CMutableTransaction KeyRecord) : Prop where
  vin : ∀ i ∈ p.vin, i.address.Complete ∧ i.viewpubkey.Complete
  vout : ∀ o ∈ p.vout, o.randomPubKey.Complete

def CompleteKeys (s : Bytes) : Prop := ∀ p rest, parse s = .ok (p, rest) → p.CompleteKeys

def Agree (hash : Bytes → Uint256) (unset : Chars 64) :
    Except Stop (CMutableTransaction CPubKey × Bytes) →
    Except Stop (CMutableTransaction CPubKey × Bytes) → Prop
  | .error e, .error e' => e = e'
  | .ok (t, rest), .ok (t', rest') =>
    t.Same CPubKey.Same t' ∧ t.getHash hash unset = t'.getHash hash unset ∧ rest = rest'
  | _, _ => False

variable {R : CPubKey → CPubKey → Prop}

theorem CTxIn.Same.of_records {Q Q' : CPubKey → KeyRecord → Prop}
    {a b : CTxIn CPubKey} {r : CTxIn KeyRecord} (ha : a.Same Q r) (hb : b.Same Q' r)
    (haddr : R a.address b.address) (hview : R a.viewpubkey b.viewpubkey) : a.Same R b :=
  ⟨ha.prevout.trans hb.prevout.symm, ha.scriptSig.trans hb.scriptSig.symm,
    ha.nSequence.trans hb.nSequence.symm, ha.scriptWitness.trans hb.scriptWitness.symm,
    ha.isnickname.trans hb.isnickname.symm, ha.isnonprivatenickname.trans hb.isnonprivatenickname.symm,
    ha.nicknamehasviewkey.trans hb.nicknamehasviewkey.symm, ha.nickname.trans hb.nickname.symm,
    ha.nicknamesig.trans hb.nicknamesig.symm, haddr, hview⟩

theorem CTxOut.Same.of_records {Q Q' : CPubKey → KeyRecord → Prop}
    {line : Bool} {a b : CTxOut CPubKey} {r : CTxOut KeyRecord} (ha : a.Same Q line r)
    (hb : b.Same Q' line r) (hkey : R a.randomPubKey b.randomPubKey) : a.Same R line b :=
  ⟨⟨ha.nValue.trans hb.nValue.symm, ha.scriptPubKey.trans hb.scriptPubKey.symm,
      ha.referenceline.trans hb.referenceline.symm, hkey,
      fun hl => (ha.randomPrivatKey hl).trans (hb.randomPrivatKey hl).symm,
      ha.isnonprivate.trans hb.isnonprivate.symm, ha.recipientid1.trans hb.recipientid1.symm,
      ha.recipientid2.trans hb.recipientid2.symm, ha.nValueBitCash.trans hb.nValueBitCash.symm,
      ha.currency.trans hb.currency.symm⟩,
    ha.hasrecipientid.trans hb.hasrecipientid.symm, ha.currencyisactive.trans hb.currencyisactive.symm,
    ha.masterkeyisremoved.trans hb.masterkeyisremoved.symm⟩

theorem forall₂_of_common {α β γ : Type} {R : α → γ → Prop} {S : β → γ → Prop} {T : α → β → Prop}
    {l : List α} {k : List β} {m : List γ} (hl : List.Forall₂ R l m) (hk : List.Forall₂ S k m)
    (h : ∀ a b c, c ∈ m → R a c → S b c → T a b) : List.Forall₂ T l k := by
  induction hl generalizing k with
  | nil =>
    cases hk
    exact .nil
  | @cons a c l m hac _ ih =>
    cases hk with
    | cons hbc hrest =>
      exact .cons (h _ _ _ mem_cons_self hac hbc) (ih hrest fun a b d hd => h a b d (mem_cons_of_mem c hd))

variable {p : CMutableTransaction KeyRecord} {t' t : CMutableTransaction CPubKey}

theorem CMutableTransaction.Same.of_complete (ht : t.Same (Filled CPubKey.IsNew) p)
    (ht' : t'.Same (Filled CPubKey.IsNew) p) (hp : p.CompleteKeys) : t.Same CPubKey.Same t' := by
  have hflags : p.flags = t'.flags := by
    unfold CMutableTransaction.flags
    rw [ht'.nVersion]
  refine ⟨ht.nVersion.trans ht'.nVersion.symm, ht.nLockTime.trans ht'.nLockTime.symm, ?_, ?_⟩
  · refine forall₂_of_common ht.vin ht'.vin fun a b r hr ha hb => ?_
    obtain ⟨haddr, hview⟩ := hp.vin r hr
    exact ha.of_records hb (same_of_complete haddr ha.address hb.address)
      (same_of_complete hview ha.viewpubkey hb.viewpubkey)
  · rw [← hflags]
    refine forall₂_of_common ht.vout ht'.vout fun a b r hr ha hb => ?_
    exact ha.of_records hb (same_of_complete (hp.vout r hr) ha.randomPubKey hb.randomPubKey)

theorem CMutableTransaction.Same.serialised_of_keys (h : t.Same CPubKey.Same t') : t.Serialised SameBytes t' := by
  refine ⟨h.nVersion, h.nLockTime, h.vin.imp fun a b hab => ?_, h.vout.imp fun a b hab => ?_⟩
  · refine ⟨⟨hab.isnickname, ?_⟩, hab.scriptWitness⟩
    split
    · exact ⟨hab.address.2, hab.nickname, hab.nicknamesig, hab.isnonprivatenickname,
        hab.nicknamehasviewkey, hab.viewpubkey.2⟩
    · exact ⟨hab.prevout, hab.scriptSig, hab.nSequence⟩
  · exact { hab.toSerialised with randomPubKey := hab.randomPubKey.2 }

def Unset.all (x : UInt8) : Unset :=
  ⟨fun _ => allBytes x 64, fun _ => allBytes x 64, fun _ => allBytes x 64, fun _ => allBytes x 64,
    fun _ => allBytes x 32⟩

theorem makes_all (x : UInt8) : (Unset.all x).Makes (MadeOf x) :=
  ⟨fun _ => rfl, fun _ => rfl, fun _ => rfl, fun _ => rfl⟩

theorem exists_of_common {α β γ : Type} {R : α → γ → Prop} {S : β → γ → Prop} {T : α → β → Prop}
    {l : List α} {k : List β} {m : List γ} (hl : List.Forall₂ R l m) (hk : List.Forall₂ S k m)
    (hlk : List.Forall₂ T l k) {c : γ} (hc : c ∈ m) : ∃ a b, R a c ∧ S b c ∧ T a b := by
  induction hl generalizing k with
  | nil => cases hc
  | cons hac _ ih =>
    cases hk with
    | cons hbc hk =>
      cases hlk with
      | cons hab hlk =>
        rcases mem_cons.1 hc with rfl | hc
        · exact ⟨_, _, hac, hbc, hab⟩
        · exact ih hk hlk hc

theorem complete_of_same (ht : t.Same (Filled (MadeOf 0)) p) (ht' : t'.Same (Filled (MadeOf 1)) p)
    (h : t.Same CPubKey.Same t') : p.CompleteKeys := by
  constructor
  · intro r hr
    obtain ⟨a, b, ha, hb, hab⟩ := exists_of_common ht.vin ht'.vin h.vin hr
    constructor
    · by_contra hc
      exact differ_of_incomplete hc ha.address hb.address hab.address
    · by_contra hc
      exact differ_of_incomplete hc ha.viewpubkey hb.viewpubkey hab.viewpubkey
  · intro r hr
    obtain ⟨a, b, ha, hb, hab⟩ := exists_of_common ht.vout ht'.vout h.vout hr
    by_contra hc
    exact differ_of_incomplete hc ha.randomPubKey hb.randomPubKey hab.randomPubKey

/-- **decoding does not depend on memory exactly where the records of the keys are complete** -/
theorem decode_agrees_iff (hash : Bytes → Uint256) (unset : Chars 64) (s : Bytes) :
    (∀ u u', Agree hash unset (decode u s) (decode u' s)) ↔ CompleteKeys s := by
  have halone : outAlone SER_NETWORK = false := by decide
  constructor
  · intro h p rest hp
    rcases sim_transaction SER_NETWORK (makes_all 0) halone true s with
      ⟨e, -, he⟩ | ⟨t, p', rest₀, ht, hp', hsame⟩
    · cases hp.symm.trans he
    · cases hp.symm.trans hp'
      rcases sim_transaction SER_NETWORK (makes_all 1) halone true s with
        ⟨e, -, he⟩ | ⟨t', p'', rest₁, ht', hp'', hsame'⟩
      · cases hp.symm.trans he
      · cases hp.symm.trans hp''
        have hagree := h (Unset.all 0) (Unset.all 1)
        unfold decode at hagree
        rw [ht, ht'] at hagree
        exact complete_of_same hsame hsame' hagree.1
  · intro h u u'
    unfold decode
    rcases sim_transaction SER_NETWORK (makes_isNew u) halone true s with
      ⟨e, he, hp⟩ | ⟨t, p, rest, ht, hp, hsame⟩
    · rcases sim_transaction SER_NETWORK (makes_isNew u') halone true s with
        ⟨e', he', hp'⟩ | ⟨t', p', rest', ht', hp', hsame'⟩
      · rw [he, he']
        exact Except.error.inj (hp.symm.trans hp')
      · cases hp.symm.trans hp'
    · rcases sim_transaction SER_NETWORK (makes_isNew u') halone true s with
        ⟨e', he', hp'⟩ | ⟨t', p', rest', ht', hp', hsame'⟩
      · cases hp.symm.trans hp'
      · cases hp.symm.trans hp'
        have hkeys := hsame.of_complete hsame' (h p rest hp)
        rw [ht, ht']
        exact ⟨hkeys, (getHash_of_serialised hash unset hkeys.serialised_of_keys).1, rfl⟩

/-! ## a transaction with two ids -/

def shortKey : Bytes := [1, 0, 0, 0, 1, 1, 1, 2, 0, 0, 0, 0, 0, 0, 0]

def shortKeyHashed (x : UInt8) : Bytes :=
  [1, 0, 0, 0, 1, 1, 33, 2] ++ List.replicate 32 x ++ [0, 0, 0, 0, 0, 0, 0]

theorem hashed_shortKey (x : UInt8)
    (h : (decode (Unset.all x) shortKey).map (fun p => (p.1.bytes SER_GETHASH false, p.2)) =
      .ok (shortKeyHashed x, [])) :
    ∃ t, decode (Unset.all x) shortKey = .ok (t, []) ∧ t.bytes SER_GETHASH false = shortKeyHashed x := by
  cases hd : decode (Unset.all x) shortKey with
  | error e =>
    rw [hd] at h
    cases h
  | ok p =>
    obtain ⟨t, rest⟩ := p
    rw [hd] at h
    have hpair := Prod.mk.inj (Except.ok.inj h)
    exact ⟨t, by rw [show rest = [] from hpair.2], hpair.1⟩

/-- **two decodings of the same bytes are two transactions**, hashed as different bytes -/
theorem decode_shortKey : (decode (Unset.all 0) shortKey).map (fun p => (p.1.bytes SER_GETHASH false, p.2)) =
        .ok (shortKeyHashed 0, []) ∧
      (decode (Unset.all 1) shortKey).map (fun p => (p.1.bytes SER_GETHASH false, p.2)) = .ok (shortKeyHashed 1, []) ∧
      shortKeyHashed 0 ≠ shortKeyHashed 1 ∧
      ∀ hash unset, ¬ Agree hash unset (decode (Unset.all 0) shortKey) (decode (Unset.all 1) shortKey) := by
  have h0 : (decode (Unset.all 0) shortKey).map (fun p => (p.1.bytes SER_GETHASH false, p.2)) =
      .ok (shortKeyHashed 0, []) := by decide
  have h1 : (decode (Unset.all 1) shortKey).map (fun p => (p.1.bytes SER_GETHASH false, p.2)) =
      .ok (shortKeyHashed 1, []) := by decide
  have hne : shortKeyHashed 0 ≠ shortKeyHashed 1 := by decide
  refine ⟨h0, h1, hne, fun hash unset hagree => hne ?_⟩
  obtain ⟨t, ht, hbytes⟩ := hashed_shortKey 0 h0
  obtain ⟨t', ht', hbytes'⟩ := hashed_shortKey 1 h1
  rw [ht, ht'] at hagree
  rw [← hbytes, ← hbytes']
  exact bytes_of_serialised (by decide) hagree.1.serialised_of_keys false

end BitCash.Memory
