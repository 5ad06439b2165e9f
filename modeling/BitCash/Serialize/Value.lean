import BitCash.Serialize.RoundTrip

/-!
# The transaction an object stands for

The other modules speak of transactions without the bytes of memory that are not part of a key, and without the
marks of the outputs. `value` forgets these.
-/

namespace BitCash.Memory
open Wire Codec TwoWay Machine List BitCash.CPubKey Bool BitCash.CTxIn

theorem bytes_wellFormed (k : CPubKey) : wellFormed k.bytes := by
  cases h : k.bytes with
  | nil => rfl
  | cons c b =>
    have hlen := getLen_of_bytes h
    show (decide (0 < getLen c) && decide ((c :: b).length = getLen c)) = true
    rw [hlen]
    simp

def CPubKey.value (k : CPubKey) : BitCash.CPubKey := ⟨k.bytes, bytes_wellFormed k⟩

def CTxIn.value (i : CTxIn CPubKey) : BitCash.CTxIn Uint256 where
  prevout := i.prevout
  scriptSig := i.scriptSig
  nSequence := i.nSequence
  scriptWitness := i.scriptWitness
  isnickname := i.isnickname
  isnonprivatenickname := i.isnonprivatenickname
  nicknamehasviewkey := i.nicknamehasviewkey
  nickname := i.nickname
  address := i.address.value
  viewpubkey := i.viewpubkey.value
  nicknamesig := i.nicknamesig

def CTxOut.value (o : CTxOut CPubKey) : BitCash.CTxOut where
  nValue := o.nValue.toInt
  nValueBitCash := o.nValueBitCash.toInt
  scriptPubKey := o.scriptPubKey
  referenceline := o.referenceline
  randomPrivatKey := o.randomPrivatKey.1
  randomPubKey := o.randomPubKey.value
  currency := o.currency
  isnonprivate := o.isnonprivate
  recipientid1 := o.recipientid1
  recipientid2 := o.recipientid2

/-! ## what was read is decoded -/

variable (unset : Chars 64) (nType : BitVec 32)

theorem value_new : (CPubKey.new unset).value = default := by
  unfold CPubKey.value
  congr 1

theorem fits64_toInt (v : BitVec 64) : fits64 v.toInt := by
  have h1 := BitVec.two_mul_toInt_lt (x := v)
  have h2 := BitVec.le_two_mul_toInt (x := v)
  unfold fits64
  rw [and_eq_true, decide_eq_true_eq, decide_eq_true_eq]
  constructor
  · omega
  · omega

variable {unset nType}

section
variable (halone : outAlone nType = false)
include halone

theorem ensures_nonprivate (f : SerFlags) (b : Bool) :
    Ensures (opNonprivate (unserAction unset) nType f b) fun p => f.usenonprivacy = false → p = false := by
  unfold opNonprivate
  rw [halone, Bool.or_false]
  cases f.usenonprivacy with
  | true => exact fun s a t _ h => nomatch h
  | false => exact ensures_pure fun _ => rfl

theorem ensures_viewkey (f : SerFlags) (b : Bool) (k : CPubKey) :
    Ensures (opViewkey (unserAction unset) nType f b k)
      fun v => f.usemasterkeydummyonly = false → v.1 = false ∧ v.2.value = default := by
  unfold opViewkey
  rw [halone, Bool.or_false]
  cases f.usemasterkeydummyonly with
  | true => exact fun s a t _ h => nomatch h
  | false => exact ensures_pure fun _ => ⟨rfl, value_new unset⟩

theorem ensures_txin (v : Int) (i : CTxIn CPubKey) :
    Ensures (i.serializationOp (unserAction unset) nType (.ofVersion v)) fun a => a.value.decoded v := by
  unfold CTxIn.serializationOp
  refine (ensures_true _).bind fun n _ => ?_
  cases n with
  | true =>
    rw [if_pos rfl]
    unfold opNickname
    refine (ensures_true _).bind fun k _ => ?_
    refine (ensures_true _).bind fun x _ => ?_
    refine (ensures_true _).bind fun y _ => ?_
    refine (ensures_nonprivate halone _ _).bind fun p hp => ?_
    refine (ensures_viewkey halone _ _ _).bind fun w hw => ?_
    refine ensures_pure ?_
    have hp' : 4 ≤ v ∨ p = false := by
      by_cases h4 : 4 ≤ v
      · exact .inl h4
      · exact .inr (hp (decide_eq_false h4))
    have hw' : 6 ≤ v ∨ (w.1 = false ∧ w.2.value = default) := by
      by_cases h6 : 6 ≤ v
      · exact .inl h6
      · exact .inr (hw (decide_eq_false h6))
    simp only [CTxIn.value, decoded, if_true, decide_true, Bool.true_and,
      and_eq_true, or_eq_true, decide_eq_true_eq, not_eq_true']
    exact ⟨hp', hw'.imp_right fun h => ⟨h.1, decide_eq_true h.2⟩⟩
  | false =>
    rw [if_neg Bool.false_ne_true]
    unfold opOutPoint
    refine (ensures_true _).bind fun x _ => ?_
    refine (ensures_true _).bind fun y _ => ?_
    refine (ensures_true _).bind fun z _ => ?_
    refine ensures_pure ?_
    simp only [CTxIn.value, decoded, false_eq_true, if_false, Bool.not_false,
      Bool.true_and, decide_true, Bool.and_true]
    exact decide_eq_true (value_new unset)

theorem ensures_currency (f : SerFlags) (x w : BitVec 64) (c : UInt8) (h : Bool) :
    Ensures (opCurrency (unserAction unset) nType f x w c h)
      fun t => f.usecurrency = false → t.1 = x ∧ t.2.1 = 0 := by
  unfold opCurrency
  rw [halone, Bool.or_false]
  cases f.usecurrency with
  | true => exact fun s a t _ h => nomatch h
  | false => exact ensures_pure fun _ => ⟨rfl, rfl⟩

theorem ensures_txout (v : Int) (o : CTxOut CPubKey) :
    Ensures (o.serializationOp (unserAction unset) nType (.ofVersion v)) fun a => a.value.decoded v := by
  unfold CTxOut.serializationOp
  refine (ensures_true _).bind fun x _ => ?_
  refine (ensures_true _).bind fun s _ => ?_
  refine (ensures_true _).bind fun r _ => ?_
  refine (ensures_true _).bind fun p _ => ?_
  refine (ensures_currency halone _ _ _ _ _).bind fun c hc => ?_
  refine ensures_pure ?_
  have hc' : 5 ≤ v ∨ (c.2.1 = 0 ∧ c.1 = x) := by
    by_cases h5 : 5 ≤ v
    · exact .inl h5
    · have hcur := hc (decide_eq_false h5)
      exact .inr ⟨hcur.2, hcur.1⟩
  simp only [CTxOut.value, BitCash.CTxOut.decoded, fits64_toInt, Bool.and_true, or_eq_true,
    decide_eq_true_eq, and_eq_true, beq_iff_eq]
  rcases hc' with h5 | ⟨h0, heq⟩
  · exact .inl h5
  · exact .inr ⟨h0, decide_eq_true (by rw [heq])⟩

end

structure CMutableTransaction.IsDecoded (t : CMutableTransaction CPubKey) : Prop where
  vin : (t.vin.map CTxIn.value).all (BitCash.CTxIn.decoded t.nVersion.toInt) = true
  vout : (t.vout.map CTxOut.value).all (BitCash.CTxOut.decoded t.nVersion.toInt) = true

theorem ensures_vin (halone : outAlone nType = false) (u : Unset) (v : Int) :
    Ensures (readVin u.fresh nType (.ofVersion v)) fun l => ∀ i ∈ l, i.value.decoded v :=
  (ensures_true _).bind fun n _ => ensures_times (fun _ => ensures_txin halone v _) n 0

theorem ensures_vout (halone : outAlone nType = false) (u : Unset) (v : Int) :
    Ensures (readVout u.fresh nType (.ofVersion v)) fun l => ∀ o ∈ l, o.value.decoded v :=
  (ensures_true _).bind fun n _ => ensures_times (fun _ => ensures_txout halone v _) n 0

theorem ensures_body (halone : outAlone nType = false) (u : Unset) (v : Int) (fAllowWitness : Bool) :
    Ensures (readBody u.fresh nType fAllowWitness (.ofVersion v)) fun b =>
      (∀ i ∈ b.2.1, i.value.decoded v) ∧ ∀ o ∈ b.2.2, o.value.decoded v := by
  unfold readBody
  refine (ensures_vin halone u v).bind fun vin hvin => ?_
  split
  · refine (ensures_true _).bind fun flags _ => ?_
    split
    · refine (ensures_vin halone u v).bind fun vin hvin => ?_
      refine (ensures_vout halone u v).bind fun vout hvout => ?_
      exact ensures_pure ⟨hvin, hvout⟩
    · exact ensures_pure ⟨hvin, fun o ho => nomatch ho⟩
  · refine (ensures_vout halone u v).bind fun vout hvout => ?_
    exact ensures_pure ⟨hvin, hvout⟩

theorem ensures_witnesses {v : Int} (fAllowWitness : Bool) (flags : UInt8) {l : List (CTxIn CPubKey)}
    (hl : ∀ i ∈ l, i.value.decoded v) :
    Ensures (readWitnesses fAllowWitness flags l) fun r => ∀ i ∈ r.2, i.value.decoded v := by
  unfold readWitnesses
  split
  · have hone : ∀ i : CTxIn CPubKey, i.value.decoded v = true →
        Ensures (readWitness i) fun j => j.value.decoded v = true := by
      intro i hi
      refine (ensures_true _).bind fun s _ => ensures_pure ?_
      exact hi
    exact (ensures_each hone hl).bind fun k hk => ensures_pure hk
  · exact ensures_pure hl

/-- what is read is a decoded transaction -/
theorem ensures_decoded (halone : outAlone nType = false) (u : Unset) (fAllowWitness : Bool) :
    Ensures (unserializeTransaction u.fresh nType fAllowWitness) fun t => t.IsDecoded := by
  unfold unserializeTransaction
  refine (ensures_true _).bind fun v _ => ?_
  refine (ensures_body halone u v.toInt fAllowWitness).bind fun b hb => ?_
  refine (ensures_witnesses fAllowWitness b.1 hb.1).bind fun r hr => ?_
  split
  · exact ensures_fail _ _
  · refine (ensures_true _).bind fun n _ => ensures_pure ⟨?_, ?_⟩
    · rw [all_map, all_eq_true]
      exact hr
    · rw [all_map, all_eq_true]
      exact hb.2

def CMutableTransaction.value (t : CMutableTransaction CPubKey) (h : t.IsDecoded) :
    CTransaction Uint256 :=
  ⟨t.nVersion.toInt, t.vin.map CTxIn.value, t.vout.map CTxOut.value, t.nLockTime, h.vin, h.vout⟩

end BitCash.Memory
