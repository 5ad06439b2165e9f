import BitCash.Serialize.Writing

/-!
# The wire format of inputs and outputs
-/

namespace BitCash.Memory
open Wire Codec TwoWay List BitVec

/-! ## fields are read back -/

theorem reads_bool (b : Bool) : Reads boolField.read (boolField.write b) b := by
  have h := (reads_byte eof (if b then 1 else 0)).map fun c => c != 0
  cases b with
  | true => exact h
  | false => exact h

theorem reads_uint8 (x : UInt8) : Reads uint8.read (uint8.write x) x := reads_byte eof x

theorem reads_uint32 (x : UInt32) : Reads uint32.read (uint32.write x) x := by
  have h := (reads_le eof 4 x.toNat x.toNat_lt).map UInt32.ofNat
  rwa [UInt32.ofNat_toNat] at h

theorem reads_int32 (x : BitVec 32) : Reads int32.read (int32.write x) x := by
  have h := (reads_le eof 4 x.toNat x.isLt).map (BitVec.ofNat 32)
  rwa [ofNat_toNat, setWidth_eq] at h

theorem reads_int64 (x : BitVec 64) : Reads int64.read (int64.write x) x := by
  have h := (reads_le eof 8 x.toNat x.isLt).map (BitVec.ofNat 64)
  rwa [ofNat_toNat, setWidth_eq] at h

theorem reads_chars {n : Nat} (c : Chars n) : Reads (chars n).read ((chars n).write c) c := by
  intro rest
  show readChars n (c.1 ++ rest) = .ok (c, rest)
  have hlen : ¬ (c.1 ++ rest).length < n := by
    rw [length_append, c.2]
    omega
  unfold readChars
  rw [dif_neg hlen]
  congr 2
  · exact Subtype.ext (take_left' c.2)
  · exact drop_left' c.2

theorem reads_outPoint (o : COutPoint Uint256) : Reads outPoint.read (outPoint.write o) o :=
  (reads_chars o.hash).bind ((reads_uint32 o.n).map (COutPoint.mk o.hash))

theorem reads_bytes {b : Bytes} (h : b.length ≤ MAX_SIZE) : Reads vector.read (vector.write b) b := reads_vector eof h

theorem reads_stack {l : List Bytes} (hlen : l.length ≤ MAX_SIZE)
    (hl : ∀ b ∈ l, b.length ≤ MAX_SIZE) : Reads stack.read (stack.write l) l := by
  have hitems : Yields (times (fun _ => readVector eof) l.length 0) (l.flatMap vectorBytes) (List.Forall₂ Eq · l) :=
    yields_times (fun _ b hb => (reads_vector eof (hl b hb)).yields) 0
  obtain ⟨k, hk, hkl⟩ := hitems
  rw [forall₂_eq_eq_eq] at hkl
  cases hkl
  exact (reads_compactSize eof hlen).bind hk

theorem reads_key (k : CPubKey) : Reads readKeyRecord k.serialize (.data k.bytes) := by
  have hlen : k.bytes.length ≤ 65 := by
    unfold CPubKey.bytes
    rw [length_take, k.vch.2]
    omega
  have hsize : k.bytes.length ≤ MAX_SIZE := le_trans hlen (by decide)
  have hdata := (reads_take eof k.bytes).map fun b =>
    if k.bytes.length ≤ 65 then KeyRecord.data b else .skipped
  rw [if_pos hlen] at hdata
  unfold readKeyRecord
  exact (reads_compactSize eof hsize).bind hdata

/-! ## the bytes of inputs and outputs -/

section Bytes

variable (nType : BitVec 32) (f : SerFlags)

def nonprivateBytes (isnonprivatenickname : Bool) : Bytes :=
  if f.usenonprivacy || outAlone nType then boolField.write isnonprivatenickname else []

def viewkeyBytes (nicknamehasviewkey : Bool) (viewpubkey : CPubKey) : Bytes :=
  if f.usemasterkeydummyonly || outAlone nType then
    boolField.write nicknamehasviewkey ++ viewpubkey.serialize
  else []

def CTxIn.bytes (i : CTxIn CPubKey) : Bytes :=
  boolField.write i.isnickname ++
    if i.isnickname then
      i.address.serialize ++ (vectorBytes i.nickname ++ (vectorBytes i.nicknamesig ++
        (nonprivateBytes nType f i.isnonprivatenickname ++
          viewkeyBytes nType f i.nicknamehasviewkey i.viewpubkey)))
    else outPoint.write i.prevout ++ (vectorBytes i.scriptSig ++ uint32.write i.nSequence)

def valueBytes (nValue : BitVec 64) : Bytes :=
  if f.usecurrency && forHash nType then [] else int64.write nValue

def referenceBytes (referenceline : Bytes) (randomPubKey : CPubKey) (randomPrivatKey : Chars 32) :
    Bytes :=
  if f.userefline || outAlone nType then
    vectorBytes referenceline ++ (randomPubKey.serialize ++ randomPrivatKey.1)
  else []

def recipientBytes (isnonprivate : Bool) (recipientid1 recipientid2 : UInt8) : Bytes :=
  if f.usenonprivacy || outAlone nType then
    boolField.write isnonprivate ++ ([recipientid1] ++ [recipientid2])
  else []

def currencyBytes (nValueBitCash : BitVec 64) (currency : UInt8) : Bytes :=
  if f.usecurrency || outAlone nType then int64.write nValueBitCash ++ [currency] else []

def CTxOut.bytes (o : CTxOut CPubKey) : Bytes :=
  valueBytes nType f o.nValue ++ (vectorBytes o.scriptPubKey ++
    (referenceBytes nType f o.referenceline o.randomPubKey o.randomPrivatKey ++
      (recipientBytes nType f o.isnonprivate o.recipientid1 o.recipientid2 ++
        currencyBytes nType f o.nValueBitCash o.currency)))

variable (unset : Chars 64)

theorem opNonprivate_snd (b : Bool) : (opNonprivate (serAction unset) nType f b).2 = nonprivateBytes nType f b := by
  unfold opNonprivate nonprivateBytes
  split
  · rfl
  · rfl

theorem opViewkey_snd (b : Bool) (k : CPubKey) :
    (opViewkey (serAction unset) nType f b k).2 = viewkeyBytes nType f b k := by
  unfold opViewkey viewkeyBytes
  split
  · show boolField.write b ++ (k.serialize ++ []) = _
    rw [append_nil]
  · rfl

theorem CTxIn.write_snd (i : CTxIn CPubKey) : (i.serializationOp (serAction unset) nType f).2 = i.bytes nType f := by
  unfold CTxIn.serializationOp CTxIn.bytes
  rw [bind_snd, readWrite_fst]
  cases i.isnickname with
  | true =>
    show _ ++ (opNickname (serAction unset) nType f { i with isnickname := true }).2 = _
    unfold opNickname
    simp only [bind_snd, pure_snd, readWrite_fst, object_fst, opNonprivate_fst, opNonprivate_snd,
      opViewkey_snd, if_true, append_nil]
    rfl
  | false =>
    show _ ++ (opOutPoint (serAction unset) { i with isnickname := false }).2 = _
    unfold opOutPoint
    simp only [bind_snd, pure_snd, readWrite_fst, append_nil]
    rfl

theorem opValue_snd (v : BitVec 64) : (opValue (serAction unset) nType f v).2 = valueBytes nType f v := by
  unfold opValue valueBytes
  split
  · rfl
  · rfl

theorem opReference_snd (r : Bytes) (k : CPubKey) (c : Chars 32) :
    (opReference (serAction unset) nType f r k c).2 = referenceBytes nType f r k c := by
  unfold opReference referenceBytes
  split
  · show vectorBytes r ++ (k.serialize ++ (c.1 ++ [])) = _
    rw [append_nil]
  · rfl

theorem opRecipient_snd (p : Bool) (a b : UInt8) (h : Bool) :
    (opRecipient (serAction unset) nType f p a b h).2 = recipientBytes nType f p a b := by
  unfold opRecipient recipientBytes
  split
  · rfl
  · rfl

theorem opCurrency_snd (v w : BitVec 64) (c : UInt8) (h : Bool) :
    (opCurrency (serAction unset) nType f v w c h).2 = currencyBytes nType f w c := by
  unfold opCurrency currencyBytes
  split
  · rfl
  · rfl

theorem CTxOut.write_snd (o : CTxOut CPubKey) :
    (o.serializationOp (serAction unset) nType f).2 = o.bytes nType f := by
  unfold CTxOut.serializationOp CTxOut.bytes
  simp only [bind_snd, pure_snd, readWrite_fst, opValue_snd, opReference_snd, opRecipient_snd,
    opCurrency_snd, append_nil]
  rfl

end Bytes

/-! ## inputs and outputs are read back -/

section Fields

variable {K K' : Type} (Q : K → K' → Prop)

def CTxIn.Serialised (a : CTxIn K) (b : CTxIn K') : Prop :=
  a.isnickname = b.isnickname ∧
    if b.isnickname then
      Q a.address b.address ∧ a.nickname = b.nickname ∧ a.nicknamesig = b.nicknamesig ∧
        a.isnonprivatenickname = b.isnonprivatenickname ∧
        a.nicknamehasviewkey = b.nicknamehasviewkey ∧ Q a.viewpubkey b.viewpubkey
    else a.prevout = b.prevout ∧ a.scriptSig = b.scriptSig ∧ a.nSequence = b.nSequence

structure CTxOut.Serialised (userefline : Bool) (a : CTxOut K) (b : CTxOut K') : Prop where
  nValue : a.nValue = b.nValue
  scriptPubKey : a.scriptPubKey = b.scriptPubKey
  referenceline : a.referenceline = b.referenceline
  randomPubKey : Q a.randomPubKey b.randomPubKey
  randomPrivatKey : userefline = true → a.randomPrivatKey = b.randomPrivatKey
  isnonprivate : a.isnonprivate = b.isnonprivate
  recipientid1 : a.recipientid1 = b.recipientid1
  recipientid2 : a.recipientid2 = b.recipientid2
  nValueBitCash : a.nValueBitCash = b.nValueBitCash
  currency : a.currency = b.currency

end Fields

def Recorded (r : KeyRecord) (k : CPubKey) : Prop := r = .data k.bytes

variable {nType : BitVec 32} {f : SerFlags} {k : CPubKey} {b : Bool}

structure CTxIn.Sized (i : CTxIn CPubKey) : Prop where
  scriptSig : i.scriptSig.length ≤ MAX_SIZE
  nickname : i.nickname.length ≤ MAX_SIZE
  nicknamesig : i.nicknamesig.length ≤ MAX_SIZE
  scriptWitness : i.scriptWitness.length ≤ MAX_SIZE
  items : ∀ b ∈ i.scriptWitness, b.length ≤ MAX_SIZE

structure CTxOut.Sized (o : CTxOut CPubKey) : Prop where
  scriptPubKey : o.scriptPubKey.length ≤ MAX_SIZE
  referenceline : o.referenceline.length ≤ MAX_SIZE

structure CTxIn.Defaults (f : SerFlags) (i : CTxIn CPubKey) : Prop where
  nonprivate : i.isnickname = true → f.usenonprivacy = false → i.isnonprivatenickname = false
  viewkey : i.isnickname = true → f.usemasterkeydummyonly = false →
    i.nicknamehasviewkey = false ∧ i.viewpubkey.bytes = []

structure CTxOut.Defaults (f : SerFlags) (o : CTxOut CPubKey) : Prop where
  reference : f.userefline = false → o.referenceline = [] ∧ o.randomPubKey.bytes = []
  recipient : f.usenonprivacy = false →
    o.isnonprivate = false ∧ o.recipientid1 = 0 ∧ o.recipientid2 = 0
  currency : f.usecurrency = false → o.nValueBitCash = o.nValue ∧ o.currency = 0

theorem yields_nonprivate (halone : outAlone nType = false) (b₀ : Bool) (hb : f.usenonprivacy = false → b = false) :
    Yields (opNonprivate recordAction nType f b₀) (nonprivateBytes nType f b) (· = b) := by
  unfold opNonprivate nonprivateBytes
  rw [halone, Bool.or_false]
  cases hf : f.usenonprivacy with
  | true => exact (reads_bool b).yields
  | false => exact yields_pure (hb hf).symm

theorem yields_viewkey (halone : outAlone nType = false) (b₀ : Bool) (r₀ : KeyRecord)
    (hk : f.usemasterkeydummyonly = false → b = false ∧ k.bytes = []) :
    Yields (opViewkey recordAction nType f b₀ r₀) (viewkeyBytes nType f b k) (fun v => v.1 = b ∧ Recorded v.2 k) := by
  unfold opViewkey viewkeyBytes
  rw [halone, Bool.or_false]
  cases hf : f.usemasterkeydummyonly with
  | true =>
    refine (reads_bool b).yields.bind fun c hc => ?_
    exact (reads_key k).yields.map fun r hr => ⟨hc, hr⟩
  | false =>
    obtain ⟨hb, hbytes⟩ := hk hf
    refine yields_pure ⟨hb.symm, ?_⟩
    show KeyRecord.data [] = .data k.bytes
    rw [hbytes]

/-- an input is read back from its bytes -/
theorem CTxIn.yields (halone : outAlone nType = false) (i₀ : CTxIn KeyRecord) {i : CTxIn CPubKey}
    (hsize : i.Sized) (hdef : i.Defaults f) : Yields (i₀.serializationOp recordAction nType f) (i.bytes nType f)
      (fun a => a.Serialised Recorded i ∧ a.scriptWitness = i₀.scriptWitness) := by
  unfold CTxIn.serializationOp CTxIn.bytes CTxIn.Serialised
  refine (reads_bool i.isnickname).yields.bind fun n hn => ?_
  have hn' : n = i.isnickname := hn
  rw [hn']
  cases hi : i.isnickname with
  | true =>
    rw [if_pos rfl, if_pos rfl]
    unfold opNickname
    refine (reads_key i.address).yields.bind fun r hr => ?_
    refine (reads_bytes hsize.nickname).yields.bind fun nick hnick => ?_
    refine (reads_bytes hsize.nicknamesig).yields.bind fun sig hsig => ?_
    refine (yields_nonprivate halone _ (hdef.nonprivate hi)).bind fun p hp => ?_
    refine (yields_viewkey halone _ _ (hdef.viewkey hi)).map fun v hv => ?_
    refine ⟨⟨rfl, ?_⟩, rfl⟩
    rw [if_pos rfl]
    exact ⟨hr, hnick, hsig, hp, hv.1, hv.2⟩
  | false =>
    rw [if_neg Bool.false_ne_true, if_neg Bool.false_ne_true]
    unfold opOutPoint
    refine (reads_outPoint i.prevout).yields.bind fun o ho => ?_
    refine (reads_bytes hsize.scriptSig).yields.bind fun b hb => ?_
    refine (reads_uint32 i.nSequence).yields.map fun n hn => ?_
    refine ⟨⟨rfl, ?_⟩, rfl⟩
    rw [if_neg Bool.false_ne_true]
    exact ⟨ho, hb, hn⟩

theorem yields_value (hhash : forHash nType = false) (v₀ v : BitVec 64) :
    Yields (opValue recordAction nType f v₀) (valueBytes nType f v) (· = v) := by
  unfold opValue valueBytes
  rw [hhash, Bool.and_false]
  exact (reads_int64 v).yields

section
variable (halone : outAlone nType = false)
include halone

theorem yields_reference (c₀ : Chars 32) {r : Bytes}
    (c : Chars 32) (hsize : r.length ≤ MAX_SIZE) (hdef : f.userefline = false → r = [] ∧ k.bytes = []) :
    Yields (opReference recordAction nType f [] (.data []) c₀) (referenceBytes nType f r k c)
      (fun t => t.1 = r ∧ Recorded t.2.1 k ∧ (f.userefline → t.2.2 = c)) := by
  unfold opReference referenceBytes
  rw [halone, Bool.or_false]
  cases hf : f.userefline with
  | true =>
    refine (reads_bytes hsize).yields.bind fun line hline => ?_
    refine (reads_key k).yields.bind fun key hkey => ?_
    exact (reads_chars c).yields.map fun priv hpriv => ⟨hline, hkey, fun _ => hpriv⟩
  | false =>
    obtain ⟨hr, hbytes⟩ := hdef hf
    refine yields_pure ⟨hr.symm, ?_, fun h => nomatch h⟩
    show KeyRecord.data [] = .data k.bytes
    rw [hbytes]

theorem yields_recipient (p₀ : Bool) (a₀ b₀ : UInt8) (h₀ : Bool)
    {p : Bool} {a b : UInt8} (hdef : f.usenonprivacy = false → p = false ∧ a = 0 ∧ b = 0) :
    Yields (opRecipient recordAction nType f p₀ a₀ b₀ h₀) (recipientBytes nType f p a b)
      (fun t => t.1 = p ∧ t.2.1 = a ∧ t.2.2.1 = b) := by
  unfold opRecipient recipientBytes
  rw [halone, Bool.or_false]
  cases hf : f.usenonprivacy with
  | true =>
    refine (reads_bool p).yields.bind fun x hx => ?_
    refine (reads_uint8 a).yields.bind fun y hy => ?_
    exact (reads_uint8 b).yields.map fun z hz => ⟨hx, hy, hz⟩
  | false =>
    obtain ⟨hp, ha, hb⟩ := hdef hf
    exact yields_pure ⟨hp.symm, ha.symm, hb.symm⟩

theorem yields_currency (w₀ : BitVec 64) (c₀ : UInt8) (h₀ : Bool)
    {v w : BitVec 64} {c : UInt8} (hdef : f.usecurrency = false → w = v ∧ c = 0) :
    Yields (opCurrency recordAction nType f v w₀ c₀ h₀) (currencyBytes nType f w c)
      (fun t => t.1 = w ∧ t.2.1 = c) := by
  unfold opCurrency currencyBytes
  rw [halone, Bool.or_false]
  cases hf : f.usecurrency with
  | true =>
    refine (reads_int64 w).yields.bind fun x hx => ?_
    exact (reads_uint8 c).yields.map fun y hy => ⟨hx, hy⟩
  | false =>
    obtain ⟨hw, hc⟩ := hdef hf
    exact yields_pure ⟨hw.symm, hc.symm⟩

/-- an output is read back from its bytes -/
theorem CTxOut.yields (hhash : forHash nType = false) (c₀ : Chars 32)
    {o : CTxOut CPubKey} (hsize : o.Sized) (hdef : o.Defaults f) :
    Yields ((CTxOut.new (.data []) c₀).serializationOp recordAction nType f) (o.bytes nType f)
      (fun a => a.Serialised Recorded f.userefline o) := by
  unfold CTxOut.serializationOp CTxOut.bytes
  refine (yields_value hhash _ o.nValue).bind fun v hv => ?_
  have hv' : v = o.nValue := hv
  rw [hv']
  refine (reads_bytes hsize.scriptPubKey).yields.bind fun s hs => ?_
  refine (yields_reference halone c₀ o.randomPrivatKey hsize.referenceline hdef.reference).bind fun r hr => ?_
  refine (yields_recipient halone _ _ _ _ hdef.recipient).bind fun p hp => ?_
  refine (yields_currency halone _ _ _ hdef.currency).map fun c hc => ?_
  exact ⟨rfl, hs, hr.1, hr.2.1, hr.2.2, hp.1, hp.2.1, hp.2.2, hc.1, hc.2⟩

end

end BitCash.Memory
