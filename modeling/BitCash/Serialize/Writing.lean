import BitCash.Serialize.Objects

/-!
# What writing does to an object

`Serialize` is a `const` method, but it casts the `const` away and runs the routine that also reads.
-/

namespace BitCash.Memory
open Wire Codec TwoWay

variable (unset : Chars 64) (nType : BitVec 32) (f : SerFlags)

@[simp] theorem readWrite_fst {α : Type} (c : Field Stop α) (a : α) : ((serAction unset).readWrite c a).1 = a := rfl

@[simp] theorem object_fst (k : CPubKey) : ((serAction unset).object k).1 = k := rfl

/-! ## inputs -/

theorem opNonprivate_fst (b : Bool) : (opNonprivate (serAction unset) nType f b).1 = b := by
  unfold opNonprivate
  split
  · rfl
  · rfl

theorem opViewkey_fst (b : Bool) (k : CPubKey) : (opViewkey (serAction unset) nType f b k).1 = (b, k) := by
  unfold opViewkey
  split
  · rfl
  · rfl

theorem CTxIn.write_fst (i : CTxIn CPubKey) : (i.serializationOp (serAction unset) nType f).1 =
      if i.isnickname then { i with prevout := .null, scriptSig := [], nSequence := SEQUENCE_FINAL }
      else { i with
        isnonprivatenickname := false, address := .new unset, nickname := [], nicknamesig := [] } := by
  unfold CTxIn.serializationOp
  rw [bind_fst, readWrite_fst]
  cases hi : i.isnickname with
  | true =>
    show (opNickname (serAction unset) nType f { i with isnickname := true }).1 = _
    unfold opNickname
    simp only [bind_fst, pure_fst, readWrite_fst, object_fst, opNonprivate_fst, opViewkey_fst, if_true]
  | false => rfl

/-- the same input; of a key that is not set only the first byte counts -/
def CTxIn.Unchanged (i j : CTxIn CPubKey) : Prop :=
  i.address.Same j.address ∧ j = { i with address := j.address }

def CTxIn.Reset (i : CTxIn CPubKey) : Prop :=
  if i.isnickname then i.prevout = .null ∧ i.scriptSig = [] ∧ i.nSequence = SEQUENCE_FINAL
  else i.isnonprivatenickname = false ∧ i.address.header = 0xff ∧ i.nickname = [] ∧ i.nicknamesig = []

theorem CPubKey.same_new {k : CPubKey} : k.Same (.new unset) ↔ k.header = 0xff := by
  have hbytes : ∀ k : CPubKey, k.header = 0xff → k.bytes = [] := by
    intro k hk
    unfold bytes size
    rw [hk]
    rfl
  constructor
  · exact fun h => h.1
  · exact fun h => ⟨h, (hbytes k h).trans (hbytes _ rfl).symm⟩

theorem CTxIn.write_unchanged_iff (i : CTxIn CPubKey) :
    i.Unchanged (i.serializationOp (serAction unset) nType f).1 ↔ i.Reset := by
  rw [CTxIn.write_fst]
  unfold Unchanged Reset
  cases hi : i.isnickname with
  | true =>
    rw [if_pos rfl, if_pos rfl]
    constructor
    · intro h
      have hfields := CTxIn.mk.inj h.2
      exact ⟨hfields.1.symm, hfields.2.1.symm, hfields.2.2.1.symm⟩
    · rintro ⟨hp, hs, hn⟩
      refine ⟨⟨rfl, rfl⟩, ?_⟩
      rw [← hp, ← hs, ← hn]
  | false =>
    rw [if_neg Bool.false_ne_true, if_neg Bool.false_ne_true]
    constructor
    · intro h
      have hfields := CTxIn.mk.inj h.2
      exact ⟨hfields.2.2.2.2.2.1.symm, (CPubKey.same_new unset).1 h.1, hfields.2.2.2.2.2.2.2.1.symm,
        hfields.2.2.2.2.2.2.2.2.2.2.symm⟩
    · rintro ⟨hp, ha, hn, hs⟩
      refine ⟨(CPubKey.same_new unset).2 ha, ?_⟩
      rw [hp, hn, hs]

/-! ## outputs -/

theorem opValue_fst (v : BitVec 64) : (opValue (serAction unset) nType f v).1 = v := by
  unfold opValue
  split
  · rfl
  · rfl

theorem opReference_fst (r : Bytes) (k : CPubKey) (c : Chars 32) :
    (opReference (serAction unset) nType f r k c).1 = (r, k, c) := by
  unfold opReference
  split
  · rfl
  · rfl

theorem opRecipient_fst (p : Bool) (a b : UInt8) (h : Bool) : (opRecipient (serAction unset) nType f p a b h).1 =
      (p, a, b, f.usenonprivacy || outAlone nType || h) := by
  unfold opRecipient
  cases f.usenonprivacy || outAlone nType with
  | true => rfl
  | false => rfl

theorem opCurrency_fst (v w : BitVec 64) (c : UInt8) (h : Bool) :
    (opCurrency (serAction unset) nType f v w c h).1 = (w, c, f.usecurrency || outAlone nType || h) := by
  unfold opCurrency
  cases f.usecurrency || outAlone nType with
  | true => rfl
  | false => rfl

theorem CTxOut.write_fst (o : CTxOut CPubKey) : (o.serializationOp (serAction unset) nType f).1 = { o with
        hasrecipientid := f.usenonprivacy || outAlone nType || o.hasrecipientid
        masterkeyisremoved := f.usemasterkeydummyonly
        currencyisactive := f.usecurrency || outAlone nType || o.currencyisactive } := by
  unfold CTxOut.serializationOp
  simp only [bind_fst, pure_fst, readWrite_fst, opValue_fst, opReference_fst, opRecipient_fst, opCurrency_fst]

def CTxOut.Marked (nType : BitVec 32) (f : SerFlags) (o : CTxOut CPubKey) : Prop :=
  ((f.usenonprivacy || outAlone nType) = true → o.hasrecipientid = true) ∧
    o.masterkeyisremoved = f.usemasterkeydummyonly ∧
    ((f.usecurrency || outAlone nType) = true → o.currencyisactive = true)

theorem or_eq_right_iff {a b : Bool} : (a || b) = b ↔ (a → b) := by
  cases a <;> cases b <;> decide

theorem CTxOut.write_eq_iff (o : CTxOut CPubKey) :
    (o.serializationOp (serAction unset) nType f).1 = o ↔ o.Marked nType f := by
  rw [CTxOut.write_fst]
  unfold Marked
  constructor
  · intro h
    exact ⟨or_eq_right_iff.1 (congrArg CTxOut.hasrecipientid h), (congrArg CTxOut.masterkeyisremoved h).symm,
      or_eq_right_iff.1 (congrArg CTxOut.currencyisactive h)⟩
  · rintro ⟨hr, hm, hc⟩
    rw [or_eq_right_iff.2 hr, or_eq_right_iff.2 hc, ← hm]

/-- **when writing leaves an object as it was** -/
theorem write_keeps_iff (unset : Chars 64) (nType : BitVec 32) (f : SerFlags) :
    (∀ o : CTxOut CPubKey, (o.serializationOp (serAction unset) nType f).1 = o ↔ o.Marked nType f) ∧
    ∀ i : CTxIn CPubKey, i.Unchanged (i.serializationOp (serAction unset) nType f).1 ↔ i.Reset :=
  ⟨CTxOut.write_eq_iff unset nType f, CTxIn.write_unchanged_iff unset nType f⟩

/-! ## an output that is not recognised any more -/

def skipsAddress (txout : CTxOut CPubKey) (pubkey : CPubKey) : Bool :=
  txout.hasrecipientid && ((txout.recipientid1 != 0 || txout.recipientid2 != 0 || txout.currencyisactive) &&
    (txout.recipientid1 != pubkey.vch.1.getD 10 0 || txout.recipientid2 != pubkey.vch.1.getD 20 0))

def plainOut : CTxOut CPubKey :=
  ⟨0, 0, [], [], default, .new default, 0, false, false, false, false, 0, 0⟩

def onesKey : CPubKey := ⟨⟨2 :: List.replicate 64 1, rfl⟩⟩

/-- the size of an output is computed, under the flags of version 6: all three marks change, and with
them what `IsMine` says of an address -/
theorem write_marks_plainOut : (plainOut.serializationOp (serAction default) SER_NETWORK (.ofVersion 6)).1 =
        { plainOut with hasrecipientid := true, masterkeyisremoved := true, currencyisactive := true } ∧
      skipsAddress plainOut onesKey = false ∧
      skipsAddress (plainOut.serializationOp (serAction default) SER_NETWORK (.ofVersion 6)).1 onesKey =
        true := by
  decide

end BitCash.Memory
