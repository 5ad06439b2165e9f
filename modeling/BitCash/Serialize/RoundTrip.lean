import BitCash.Serialize.Filled

/-!
# The round trip of a transaction

A transaction with an input is read back from its network encoding, whatever the memory of the new objects holds:
`decode_encode`.
-/

namespace BitCash.Memory
open Wire Codec TwoWay List

def SameBytes (a b : CPubKey) : Prop := a.bytes = b.bytes

/-! ## what is read back -/

theorem getLen_of_bytes {k : CPubKey} {c : UInt8} {b : Bytes} (h : k.bytes = c :: b) :
    BitCash.CPubKey.getLen c = (c :: b).length := by
  have hsize : k.size ≤ 65 := getLen_le k.header
  have hlen : (c :: b).length = k.size := by
    rw [← h]
    unfold CPubKey.bytes
    rw [length_take, k.vch.2, Nat.min_eq_left hsize]
  have hhead : k.header = c := by
    unfold CPubKey.bytes at h
    unfold CPubKey.header
    cases hv : k.vch.1 with
    | nil =>
      rw [hv, take_nil] at h
      cases h
    | cons x l =>
      rw [hv] at h
      cases hs : k.size with
      | zero =>
        rw [hs] at h
        cases h
      | succ n =>
        rw [hs, take_succ_cons] at h
        exact (cons.inj h).1
  rw [hlen, ← hhead]
  rfl

theorem bytes_of_recorded {k k' : CPubKey} {r : KeyRecord} (hk : Filled CPubKey.IsNew k r)
    (hr : Recorded r k') : SameBytes k k' := by
  obtain ⟨k₀, hnew, rfl⟩ := hk
  rw [show r = .data k'.bytes from hr]
  show (k₀.overwrite k'.bytes).bytes = k'.bytes
  cases hb : k'.bytes with
  | nil => rw [overwrite_nil, hnew.bytes]
  | cons c b =>
    have hlen := getLen_of_bytes hb
    rw [bytes_overwrite k₀ (Nat.le_of_eq hlen), hlen, take_length]

theorem CTxIn.Same.serialised {a : CTxIn CPubKey} {r : CTxIn KeyRecord} {b : CTxIn CPubKey}
    (h : a.Same (Filled CPubKey.IsNew) r) (hr : r.Serialised Recorded b) : a.Serialised SameBytes b := by
  obtain ⟨hnick, hfields⟩ := hr
  refine ⟨h.isnickname.trans hnick, ?_⟩
  cases hb : b.isnickname with
  | true =>
    rw [hb, if_pos rfl] at hfields
    obtain ⟨haddr, hname, hsig, hpriv, hview, hkey⟩ := hfields
    rw [if_pos rfl]
    exact ⟨bytes_of_recorded h.address haddr, h.nickname.trans hname, h.nicknamesig.trans hsig,
      h.isnonprivatenickname.trans hpriv, h.nicknamehasviewkey.trans hview,
      bytes_of_recorded h.viewpubkey hkey⟩
  | false =>
    rw [hb, if_neg Bool.false_ne_true] at hfields
    rw [if_neg Bool.false_ne_true]
    exact ⟨h.prevout.trans hfields.1, h.scriptSig.trans hfields.2.1, h.nSequence.trans hfields.2.2⟩

theorem CTxOut.Same.serialised {line : Bool} {a : CTxOut CPubKey} {r : CTxOut KeyRecord}
    {b : CTxOut CPubKey} (h : a.Same (Filled CPubKey.IsNew) line r)
    (hr : r.Serialised Recorded line b) : a.Serialised SameBytes line b :=
  ⟨h.nValue.trans hr.nValue, h.scriptPubKey.trans hr.scriptPubKey,
    h.referenceline.trans hr.referenceline, bytes_of_recorded h.randomPubKey hr.randomPubKey,
    fun hl => (h.randomPrivatKey hl).trans (hr.randomPrivatKey hl), h.isnonprivate.trans hr.isnonprivate,
    h.recipientid1.trans hr.recipientid1, h.recipientid2.trans hr.recipientid2,
    h.nValueBitCash.trans hr.nValueBitCash, h.currency.trans hr.currency⟩

theorem forall₂_chain {α β γ : Type} {R : α → β → Prop} {S : β → γ → Prop} {T : α → γ → Prop}
    (h : ∀ a b c, R a b → S b c → T a c) {l : List α} {k : List β} {m : List γ}
    (hlk : List.Forall₂ R l k) (hkm : List.Forall₂ S k m) : List.Forall₂ T l m := by
  induction hlk generalizing m with
  | nil =>
    cases hkm
    exact .nil
  | cons hab _ ih =>
    cases hkm with
    | cons hbc hrest => exact .cons (h _ _ _ hab hbc) (ih hrest)

variable {tx t : CMutableTransaction CPubKey}

theorem CMutableTransaction.Same.serialised {p : CMutableTransaction KeyRecord}
    (h : t.Same (Filled CPubKey.IsNew) p) (hp : p.Serialised Recorded tx) : t.Serialised SameBytes tx := by
  have hflags : p.flags = tx.flags := by
    unfold CMutableTransaction.flags
    rw [hp.nVersion]
  refine ⟨h.nVersion.trans hp.nVersion, h.nLockTime.trans hp.nLockTime, ?_, ?_⟩
  · exact forall₂_chain (fun a r b hab hb => ⟨hab.serialised hb.1, hab.scriptWitness.trans hb.2⟩) h.vin hp.vin
  · have hvout := h.vout
    rw [hflags] at hvout
    exact forall₂_chain (fun a r b hab hb => hab.serialised hb) hvout hp.vout

/-! ## the same fields, the same bytes -/

section Bytes

variable {nType : BitVec 32} {f : SerFlags} (halone : outAlone nType = false)

theorem CTxIn.bytes_of_serialised {a b : CTxIn CPubKey} (h : a.Serialised SameBytes b) :
    a.bytes nType f = b.bytes nType f := by
  obtain ⟨hnick, hfields⟩ := h
  unfold CTxIn.bytes
  rw [hnick]
  cases hb : b.isnickname with
  | true =>
    rw [hb, if_pos rfl] at hfields
    obtain ⟨haddr, hname, hsig, hpriv, hview, hkey⟩ := hfields
    have hser : ∀ {k k' : CPubKey}, SameBytes k k' → k.serialize = k'.serialize := fun h =>
      congrArg vectorBytes h
    rw [if_pos rfl, if_pos rfl]
    unfold viewkeyBytes
    rw [hser haddr, hname, hsig, hpriv, hview, hser hkey]
  | false =>
    rw [hb, if_neg Bool.false_ne_true] at hfields
    rw [if_neg Bool.false_ne_true, if_neg Bool.false_ne_true, hfields.1, hfields.2.1, hfields.2.2]

include halone in
theorem CTxOut.bytes_of_serialised {a b : CTxOut CPubKey} (h : a.Serialised SameBytes f.userefline b) :
    a.bytes nType f = b.bytes nType f := by
  have href : referenceBytes nType f a.referenceline a.randomPubKey a.randomPrivatKey =
      referenceBytes nType f b.referenceline b.randomPubKey b.randomPrivatKey := by
    unfold referenceBytes
    rw [halone, Bool.or_false]
    cases hf : f.userefline with
    | true =>
      rw [h.referenceline, h.randomPrivatKey hf,
        show a.randomPubKey.serialize = b.randomPubKey.serialize from congrArg vectorBytes h.randomPubKey]
    | false => rfl
  unfold CTxOut.bytes
  rw [h.nValue, h.scriptPubKey, href, h.isnonprivate, h.recipientid1, h.recipientid2, h.nValueBitCash, h.currency]

theorem flatMap_of_forall₂ {α β : Type} {R : α → β → Prop} {g : α → Bytes} {k : β → Bytes}
    (h : ∀ a b, R a b → g a = k b) {l : List α} {m : List β} (hlm : List.Forall₂ R l m) :
    l.flatMap g = m.flatMap k := by
  induction hlm with
  | nil => rfl
  | cons hab _ ih => rw [flatMap_cons, flatMap_cons, h _ _ hab, ih]

theorem hasWitness_of_serialised (h : t.Serialised SameBytes tx) : t.hasWitness = tx.hasWitness := by
  have hin : t.vin.map (·.scriptWitness) = tx.vin.map (·.scriptWitness) := by
    rw [← forall₂_eq_eq_eq, forall₂_map_left_iff, forall₂_map_right_iff]
    exact h.vin.imp fun a b hab => hab.2
  have hany : ∀ l : List (CTxIn CPubKey), (l.any fun i => !i.scriptWitness.isEmpty) =
      (l.map (·.scriptWitness)).any fun w => !w.isEmpty := by
    intro l
    rw [any_map]
    rfl
  unfold CMutableTransaction.hasWitness
  rw [hany, hany, hin]

include halone in
theorem bytes_of_serialised (h : t.Serialised SameBytes tx)
    (fAllowWitness : Bool) : t.bytes nType fAllowWitness = tx.bytes nType fAllowWitness := by
  have hflags : t.flags = tx.flags := by
    unfold CMutableTransaction.flags
    rw [h.nVersion]
  have hvin : t.vinBytes nType = tx.vinBytes nType := by
    unfold CMutableTransaction.vinBytes
    rw [hflags, h.vin.length_eq, flatMap_of_forall₂ (fun a b hab => CTxIn.bytes_of_serialised hab.1) h.vin]
  have hvout : t.voutBytes nType = tx.voutBytes nType := by
    unfold CMutableTransaction.voutBytes
    rw [hflags, h.vout.length_eq, flatMap_of_forall₂ (fun a b hab => CTxOut.bytes_of_serialised halone hab) h.vout]
  have hwit : t.witnessBytes = tx.witnessBytes := flatMap_of_forall₂ (fun a b hab => congrArg stack.write hab.2) h.vin
  unfold CMutableTransaction.bytes
  rw [hasWitness_of_serialised h, hvin, hvout, hwit, h.nVersion, h.nLockTime]

end Bytes

/-! ## the ids -/

section Ids

variable (hash : Bytes → Uint256) (unset : Chars 64)

def CMutableTransaction.getHash (tx : CMutableTransaction CPubKey) : Uint256 :=
  hash (serializeTransaction unset SER_GETHASH false tx).2

def CMutableTransaction.getWitnessHash (tx : CMutableTransaction CPubKey) : Uint256 :=
  if !tx.hasWitness then tx.getHash hash unset
  else hash (serializeTransaction unset SER_GETHASH true tx).2

theorem getHash_of_serialised (h : t.Serialised SameBytes tx) :
    t.getHash hash unset = tx.getHash hash unset ∧ t.getWitnessHash hash unset = tx.getWitnessHash hash unset := by
  have halone : outAlone SER_GETHASH = false := by decide
  unfold CMutableTransaction.getWitnessHash CMutableTransaction.getHash
  simp only [serializeTransaction_snd]
  rw [bytes_of_serialised halone h false, bytes_of_serialised halone h true, hasWitness_of_serialised h]
  exact ⟨rfl, rfl⟩

/-- **a transaction with an input is read back from its network encoding**, where no vector is longer
than a stream may announce -/
theorem decode_encode {tx : CMutableTransaction CPubKey} (hvin : tx.vin ≠ []) (hsize : tx.Sized)
    (hdef : tx.Defaults) (u : Unset) (rest : Bytes) :
    ∃ t, decode u ((serializeTransaction unset SER_NETWORK true tx).2 ++ rest) = .ok (t, rest) ∧
      t.Serialised SameBytes tx ∧ t.getHash hash unset = tx.getHash hash unset ∧
      t.getWitnessHash hash unset = tx.getWitnessHash hash unset := by
  have halone : outAlone SER_NETWORK = false := by decide
  have hhash : forHash SER_NETWORK = false := by decide
  obtain ⟨p, hp, hser⟩ := yields_transaction halone hhash hsize hdef hvin
  rw [serializeTransaction_snd]
  rcases sim_transaction SER_NETWORK (makes_isNew u) halone true
      (tx.bytes SER_NETWORK true ++ rest) with ⟨e, -, he⟩ | ⟨t, p', rest', ht, hp', hsame⟩
  · rw [hp] at he
    cases he
  · rw [hp] at hp'
    cases hp'
    have hfields := hsame.serialised hser
    exact ⟨t, ht, hfields, getHash_of_serialised hash unset hfields⟩

end Ids

def mixedTx : CMutableTransaction CPubKey where
  vin := [{ CTxIn.new onesKey (.new default) with isnickname := true, nickname := [98, 111, 98] },
    { CTxIn.new (.new default) (.new default) with scriptSig := [0x51], scriptWitness := [[1], []] }]
  vout := [{ plainOut with nValue := 7, nValueBitCash := 7, randomPubKey := onesKey }]
  nVersion := 6#32
  nLockTime := 0

/-- both inputs, the output and the witness come back, into memory full of zeros -/
theorem decode_encode_mixedTx : mixedTx.hasWitness = true ∧ ∃ t, decode ⟨default, default, default, default, default⟩
          ((serializeTransaction default SER_NETWORK true mixedTx).2 ++ []) = .ok (t, []) ∧
        t.Serialised SameBytes mixedTx ∧
        t.getHash (fun _ => default) default = mixedTx.getHash (fun _ => default) default ∧
        t.getWitnessHash (fun _ => default) default = mixedTx.getWitnessHash (fun _ => default) default := by
  refine ⟨by decide, decode_encode _ _ (by decide) ⟨by decide, by decide, ?_, ?_⟩ ⟨?_, ?_⟩ _ _⟩
  · intro i hi
    rcases List.mem_cons.1 hi with rfl | hi
    · exact ⟨by decide, by decide, by decide, by decide, by decide⟩
    · rcases List.mem_cons.1 hi with rfl | hi
      · exact ⟨by decide, by decide, by decide, by decide, by decide⟩
      · cases hi
  · intro o ho
    rcases List.mem_cons.1 ho with rfl | ho
    · exact ⟨by decide, by decide⟩
    · cases ho
  · intro i _
    exact ⟨fun _ h => absurd h (by decide), fun _ h => absurd h (by decide)⟩
  · intro o _
    exact ⟨fun h => absurd h (by decide), fun h => absurd h (by decide), fun h => absurd h (by decide)⟩

/-! ## a script that is too long -/

def longInput : CTxIn CPubKey :=
  { CTxIn.new (.new default) (.new default) with scriptSig := List.replicate (MAX_SIZE + 1) 0 }

def longTx : CMutableTransaction CPubKey := ⟨[longInput], [], 1#32, 0⟩

theorem vector_fails {b : Bytes} (h : MAX_SIZE < b.length) (hlt : b.length < 2 ^ 64) :
    Fails vector.read (vector.write b) (.throws "ReadCompactSize(): size too large") := by
  intro rest
  show readVector eof ((compactBytes b.length ++ b) ++ rest) = _
  unfold readVector
  rw [bind_eq, append_assoc, readCompactSize_append eof hlt, if_pos h]

/-- **a vector longer than a stream may announce is not read back** -/
theorem decode_longTx : longTx.vin ≠ [] ∧ longTx.Defaults ∧ ∀ unset u rest,
      decode u ((serializeTransaction unset SER_NETWORK true longTx).2 ++ rest) =
        .error (.throws "ReadCompactSize(): size too large") := by
  refine ⟨fun h => (nomatch h), ⟨fun i hi => ?_, fun o ho => (nomatch ho)⟩, fun unset u rest => ?_⟩
  · rcases List.mem_cons.1 hi with rfl | hi
    · exact ⟨fun h => (nomatch h), fun h => (nomatch h)⟩
    · cases hi
  · rw [serializeTransaction_snd]
    have hlen : longInput.scriptSig.length = MAX_SIZE + 1 := length_replicate
    have hscript := vector_fails (b := longInput.scriptSig) (by omega) (by rw [hlen]; decide)
    have hinput : Fails ((u.fresh.txin 0).serializationOp (u.fresh.action 0) SER_NETWORK longTx.flags)
        (longInput.bytes SER_NETWORK longTx.flags)
        (.throws "ReadCompactSize(): size too large") := by
      unfold CTxIn.serializationOp CTxIn.bytes
      refine (reads_bool false).fails ?_
      exact (reads_outPoint longInput.prevout).fails (hscript.left _)
    have hvin : Fails (readVin u.fresh SER_NETWORK longTx.flags) (longTx.vinBytes SER_NETWORK)
        (.throws "ReadCompactSize(): size too large") := by
      refine (reads_compactSize eof (n := 1) (by decide)).fails ?_
      exact hinput.left []
    have hbytes : longTx.bytes SER_NETWORK true = int32.write longTx.nVersion ++
        (longTx.vinBytes SER_NETWORK ++ (longTx.voutBytes SER_NETWORK ++ uint32.write longTx.nLockTime)) :=
      rfl
    have hbody : Fails (readBody u.fresh SER_NETWORK true longTx.flags) (longTx.vinBytes SER_NETWORK ++ [])
        (.throws "ReadCompactSize(): size too large") := hvin.left []
    rw [append_nil] at hbody
    rw [hbytes]
    generalize longTx.vinBytes SER_NETWORK = b at hbody
    unfold decode unserializeTransaction
    exact (reads_int32 longTx.nVersion).fails (hbody.left _) rest

end BitCash.Memory
