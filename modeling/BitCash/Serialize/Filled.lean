import BitCash.Serialize.Transaction

/-!
# Reading into memory

A decoded transaction is what the stream holds (`parse`), with every record of a key written over a key in memory.
-/

namespace BitCash.Memory
open Wire Codec TwoWay BitCash.CPubKey List

def Filled (P : CPubKey → Prop) (k : CPubKey) (r : KeyRecord) : Prop := ∃ k₀, P k₀ ∧ k = r.into k₀

theorem overwrite_nil (k : CPubKey) : k.overwrite [] = k := by
  unfold CPubKey.overwrite
  rfl

variable {k : CPubKey}

theorem filled_new {P : CPubKey → Prop} (h : P k) : Filled P k (.data []) := ⟨k, h, (overwrite_nil k).symm⟩

section Same

variable {K K' : Type} (Q : K → K' → Prop)

structure CTxIn.Same (a : CTxIn K) (b : CTxIn K') : Prop where
  prevout : a.prevout = b.prevout
  scriptSig : a.scriptSig = b.scriptSig
  nSequence : a.nSequence = b.nSequence
  scriptWitness : a.scriptWitness = b.scriptWitness
  isnickname : a.isnickname = b.isnickname
  isnonprivatenickname : a.isnonprivatenickname = b.isnonprivatenickname
  nicknamehasviewkey : a.nicknamehasviewkey = b.nicknamehasviewkey
  nickname : a.nickname = b.nickname
  nicknamesig : a.nicknamesig = b.nicknamesig
  address : Q a.address b.address
  viewpubkey : Q a.viewpubkey b.viewpubkey

structure CTxOut.Same (userefline : Bool) (a : CTxOut K) (b : CTxOut K') : Prop
    extends CTxOut.Serialised Q userefline a b where
  hasrecipientid : a.hasrecipientid = b.hasrecipientid
  currencyisactive : a.currencyisactive = b.currencyisactive
  masterkeyisremoved : a.masterkeyisremoved = b.masterkeyisremoved

structure CMutableTransaction.Same (a : CMutableTransaction K) (b : CMutableTransaction K') :
    Prop where
  nVersion : a.nVersion = b.nVersion
  nLockTime : a.nLockTime = b.nLockTime
  vin : List.Forall₂ (CTxIn.Same Q) a.vin b.vin
  vout : List.Forall₂ (CTxOut.Same Q b.flags.userefline) a.vout b.vout

end Same

variable {P : CPubKey → Prop} {unset : Chars 64} (hnew : P (.new unset)) (nType : BitVec 32)
  (f : SerFlags) {j : CTxIn KeyRecord} {i : CTxIn CPubKey}

theorem sim_object (hk : P k) (r : KeyRecord) :
    Sim (Filled P) ((unserAction unset).object k) (recordAction.object r) := by
  show Sim (Filled P) (readKeyRecord >>= fun r => pure (r.into k)) readKeyRecord
  intro s
  rw [bind_eq]
  cases h : readKeyRecord s with
  | error e => exact .inl ⟨e, rfl, rfl⟩
  | ok p => exact .inr ⟨p.1.into k, p.1, p.2, rfl, rfl, k, hk, rfl⟩

theorem sim_readWrite {α : Type} (c : Field Stop α) (a b : α) :
    Sim Eq ((unserAction unset).readWrite c a) (recordAction.readWrite c b) :=
  Sim.refl c.read

theorem sim_nonprivate (b b' : Bool) :
    Sim Eq (opNonprivate (unserAction unset) nType f b) (opNonprivate recordAction nType f b') := by
  unfold opNonprivate
  split
  · exact sim_readWrite boolField b b'
  · exact Sim.pure rfl

include hnew in
theorem sim_viewkey (hk : P k) (b b' : Bool) (r : KeyRecord) :
    Sim (fun v w => v.1 = w.1 ∧ Filled P v.2 w.2) (opViewkey (unserAction unset) nType f b k)
      (opViewkey recordAction nType f b' r) := by
  unfold opViewkey
  split
  · refine (sim_readWrite boolField b b').bind fun x y hxy => ?_
    refine (sim_object hk r).bind fun k' r' hkr => ?_
    exact Sim.pure ⟨hxy, hkr⟩
  · exact Sim.pure ⟨rfl, filled_new hnew⟩

include hnew in
theorem sim_txin (hij : i.Same (Filled P) j) (ha : P i.address) (hv : P i.viewpubkey) :
    Sim (CTxIn.Same (Filled P)) (i.serializationOp (unserAction unset) nType f)
      (j.serializationOp recordAction nType f) := by
  unfold CTxIn.serializationOp
  refine (sim_readWrite boolField _ _).bind fun n n' hn => ?_
  have hn' : n = n' := hn
  rw [hn']
  cases n' with
  | true =>
    rw [if_pos rfl, if_pos rfl]
    unfold opNickname
    refine (sim_object ha _).bind fun k r hkr => ?_
    refine (sim_readWrite vector _ _).bind fun x x' hx => ?_
    refine (sim_readWrite vector _ _).bind fun y y' hy => ?_
    refine (sim_nonprivate nType f _ _).bind fun p p' hp => ?_
    refine (sim_viewkey hnew nType f hv _ _ _).bind fun v v' hvv => ?_
    exact Sim.pure ⟨rfl, rfl, rfl, hij.scriptWitness, rfl, hp, hvv.1, hx, hy, hkr, hvv.2⟩
  | false =>
    rw [if_neg Bool.false_ne_true, if_neg Bool.false_ne_true]
    unfold opOutPoint
    refine (sim_readWrite outPoint _ _).bind fun o o' ho => ?_
    refine (sim_readWrite vector _ _).bind fun x x' hx => ?_
    refine (sim_readWrite uint32 _ _).bind fun y y' hy => ?_
    exact Sim.pure ⟨ho, hx, hy, hij.scriptWitness, rfl, rfl, hij.nicknamehasviewkey, rfl, rfl,
      filled_new hnew, hij.viewpubkey⟩

theorem sim_value {v v' : BitVec 64} (hv : v = v') :
    Sim Eq (opValue (unserAction unset) nType f v) (opValue recordAction nType f v') := by
  unfold opValue
  split
  · exact Sim.pure hv
  · exact sim_readWrite int64 v v'

theorem sim_reference (halone : outAlone nType = false) (hk : P k) {r : Bytes} (c c' : Chars 32) :
    Sim (fun v w => v.1 = w.1 ∧ Filled P v.2.1 w.2.1 ∧ (f.userefline → v.2.2 = w.2.2))
      (opReference (unserAction unset) nType f r k c) (opReference recordAction nType f r (.data []) c') := by
  unfold opReference
  rw [halone, Bool.or_false]
  cases f.userefline with
  | true =>
    refine (sim_readWrite vector _ _).bind fun x x' hx => ?_
    refine (sim_object hk _).bind fun k r hkr => ?_
    refine (sim_readWrite (chars 32) _ _).bind fun y y' hy => ?_
    exact Sim.pure ⟨hx, hkr, fun _ => hy⟩
  | false => exact Sim.pure ⟨rfl, filled_new hk, fun h => nomatch h⟩

theorem sim_recipient (p p' : Bool) (a a' b b' : UInt8) (h h' : Bool) :
    Sim Eq (opRecipient (unserAction unset) nType f p a b h) (opRecipient recordAction nType f p' a' b' h') := by
  unfold opRecipient
  split
  · refine (sim_readWrite boolField p p').bind fun x x' hx => ?_
    refine (sim_readWrite uint8 a a').bind fun y y' hy => ?_
    refine (sim_readWrite uint8 b b').bind fun z z' hz => ?_
    cases hx
    cases hy
    cases hz
    exact Sim.pure rfl
  · exact Sim.pure rfl

theorem sim_currency {v v' : BitVec 64} (hv : v = v') (w w' : BitVec 64) (c c' : UInt8) (h h' : Bool) :
    Sim Eq (opCurrency (unserAction unset) nType f v w c h) (opCurrency recordAction nType f v' w' c' h') := by
  unfold opCurrency
  split
  · refine (sim_readWrite int64 w w').bind fun x x' hx => ?_
    refine (sim_readWrite uint8 c c').bind fun y y' hy => ?_
    cases hx
    cases hy
    exact Sim.pure rfl
  · cases hv
    exact Sim.pure rfl

theorem sim_txout (halone : outAlone nType = false) (hk : P k) (c c' : Chars 32) :
    Sim (CTxOut.Same (Filled P) f.userefline) ((CTxOut.new k c).serializationOp (unserAction unset) nType f)
      ((CTxOut.new (.data []) c').serializationOp recordAction nType f) := by
  unfold CTxOut.serializationOp
  refine (sim_value nType f rfl).bind fun v v' hv => ?_
  refine (sim_readWrite vector _ _).bind fun s s' hs => ?_
  refine (sim_reference nType f halone hk c c').bind fun r r' hr => ?_
  refine (sim_recipient nType f _ _ _ _ _ _ _ _).bind fun p p' hp => ?_
  refine (sim_currency nType f hv _ _ _ _ _ _).bind fun x x' hx => ?_
  cases hp
  cases hx
  exact Sim.pure ⟨⟨hv, hs, hr.1, hr.2.1, hr.2.2, rfl, rfl, rfl, rfl, rfl⟩, rfl, rfl, rfl⟩

/-! ## transactions -/

structure Unset.Makes (u : Unset) (P : CPubKey → Prop) : Prop where
  address : ∀ i, P (.new (u.address i))
  viewpubkey : ∀ i, P (.new (u.viewpubkey i))
  temporary : ∀ i, P (.new (u.temporary i))
  randomPubKey : ∀ i, P (.new (u.randomPubKey i))

variable {u : Unset} (hu : u.Makes P)

include hu in
theorem sim_vin :
    Sim (List.Forall₂ (CTxIn.Same (Filled P))) (readVin u.fresh nType f) (readVin noMemory nType f) := by
  refine (Sim.refl (readCompactSize eof)).bind fun n n' hn => ?_
  cases hn
  refine Sim.times (fun i => ?_) n 0
  refine sim_txin (hu.temporary i) nType f ?_ (hu.address i) (hu.viewpubkey i)
  exact ⟨rfl, rfl, rfl, rfl, rfl, rfl, rfl, rfl, rfl, filled_new (hu.address i), filled_new (hu.viewpubkey i)⟩

include hu in
theorem sim_vout (halone : outAlone nType = false) :
    Sim (List.Forall₂ (CTxOut.Same (Filled P) f.userefline)) (readVout u.fresh nType f)
      (readVout noMemory nType f) := by
  refine (Sim.refl (readCompactSize eof)).bind fun n n' hn => ?_
  cases hn
  exact Sim.times (fun i => sim_txout nType f halone (hu.randomPubKey i) _ _) n 0

def SameBody (f : SerFlags) (a : UInt8 × List (CTxIn CPubKey) × List (CTxOut CPubKey))
    (b : UInt8 × List (CTxIn KeyRecord) × List (CTxOut KeyRecord)) : Prop :=
  a.1 = b.1 ∧ List.Forall₂ (CTxIn.Same (Filled P)) a.2.1 b.2.1 ∧
    List.Forall₂ (CTxOut.Same (Filled P) f.userefline) a.2.2 b.2.2

include hu in
theorem sim_body (halone : outAlone nType = false) (fAllowWitness : Bool) :
    Sim (SameBody (P := P) f) (readBody u.fresh nType fAllowWitness f) (readBody noMemory nType fAllowWitness f) := by
  unfold readBody
  refine (sim_vin nType f hu).bind fun l k hlk => ?_
  have hempty : l.isEmpty = k.isEmpty := by
    cases hlk with
    | nil => rfl
    | cons _ _ => rfl
  rw [hempty]
  split
  · refine (Sim.refl (byte eof)).bind fun c c' hc => ?_
    cases hc
    split
    · refine (sim_vin nType f hu).bind fun vin vin' hin => ?_
      refine (sim_vout nType f hu halone).bind fun vout vout' hout => ?_
      exact Sim.pure ⟨rfl, hin, hout⟩
    · exact Sim.pure ⟨rfl, hlk, .nil⟩
  · refine (sim_vout nType f hu halone).bind fun vout vout' hout => ?_
    exact Sim.pure ⟨rfl, hlk, hout⟩

theorem sim_witness (hij : i.Same (Filled P) j) : Sim (CTxIn.Same (Filled P)) (readWitness i) (readWitness j) := by
  unfold readWitness
  refine (Sim.refl stack.read).bind fun x y hxy => ?_
  exact Sim.pure { hij with scriptWitness := hxy }

theorem sim_witnesses (fAllowWitness : Bool) (flags : UInt8) {l : List (CTxIn CPubKey)}
    {k : List (CTxIn KeyRecord)} (hlk : List.Forall₂ (CTxIn.Same (Filled P)) l k) :
    Sim (fun a b => a.1 = b.1 ∧ List.Forall₂ (CTxIn.Same (Filled P)) a.2 b.2)
      (readWitnesses fAllowWitness flags l) (readWitnesses fAllowWitness flags k) := by
  unfold readWitnesses
  split
  · refine (Sim.each (fun a b hab => sim_witness hab) hlk).bind fun x y hxy => ?_
    exact Sim.pure ⟨rfl, hxy⟩
  · exact Sim.pure ⟨rfl, hlk⟩

include hu in
/-- reading into any memory gives what the stream holds, up to the bytes behind a key -/
theorem sim_transaction (halone : outAlone nType = false) (fAllowWitness : Bool) :
    Sim (CMutableTransaction.Same (Filled P)) (unserializeTransaction u.fresh nType fAllowWitness)
      (unserializeTransaction noMemory nType fAllowWitness) := by
  unfold unserializeTransaction
  refine (Sim.refl int32.read).bind fun v v' hv => ?_
  cases hv
  refine (sim_body nType _ hu halone fAllowWitness).bind fun b b' hb => ?_
  obtain ⟨hflags, hin, hout⟩ := hb
  rw [hflags]
  refine (sim_witnesses fAllowWitness b'.1 hin).bind fun r r' hr => ?_
  rw [hr.1]
  split
  · exact Sim.fail _ _
  · refine (Sim.refl uint32.read).bind fun n n' hn => ?_
    exact Sim.pure ⟨rfl, hn, hr.2, hout⟩

/-! ## keys -/

def CPubKey.IsNew (k : CPubKey) : Prop := k.header = 0xff

theorem makes_isNew (u : Unset) : u.Makes CPubKey.IsNew := ⟨fun _ => rfl, fun _ => rfl, fun _ => rfl, fun _ => rfl⟩

theorem CPubKey.IsNew.bytes (h : k.IsNew) : k.bytes = [] := by
  unfold CPubKey.bytes CPubKey.size
  rw [show k.header = 0xff from h]
  rfl

theorem bytes_overwrite {c : UInt8} {b : Bytes} (k : CPubKey) (h : getLen c ≤ (c :: b).length) :
    (k.overwrite (c :: b)).bytes = (c :: b).take (getLen c) := by
  have hlen := getLen_le c
  show ((c :: b).take 65 ++ k.vch.1.drop (c :: b).length).take (getLen c) = _
  rw [take_append_of_le_length (by rw [length_take]; omega), take_take, Nat.min_eq_left hlen]

end BitCash.Memory
