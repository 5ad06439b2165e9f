import BitCash.Serialize.Format

/-!
# The wire format of a transaction

`SerializeTransaction` and `UnserializeTransaction` of `primitives/transaction.h`, over the objects in memory.
-/

namespace BitCash.Memory
open Wire Codec TwoWay List Bool

structure CMutableTransaction (K : Type) where
  vin : List (CTxIn K)
  vout : List (CTxOut K)
  nVersion : BitVec 32
  nLockTime : UInt32
  deriving DecidableEq

/-! ## writing -/

namespace CMutableTransaction

def flags {K : Type} (tx : CMutableTransaction K) : SerFlags := .ofVersion tx.nVersion.toInt

def hasWitness {K : Type} (tx : CMutableTransaction K) : Bool :=
  tx.vin.any fun i => !i.scriptWitness.isEmpty

end CMutableTransaction

def serializeTransaction (unset : Chars 64) (nType : BitVec 32) (fAllowWitness : Bool)
    (tx : CMutableTransaction CPubKey) : Writer (CMutableTransaction CPubKey) := do
  tell (int32.write tx.nVersion)
  -- the extended format: an empty vector of inputs, and the flags
  let flags := fAllowWitness && tx.hasWitness
  tell (if flags then compactBytes 0 ++ [1] else [])
  tell (compactBytes tx.vin.length)
  let vin ← each (CTxIn.serializationOp (serAction unset) nType tx.flags) tx.vin
  tell (compactBytes tx.vout.length)
  let vout ← each (CTxOut.serializationOp (serAction unset) nType tx.flags) tx.vout
  tell (if flags then vin.flatMap fun i => stack.write i.scriptWitness else [])
  tell (uint32.write tx.nLockTime)
  pure { tx with vin := vin, vout := vout }

namespace CMutableTransaction

def vinBytes (nType : BitVec 32) (tx : CMutableTransaction CPubKey) : Bytes :=
  compactBytes tx.vin.length ++ tx.vin.flatMap (CTxIn.bytes nType tx.flags)

def voutBytes (nType : BitVec 32) (tx : CMutableTransaction CPubKey) : Bytes :=
  compactBytes tx.vout.length ++ tx.vout.flatMap (CTxOut.bytes nType tx.flags)

def witnessBytes (tx : CMutableTransaction CPubKey) : Bytes :=
  tx.vin.flatMap fun i => stack.write i.scriptWitness

def bytes (nType : BitVec 32) (fAllowWitness : Bool) (tx : CMutableTransaction CPubKey) : Bytes :=
  int32.write tx.nVersion ++
    if fAllowWitness && tx.hasWitness then
      compactBytes 0 ++ ([1] ++ (tx.vinBytes nType ++ (tx.voutBytes nType ++
        (tx.witnessBytes ++ uint32.write tx.nLockTime))))
    else tx.vinBytes nType ++ (tx.voutBytes nType ++ uint32.write tx.nLockTime)

end CMutableTransaction

theorem scriptWitness_write (unset : Chars 64) (nType : BitVec 32) (f : SerFlags) (i : CTxIn CPubKey) :
    (i.serializationOp (serAction unset) nType f).1.scriptWitness = i.scriptWitness := by
  rw [CTxIn.write_fst]
  split
  · rfl
  · rfl

theorem serializeTransaction_snd (unset : Chars 64) (nType : BitVec 32) (fAllowWitness : Bool)
    (tx : CMutableTransaction CPubKey) :
    (serializeTransaction unset nType fAllowWitness tx).2 = tx.bytes nType fAllowWitness := by
  have hvin : (each (CTxIn.serializationOp (serAction unset) nType tx.flags) tx.vin).2 =
      tx.vin.flatMap (CTxIn.bytes nType tx.flags) := by
    rw [each_snd]
    simp only [CTxIn.write_snd]
  have hvout : (each (CTxOut.serializationOp (serAction unset) nType tx.flags) tx.vout).2 =
      tx.vout.flatMap (CTxOut.bytes nType tx.flags) := by
    rw [each_snd]
    simp only [CTxOut.write_snd]
  have hwit : (each (CTxIn.serializationOp (serAction unset) nType tx.flags) tx.vin).1.flatMap
      (fun i => stack.write i.scriptWitness) = tx.witnessBytes := by
    rw [each_fst, flatMap_map]
    simp only [scriptWitness_write]
    rfl
  unfold serializeTransaction CMutableTransaction.bytes CMutableTransaction.vinBytes CMutableTransaction.voutBytes
  simp only [bind_snd, pure_snd, tell_snd, hvin, hvout, hwit, append_nil]
  cases fAllowWitness && tx.hasWitness with
  | true => simp only [if_true, append_assoc]
  | false => simp only [false_eq_true, if_false, append_assoc, nil_append]

/-! ## reading -/

structure Fresh (K : Type) where
  action : Nat → Operation Stop (Reader Stop) K
  txin : Nat → CTxIn K
  txout : Nat → CTxOut K

section Reading

variable {K : Type} (w : Fresh K) (nType : BitVec 32) (fAllowWitness : Bool) (f : SerFlags)

def readVin : Reader Stop (List (CTxIn K)) := do
  let n ← readCompactSize eof
  times (fun i => (w.txin i).serializationOp (w.action i) nType f) n 0

def readVout : Reader Stop (List (CTxOut K)) := do
  let n ← readCompactSize eof
  times (fun i => (w.txout i).serializationOp (w.action i) nType f) n 0

def readBody : Reader Stop (UInt8 × List (CTxIn K) × List (CTxOut K)) := do
  let vin ← readVin w nType f
  if vin.isEmpty && fAllowWitness then do
    let flags ← byte eof
    if flags != 0 then do
      let vin ← readVin w nType f
      let vout ← readVout w nType f
      pure (flags, vin, vout)
    else pure (flags, vin, [])
  else do
    let vout ← readVout w nType f
    pure (0, vin, vout)

def readWitness (i : CTxIn K) : Reader Stop (CTxIn K) := do
  let s ← stack.read
  pure { i with scriptWitness := s }

def readWitnesses (flags : UInt8) (vin : List (CTxIn K)) : Reader Stop (UInt8 × List (CTxIn K)) :=
  if flags &&& 1 != 0 && fAllowWitness then do
    let vin ← each readWitness vin
    pure (flags ^^^ 1, vin)
  else pure (flags, vin)

def unserializeTransaction : Reader Stop (CMutableTransaction K) := do
  let nVersion ← int32.read
  let body ← readBody w nType fAllowWitness (.ofVersion nVersion.toInt)
  let rest ← readWitnesses fAllowWitness body.1 body.2.1
  if rest.1 != 0 then fail (.throws "Unknown transaction optional data")
  else do
    let nLockTime ← uint32.read
    pure ⟨rest.2, body.2.2, nVersion, nLockTime⟩

end Reading

structure Unset where
  address : Nat → Chars 64
  viewpubkey : Nat → Chars 64
  temporary : Nat → Chars 64
  randomPubKey : Nat → Chars 64
  randomPrivatKey : Nat → Chars 32

def Unset.fresh (u : Unset) : Fresh CPubKey where
  action i := unserAction (u.temporary i)
  txin i := .new (.new (u.address i)) (.new (u.viewpubkey i))
  txout i := .new (.new (u.randomPubKey i)) (u.randomPrivatKey i)

def noMemory : Fresh KeyRecord where
  action _ := recordAction
  txin _ := .new (.data []) (.data [])
  txout _ := .new (.data []) default

def decode (u : Unset) : Reader Stop (CMutableTransaction CPubKey) :=
  unserializeTransaction u.fresh SER_NETWORK true

def parse : Reader Stop (CMutableTransaction KeyRecord) := unserializeTransaction noMemory SER_NETWORK true

/-! ## the round trip without memory -/

structure CMutableTransaction.Serialised {K K' : Type} (Q : K → K' → Prop)
    (t : CMutableTransaction K) (tx : CMutableTransaction K') : Prop where
  nVersion : t.nVersion = tx.nVersion
  nLockTime : t.nLockTime = tx.nLockTime
  vin : List.Forall₂ (fun a b => a.Serialised Q b ∧ a.scriptWitness = b.scriptWitness) t.vin tx.vin
  vout : List.Forall₂ (CTxOut.Serialised Q tx.flags.userefline) t.vout tx.vout

structure CMutableTransaction.Sized (tx : CMutableTransaction CPubKey) : Prop where
  vin : tx.vin.length ≤ MAX_SIZE
  vout : tx.vout.length ≤ MAX_SIZE
  inputs : ∀ i ∈ tx.vin, i.Sized
  outputs : ∀ o ∈ tx.vout, o.Sized

structure CMutableTransaction.Defaults (tx : CMutableTransaction CPubKey) : Prop where
  inputs : ∀ i ∈ tx.vin, i.Defaults tx.flags
  outputs : ∀ o ∈ tx.vout, o.Defaults tx.flags

variable {l : List (CTxIn KeyRecord)} {k : List (CTxIn CPubKey)}

section RoundTrip

variable {tx : CMutableTransaction CPubKey} {nType : BitVec 32} (halone : outAlone nType = false)
  (hhash : forHash nType = false) (hsize : tx.Sized) (hdef : tx.Defaults)

include halone hsize hdef in
theorem yields_vin : Yields (readVin noMemory nType tx.flags) (tx.vinBytes nType)
      (List.Forall₂ (fun a b => a.Serialised Recorded b ∧ a.scriptWitness = []) · tx.vin) := by
  refine (reads_compactSize eof hsize.vin).yields.bind fun n hn => ?_
  have hn' : n = tx.vin.length := hn
  rw [hn']
  exact yields_times (fun _ i hi => CTxIn.yields halone _ (hsize.inputs i hi) (hdef.inputs i hi)) 0

include halone hhash hsize hdef in
theorem yields_vout : Yields (readVout noMemory nType tx.flags) (tx.voutBytes nType)
      (List.Forall₂ (CTxOut.Serialised Recorded tx.flags.userefline) · tx.vout) := by
  refine (reads_compactSize eof hsize.vout).yields.bind fun n hn => ?_
  have hn' : n = tx.vout.length := hn
  rw [hn']
  exact yields_times (fun _ o ho => CTxOut.yields halone hhash _ (hsize.outputs o ho) (hdef.outputs o ho)) 0

variable (hlk : List.Forall₂ (fun a b => a.Serialised Recorded b ∧ a.scriptWitness = []) l k)

include hlk in
theorem yields_witnesses (hk : ∀ i ∈ k, i.Sized) :
    Yields (each readWitness l) (k.flatMap fun i => stack.write i.scriptWitness)
      (List.Forall₂ (fun a b => a.Serialised Recorded b ∧ a.scriptWitness = b.scriptWitness) · k) := by
  induction hlk with
  | nil => exact yields_pure .nil
  | @cons a b l k hab _ ih =>
    have hb := hk b mem_cons_self
    have hone : Yields (readWitness a) (stack.write b.scriptWitness)
        fun c => c.Serialised Recorded b ∧ c.scriptWitness = b.scriptWitness :=
      (reads_stack hb.scriptWitness hb.items).yields.map fun s hs => ⟨hab.1, hs⟩
    have hrest := ih fun i hi => hk i (mem_cons_of_mem b hi)
    exact hone.bind fun c hc => hrest.map fun m hm => .cons hc hm

include hlk in
theorem forall₂_noWitness (hk : ∀ i ∈ k, i.scriptWitness = []) :
    List.Forall₂ (fun a b => a.Serialised Recorded b ∧ a.scriptWitness = b.scriptWitness) l k := by
  induction hlk with
  | nil => exact .nil
  | @cons a b l k hab _ ih =>
    exact .cons ⟨hab.1, hab.2.trans (hk b mem_cons_self).symm⟩ (ih fun i hi => hk i (mem_cons_of_mem b hi))

theorem scriptWitness_of_noWitness (hw : tx.hasWitness = false) : ∀ i ∈ tx.vin, i.scriptWitness = [] := by
  intro i hi
  have hi' := any_eq_false.1 hw i hi
  rwa [not_eq_true, not_eq_false', List.isEmpty_iff] at hi'

include halone hhash hsize hdef in
theorem yields_extended : Yields (readBody noMemory nType true tx.flags)
      (compactBytes 0 ++ ([1] ++ (tx.vinBytes nType ++ tx.voutBytes nType))) (fun b => b.1 = 1 ∧
        List.Forall₂ (fun a b => a.Serialised Recorded b ∧ a.scriptWitness = []) b.2.1 tx.vin ∧
        List.Forall₂ (CTxOut.Serialised Recorded tx.flags.userefline) b.2.2 tx.vout) := by
  have hdummy : Reads (readVin noMemory nType tx.flags) (compactBytes 0) [] := by
    have h := (reads_compactSize eof (Nat.zero_le MAX_SIZE)).bind (f := fun n =>
      times (fun i => (noMemory.txin i).serializationOp (noMemory.action i) nType tx.flags) n 0)
      (reads_pure [])
    rwa [append_nil] at h
  unfold readBody
  refine hdummy.yields.bind fun l hl => ?_
  have hl' : l = [] := hl
  rw [hl']
  refine (reads_byte eof 1).yields.bind fun flags hflags => ?_
  have hflags' : flags = 1 := hflags
  rw [hflags', if_pos (by decide)]
  refine (yields_vin halone hsize hdef).bind fun vin hvin => ?_
  exact (yields_vout halone hhash hsize hdef).map fun vout hvout => ⟨rfl, hvin, hvout⟩

include halone hhash hsize hdef in
theorem yields_basic (hvin : tx.vin ≠ []) :
    Yields (readBody noMemory nType true tx.flags) (tx.vinBytes nType ++ tx.voutBytes nType) (fun b => b.1 = 0 ∧
        List.Forall₂ (fun a b => a.Serialised Recorded b ∧ a.scriptWitness = []) b.2.1 tx.vin ∧
        List.Forall₂ (CTxOut.Serialised Recorded tx.flags.userefline) b.2.2 tx.vout) := by
  unfold readBody
  refine (yields_vin halone hsize hdef).bind fun vin hread => ?_
  have hne : vin.isEmpty = false := by
    cases vin with
    | nil => exact absurd (forall₂_nil_left_iff.1 hread) hvin
    | cons a l => rfl
  rw [hne]
  exact (yields_vout halone hhash hsize hdef).map fun vout hvout => ⟨rfl, hread, hvout⟩

include halone hhash hsize hdef in
/-- a transaction with inputs is read back from its bytes -/
theorem yields_transaction (hvin : tx.vin ≠ []) :
    Yields (unserializeTransaction noMemory nType true) (tx.bytes nType true)
      (fun t => t.Serialised Recorded tx) := by
  unfold unserializeTransaction CMutableTransaction.bytes
  refine (reads_int32 tx.nVersion).yields.bind fun v hv => ?_
  have hv' : v = tx.nVersion := hv
  rw [hv', Bool.true_and]
  cases hw : tx.hasWitness with
  | true =>
    have hbody := yields_extended halone hhash hsize hdef
    rw [if_pos rfl]
    rw [show compactBytes 0 ++ ([1] ++ (tx.vinBytes nType ++ (tx.voutBytes nType ++
        (tx.witnessBytes ++ uint32.write tx.nLockTime)))) =
      (compactBytes 0 ++ ([1] ++ (tx.vinBytes nType ++ tx.voutBytes nType))) ++
        (tx.witnessBytes ++ uint32.write tx.nLockTime) by simp only [append_assoc]]
    refine hbody.bind fun b hb => ?_
    obtain ⟨hflag, hin, hout⟩ := hb
    rw [hflag]
    have hwit : Yields (readWitnesses true 1 b.2.1) tx.witnessBytes (fun r => r.1 = 0 ∧
        List.Forall₂ (fun a b => a.Serialised Recorded b ∧ a.scriptWitness = b.scriptWitness) r.2 tx.vin) :=
      (yields_witnesses hin hsize.inputs).map fun l hl =>
        ⟨show (1 ^^^ 1 : UInt8) = 0 by decide, hl⟩
    refine hwit.bind fun r hr => ?_
    rw [hr.1]
    exact (reads_uint32 tx.nLockTime).yields.map fun n hn => ⟨rfl, hn, hr.2, hout⟩
  | false =>
    rw [if_neg Bool.false_ne_true, ← append_assoc]
    refine (yields_basic halone hhash hsize hdef hvin).bind fun b hb => ?_
    obtain ⟨hflag, hin, hout⟩ := hb
    rw [hflag]
    have hwit : Yields (readWitnesses true 0 b.2.1) [] (fun r => r = (0, b.2.1)) := yields_pure rfl
    refine hwit.bind (c := uint32.write tx.nLockTime) fun r hr => ?_
    rw [hr]
    exact (reads_uint32 tx.nLockTime).yields.map fun n hn =>
      ⟨rfl, hn, forall₂_noWitness hin (scriptWitness_of_noWitness hw), hout⟩

end RoundTrip

end BitCash.Memory
