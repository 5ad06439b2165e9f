import BitCash.Chain.Node
import BitCash.Script.SigHash

/-!
# Output values are under no hash

From version 5 on no hash covers the `nValue` of an output: it is left out under `SER_GETHASH`.
-/

variable {f : SerFlags}

namespace BitCash
open Checks List CTxOut Slot

variable {H : Type} [Inhabited H] [DecidableEq H]

/-! ## signature hashes -/

theorem hashBytes_revalues (hf : f.usecurrency) {o p : CTxOut}
    (h : o.Revalues p) : p.hashBytes f = o.hashBytes f := by
  rw [← show { o with nValue := p.nValue } = p from h]
  unfold hashBytes
  rw [hf]
  rfl

namespace CTransaction.Revalues

variable {a b : CTransaction H} (h : a.Revalues b)
include h

theorem getElem? (n : Nat) : (a.vout[n]? = none ∧ b.vout[n]? = none) ∨
      ∃ o p, a.vout[n]? = some o ∧ b.vout[n]? = some p ∧ o.Revalues p := by
  have hlen := h.vout.length_eq
  by_cases hn : n < a.vout.length
  · refine .inr ⟨a.vout[n], b.vout[n], getElem?_eq_getElem hn, getElem?_eq_getElem (by omega), ?_⟩
    exact h.vout.get hn (by omega)
  · exact .inl ⟨getElem?_eq_none (by omega), getElem?_eq_none (by omega)⟩

theorem slotBytes_out (hf : f.usecurrency) (u : Uninit) (n : Nat) :
    slotBytes f u (b.vout[n]?.map out).toList = slotBytes f u (a.vout[n]?.map out).toList := by
  rcases h.getElem? n with ⟨ha, hb⟩ | ⟨o, p, ha, hb, hop⟩
  · rw [ha, hb]
  · rw [ha, hb]
    show p.hashBytes f ++ [] = o.hashBytes f ++ []
    rw [hashBytes_revalues hf hop]

theorem length_out (n : Nat) : (b.vout[n]?.map out).toList.length = (a.vout[n]?.map out).toList.length := by
  rcases h.getElem? n with ⟨ha, hb⟩ | ⟨o, p, ha, hb, -⟩
  · rw [ha, hb]
  · rw [ha, hb]
    rfl

theorem slotBytes_serializeOutput (hf : f.usecurrency) (u : Uninit)
    (nIn : Nat) (nHashType : BitVec 32) (n : Nat) : slotBytes f u (serializeOutput b nIn nHashType n) =
      slotBytes f u (serializeOutput a nIn nHashType n) := by
  unfold serializeOutput
  split
  · rfl
  · exact h.slotBytes_out hf u n

theorem length_serializeOutput (nIn : Nat) (nHashType : BitVec 32) (n : Nat) :
    (serializeOutput b nIn nHashType n).length = (serializeOutput a nIn nHashType n).length := by
  unfold serializeOutput
  split
  · rfl
  · exact h.length_out n

theorem baseOutputs (hf : f.usecurrency) (u : Uninit) (nIn : Nat) (nHashType : BitVec 32) :
    slotBytes f u (baseOutputs b nIn nHashType) = slotBytes f u (baseOutputs a nIn nHashType) ∧
      (BitCash.baseOutputs b nIn nHashType).length = (BitCash.baseOutputs a nIn nHashType).length := by
  have hbytes : ∀ (tx : CTransaction H) (l : List Nat), slotBytes f u (l.flatMap (serializeOutput tx nIn nHashType)) =
        l.flatMap fun n => slotBytes f u (serializeOutput tx nIn nHashType n) := by
    intro tx l
    unfold slotBytes
    rw [flatMap_assoc]
  unfold BitCash.baseOutputs
  rw [h.vout.length_eq.symm]
  constructor
  · rw [hbytes, hbytes]
    simp only [h.slotBytes_serializeOutput hf]
  · rw [length_flatMap, length_flatMap]
    simp only [h.length_serializeOutput]

theorem getOutputsHash (hf : f.usecurrency) (senv : SigHashEnv H) :
    getOutputsHash b senv f = BitCash.getOutputsHash a senv f := by
  have hbytes : b.vout.map (hashBytes f) = a.vout.map (hashBytes f) :=
    forall₂_map_eq h.vout fun _ _ hop => hashBytes_revalues hf hop
  unfold BitCash.getOutputsHash
  rw [flatMap_def, hbytes, flatMap_def]

theorem precomputedTransactionData (hf : f.usecurrency) (senv : SigHashEnv H) :
    precomputedTransactionData b senv f = BitCash.precomputedTransactionData a senv f := by
  unfold BitCash.precomputedTransactionData getPrevoutHash getSequenceHash CTransaction.hasWitness
  rw [h.getOutputsHash hf, h.vin]

variable (nIn : Nat) (nHashType : BitVec 32) (senv : SigHashEnv H) (u : Uninit)
  (scriptCode : CScript) (amount : Int) (cache : Option (PrecomputedTransactionData H))

theorem baseSigPreimage (hf : f.usecurrency) : baseSigPreimage b nIn nHashType senv f u scriptCode =
      BitCash.baseSigPreimage a nIn nHashType senv f u scriptCode := by
  obtain ⟨hbytes, hlen⟩ := h.baseOutputs hf u nIn nHashType
  unfold BitCash.baseSigPreimage
  rw [h.nVersion, h.vin, hlen, hbytes, h.nLockTime]

theorem witnessSigPreimage (hf : f.usecurrency) (txin : CTxIn H) :
    witnessSigPreimage b nIn nHashType senv f u scriptCode txin amount cache =
      BitCash.witnessSigPreimage a nIn nHashType senv f u scriptCode txin amount cache := by
  have hout : witnessHashOutputs b nIn nHashType senv f u cache =
      witnessHashOutputs a nIn nHashType senv f u cache := by
    unfold witnessHashOutputs singleOutput
    rw [h.getOutputsHash hf, h.slotBytes_out hf u nIn, ← h.vout.length_eq]
  unfold BitCash.witnessSigPreimage getPrevoutHash getSequenceHash
  rw [hout, h.nVersion, h.vin, h.nLockTime]

theorem signatureHash (sigversion : SigVersion) :
    signatureHash b nIn nHashType senv (.ofVersion a.nVersion) u scriptCode amount sigversion cache =
      BitCash.signatureHash a nIn nHashType senv (.ofVersion a.nVersion) u scriptCode amount sigversion cache := by
  by_cases hv : 5 ≤ a.nVersion
  · have hf : (SerFlags.ofVersion a.nVersion).usecurrency := decide_eq_true hv
    unfold BitCash.signatureHash
    rw [h.vin]
    cases a.vin[nIn]? with
    | none => rfl
    | some txin =>
      cases sigversion with
      | witnessV0 =>
        show Except.ok _ = Except.ok _
        rw [h.witnessSigPreimage nIn nHashType senv u scriptCode amount cache hf]
      | base =>
        show ite _ _ _ = ite _ _ _
        rw [h.baseSigPreimage nIn nHashType senv u scriptCode hf, ← h.vout.length_eq]
  · rw [h.version (by omega)]

theorem precomputed_ofVersion : BitCash.precomputedTransactionData b senv (.ofVersion a.nVersion) =
      BitCash.precomputedTransactionData a senv (.ofVersion a.nVersion) := by
  by_cases hv : 5 ≤ a.nVersion
  · exact h.precomputedTransactionData (decide_eq_true hv) senv
  · rw [h.version (by omega)]

theorem getWitnessHash (env : Env H) : b.getWitnessHash env = a.getWitnessHash env := by
  unfold CTransaction.getWitnessHash CTransaction.hasWitness CTransaction.witnesses
  rw [h.getHash, h.preimage, h.vin]

end CTransaction.Revalues

/-! ## blocks -/

structure CBlock.Revalues (block b : CBlock H) : Prop where
  header : b.toCBlockHeader = block.toCBlockHeader
  vtx : List.Forall₂ CTransaction.Revalues block.vtx b.vtx

/-- the same signature hash for all arguments, with and without the precomputed data, under the flags
of the version of the first transaction -/
def SameSignatureHashes (a b : CTransaction H) : Prop :=
  ∀ (nIn : Nat) (nHashType : BitVec 32) (senv : SigHashEnv H) (u : Uninit) (scriptCode : CScript)
    (amount : Int) (sigversion : SigVersion) (precomputed : Bool),
    let f := SerFlags.ofVersion a.nVersion
    signatureHash b nIn nHashType senv f u scriptCode amount sigversion
        (if precomputed then some (precomputedTransactionData b senv f) else none) =
      signatureHash a nIn nHashType senv f u scriptCode amount sigversion
        (if precomputed then some (precomputedTransactionData a senv f) else none)

structure SameCommitments (env : Env H) (block b : CBlock H) : Prop where
  hash : b.getHash env = block.getHash env
  txids : b.vtx.map (·.getHash env) = block.vtx.map (·.getHash env)
  wtxids : b.vtx.map (·.getWitnessHash env) = block.vtx.map (·.getWitnessHash env)
  merkleRoot : blockMerkleRoot env b.vtx = blockMerkleRoot env block.vtx
  witnessMerkleRoot :
    blockWitnessMerkleRoot env b.vtx.tail = blockWitnessMerkleRoot env block.vtx.tail
  signatures : List.Forall₂ SameSignatureHashes block.vtx b.vtx

theorem CTransaction.Revalues.sameSignatureHashes {a b : CTransaction H} (h : a.Revalues b) :
    SameSignatureHashes a b := by
  intro nIn nHashType senv u scriptCode amount sigversion precomputed f
  show BitCash.signatureHash _ _ _ _ (.ofVersion a.nVersion) _ _ _ _ _ = _
  rw [h.signatureHash]
  unfold f
  rw [h.precomputed_ofVersion]

theorem CBlock.Revalues.sameCommitments {block b : CBlock H} (h : block.Revalues b) (env : Env H) :
    SameCommitments env block b where
  hash := by rw [h.header]
  txids := forall₂_map_eq h.vtx fun _ _ htx => htx.getHash env
  wtxids := forall₂_map_eq h.vtx fun _ _ htx => htx.getWitnessHash env
  merkleRoot := by
    unfold blockMerkleRoot
    rw [forall₂_map_eq h.vtx fun _ _ htx => htx.getHash env]
  witnessMerkleRoot := by
    obtain ⟨-, -, htail⟩ := revalues_head_tail h.vtx
    unfold blockWitnessMerkleRoot
    rw [forall₂_map_eq htail fun _ _ htx => htx.getWitnessHash env]
  signatures := h.vtx.imp fun _ _ htx => htx.sameSignatureHashes

/-- **amounts are under no hash**: a block with other amounts has the same ids, roots and signature
hashes, and so has the block `ProcessNewBlock` goes on with -/
theorem revalued_commitments (env : Env H) (block b : CBlock H) : (block.Revalues b → SameCommitments env block b) ∧
      ∀ (tip : CoinsMap H) (getTx : H → Option (CTransaction H)),
        normaliseBlock tip getTx block = .ok b → SameCommitments env block b := by
  refine ⟨fun h => h.sameCommitments env, fun tip getTx hb => ?_⟩
  obtain ⟨hh, -, hvtx⟩ := normaliseBlock_revalues hb
  exact CBlock.Revalues.sameCommitments ⟨hh, hvtx⟩ env

/-- the split of ten, in which the pass fills in the first amount and both can be filled in -/
theorem revalued_commitments_splitTen :
    ∃ b, normaliseBlock tenCoins.coins (fun _ => none) (halfBlock [splitTen]) = .ok b ∧
      b.vtx ≠ (halfBlock [splitTen]).vtx ∧
      SameCommitments symEnv (halfBlock [splitTen]) b ∧
      SameCommitments symEnv (halfBlock [splitTen]) { halfBlock [splitTen] with
          vtx := [symCoinbase [devOut 2150000000] (by decide),
            spendTen [.of 4 4 [] 0, .of 6 6 [] 0] (by decide)] } := by
  obtain ⟨b, hb, hvtx⟩ := ok_of_toOption_map
    (show (normaliseBlock tenCoins.coins (fun _ => none) (halfBlock [splitTen])).toOption.map
      (fun b => decide (b.vtx = (halfBlock [splitTen]).vtx)) = some false by decide)
  refine ⟨b, hb, of_decide_eq_false hvtx, (revalued_commitments symEnv _ b).2 _ _ hb, ?_⟩
  apply (revalued_commitments symEnv _ _).1
  refine ⟨rfl, .cons (.refl _) (.cons ⟨rfl, rfl, rfl, ?_, ?_⟩ .nil)⟩
  · exact .cons rfl (.cons rfl .nil)
  · intro hlt
    exact absurd hlt (by decide)

end BitCash
