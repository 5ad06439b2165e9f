import Mathlib.Algebra.Order.BigOperators.Group.List
import BitCash.Validation.ConnectBlock

/-!
# Rewriting the amounts of a received block

`ProcessNewBlock` of `validation.cpp` starts by giving the outputs of a block the `nValue` that the conversion rule
of `ConnectBlock` asks for.
-/

namespace BitCash
open Checks Machine List CBlockHeader

variable {H : Type} [Inhabited H] [DecidableEq H] {tx tx' : CTransaction H} {block : CBlock H} {vout l m : List CTxOut}

/-! ## the pass -/

def wantedAmount (p0 p1 : Int) (inputcurrency : UInt8) (coinbase : Bool) (o : CTxOut) : Res Int :=
  if o.currency = inputcurrency then .ok (countedValue coinbase o)
  else if inputcurrency = 0 ∧ o.currency = 1 then divAmount (o.nValueBitCash * p1) COIN
  else if inputcurrency = 1 ∧ o.currency = 0 then divAmount (o.nValueBitCash * COIN) p0
  else .ok o.nValue

def normaliseOuts (want : CTxOut → Res Int) : List CTxOut → Res (List CTxOut)
  | [] => .ok []
  | o :: l => want o >>= fun amount =>
    if o.nValue = amount then normaliseOuts want l >>= fun m => .ok (o :: m)
    -- `MakeTransactionRef(std::move(tx))` empties `tx.vout`, so the loop ends here
    else .ok ({ o with nValue := amount } :: l)

def CTransaction.withVout (tx : CTransaction H) (vout : List CTxOut) : CTransaction H :=
  if h : vout.all (CTxOut.decoded tx.nVersion) = true then { tx with vout := vout, vout_decoded := h }
  else tx

/-- the currency of the inputs: that of the first coin, from the tip or from the transaction that
made it -/
def lookupCurrency (tip : CoinsMap H) (getTx : H → Option (CTransaction H)) (tx : CTransaction H) :
    Res UInt8 :=
  if tx.isCoinBase then .ok 0
  else match tx.coinInputs with
    | [] => .ok 0
    | i :: _ =>
      if (tipCoin tip i.prevout).isSpent then
        match getTx i.prevout.hash with
        | none => .error (.systemError "Could not get input transaction")
        | some txfound =>
          match txfound.vout[i.prevout.n.toNat]? with
          | none => .error (.fault .outOfBounds)
          | some o => .ok o.currency
      else .ok (tipCoin tip i.prevout).spendCurrency

def normaliseTx (tip : CoinsMap H) (getTx : H → Option (CTransaction H)) (p0 p1 : Int)
    (tx : CTransaction H) : Res (CTransaction H) :=
  if 5 ≤ tx.nVersion then do
    let inputcurrency ← lookupCurrency tip getTx tx
    let vout ← normaliseOuts (wantedAmount p0 p1 inputcurrency tx.isCoinBase) tx.vout
    pure (tx.withVout vout)
  else .ok tx

def normaliseBlock (tip : CoinsMap H) (getTx : H → Option (CTransaction H)) (block : CBlock H) :
    Res (CBlock H) := do
  let p0 ← block.getPriceinCurrency 0
  let p1 ← block.getPriceinCurrency 1
  let vtx ← collect (normaliseTx tip getTx p0 p1) block.vtx
  pure { block with vtx := vtx }

/-! ## only nValue changes -/

def CTxOut.Revalues (o p : CTxOut) : Prop := { o with nValue := p.nValue } = p

theorem CTxOut.Revalues.refl (o : CTxOut) : o.Revalues o := rfl

theorem CTxOut.revalues_set (o : CTxOut) (a : Int) : o.Revalues { o with nValue := a } := rfl

structure CTransaction.Revalues (a b : CTransaction H) : Prop where
  nVersion : b.nVersion = a.nVersion
  vin : b.vin = a.vin
  nLockTime : b.nLockTime = a.nLockTime
  vout : List.Forall₂ CTxOut.Revalues a.vout b.vout
  version : a.nVersion < 5 → b = a

theorem CTransaction.Revalues.refl (tx : CTransaction H) : tx.Revalues tx :=
  ⟨rfl, rfl, rfl, forall₂_same.2 fun o _ => .refl o, fun _ => rfl⟩

theorem normaliseOuts_revalues {want : CTxOut → Res Int}
    (h : normaliseOuts want l = .ok m) : List.Forall₂ CTxOut.Revalues l m := by
  induction l generalizing m with
  | nil =>
    cases h
    exact .nil
  | cons o l ih =>
    rw [normaliseOuts, bind_ok] at h
    obtain ⟨amount, -, h⟩ := h
    by_cases ho : o.nValue = amount
    · rw [if_pos ho, bind_ok] at h
      obtain ⟨m', hm, h⟩ := h
      cases h
      exact .cons (.refl o) (ih hm)
    · rw [if_neg ho] at h
      cases h
      exact .cons (o.revalues_set amount) (forall₂_same.2 fun p _ => .refl p)

theorem wantedAmount_fits {p0 p1 a : Int} {c : UInt8} {cb : Bool} {o : CTxOut}
    (h1 : fits64 o.nValue) (h2 : fits64 o.nValueBitCash)
    (h : wantedAmount p0 p1 c cb o = .ok a) : fits64 a := by
  unfold wantedAmount at h
  split at h
  · cases h
    unfold countedValue
    split
    · exact h1
    · exact h2
  · split at h
    · obtain ⟨-, rfl⟩ := divAmount_ok.1 h
      exact narrow64_fits _
    · split at h
      · obtain ⟨-, rfl⟩ := divAmount_ok.1 h
        exact narrow64_fits _
      · cases h
        exact h1

theorem normaliseOuts_decoded {p0 p1 : Int} {c : UInt8} {cb : Bool} {nVersion : Int}
    (hv : 5 ≤ nVersion) (hl : l.all (CTxOut.decoded nVersion))
    (h : normaliseOuts (wantedAmount p0 p1 c cb) l = .ok m) : m.all (CTxOut.decoded nVersion) := by
  induction l generalizing m with
  | nil =>
    cases h
    rfl
  | cons o l ih =>
    rw [all_cons, Bool.and_eq_true] at hl
    rw [normaliseOuts, bind_ok] at h
    obtain ⟨amount, ha, h⟩ := h
    by_cases ho : o.nValue = amount
    · rw [if_pos ho, bind_ok] at h
      obtain ⟨m', hm, h⟩ := h
      cases h
      rw [all_cons, hl.1, ih hl.2 hm, Bool.and_self]
    · rw [if_neg ho] at h
      cases h
      have hdec := hl.1
      simp only [CTxOut.decoded, Bool.and_eq_true] at hdec
      have hfit := wantedAmount_fits hdec.1.2 hdec.2 ha
      rw [all_cons, hl.2, Bool.and_true]
      simp only [CTxOut.decoded, Bool.and_eq_true]
      exact ⟨⟨by simp [hv], hfit⟩, hdec.2⟩

theorem CTransaction.withVout_vout (h : vout.all (CTxOut.decoded tx.nVersion)) :
    (tx.withVout vout).vout = vout ∧ (tx.withVout vout).vin = tx.vin ∧
      (tx.withVout vout).nVersion = tx.nVersion ∧ (tx.withVout vout).nLockTime = tx.nLockTime := by
  rw [CTransaction.withVout, dif_pos h]
  exact ⟨rfl, rfl, rfl, rfl⟩

section Pass
variable {tip : CoinsMap H} {getTx : H → Option (CTransaction H)} {p0 p1 : Int} {b : CBlock H}

theorem normaliseTx_ok (hv : 5 ≤ tx.nVersion)
    (h : normaliseTx tip getTx p0 p1 tx = .ok tx') : ∃ c, lookupCurrency tip getTx tx = .ok c ∧
      normaliseOuts (wantedAmount p0 p1 c tx.isCoinBase) tx.vout = .ok tx'.vout ∧
      tx'.vin = tx.vin ∧ tx'.nVersion = tx.nVersion ∧ tx'.nLockTime = tx.nLockTime := by
  rw [normaliseTx, if_pos hv] at h
  simp only [bind_ok, pure_ok] at h
  obtain ⟨c, hc, vout, hvout, h⟩ := h
  cases h
  obtain ⟨h1, h2⟩ := CTransaction.withVout_vout (normaliseOuts_decoded hv tx.vout_decoded hvout)
  exact ⟨c, hc, h1.symm ▸ hvout, h2⟩

theorem normaliseTx_revalues (h : normaliseTx tip getTx p0 p1 tx = .ok tx') : tx.Revalues tx' := by
  by_cases hv : 5 ≤ tx.nVersion
  · obtain ⟨c, -, hout, hvin, hver, hlock⟩ := normaliseTx_ok hv h
    exact ⟨hver, hvin, hlock, normaliseOuts_revalues hout, fun hlt => absurd hv (by omega)⟩
  · rw [normaliseTx, if_neg hv] at h
    cases h
    exact .refl tx

theorem normaliseBlock_ok (h : normaliseBlock tip getTx block = .ok b) :
    ∃ p0 p1, block.getPriceinCurrency 0 = .ok p0 ∧ block.getPriceinCurrency 1 = .ok p1 ∧
      List.Forall₂ (fun tx tx' => normaliseTx tip getTx p0 p1 tx = .ok tx') block.vtx b.vtx ∧
      b = { block with vtx := b.vtx } := by
  simp only [normaliseBlock, bind_ok, pure_ok] at h
  obtain ⟨p0, hp0, p1, hp1, vtx, hvtx, h⟩ := h
  cases h
  exact ⟨p0, p1, hp0, hp1, collect_ok.1 hvtx, rfl⟩

theorem normaliseBlock_revalues (h : normaliseBlock tip getTx block = .ok b) :
    b.toCBlockHeader = block.toCBlockHeader ∧ b.fChecked = block.fChecked ∧
      List.Forall₂ CTransaction.Revalues block.vtx b.vtx := by
  obtain ⟨p0, p1, -, -, hvtx, hb⟩ := normaliseBlock_ok h
  refine ⟨by rw [hb], by rw [hb], ?_⟩
  exact hvtx.imp fun _ _ h => normaliseTx_revalues h

end Pass

/-! ## what does not depend on nValue -/

namespace CTransaction.Revalues
variable {a b : CTransaction H}

section
variable (h : a.Revalues b)
include h

theorem isCoinBase : b.isCoinBase = a.isCoinBase := by
  rw [CTransaction.isCoinBase, h.vin, CTransaction.isCoinBase]

theorem isNick : b.isNick = a.isNick := by
  rw [CTransaction.isNick, h.vin, CTransaction.isNick]

theorem preimage : b.preimage = a.preimage := by
  by_cases hv : 5 ≤ a.nVersion
  · have hout : b.vout.map (CTxOut.preimage a.nVersion) = a.vout.map (CTxOut.preimage a.nVersion) := by
      refine forall₂_map_eq h.vout fun o p hop => ?_
      rw [← hop]
      simp [CTxOut.preimage, hv]
    rw [CTransaction.preimage, h.nVersion, h.vin, h.nLockTime, hout, CTransaction.preimage]
  · rw [h.version (by omega)]

theorem getHash (env : Env H) : b.getHash env = a.getHash env := by
  rw [CTransaction.getHash, h.preimage, CTransaction.getHash]

theorem strippedSize : b.strippedSize = a.strippedSize := by
  have hout : b.vout.map (CTxOut.serializeSize a.nVersion) = a.vout.map (CTxOut.serializeSize a.nVersion) :=
    forall₂_map_eq h.vout fun o p hop => by rw [← hop]; rfl
  rw [CTransaction.strippedSize, h.nVersion, h.vin, listSize, listSize, hout, ← h.vout.length_eq]
  rfl

theorem getLegacySigOpCount (env : Env H) : b.getLegacySigOpCount env = a.getLegacySigOpCount env := by
  have hout : b.vout.map (fun o => env.getSigOpCount o.scriptPubKey) =
      a.vout.map (fun o => env.getSigOpCount o.scriptPubKey) :=
    forall₂_map_eq h.vout fun o p hop => by rw [← hop]
  rw [CTransaction.getLegacySigOpCount, h.vin, hout, CTransaction.getLegacySigOpCount]

theorem checkVin : BitCash.checkVin b = BitCash.checkVin a := by
  rw [BitCash.checkVin, h.isCoinBase, h.isNick, h.vin, BitCash.checkVin]

theorem checkTransaction_iff {env : Env H} {nicks : Nicknames H} {dup dbl : Bool}
    {bh : H} (ha : checkTransaction env nicks a dup bh dbl = .ok ()) :
    checkTransaction env nicks b dup bh dbl = .ok () ↔ ∃ t, run checkOut 0 b.vout = .ok t := by
  have hempty : b.vout.isEmpty = a.vout.isEmpty := by
    rw [Bool.eq_iff_iff, isEmpty_iff_length_eq_zero, isEmpty_iff_length_eq_zero, h.vout.length_eq]
  simp only [checkTransaction, bind_ok, need_ok, exists_const] at ha ⊢
  rw [h.vin, h.isNick, h.strippedSize, h.checkVin, hempty]
  obtain ⟨h1, h2, h3, -, -, h4, h5⟩ := ha
  constructor
  · rintro ⟨-, -, -, t, ht, -⟩
    exact ⟨t, ht⟩
  · rintro ⟨t, ht⟩
    exact ⟨h1, h2, h3, t, ht, h4, h5⟩

end

end CTransaction.Revalues

section Blocks
variable {env : Env H} {params : Params H} {b : CBlock H}

variable (hh : b.toCBlockHeader = block.toCBlockHeader)

include hh in
theorem merkleRules_revalues (hvtx : List.Forall₂ CTransaction.Revalues block.vtx b.vtx) (merkle : Bool) :
    merkleRules env b merkle = merkleRules env block merkle := by
  have hroot : b.hashMerkleRoot = block.hashMerkleRoot := congrArg hashMerkleRoot hh
  have hids : b.vtx.map (·.getHash env) = block.vtx.map (·.getHash env) :=
    forall₂_map_eq hvtx fun _ _ h => h.getHash env
  rw [merkleRules, blockMerkleRoot, hroot, hids, merkleRules, blockMerkleRoot]

include hh in
theorem CBlock.strippedSize_revalues
    (hvtx : List.Forall₂ CTransaction.Revalues block.vtx b.vtx) : b.strippedSize = block.strippedSize := by
  have hsizes : b.vtx.map CTransaction.strippedSize = block.vtx.map CTransaction.strippedSize :=
    forall₂_map_eq hvtx fun _ _ h => h.strippedSize
  rw [CBlock.strippedSize, hh, listSize, hsizes, ← hvtx.length_eq]
  rfl

theorem nicknameInputs_revalues {l m : List (CTransaction H)}
    (hlm : List.Forall₂ CTransaction.Revalues l m) : nicknameInputs m = nicknameInputs l := by
  rw [nicknameInputs, flatMap_def, forall₂_map_eq hlm fun _ _ h => by rw [h.vin]]
  rfl

theorem checkTxVersion_revalues {nTime : UInt32} {a b : CTransaction H} (h : a.Revalues b) :
    checkTxVersion params nTime b = checkTxVersion params nTime a := by
  unfold checkTxVersion
  rw [h.nVersion]

theorem revalues_head_tail {l m : List (CTransaction H)} (hlm : List.Forall₂ CTransaction.Revalues l m) :
    m.isEmpty = l.isEmpty ∧ m.head?.any (·.isCoinBase) = l.head?.any (·.isCoinBase) ∧
      List.Forall₂ CTransaction.Revalues l.tail m.tail := by
  cases hlm with
  | nil => exact ⟨rfl, rfl, .nil⟩
  | cons h htail => exact ⟨rfl, h.isCoinBase, htail⟩

include hh in
theorem bodyRules_revalues_iff
    (hvtx : List.Forall₂ CTransaction.Revalues block.vtx b.vtx) (hb : bodyRules env params block = .ok ()) :
    bodyRules env params b = .ok () ↔ ∀ tx ∈ b.vtx, ∃ t, run checkOut 0 tx.vout = .ok t := by
  have htime : b.nTime = block.nTime := congrArg nTime hh
  have hsize := CBlock.strippedSize_revalues hh hvtx
  have hsig : b.vtx.map (·.getLegacySigOpCount env) = block.vtx.map (·.getLegacySigOpCount env) :=
    forall₂_map_eq hvtx fun _ _ h => h.getLegacySigOpCount env
  obtain ⟨hempty, hhead, htail⟩ := revalues_head_tail hvtx
  simp only [bodyRules, bind_ok, need_ok, exists_const, each_ok] at hb ⊢
  rw [hsize, hsig, hhead, hempty, ← hvtx.length_eq, nicknameInputs_revalues htail, htime, hh]
  obtain ⟨h1, h2, h3, h4, h5⟩ := hb
  have hcb : ∀ tx ∈ b.vtx.tail, (!tx.isCoinBase) = true :=
    (forall₂_forall_iff htail fun tx tx' _ h => by rw [h.isCoinBase]).2 h3
  constructor
  · rintro ⟨-, -, -, h, -⟩ tx htx
    obtain ⟨_, hct, -⟩ := h tx htx
    obtain ⟨-, -, -, ht, -⟩ := checkTransaction_ok env hct
    exact ht
  · intro hout
    refine ⟨h1, h2, hcb, fun tx' htx' => ?_, h5⟩
    obtain ⟨tx, htx, h⟩ := forall₂_mem_right hvtx htx'
    obtain ⟨u, hct, hver⟩ := h4 tx htx
    exact ⟨u, (h.checkTransaction_iff hct).2 (hout tx' htx'), by rw [checkTxVersion_revalues h, hver]⟩

def amountsInRange (vout : List CTxOut) : Prop :=
  (∀ o ∈ vout, 0 ≤ o.nValue) ∧ (vout.map CTxOut.nValue).sum ≤ MAX_MONEY

theorem run_checkOut_iff : (∃ t, run checkOut 0 vout = .ok t) ↔
      (∀ o ∈ vout, o.currency < 2 ∧ o.referenceline.length ≤ 1000) ∧ amountsInRange vout := by
  simp only [run_sum_ok (f := CTxOut.nValue)
    (P := fun o => o.currency < 2 ∧ o.referenceline.length ≤ 1000 ∧ moneyRange o.nValue = true)
    (Q := fun x => moneyRange x = true) (fun _ _ _ => checkOut_ok), zero_add]
  constructor
  · rintro ⟨t, hP, hQ, -⟩
    refine ⟨fun o ho => ⟨(hP o ho).1, (hP o ho).2.1⟩, fun o ho => (moneyRange_iff.1 (hP o ho).2.2).1, ?_⟩
    by_cases hne : vout = []
    · rw [hne]
      decide
    · exact (moneyRange_iff.1 (hQ vout (prefix_refl _) hne)).2
  · rintro ⟨hP, hnn, hsum⟩
    -- what follows a prefix adds to the total, so a prefix is in the range when the whole is
    have hpre : ∀ p, p <+: vout → moneyRange (p.map CTxOut.nValue).sum := by
      rintro p ⟨q, rfl⟩
      have hp : 0 ≤ (p.map CTxOut.nValue).sum := sum_nonneg fun x hx => by
        obtain ⟨o, ho, rfl⟩ := mem_map.1 hx
        exact hnn o (mem_append_left _ ho)
      have hq : 0 ≤ (q.map CTxOut.nValue).sum := sum_nonneg fun x hx => by
        obtain ⟨o, ho, rfl⟩ := mem_map.1 hx
        exact hnn o (mem_append_right _ ho)
      rw [map_append, sum_append, show MAX_MONEY = 100000000000000000 from rfl] at hsum
      exact moneyRange_iff.2 ⟨hp, by omega⟩
    refine ⟨_, fun o ho => ⟨(hP o ho).1, (hP o ho).2, ?_⟩, fun p hp _ => hpre p hp, rfl⟩
    obtain ⟨l, m, rfl⟩ := append_of_mem ho
    have h1 := moneyRange_iff.1 (hpre l ⟨o :: m, rfl⟩)
    have h2 := moneyRange_iff.1 (hpre (l ++ [o]) ⟨m, by simp⟩)
    rw [map_append, sum_append, map_singleton, sum_singleton] at h2
    exact moneyRange_iff.2 ⟨hnn o ho, by omega⟩

theorem checkOuts_revalues_iff {a b : CTransaction H} (h : a.Revalues b) (ha : ∃ t, run checkOut 0 a.vout = .ok t) :
    (∃ t, run checkOut 0 b.vout = .ok t) ↔ amountsInRange b.vout := by
  rw [run_checkOut_iff] at ha ⊢
  refine and_iff_right fun p hp => ?_
  obtain ⟨o, ho, hop⟩ := forall₂_mem_right h.vout hp
  rw [← hop]
  exact ha.1 o ho

include hh in
theorem blockRules_revalues_iff (hvtx : List.Forall₂ CTransaction.Revalues block.vtx b.vtx)
    (hb : blockRules env params block true true = .ok ()) :
    blockRules env params b true true = .ok () ↔ ∀ tx ∈ b.vtx, amountsInRange tx.vout := by
  obtain ⟨h1, h2, h3, h4⟩ := blockRules_ok.1 hb
  rw [blockRules_ok, hh, merkleRules_revalues hh hvtx, bodyRules_revalues_iff hh hvtx h4]
  simp only [h1, h2, h3, true_and]
  refine forall₂_congr fun tx' htx' => ?_
  obtain ⟨tx, htx, h⟩ := forall₂_mem_right hvtx htx'
  obtain ⟨-, -, -, ht, -⟩ := checkTransaction_ok env ((bodyRules_ok h4).2 tx htx)
  exact checkOuts_revalues_iff h ht

end Blocks

/-! ## is the pass complete? -/

def staleOut (p0 p1 : Int) (c : UInt8) (coinbase : Bool) (o : CTxOut) : Bool :=
  !(conversionRule p0 p1 c coinbase o).isOk

section Amount
variable {p0 p1 a : Int} {c : UInt8} {cb : Bool} {o : CTxOut}

theorem staleOut_eq_false : staleOut p0 p1 c cb o = false ↔ conversionRule p0 p1 c cb o = .ok () := by
  unfold staleOut
  cases h : conversionRule p0 p1 c cb o with
  | error e => simp [Except.isOk, Except.toBool]
  | ok u => simp [Except.isOk, Except.toBool]

theorem wantedAmount_of_required (hp0 : p0 ≠ 0) (ho : o.currency ≠ c)
    (ha : requiredAmount p0 p1 c o = some a) (hfit : fits64 a) : wantedAmount p0 p1 c cb o = .ok a := by
  rcases requiredAmount_cases ho ha with ⟨hbuy, rfl⟩ | ⟨hbuy, hsell, rfl⟩
  · rw [wantedAmount, if_neg ho, if_pos hbuy, divAmount_of_ne (by decide), narrow64_of_fits hfit]
  · rw [wantedAmount, if_neg ho, if_neg hbuy, if_pos hsell, divAmount_of_ne hp0, narrow64_of_fits hfit]

theorem conversionRule_iff_required (hp0 : p0 ≠ 0) (ho : o.currency ≠ c) (ha : requiredAmount p0 p1 c o = some a) :
    conversionRule p0 p1 c cb o = .ok () ↔ o.nValue = a := by
  refine ⟨conversionRule_other ho ha, fun hv => ?_⟩
  rcases requiredAmount_cases ho ha with ⟨hbuy, rfl⟩ | ⟨hbuy, hsell, rfl⟩
  · rw [conversionRule, if_neg ho, if_pos hbuy]
    simpa using hv
  · rw [conversionRule, if_neg ho, if_neg hbuy, if_pos hsell, if_neg hp0]
    simpa using hv

theorem wantedAmount_of_none (cb : Bool) (ha : requiredAmount p0 p1 c o = none) :
    wantedAmount p0 p1 c cb o = .ok o.nValue ∧ conversionRule p0 p1 c cb o = .ok () := by
  unfold requiredAmount at ha
  unfold wantedAmount conversionRule
  split at ha
  · cases ha
  · rename_i h1
    rw [if_neg h1, if_neg h1]
    split at ha
    · cases ha
    · rename_i h2
      rw [if_neg h2, if_neg h2]
      split at ha
      · cases ha
      · rename_i h3
        rw [if_neg h3, if_neg h3]
        exact ⟨rfl, rfl⟩

/-- **the computed amount**: it is there, the rule accepts the output with it, and it is the one the
output has exactly when the rule accepts the output as it stands -/
theorem wantedAmount_spec (hp0 : p0 ≠ 0) (hfit : ∀ a, requiredAmount p0 p1 c o = some a → fits64 a) (cb : Bool) :
    ∃ a, wantedAmount p0 p1 c cb o = .ok a ∧ conversionRule p0 p1 c cb { o with nValue := a } = .ok () ∧
      (o.nValue = a ↔ conversionRule p0 p1 c cb o = .ok ()) := by
  by_cases ho : o.currency = c
  · refine ⟨countedValue cb o, if_pos ho, ?_, ?_⟩
    · rw [conversionRule, if_pos ho, need_ok]
      unfold countedValue
      cases ht : toleratedOut cb o
      · simp
      · simpa [toleratedOut] using Or.inr ht
    · rw [conversionRule, if_pos ho, need_ok, Bool.or_eq_true, decide_eq_true_iff]
      unfold countedValue
      cases toleratedOut cb o <;> simp
  · cases ha : requiredAmount p0 p1 c o with
    | none =>
      obtain ⟨h1, h2⟩ := wantedAmount_of_none cb ha
      exact ⟨o.nValue, h1, h2, by simp [h2]⟩
    | some a =>
      have hset : requiredAmount p0 p1 c { o with nValue := a } = some a := ha
      have ho' : ({ o with nValue := a } : CTxOut).currency ≠ c := ho
      exact ⟨a, wantedAmount_of_required hp0 ho ha (hfit a ha),
        (conversionRule_iff_required hp0 ho' hset).2 rfl, (conversionRule_iff_required hp0 ho ha).symm⟩

end Amount

theorem normaliseOuts_complete_iff {p0 p1 : Int} {c : UInt8} (cb : Bool) (hp0 : p0 ≠ 0)
    (hfit : ∀ o ∈ l, ∀ a, requiredAmount p0 p1 c o = some a → fits64 a) :
    ∃ m, normaliseOuts (wantedAmount p0 p1 c cb) l = .ok m ∧ ((∀ o ∈ m, conversionRule p0 p1 c cb o = .ok ()) ↔
        (l.filter (staleOut p0 p1 c cb)).length ≤ 1) := by
  induction l with
  | nil => exact ⟨[], rfl, by simp⟩
  | cons o l ih =>
    obtain ⟨m, hm, hiff⟩ := ih fun p hp => hfit p (by simp [hp])
    obtain ⟨a, hwant, hset, hstale⟩ := wantedAmount_spec hp0 (hfit o (by simp)) cb
    rw [normaliseOuts, hwant, ok_bind]
    by_cases ho : o.nValue = a
    · have hrule := hstale.1 ho
      have hnot : ¬ staleOut p0 p1 c cb o := by simp [staleOut_eq_false.2 hrule]
      refine ⟨o :: m, by rw [if_pos ho, hm, ok_bind], ?_⟩
      rw [filter_cons_of_neg hnot, ← hiff]
      simp [hrule]
    · have hrule : staleOut p0 p1 c cb o := by
        rw [← Bool.not_eq_false, staleOut_eq_false, ← hstale]
        exact ho
      refine ⟨_, if_neg ho, ?_⟩
      rw [filter_cons_of_pos hrule, length_cons, Nat.succ_le_succ_iff, Nat.le_zero,
        length_eq_zero_iff, filter_eq_nil_iff]
      simp [hset, staleOut_eq_false]

section Complete
variable {tip : CoinsTip H} {getTx : H → Option (CTransaction H)} {p0 p1 : Int}

theorem inputCurrency_coinBase (hcb : tx.isCoinBase) : inputCurrency (tipCoin tip.coins) tx = 0 := by
  have hnull : tipCoin tip.coins .null = Coin.empty := by rw [tipCoin, tip.null, Option.getD_none]
  unfold CTransaction.isCoinBase at hcb
  unfold inputCurrency CTransaction.coinInputs
  match hvin : tx.vin, hcb with
  | [i], hcb =>
    simp only [isCoinBaseVin, Bool.and_eq_true, Bool.not_eq_true', COutPoint.isNull_iff] at hcb
    rw [filter_cons_of_pos (by simp [hcb.2])]
    show (tipCoin tip.coins i.prevout).spendCurrency = 0
    rw [hcb.1, hnull]
    rfl

theorem lookupCurrency_of_present
    (hin : tx.isCoinBase = false → ∀ i ∈ tx.coinInputs, (tipCoin tip.coins i.prevout).isSpent = false) :
    lookupCurrency tip.coins getTx tx = .ok (inputCurrency (tipCoin tip.coins) tx) := by
  unfold lookupCurrency
  cases hcb : tx.isCoinBase with
  | true => rw [inputCurrency_coinBase hcb, if_pos rfl]
  | false =>
    rw [if_neg (by decide)]
    unfold inputCurrency
    cases hci : tx.coinInputs with
    | nil => rfl
    | cons i l =>
      have hi := hin hcb i (by simp [hci])
      simp only [hi, Bool.false_eq_true, if_false]

theorem normaliseTx_complete_iff (hp0 : p0 ≠ 0) (hv : 5 ≤ tx.nVersion)
    (hin : tx.isCoinBase = false → ∀ i ∈ tx.coinInputs, (tipCoin tip.coins i.prevout).isSpent = false)
    (hfit : ∀ o ∈ tx.vout, ∀ a, requiredAmount p0 p1 (inputCurrency (tipCoin tip.coins) tx) o = some a → fits64 a) :
    ∃ tx', normaliseTx tip.coins getTx p0 p1 tx = .ok tx' ∧ (checkTxConversions tip.coins p0 p1 tx' = .ok () ↔
        (tx.vout.filter (staleOut p0 p1 (inputCurrency (tipCoin tip.coins) tx) tx.isCoinBase)).length ≤ 1) := by
  obtain ⟨m, hm, hiff⟩ := normaliseOuts_complete_iff tx.isCoinBase hp0 hfit
  have hok : normaliseTx tip.coins getTx p0 p1 tx = .ok (tx.withVout m) := by
    rw [normaliseTx, if_pos hv, lookupCurrency_of_present hin]
    simp only [ok_bind, hm, pure_ok]
  refine ⟨tx.withVout m, hok, ?_⟩
  obtain ⟨hvout, hvin, -, -⟩ := CTransaction.withVout_vout (normaliseOuts_decoded hv tx.vout_decoded hm)
  have hcb : (tx.withVout m).isCoinBase = tx.isCoinBase := by
    rw [CTransaction.isCoinBase, hvin, CTransaction.isCoinBase]
  rw [checkTxConversions, each_ok, hvout, hcb, inputCurrency_of_vin hvin, hiff]

/-- **the pass is complete** exactly when no transaction has two stale outputs -/
theorem normalise_complete_iff {block : CBlock H} (hp0 : block.getPriceinCurrency 0 = .ok p0)
    (hp1 : block.getPriceinCurrency 1 = .ok p1) (hpos : 0 < p0)
    (hin : ∀ tx ∈ block.vtx, tx.isCoinBase = false →
      ∀ i ∈ tx.coinInputs, (tipCoin tip.coins i.prevout).isSpent = false)
    (hfit : ∀ tx ∈ block.vtx, ∀ o ∈ tx.vout, ∀ a,
      requiredAmount p0 p1 (inputCurrency (tipCoin tip.coins) tx) o = some a → fits64 a = true) :
    (∃ b, normaliseBlock tip.coins getTx block = .ok b ∧ List.Forall₂ CTransaction.Revalues block.vtx b.vtx ∧
        ∀ tx ∈ b.vtx, 5 ≤ tx.nVersion → checkTxConversions tip.coins p0 p1 tx = .ok ()) ↔
      ∀ tx ∈ block.vtx, 5 ≤ tx.nVersion →
        (tx.vout.filter (staleOut p0 p1 (inputCurrency (tipCoin tip.coins) tx) tx.isCoinBase)).length ≤ 1 := by
  have hne : p0 ≠ 0 := by omega
  have hstep : ∀ tx ∈ block.vtx, ∃ tx', normaliseTx tip.coins getTx p0 p1 tx = .ok tx' := by
    intro tx htx
    by_cases hv : 5 ≤ tx.nVersion
    · obtain ⟨tx', htx', -⟩ := normaliseTx_complete_iff hne hv (hin tx htx) (hfit tx htx)
      exact ⟨tx', htx'⟩
    · exact ⟨tx, if_neg hv⟩
  obtain ⟨vtx, hvtx⟩ := collect_exists hstep
  have hblock : normaliseBlock tip.coins getTx block = .ok { block with vtx := vtx } := by
    simp only [normaliseBlock, hp0, hp1, hvtx, ok_bind, pure_ok]
  have hiff : (∀ tx ∈ vtx, 5 ≤ tx.nVersion → checkTxConversions tip.coins p0 p1 tx = .ok ()) ↔
      ∀ tx ∈ block.vtx, 5 ≤ tx.nVersion →
        (tx.vout.filter (staleOut p0 p1 (inputCurrency (tipCoin tip.coins) tx) tx.isCoinBase)).length ≤ 1 := by
    refine forall₂_forall_iff (collect_ok.1 hvtx) fun tx tx' htx htx' => ?_
    rw [(normaliseTx_revalues htx').nVersion]
    refine imp_congr_right fun hv => ?_
    obtain ⟨tx₁, htx₁, hc⟩ := normaliseTx_complete_iff hne hv (hin tx htx) (hfit tx htx)
    rw [htx'] at htx₁
    cases htx₁
    exact hc
  constructor
  · rintro ⟨b, hb, -, hrule⟩
    rw [hblock] at hb
    cases hb
    exact hiff.1 hrule
  · intro hone
    exact ⟨_, hblock, (normaliseBlock_revalues hblock).2.2, hiff.2 hone⟩

end Complete

def splitTen : CTransaction Digest := spendTen [.of 0 4 [] 0, .of 0 6 [] 0] (by decide)

/-- **the second of two stale outputs stays stale**: four is filled in, six is not -/
theorem normalise_incomplete : (halfBlock [splitTen]).getPriceinCurrency 0 = .ok 500000000 ∧
      (halfBlock [splitTen]).getPriceinCurrency 1 = .ok 500000000 ∧
      (∀ i ∈ splitTen.coinInputs, (tipCoin tenCoins.coins i.prevout).isSpent = false) ∧
      ∃ b, normaliseBlock tenCoins.coins (fun _ => none) (halfBlock [splitTen]) = .ok b ∧
        b.vtx.map (fun tx => tx.vout.map (·.nValue)) = [[2150000000], [4, 0]] ∧ ¬ ∀ tx ∈ b.vtx, 5 ≤ tx.nVersion →
          checkTxConversions tenCoins.coins 500000000 500000000 tx = .ok () := by
  refine ⟨by decide, by decide, by decide, ?_⟩
  obtain ⟨b, hb, hf⟩ := ok_of_toOption_map
    (show (normaliseBlock tenCoins.coins (fun _ => none) (halfBlock [splitTen])).toOption.map
      (fun b => (b.vtx.map (fun tx => tx.vout.map (·.nValue)), b.vtx.all fun tx =>
        !decide (5 ≤ tx.nVersion) || (checkTxConversions tenCoins.coins 500000000 500000000 tx).isOk)) =
      some ([[2150000000], [4, 0]], false) by decide)
  refine ⟨b, hb, congrArg Prod.fst hf, fun hall => ?_⟩
  have hfalse := congrArg Prod.snd hf
  have htrue : (b.vtx.all fun tx => !decide (5 ≤ tx.nVersion) ||
      (checkTxConversions tenCoins.coins 500000000 500000000 tx).isOk) = true := by
    rw [all_eq_true]
    intro tx htx
    by_cases hv : 5 ≤ tx.nVersion
    · rw [hall tx htx hv]
      simp [Except.isOk, Except.toBool]
    · simp [hv]
  rw [htrue] at hfalse
  cases hfalse

def moveTen : CTransaction Digest := spendTen [.of 0 10 [] 0] (by decide)

/-- one stale output is filled in -/
theorem normalise_complete_moveTen :
    ∃ b, normaliseBlock tenCoins.coins (fun _ => none) (halfBlock [moveTen]) = .ok b ∧
      List.Forall₂ CTransaction.Revalues (halfBlock [moveTen]).vtx b.vtx ∧ ∀ tx ∈ b.vtx, 5 ≤ tx.nVersion →
        checkTxConversions tenCoins.coins 500000000 500000000 tx = .ok () := by
  have hprice : ∀ c : UInt8, c = 0 ∨ c = 1 →
      (halfBlock [moveTen]).getPriceinCurrency c = .ok 500000000 := by
    rintro c (rfl | rfl) <;> decide
  refine (normalise_complete_iff (hprice 0 (.inl rfl)) (hprice 1 (.inr rfl)) (by decide) ?_ ?_).2 ?_
  · decide
  · intro tx htx o ho a ha
    have hall : ∀ tx ∈ (halfBlock [moveTen]).vtx, ∀ o ∈ tx.vout,
        (requiredAmount 500000000 500000000 (inputCurrency (tipCoin tenCoins.coins) tx) o).all
          fits64 = true := by decide
    have := hall tx htx o ho
    rwa [ha] at this
  · decide

end BitCash
