import BitCash.Mempool.Pool

/-!
# Acceptance to the memory pool

`AcceptToMemoryPoolWorker` of `validation.cpp`, in the order of the source.
-/

namespace BitCash
open Checks CTxMemPool CTransaction List COutPoint

variable {H : Type} [Inhabited H] [DecidableEq H]

/-! ## verdicts -/

def REJECT_DUPLICATE : Nat := 0x12
def REJECT_NONSTANDARD : Nat := 0x40
def REJECT_INSUFFICIENTFEE : Nat := 0x42
def REJECT_HIGHFEE : Nat := 0x100

def Stop.duplicate (reason : String) : Stop := .dos 0 REJECT_DUPLICATE reason false

def Stop.nonstandard (reason : String) : Stop := .dos 0 REJECT_NONSTANDARD reason false

def Stop.lowFee (reason : String) : Stop := .dos 0 REJECT_INSUFFICIENTFEE reason false

def Stop.unsaid : Stop := .dos 0 0 "" false

def Stop.setCorruptionPossible : Stop → Stop
  | .reject r => .reject { r with corruptionPossible := true }
  | e => e

def Stop.after (earlier : Stop) : Stop → Stop
  | .reject r => match earlier with
    | .reject q => .reject { r with nDoS := q.nDoS + r.nDoS }
    | _ => .reject r
  | e => e

/-! ## fee rates -/

def feeRate (nFeePaid : Int) (nBytes : Nat) : Int :=
  if 0 < nBytes then (nFeePaid * 1000).tdiv nBytes else 0

def getFee (nSatoshisPerK : Int) (nBytes : Nat) : Int :=
  let nFee := (nSatoshisPerK * nBytes).tdiv 1000
  if nFee = 0 ∧ nBytes ≠ 0 then (if 0 < nSatoshisPerK then 1 else if nSatoshisPerK < 0 then -1 else 0)
  else nFee

/-! ## script flags -/

def MANDATORY_SCRIPT_VERIFY_FLAGS : BitVec 32 := 0x1#32
def STANDARD_SCRIPT_VERIFY_FLAGS : BitVec 32 := 0xffdf#32
def SCRIPT_VERIFY_CLEANSTACK : BitVec 32 := 0x100#32
def SCRIPT_VERIFY_WITNESS : BitVec 32 := 0x800#32
def MAX_STANDARD_TX_SIGOPS_COST : Nat := MAX_BLOCK_SIGOPS_COST / 5
def MAX_BIP125_RBF_SEQUENCE : UInt32 := 0xfffffffd

def Env.inline (env : Env H) : Env H := { env with scriptThreads := false }

structure AcceptArgs where
  bypass_limits : Bool
  nAbsurdFee : Int
  test_accept : Bool
  deriving DecidableEq

variable (env : Env H) (params : Params H) (penv : PoolEnv H)

/-! ## the checks -/

def poolVersionRules (tx : CTransaction H) : Res Unit := do
  need (!decide (tx.nVersion ≤ 3)) (.invalid "Old tx version")
  need (!(decide (tx.nVersion ≤ 4) && decide ((params.STABLETIME : Int) - 5 * 60 < penv.time)))
    (.invalid "Old tx version")
  need (!(decide (tx.nVersion = 5) && decide (penv.time < (params.STABLETIME : Int) + 5 * 60)))
    (.invalid "Old tx version")
  need (!(decide (tx.nVersion ≤ 5) && decide ((params.MASTERKEYDUMMY : Int) - 5 * 60 < penv.time)))
    (.invalid "Old tx version")
  need (!(decide (tx.nVersion = 6) && decide (penv.time < (params.MASTERKEYDUMMY : Int) + 2 * 60)))
    (.invalid "Old tx version")

def standardRules (tx : CTransaction H) : Res Unit := do
  need (penv.prematurewitness || !tx.hasWitness || penv.witnessEnabled)
    (.dos 0 REJECT_NONSTANDARD "no-witness-yet" true)
  match penv.isStandardTx tx with
  | some reason => need (!penv.fRequireStandard) (.nonstandard reason)
  | none => pure ()
  need (penv.checkFinalTx tx) (.nonstandard "non-final")

def nicknameConflict (txin mtxin : CTxIn H) : Res Unit := do
  need (!decide (toUpperCopy txin.nickname = toUpperCopy mtxin.nickname))
    (.duplicate "There is already a transaction with this nickname in the mempool.")
  need (!(decide (txin.address = mtxin.address) && !signedByMaster env txin))
    (.duplicate "There is already a transaction with this address for the nickname in the mempool.")

/-- one round of the check for conflicts: a nickname input is compared with those of the pool, a coin
input may replace a transaction that allows it -/
def findConflict (pool : CTxMemPool H) (setConflicts : List H) (txin : CTxIn H) : Res (List H) :=
  if txin.isnickname then
    each (nicknameConflict env txin) (nicknameInputs pool.txs) >>= fun _ => .ok setConflicts
  else match (pool.nextTx txin.prevout).bind (pool.find env) with
    | none => .ok setConflicts
    | some conflict =>
      if setConflicts.contains (conflict.tx.getHash env) then .ok setConflicts
      else do
        need (penv.fEnableReplacement &&
            conflict.tx.vin.any fun i => decide (i.nSequence ≤ MAX_BIP125_RBF_SEQUENCE))
          (.duplicate "txn-mempool-conflict")
        pure (setConflicts ++ [conflict.tx.getHash env])

def inputExists (a : ActiveChain H) (tx : CTransaction H) (txin : CTxIn H) : Res Unit :=
  if !txin.isnickname && !a.view.haveCoin txin.prevout then
    if (List.range tx.vout.length).any fun n => penv.haveCoinInCache ⟨tx.getHash env, UInt32.ofNat n⟩
    then .error (.duplicate "txn-already-known")
    else .error .unsaid
  else .ok ()

def policyRules (args : AcceptArgs) (view : CCoinsViewCache H) (tx : CTransaction H) (nFees : Int) :
    Res Unit := do
  need (!penv.fRequireStandard || penv.areInputsStandard tx) (.nonstandard "bad-txns-nonstandard-inputs")
  need (!tx.hasWitness || !penv.fRequireStandard || penv.isWitnessStandard tx)
    (.dos 0 REJECT_NONSTANDARD "bad-witness-nonstandard" true)
  let nSigOpsCost := env.getTransactionSigOpCost tx
    (tx.coinInputs.map fun i => (view.accessCoin i.prevout).scriptPubKey) STANDARD_SCRIPT_VERIFY_FLAGS
  need (decide (nSigOpsCost ≤ MAX_STANDARD_TX_SIGOPS_COST)) (.nonstandard "bad-txns-too-many-sigops")
  let nModifiedFees := nFees + penv.mapDeltas (tx.getHash env)
  let nSize := penv.getTxSize tx
  let mempoolRejectFee := getFee penv.minFeeRate nSize
  need (args.bypass_limits || !decide (0 < mempoolRejectFee) || decide (mempoolRejectFee ≤ nModifiedFees))
    (.lowFee "mempool min fee not met")
  need (args.bypass_limits || decide (getFee penv.minRelayTxFee nSize ≤ nModifiedFees) || tx.isNick)
    (.lowFee "min relay fee not met")
  need (decide (args.nAbsurdFee = 0) || decide (nFees ≤ args.nAbsurdFee))
    (.dos 0 REJECT_HIGHFEE "absurdly-high-fee" false)
  need (penv.ancestorLimits tx) (.nonstandard "too-long-mempool-chain")

def modifiedFee (e : CTxMemPoolEntry H) : Int := e.nFee + penv.mapDeltas (e.tx.getHash env)

def replacementRules (pool : CTxMemPool H) (tx : CTransaction H) (nFees : Int) (setConflicts : List H) :
    Res (List H) :=
  if setConflicts.isEmpty then .ok []
  else do
    let nSize := penv.getTxSize tx
    let nModifiedFees := nFees + penv.mapDeltas (tx.getHash env)
    let setIterConflicting := setConflicts.filterMap (pool.find env)
    each (fun mi => need (decide (feeRate (modifiedFee env penv mi) (penv.getTxSize mi.tx) <
        feeRate nModifiedFees nSize)) (.lowFee "insufficient fee")) setIterConflicting
    -- `GetCountWithDescendants`, which the source adds, where the statistics are exact
    let nConflictingCount := (setIterConflicting.map fun mi =>
      (pool.calculateDescendants [mi.tx.getHash env]).length).sum
    need (decide (nConflictingCount ≤ 100)) (.nonstandard "too many potential replacements")
    let allConflicting := pool.calculateDescendants (setIterConflicting.map fun mi => mi.tx.getHash env)
    let setConflictsParents := setIterConflicting.flatMap fun mi => mi.tx.vin.map (·.prevout.hash)
    each (fun i => need (setConflictsParents.contains i.prevout.hash || !pool.has env i.prevout.hash)
      (.nonstandard "replacement-adds-unconfirmed")) tx.vin
    let nConflictingFees := ((allConflicting.filterMap (pool.find env)).map (modifiedFee env penv)).sum
    need (decide (nConflictingFees ≤ nModifiedFees)) (.lowFee "insufficient fee")
    need (decide (getFee penv.incrementalRelayFee nSize ≤ nModifiedFees - nConflictingFees))
      (.lowFee "insufficient fee")
    pure allConflicting

def checkNicknameFromMempool (nicks : Nicknames H) (i : CTxIn H) : Res Unit := do
  need (decide (3 ≤ i.nickname.length)) (.invalid "The nickname is too short.")
  need (decide (i.nickname.length ≤ 20)) (.invalid "The nickname is too long.")
  need (i.nickname.all validCharacter) (.invalid "The nickname contains bad characters.")
  need (!nicks.doesNicknameExist i.nickname) (.invalid "This nickname already exists.")
  need i.address.isValid (.invalid "This address is invalid.")
  need (!(decide (0 < (nicks.getNicknameForAddress i.address).length) && !signedByMaster env i))
    (.invalid "This address already has a nickname.")

/-- the coin of an input against the pool and the tip; the last assertion of the first case compares
the fields of the output that a coin keeps -/
def checkCoinFromMempool (a : ActiveChain H) (pool : CTxMemPool H) (i : CTxIn H) : Res Unit := do
  let coin := a.view.accessCoin i.prevout
  need (!coin.isSpent) .unsaid
  match pool.find env i.prevout.hash with
  | none => pure ()
  | some txFrom => match txFrom.tx.vout[i.prevout.n.toNat]? with
    | none => .error (.fault .assertionFailed)
    | some out =>
      need (decide (out.nValueBitCash = coin.nValueBitCash) &&
          decide (out.scriptPubKey = coin.scriptPubKey) && out.currency == coin.currency)
        (.fault .assertionFailed)

def checkInputsFromMempoolAndCache (a : ActiveChain H) (pool : CTxMemPool H) (tx : CTransaction H)
    (flags : BitVec 32) : Res Bool := do
  need (!tx.isCoinBase) (.fault .assertionFailed)
  each (fun i => if i.isnickname then checkNicknameFromMempool env a.nicks i
    else checkCoinFromMempool env a pool i) tx.vin
  checkInputs env.inline a.view tx true flags

def scriptRules (a : ActiveChain H) (pool : CTxMemPool H) (tx : CTransaction H) : Res Unit :=
  let scriptVerifyFlags := penv.promiscuousmempoolflags.getD STANDARD_SCRIPT_VERIFY_FLAGS
  let check (flags : BitVec 32) : Res Bool := checkInputs env.inline a.view tx true flags
  match check scriptVerifyFlags with
  | .error e =>
    -- only the witness is missing, so the transaction itself may be fine
    if !tx.hasWitness &&
        (check (scriptVerifyFlags &&& ~~~(SCRIPT_VERIFY_WITNESS ||| SCRIPT_VERIFY_CLEANSTACK))).isOk &&
        !(check (scriptVerifyFlags &&& ~~~SCRIPT_VERIFY_CLEANSTACK)).isOk
    then .error e.setCorruptionPossible
    else .error e
  | .ok _ =>
    let currentBlockScriptVerifyFlags := env.getBlockScriptFlags a.bestBlock
    match checkInputsFromMempoolAndCache env a pool tx currentBlockScriptVerifyFlags with
    | .ok _ => .ok ()
    | .error e =>
      if !e.isVerdict || ~~~scriptVerifyFlags &&& currentBlockScriptVerifyFlags == 0 then .error e
      else match check MANDATORY_SCRIPT_VERIFY_FLAGS with
        | .error e' => .error (e.after e')
        | .ok _ => .ok ()

def acceptChecks (args : AcceptArgs) (a : ActiveChain H) (pool : CTxMemPool H) (tx : CTransaction H) :
    Res (CTxMemPoolEntry H × List H) := do
  checkTransaction env a.nicks tx true default true
  need (!tx.isCoinBase) (.bad 100 "coinbase")
  poolVersionRules params penv tx
  standardRules penv tx
  need (!pool.has env (tx.getHash env)) (.duplicate "This transaction is already in the mempool.")
  let setConflicts ← run (findConflict env penv pool) [] tx.vin
  each (inputExists env penv a tx) tx.vin
  need (penv.checkSequenceLocks tx) (.nonstandard "non-BIP68-final")
  let nFees ← checkTxInputs env ⟨a.nicks, a.view, a.blocks.length + 1, default, false⟩ none tx
  policyRules env penv args a.view tx nFees
  need ((pool.calculateMemPoolAncestors env tx).all fun hash => !setConflicts.contains hash)
    (.bad 10 "bad-txns-spends-conflicting-tx")
  let allConflicting ← replacementRules env penv pool tx nFees setConflicts
  scriptRules env penv a pool tx
  let fSpendsCoinbase := tx.coinInputs.any fun i => (a.view.accessCoin i.prevout).fCoinBase
  pure (⟨tx, nFees, fSpendsCoinbase⟩, allConflicting)

def CTxMemPool.replace (pool : CTxMemPool H) (allConflicting : List H) (entry : CTxMemPoolEntry H) :
    CTxMemPool H :=
  (pool.removeStaged env allConflicting).addUnchecked env entry

def acceptToMemoryPool (args : AcceptArgs) (a : ActiveChain H) (pool : CTxMemPool H)
    (tx : CTransaction H) : Res Unit × CTxMemPool H :=
  match acceptChecks env params penv args a pool tx with
  | .error e => (.error e, pool)
  | .ok (entry, allConflicting) =>
    if args.test_accept then (.ok (), pool)
    else
      let pool := pool.replace env allConflicting entry
      if args.bypass_limits then (.ok (), pool)
      else
        let pool := pool.limitMempoolSize env penv
        if pool.has env (tx.getHash env) then (.ok (), pool)
        else (.error (.lowFee "mempool full"), pool)

/-! ## what an accepted transaction has passed -/

variable {env params penv}

structure Admitted (env : Env H) (penv : PoolEnv H) (a : ActiveChain H) (pool : CTxMemPool H)
    (entry : CTxMemPoolEntry H) (allConflicting : List H) : Prop where
  checked : checkTransaction env a.nicks entry.tx true default true = .ok ()
  notCoinBase : entry.tx.isCoinBase = false
  new : pool.has env (entry.tx.getHash env) = false
  conflicts : ∃ setConflicts, run (findConflict env penv pool) [] entry.tx.vin = .ok setConflicts ∧
    ∀ hash ∈ setConflicts, pool.has env hash = true → hash ∈ allConflicting
  inputs : each (inputExists env penv a entry.tx) entry.tx.vin = .ok ()
  fee : checkTxInputs env ⟨a.nicks, a.view, a.blocks.length + 1, default, false⟩ none entry.tx =
    .ok entry.nFee

variable {pool : CTxMemPool H} {tx : CTransaction H}
  {entry : CTxMemPoolEntry H} {allConflicting : List H} {args : AcceptArgs}

theorem replacementRules_ok {nFees : Int} {setConflicts : List H}
    (h : replacementRules env penv pool tx nFees setConflicts = .ok allConflicting) :
    ∀ hash ∈ setConflicts, pool.has env hash → hash ∈ allConflicting := by
  intro hash hmem hhas
  unfold replacementRules at h
  split at h
  · next hempty =>
    rw [List.isEmpty_iff.1 hempty] at hmem
    exact absurd hmem not_mem_nil
  · simp only [bind_ok, need_ok, exists_const, pure_ok] at h
    obtain ⟨-, -, -, -, -, -, -, hret⟩ := h
    cases hret
    obtain ⟨e, he⟩ := Option.isSome_iff_exists.1 hhas
    refine Walk.start_reached (mem_map.2 ⟨e, mem_filterMap.2 ⟨hash, hmem, he⟩, ?_⟩)
    exact (find_some he).2

theorem acceptChecks_ok {a : ActiveChain H}
    (h : acceptChecks env params penv args a pool tx = .ok (entry, allConflicting)) :
    entry.tx = tx ∧ Admitted env penv a pool entry allConflicting := by
  simp only [acceptChecks, bind_ok, need_ok, exists_const, pure_ok, Bool.not_eq_true'] at h
  obtain ⟨_, hct, hcb, _, -, _, -, hnew, setConflicts, hconf, _, hin, -, nFees, hfee, _, -, -, all, hall,
    _, -, hret⟩ := h
  cases hret
  exact ⟨rfl, hct, hcb, hnew, ⟨setConflicts, hconf, replacementRules_ok hall⟩, hin, hfee⟩

variable {a : ActiveChain H} {all : List H} {i : CTxIn H}

theorem acceptToMemoryPool_inv {pool' : CTxMemPool H} {r : Res Unit}
    (h : acceptToMemoryPool env params penv args a pool tx = (r, pool')) :
    (pool' = pool ∧ (r = .ok () → args.test_accept)) ∨
      ∃ entry allConflicting, entry.tx = tx ∧ Admitted env penv a pool entry allConflicting ∧
        Shrinks env (pool.replace env allConflicting entry) pool' ∧
        (args.bypass_limits → r = .ok () ∧ pool' = pool.replace env allConflicting entry) := by
  unfold acceptToMemoryPool at h
  cases hc : acceptChecks env params penv args a pool tx with
  | error e =>
    rw [hc] at h
    cases h
    exact .inl ⟨rfl, fun h => nomatch h⟩
  | ok p =>
    obtain ⟨entry, allConflicting⟩ := p
    obtain ⟨htx, hadm⟩ := acceptChecks_ok hc
    rw [hc] at h
    dsimp only at h
    cases htest : args.test_accept with
    | true =>
      rw [htest, if_pos rfl] at h
      cases h
      exact .inl ⟨rfl, fun _ => rfl⟩
    | false =>
      refine .inr ⟨entry, allConflicting, htx, hadm, ?_⟩
      rw [htest, if_neg (by decide)] at h
      cases hb : args.bypass_limits with
      | true =>
        rw [hb, if_pos rfl] at h
        cases h
        exact ⟨.refl env _, fun _ => ⟨rfl, rfl⟩⟩
      | false =>
        rw [hb, if_neg (by decide)] at h
        refine ⟨?_, fun hno => nomatch hno⟩
        split at h <;> cases h <;> exact limitMempoolSize_shrinks penv _

theorem inputExists_ok (h : inputExists env penv a tx i = .ok ()) (hn : i.isnickname = false) :
    a.view.haveCoin i.prevout := by
  by_contra hno
  unfold inputExists at h
  rw [Bool.not_eq_true] at hno
  rw [hn, hno] at h
  simp only [Bool.not_false, Bool.and_self, if_true] at h
  split at h <;> cases h

theorem Admitted.haveCoin (h : Admitted env penv a pool entry all) : ∀ o ∈ entry.tx.spent, a.view.haveCoin o := by
  intro o ho
  obtain ⟨i, hi, hn, rfl⟩ := mem_spent.1 ho
  exact inputExists_ok (each_ok.1 h.inputs i hi) hn

theorem findConflict_ok (hpool : Indexed env pool) {s t : List H} (h : findConflict env penv pool s i = .ok t) :
    s ⊆ t ∧ (i.isnickname = false → ∀ e ∈ pool.mapTx, i.prevout ∈ e.tx.spent → e.tx.getHash env ∈ t) ∧
      (i.isnickname → ∀ j ∈ nicknameInputs pool.txs, nicknameConflict env i j = .ok ()) := by
  unfold findConflict at h
  cases hn : i.isnickname with
  | true =>
    rw [hn, if_pos rfl, bind_ok] at h
    obtain ⟨_, heach, h⟩ := h
    cases h
    exact ⟨List.Subset.refl _, fun hno => (nomatch hno), fun _ => each_ok.1 heach⟩
  | false =>
    rw [hn, if_neg (by decide)] at h
    refine ⟨?_, fun _ e he ho => ?_, fun hno => nomatch hno⟩
    · split at h
      · cases h
        exact List.Subset.refl _
      · split at h
        · cases h
          exact List.Subset.refl _
        · simp only [bind_ok, need_ok, exists_const, pure_ok] at h
          cases h.2
          exact subset_append_left _ _
    · rw [hpool.nextTx_of_spent he ho, Option.bind_some, hpool.find_of_mem he] at h
      dsimp only at h
      split at h
      · next hin =>
        cases h
        simpa using hin
      · simp only [bind_ok, need_ok, exists_const, pure_ok] at h
        cases h.2
        exact mem_append_right _ mem_cons_self

theorem findConflicts_ok (hpool : Indexed env pool) {l : List (CTxIn H)}
    {s t : List H} (h : run (findConflict env penv pool) s l = .ok t) : s ⊆ t ∧ ∀ i ∈ l,
      (i.isnickname = false → ∀ e ∈ pool.mapTx, i.prevout ∈ e.tx.spent → e.tx.getHash env ∈ t) ∧
      (i.isnickname → ∀ j ∈ nicknameInputs pool.txs, nicknameConflict env i j = .ok ()) := by
  induction l generalizing s with
  | nil =>
    cases h
    exact ⟨List.Subset.refl _, fun i hi => absurd hi not_mem_nil⟩
  | cons i l ih =>
    obtain ⟨u, hi, hl⟩ := run_cons_ok.1 h
    obtain ⟨hsu, hspent, hnick⟩ := findConflict_ok hpool hi
    obtain ⟨hut, hrest⟩ := ih hl
    refine ⟨List.Subset.trans hsu hut, forall_mem_cons.2 ⟨⟨fun hn e he ho => ?_, hnick⟩, hrest⟩⟩
    exact hut (hspent hn e he ho)

theorem Admitted.indexed (h : Admitted env penv a pool entry all) (hpool : Indexed env pool) :
    Indexed env (pool.replace env all entry) := by
  obtain ⟨hne, -, -, -, hdup, hvin, -⟩ := checkTransaction_ok env h.checked
  obtain ⟨setConflicts, hconf, hall⟩ := h.conflicts
  have hcoins : entry.tx.spent.Nodup ∧ null ∉ entry.tx.spent := by
    cases hnick : entry.tx.isNick with
    | true =>
      have hnil : entry.tx.spent = [] := by
        refine eq_nil_iff_forall_not_mem.2 fun o ho => ?_
        obtain ⟨i, hi, hn, -⟩ := mem_spent.1 ho
        rw [all_eq_true.1 hnick i hi] at hn
        cases hn
      rw [hnil]
      exact ⟨nodup_nil, not_mem_nil⟩
    | false =>
      refine ⟨((filter_sublist).map _).nodup (hdup rfl hnick), fun hnull => ?_⟩
      obtain ⟨i, hi, -, hio⟩ := mem_spent.1 hnull
      rw [checkVin, h.notCoinBase, hnick] at hvin
      have hnot := need_ok.1 (each_ok.1 hvin i hi)
      rw [hio, isNull_iff.2 rfl] at hnot
      cases hnot
  refine ((removeStaged_shrinks pool all).indexed hpool).addUnchecked ?_ hcoins.1 hcoins.2 ?_
  · intro e he heq
    have hhas := has_iff.2 ⟨e, (mem_removeStaged.1 he).1, heq⟩
    rw [h.new] at hhas
    cases hhas
  · -- a spender of one of its coins is a conflict, and gone
    intro e he o ho heo
    obtain ⟨hmem, hstay⟩ := mem_removeStaged.1 he
    obtain ⟨i, hi, hn, rfl⟩ := mem_spent.1 ho
    have hfound := ((findConflicts_ok hpool hconf).2 i hi).1 hn e hmem heo
    exact hstay (hall _ hfound (has_iff.2 ⟨e, hmem, rfl⟩))

theorem mem_replace {e : CTxMemPoolEntry H} : e ∈ (pool.replace env all entry).mapTx ↔
      (e ∈ pool.mapTx ∧ e.tx.getHash env ∉ all) ∨ e = entry := by
  show e ∈ (pool.removeStaged env all).mapTx ++ [entry] ↔ _
  rw [mem_append, mem_removeStaged, mem_singleton]

/-! ## calls in a run -/

structure PoolState (H : Type) [Inhabited H] [DecidableEq H] where
  chain : ActiveChain H
  pool : CTxMemPool H

def PoolState.start (params : Params H) : PoolState H := ⟨.genesis params, .empty⟩

theorem Indexed.withLocal (h : Indexed env pool) (l : LocalEnv H) :
    Indexed (env.withLocal l) pool := ⟨h.hashes, h.spent, h.notNull, h.listed, h.only⟩

theorem Indexed.ofLocal {l : LocalEnv H} (h : Indexed (env.withLocal l) pool) :
    Indexed env pool := ⟨h.hashes, h.spent, h.notNull, h.listed, h.only⟩

theorem accept_step {l : LocalEnv H} {args : AcceptArgs} {a : ActiveChain H} {pool : CTxMemPool H}
    (hpool : Indexed env pool) (tx : CTransaction H) :
    Indexed env (acceptToMemoryPool (env.withLocal l) params penv args a pool tx).2 ∧
      ((acceptToMemoryPool (env.withLocal l) params penv args a pool tx).2 = pool ∨
        ∃ entry all, entry.tx = tx ∧ Admitted (env.withLocal l) penv a pool entry all ∧
          (acceptToMemoryPool (env.withLocal l) params penv args a pool tx).2.mapTx.Sublist
            (pool.replace env all entry).mapTx) := by
  generalize hp : acceptToMemoryPool (env.withLocal l) params penv args a pool tx = p
  obtain ⟨hsame, -⟩ | ⟨entry, all, htx, hadm, hshrink, -⟩ := acceptToMemoryPool_inv hp
  · rw [hsame]
    exact ⟨hpool, .inl rfl⟩
  · refine ⟨(hshrink.indexed (hadm.indexed (hpool.withLocal l))).ofLocal, .inr ?_⟩
    exact ⟨entry, all, htx, hadm, hshrink.sublist⟩

end BitCash
