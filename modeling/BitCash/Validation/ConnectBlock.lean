import BitCash.Validation.CheckBlock

/-!
# Connecting a block

`CChainState::ConnectBlock` of `validation.cpp`.
-/

set_option linter.unusedSectionVars false

namespace BitCash
open Checks CCoinsViewCache

variable {H : Type} [Inhabited H] [DecidableEq H] (env : Env H) (params : Params H)

/-! ## index entries -/

structure BlockStatus where
  validity : Nat
  haveData : Bool
  haveUndo : Bool
  failedValid : Bool
  failedChild : Bool
  deriving DecidableEq

def BLOCK_VALID_TREE : Nat := 2
def BLOCK_VALID_TRANSACTIONS : Nat := 3
def BLOCK_VALID_SCRIPTS : Nat := 5

def BlockStatus.failed (s : BlockStatus) : Bool := s.failedValid || s.failedChild

structure CBlockIndex (H : Type) where
  hash : H
  pprev : Option H
  nHeight : Nat
  nChainWork : Nat
  nTx : Nat
  nChainTx : Nat
  nStatus : BlockStatus
  nSequenceId : Int
  nDataPos : Nat
  nUndoPos : Nat
  deriving DecidableEq

namespace CBlockIndex

def isValid (p : CBlockIndex H) (nUpTo : Nat) : Bool :=
  !p.nStatus.failed && decide (nUpTo ≤ p.nStatus.validity)

def raiseValidity (p : CBlockIndex H) (nUpTo : Nat) : CBlockIndex H :=
  if p.nStatus.failed then p
  else if p.nStatus.validity < nUpTo then { p with nStatus := { p.nStatus with validity := nUpTo } }
  else p

end CBlockIndex

/-! ## the transaction loop -/

def paysDevs (nHeight : Nat) (tx : CTransaction H) : Bool :=
  tx.vout.any fun o => decide (o.scriptPubKey = getScriptForRawPubKey dev1ScriptPubKey) &&
    decide (o.nValue = getBlockSubsidyDevs params nHeight)

structure ConnectLoop (H : Type) where
  i : Nat
  view : CCoinsViewCache H
  nFees : Int
  nSigOpsCost : Nat
  vtxundo : List (List Coin)
  queued : Bool

structure ConnectContext (H : Type) where
  pindex : CBlockIndex H
  nicks : Nicknames H
  fJustCheck : Bool

/-- the fees so far, with those of the transaction; a coinbase must pay the developers instead -/
def connectFee (ctx : ConnectContext H) (header : CBlockHeader H) (s : ConnectLoop H)
    (tx : CTransaction H) : Res Int :=
  if tx.isCoinBase then
    need (paysDevs params ctx.pindex.nHeight tx) (.bad 100 "bad-cb-dev-payment") >>= fun _ => .ok s.nFees
  else do
    let txfee ← checkTxInputs env
      ⟨ctx.nicks, s.view, ctx.pindex.nHeight, header.getHash env, true⟩ (some header) tx
    let nFees ← addAmount s.nFees txfee
    need (moneyRange nFees) (.bad 100 "bad-txns-accumulated-fee-outofrange")
    need (env.sequenceLocks tx (tx.vin.map fun i => ((s.view.accessCoin i.prevout).nHeight : Int))
        ctx.pindex.hash)
      (.bad 100 "bad-txns-nonfinal")
    pure nFees

def checkInputScript (view : CCoinsViewCache H) (tx : CTransaction H) (flags : BitVec 32)
    (s : Option UInt8 × Bool) (p : CTxIn H × Nat) : Res (Option UInt8 × Bool) :=
  if p.1.isnickname then .ok s
  else do
    let coin := view.accessCoin p.1.prevout
    need (!coin.isSpent) (.fault .assertionFailed)
    let currency := s.1.getD coin.spendCurrency
    need (currency == coin.spendCurrency) (.bad 100 "bad-txns-input-currencies-not-equal")
    let check := env.scriptCheck coin.scriptPubKey coin.nValue tx p.2
    need (env.scriptThreads || check flags || flags &&& STANDARD_NOT_MANDATORY_VERIFY_FLAGS == 0 ||
        !check (flags &&& ~~~STANDARD_NOT_MANDATORY_VERIFY_FLAGS))
      (.dos 0 0x40 "non-mandatory-script-verify-flag" false)
    need (env.scriptThreads || check flags) (.bad 100 "mandatory-script-verify-flag-failed")
    pure (some currency, s.2 && check flags)

def checkInputs (view : CCoinsViewCache H) (tx : CTransaction H) (fScriptChecks : Bool)
    (flags : BitVec 32) : Res Bool :=
  if tx.isCoinBase || !fScriptChecks || env.scriptCached tx flags then .ok true
  else run (checkInputScript env view tx flags) (none, true) tx.vin.zipIdx >>= fun s => .ok s.2

def connectTx (ctx : ConnectContext H) (header : CBlockHeader H) (s : ConnectLoop H)
    (tx : CTransaction H) : Res (ConnectLoop H) := do
  let flags := env.getBlockScriptFlags ctx.pindex.hash
  let nFees ← connectFee env params ctx header s tx
  let nSigOpsCost := s.nSigOpsCost + env.getTransactionSigOpCost tx
    (tx.coinInputs.map fun i => (s.view.accessCoin i.prevout).scriptPubKey) flags
  need (decide (nSigOpsCost ≤ MAX_BLOCK_SIGOPS_COST)) (.bad 100 "bad-blk-sigops")
  let scripts ← checkInputs env s.view tx (env.fScriptChecks ctx.pindex.hash) flags
  let updated ← updateCoins env tx s.view ctx.pindex.nHeight
  pure ⟨s.i + 1, updated.1, nFees, nSigOpsCost,
    if s.i = 0 then s.vtxundo else s.vtxundo ++ [updated.2], s.queued && scripts⟩

/-! ## before the fJustCheck exit -/

def checkReward (block : CBlock H) (nHeight : Nat) (nFees : Int) : Res Unit :=
  match block.vtx with
  | [] => .error (.fault .outOfBounds)
  | cb :: _ => do
    let price ← block.getPriceinCurrency 0
    let value ← cb.getValueOutInCurrency 0 price
    need (decide (value ≤ nFees + getBlockSubsidy params nHeight + getBlockSubsidyDevs params nHeight))
      (.bad 100 "bad-cb-amount")

/-- no transaction overwrites an unspent coin, where BIP30 is enforced: below the BIP34 height, as
seen from the parent, and from a fixed height on -/
def checkBIP30 (block : CBlock H) (pindex : CBlockIndex H) (view : CCoinsViewCache H) : Res Unit :=
  if decide ((pindex.nHeight : Int) - 1 < params.BIP34Height) ||
      decide (BIP34_IMPLIES_BIP30_LIMIT ≤ (pindex.nHeight : Int)) then
    each (fun tx => each (fun n => need (!view.haveCoin ⟨tx.getHash env, UInt32.ofNat n⟩)
      (.bad 100 "bad-txns-BIP30")) (List.range tx.vout.length)) block.vtx
  else .ok ()

def abortIfCorrupt (e : Stop) : Stop :=
  match e with
  | .reject r => if r.corruptionPossible then .reject { r with mode := .error } else .reject r
  | e => e

inductive Checked (H : Type) where
  | genesis
  | connected (s : ConnectLoop H)

def connectLoop (ctx : ConnectContext H) (block : CBlock H) (view : CCoinsViewCache H) :
    Res (ConnectLoop H) :=
  run (connectTx env params ctx block.toCBlockHeader) ⟨0, view, 0, 0, [], true⟩ block.vtx

def connectChecks (ctx : ConnectContext H) (block : CBlock H) (view : CCoinsViewCache H) :
    Res (Checked H) := do
  need (decide (ctx.pindex.hash = block.getHash env)) (.fault .assertionFailed)
  let _ ← (checkBlock env params block (!ctx.fJustCheck) (!ctx.fJustCheck)).mapError abortIfCorrupt
  need (decide (ctx.pindex.pprev.getD default = view.hashBlock)) (.fault .assertionFailed)
  if block.getHash env = params.hashGenesisBlock then pure .genesis
  else do
    need ctx.pindex.pprev.isSome (.fault .assertionFailed)
    checkBIP30 env params block ctx.pindex view
    let s ← connectLoop env params ctx block view
    checkReward params block ctx.pindex.nHeight s.nFees
    need s.queued (.bad 100 "block-validation-failed")
    pure (.connected s)

/-! ## after it -/

def writeUndoDataForBlock (undoPos : Res Nat) (pindex : CBlockIndex H) : Res (CBlockIndex H) :=
  if pindex.nStatus.haveUndo then .ok pindex
  else undoPos >>= fun pos =>
    .ok { pindex with nUndoPos := pos, nStatus := { pindex.nStatus with haveUndo := true } }

/-- the coins of the active tip: no transaction hash is null, so none is at the null outpoint, and
`CheckTransaction` lets no other currency in than BitCash and Dollars -/
structure CoinsTip (H : Type) [Inhabited H] where
  coins : CoinsMap H
  null : coins .null = none
  currency : ∀ o c, coins o = some c → c.currency < 2

def tipCoin (tip : CoinsMap H) (o : COutPoint H) : Coin := (tip o).getD Coin.empty

theorem accessCoin_ofBase (tip : CoinsMap H) (hash : H) :
    (ofBase tip hash).accessCoin = tipCoin tip := by
  funext o
  exact accessCoin_of_none rfl

def conversionRule (p0 p1 : Int) (inputcurrency : UInt8) (coinbase : Bool) (o : CTxOut) : Res Unit :=
  if o.currency = inputcurrency then
    need (decide (o.nValue = o.nValueBitCash) || toleratedOut coinbase o)
      (.bad 100 "nValue-unequal-nValueBitCash")
  else if inputcurrency = 0 ∧ o.currency = 1 then
    need (decide (o.nValue = (o.nValueBitCash * p1).tdiv COIN)) (.bad 100 "bad-currency-conversion")
  else if inputcurrency = 1 ∧ o.currency = 0 then
    if p0 = 0 then .error (.fault .divisionByZero)
    else need (decide (o.nValue = (o.nValueBitCash * COIN).tdiv p0)) (.bad 100 "bad-currency-conversion")
  else .ok ()

def checkTxConversions (tip : CoinsMap H) (p0 p1 : Int) (tx : CTransaction H) : Res Unit :=
  each (conversionRule p0 p1 (inputCurrency (tipCoin tip) tx) tx.isCoinBase) tx.vout

def checkConversions (tip : CoinsMap H) (block : CBlock H) : Res Unit := do
  let p0 ← block.getPriceinCurrency 0
  let p1 ← block.getPriceinCurrency 1
  each (checkTxConversions tip p0 p1) block.vtx

/-! ## ConnectBlock -/

structure ConnectState (H : Type) where
  view : CCoinsViewCache H
  pindex : CBlockIndex H
  nicks : Nicknames H

def scriptsValid (p : CBlockIndex H) : CBlockIndex H :=
  if p.isValid BLOCK_VALID_SCRIPTS then p else p.raiseValidity BLOCK_VALID_SCRIPTS

/-- `CChainState::ConnectBlock`; `tip` are the coins of the active tip, `undoPos` is where the undo
record would go.  The view of a failed call is thrown away by every caller; here it is left as it
was. -/
def connectBlock (block : CBlock H) (tip : CoinsMap H) (undoPos : Res Nat) (fJustCheck : Bool)
    (s : ConnectState H) : Res Unit × ConnectState H :=
  match connectChecks env params ⟨s.pindex, s.nicks, fJustCheck⟩ block s.view with
  | .error e => (.error e, s)
  | .ok .genesis =>
    (.ok (), if fJustCheck then s else { s with view := s.view.setBestBlock s.pindex.hash })
  | .ok (.connected c) =>
    if fJustCheck then (.ok (), { s with view := c.view })
    else match writeUndoDataForBlock undoPos s.pindex with
      | .error e => (.error e, s)
      | .ok pindex =>
        let pindex := scriptsValid pindex
        let nicks := addNicknames env s.pindex.hash block.vtx s.nicks
        match checkConversions tip block with
        | .error e => (.error e, { s with pindex := pindex, nicks := nicks })
        | .ok _ => (.ok (), ⟨c.view.setBestBlock s.pindex.hash, pindex, nicks⟩)

/-! ## the required amount -/

def requiredAmount (p0 p1 : Int) (inputcurrency : UInt8) (o : CTxOut) : Option Int :=
  if o.currency = inputcurrency then some o.nValueBitCash
  else if inputcurrency = 0 ∧ o.currency = 1 then some ((o.nValueBitCash * p1).tdiv COIN)
  else if inputcurrency = 1 ∧ o.currency = 0 then some ((o.nValueBitCash * COIN).tdiv p0)
  else none

variable {o : CTxOut} {c : UInt8} {p0 p1 : Int}

theorem requiredAmount_self (h : o.currency = c) : requiredAmount p0 p1 c o = some o.nValueBitCash := if_pos h

theorem requiredAmount_cases {a : Int} (ho : o.currency ≠ c)
    (ha : requiredAmount p0 p1 c o = some a) : (c = 0 ∧ o.currency = 1) ∧ a = (o.nValueBitCash * p1).tdiv COIN ∨
      ¬(c = 0 ∧ o.currency = 1) ∧ (c = 1 ∧ o.currency = 0) ∧ a = (o.nValueBitCash * COIN).tdiv p0 := by
  rw [requiredAmount, if_neg ho] at ha
  split at ha
  · rename_i hbuy
    exact .inl ⟨hbuy, (Option.some.inj ha).symm⟩
  · rename_i hbuy
    split at ha
    · rename_i hsell
      exact .inr ⟨hbuy, hsell, (Option.some.inj ha).symm⟩
    · cases ha

theorem conversionRule_other {a : Int} {cb : Bool} (ho : o.currency ≠ c) (ha : requiredAmount p0 p1 c o = some a)
    (h : conversionRule p0 p1 c cb o = .ok ()) : o.nValue = a := by
  rcases requiredAmount_cases ho ha with ⟨hbuy, rfl⟩ | ⟨hbuy, hsell, rfl⟩
  · rw [conversionRule, if_neg ho, if_pos hbuy] at h
    simpa using h
  · rw [conversionRule, if_neg ho, if_neg hbuy, if_pos hsell] at h
    split at h
    · cases h
    · simpa using h

theorem conversionRule_required {a : Int}
    (h : conversionRule p0 p1 c false o = .ok ()) (ha : requiredAmount p0 p1 c o = some a) : o.nValue = a := by
  by_cases ho : o.currency = c
  · rw [requiredAmount_self ho] at ha
    rw [conversionRule, if_pos ho] at h
    cases ha
    simpa [toleratedOut] using h
  · exact conversionRule_other ho ha h

/-! ## what an accepted block went through -/

variable {env params}

variable {ctx : ConnectContext H}
  {view : CCoinsViewCache H} {header : CBlockHeader H} {tx : CTransaction H} {r : Checked H}

theorem connectTx_ok {s t : ConnectLoop H} (h : connectTx env params ctx header s tx = .ok t) :
    connectFee env params ctx header s tx = .ok t.nFees ∧ t.i = s.i + 1 ∧
      ∃ undo, updateCoins env tx s.view ctx.pindex.nHeight = .ok (t.view, undo) := by
  simp only [connectTx, bind_ok, need_ok, exists_const] at h
  obtain ⟨nFees, hfee, -, scripts, -, ⟨view, undo⟩, hup, hret⟩ := h
  cases hret
  exact ⟨hfee, rfl, undo, hup⟩

theorem connectFee_ok {s : ConnectLoop H} {nFees : Int} (hcb : tx.isCoinBase = false)
    (h : connectFee env params ctx header s tx = .ok nFees) :
    ∃ txfee, checkTxInputs env ⟨ctx.nicks, s.view, ctx.pindex.nHeight, header.getHash env, true⟩
        (some header) tx = .ok txfee ∧ nFees = s.nFees + txfee ∧ moneyRange nFees := by
  rw [connectFee, hcb] at h
  simp only [Bool.false_eq_true, if_false, bind_ok, need_ok, exists_const, addAmount_ok, pure_ok] at h
  obtain ⟨txfee, hin, t, ⟨-, rfl⟩, hr, -, hret⟩ := h
  cases hret
  exact ⟨txfee, hin, rfl, hr⟩

theorem connectChecks_iff {block : CBlock H} :
    connectChecks env params ctx block view = .ok r ↔ ctx.pindex.hash = block.getHash env ∧
      (∃ b, checkBlock env params block (!ctx.fJustCheck) (!ctx.fJustCheck) = .ok b) ∧
      ctx.pindex.pprev.getD default = view.hashBlock ∧
      ((block.getHash env = params.hashGenesisBlock ∧ r = .genesis) ∨
        (block.getHash env ≠ params.hashGenesisBlock ∧
          ctx.pindex.pprev.isSome ∧ checkBIP30 env params block ctx.pindex view = .ok () ∧
          ∃ s, connectLoop env params ctx block view = .ok s ∧
            checkReward params block ctx.pindex.nHeight s.nFees = .ok () ∧ s.queued ∧ r = .connected s)) := by
  have hmap : ∀ x : Res (CBlock H), (∃ b, x.mapError abortIfCorrupt = .ok b) ↔ ∃ b, x = .ok b := by
    intro x
    cases x with
    | error e => simp [Except.mapError]
    | ok b => simp [Except.mapError]
  simp only [connectChecks, bind_ok, need_ok, exists_const, decide_eq_true_eq]
  rw [exists_and_right, hmap]
  refine and_congr_right fun _ => and_congr_right fun _ => and_congr_right fun _ => ?_
  by_cases hg : block.getHash env = params.hashGenesisBlock
  · rw [if_pos hg]
    constructor
    · intro h
      exact .inl ⟨hg, (Except.ok.inj h).symm⟩
    · rintro (⟨-, rfl⟩ | ⟨hne, -⟩)
      · rfl
      · exact absurd hg hne
  · rw [if_neg hg]
    simp only [bind_ok, need_ok, exists_const]
    constructor
    · rintro ⟨hsome, _, hbip, s, hs, _, hr, hq, hret⟩
      cases hret
      exact .inr ⟨hg, hsome, hbip, s, hs, hr, hq, rfl⟩
    · rintro (⟨h, -⟩ | ⟨-, hsome, hbip, s, hs, hr, hq, rfl⟩)
      · exact absurd h hg
      · exact ⟨hsome, (), hbip, s, hs, (), hr, hq, rfl⟩

theorem connectChecks_ok {block : CBlock H} (h : connectChecks env params ctx block view = .ok r) :
    (∃ b, checkBlock env params block (!ctx.fJustCheck) (!ctx.fJustCheck) = .ok b) ∧
      ((block.getHash env = params.hashGenesisBlock ∧ r = .genesis) ∨
        (block.getHash env ≠ params.hashGenesisBlock ∧ ∃ s, r = .connected s ∧
          connectLoop env params ctx block view = .ok s ∧
          checkReward params block ctx.pindex.nHeight s.nFees = .ok ())) := by
  obtain ⟨-, hb, -, hgen | ⟨hne, -, -, s, hs, hr, -, rfl⟩⟩ := connectChecks_iff.1 h
  · exact ⟨hb, .inl hgen⟩
  · exact ⟨hb, .inr ⟨hne, s, rfl, hs, hr⟩⟩

structure Accepts (env : Env H) (params : Params H) (block : CBlock H) (tip : CoinsMap H)
    (undoPos : Res Nat) (s t : ConnectState H) : Prop where
  ok : connectBlock env params block tip undoPos false s = (.ok (), t)
  connected : block.getHash env ≠ params.hashGenesisBlock

def ConnectState.context (s : ConnectState H) : ConnectContext H := ⟨s.pindex, s.nicks, false⟩

section
variable {block : CBlock H} {tip : CoinsMap H} {undoPos : Res Nat} {s t : ConnectState H}

theorem Accepts.steps (h : Accepts env params block tip undoPos s t) :
    ∃ c p, connectChecks env params s.context block s.view = .ok (.connected c) ∧
      writeUndoDataForBlock undoPos s.pindex = .ok p ∧ checkConversions tip block = .ok () ∧
      t = ⟨c.view.setBestBlock s.pindex.hash, scriptsValid p, addNicknames env s.pindex.hash block.vtx s.nicks⟩ := by
  have hok := h.ok
  unfold connectBlock at hok
  cases hc : connectChecks env params ⟨s.pindex, s.nicks, false⟩ block s.view with
  | error e => rw [hc] at hok; cases hok
  | ok r =>
    rw [hc] at hok
    obtain ⟨-, ⟨hg, -⟩ | ⟨-, c, rfl, -⟩⟩ := connectChecks_ok hc
    · exact absurd hg h.connected
    · cases hw : writeUndoDataForBlock undoPos s.pindex with
      | error e => simp only [hw] at hok; cases hok
      | ok p =>
        simp only [hw] at hok
        cases hv : checkConversions tip block with
        | error e => rw [hv] at hok; cases hok
        | ok _ =>
          rw [hv] at hok
          cases hok
          exact ⟨c, p, hc, rfl, rfl, rfl⟩

theorem Accepts.inv (h : Accepts env params block tip undoPos s t) :
    ∃ c, connectLoop env params s.context block s.view = .ok c ∧
      checkReward params block s.pindex.nHeight c.nFees = .ok () ∧
      checkConversions tip block = .ok () ∧ t.view.getCoin = c.view.getCoin ∧
      ∃ b, checkBlock env params block true true = .ok b := by
  obtain ⟨c, p, hc, -, hv, rfl⟩ := h.steps
  obtain ⟨hb, ⟨-, hno⟩ | ⟨-, c', heq, hl, hr⟩⟩ := connectChecks_ok hc
  · cases hno
  · cases heq
    exact ⟨c, hl, hr, hv, rfl, hb⟩

end

variable (env params)

/-! ## what a failed call leaves behind -/

def CBlockIndex.getUndoPos (p : CBlockIndex H) : Option Nat :=
  if p.nStatus.haveUndo then some p.nUndoPos else none

def Untouched (s t : ConnectState H) : Prop :=
  t.nicks = s.nicks ∧ t.pindex.nStatus.validity = s.pindex.nStatus.validity ∧
    t.pindex.getUndoPos = s.pindex.getUndoPos

structure LateReject (block : CBlock H) (tip : CoinsMap H) (undoPos : Res Nat) (fJustCheck : Bool)
    (s : ConnectState H) : Prop where
  connecting : fJustCheck = false
  checks : ∃ c, connectChecks env params ⟨s.pindex, s.nicks, false⟩ block s.view = .ok (.connected c)
  undo : ∃ p, writeUndoDataForBlock undoPos s.pindex = .ok p
  conversions : ∃ e, checkConversions tip block = .error e

theorem scriptsValid_validity (p : CBlockIndex H) : (scriptsValid p).nStatus.validity = p.nStatus.validity ↔
      p.nStatus.failed ∨ BLOCK_VALID_SCRIPTS ≤ p.nStatus.validity := by
  unfold scriptsValid CBlockIndex.raiseValidity CBlockIndex.isValid
  cases p.nStatus.failed with
  | true => simp
  | false =>
    by_cases h : BLOCK_VALID_SCRIPTS ≤ p.nStatus.validity
    · simp [h]
    · have hlt : p.nStatus.validity < BLOCK_VALID_SCRIPTS := Nat.lt_of_not_le h
      simp [h, hlt, Nat.ne_of_gt hlt]

@[simp] theorem scriptsValid_getUndoPos (p : CBlockIndex H) : (scriptsValid p).getUndoPos = p.getUndoPos := by
  unfold scriptsValid CBlockIndex.raiseValidity
  repeat' split
  all_goals rfl

theorem writeUndoDataForBlock_getUndoPos {undoPos : Res Nat} {p q : CBlockIndex H}
    (h : writeUndoDataForBlock undoPos p = .ok q) : (q.getUndoPos = p.getUndoPos ↔ p.nStatus.haveUndo) ∧
      q.nStatus.failed = p.nStatus.failed ∧ q.nStatus.validity = p.nStatus.validity := by
  unfold writeUndoDataForBlock at h
  cases hu : p.nStatus.haveUndo with
  | true =>
    rw [hu, if_pos rfl] at h
    cases h
    simp
  | false =>
    rw [hu] at h
    obtain ⟨pos, -, h⟩ := bind_ok.1 h
    cases h
    simp [CBlockIndex.getUndoPos, hu, BlockStatus.failed]

theorem connectBlock_error {block : CBlock H} {tip : CoinsMap H} {undoPos : Res Nat}
    {fJustCheck : Bool} {s t : ConnectState H} {e : Stop}
    (h : connectBlock env params block tip undoPos fJustCheck s = (.error e, t)) :
    (¬ LateReject env params block tip undoPos fJustCheck s ∧ t = s) ∨
      (LateReject env params block tip undoPos fJustCheck s ∧ ∃ p, writeUndoDataForBlock undoPos s.pindex = .ok p ∧
          t = { s with pindex := scriptsValid p, nicks := addNicknames env s.pindex.hash block.vtx s.nicks }) := by
  unfold connectBlock at h
  cases hc : connectChecks env params ⟨s.pindex, s.nicks, fJustCheck⟩ block s.view with
  | error e' =>
    rw [hc] at h
    cases h
    refine .inl ⟨fun hl => ?_, rfl⟩
    obtain ⟨c, hc'⟩ := hl.checks
    rw [hl.connecting, hc'] at hc
    cases hc
  | ok r =>
    rw [hc] at h
    cases r with
    | genesis => cases h
    | connected c =>
      cases fJustCheck with
      | true => cases h
      | false =>
        cases hw : writeUndoDataForBlock undoPos s.pindex with
        | error e' =>
          simp only [hw] at h
          cases h
          refine .inl ⟨fun hl => ?_, rfl⟩
          obtain ⟨p, hp⟩ := hl.undo
          rw [hp] at hw
          cases hw
        | ok p =>
          simp only [hw] at h
          cases hv : checkConversions tip block with
          | ok _ => rw [hv] at h; cases h
          | error e' =>
            rw [hv] at h
            cases h
            exact .inr ⟨⟨rfl, ⟨c, hc⟩, ⟨p, hw⟩, ⟨e, hv⟩⟩, p, rfl, rfl⟩

/-- **a failed connection leaves no trace** exactly when it does not fail at the conversion rule, or
everything written before that rule was there already -/
theorem connectBlock_untouched_iff {block : CBlock H} {tip : CoinsMap H} {undoPos : Res Nat}
    {fJustCheck : Bool} {s t : ConnectState H} {e : Stop}
    (h : connectBlock env params block tip undoPos fJustCheck s = (.error e, t)) :
    Untouched s t ↔ (LateReject env params block tip undoPos fJustCheck s → s.pindex.nStatus.haveUndo = true ∧
      (s.pindex.nStatus.failed = true ∨ BLOCK_VALID_SCRIPTS ≤ s.pindex.nStatus.validity) ∧
      addNicknames env s.pindex.hash block.vtx s.nicks = s.nicks) := by
  rcases connectBlock_error env params h with ⟨hl, rfl⟩ | ⟨hl, p, hp, rfl⟩
  · simp [Untouched, hl]
  · obtain ⟨hundo, hfailed, hval⟩ := writeUndoDataForBlock_getUndoPos hp
    have hvalid := scriptsValid_validity p
    rw [hfailed, hval] at hvalid
    simp only [Untouched, hl, true_implies, scriptsValid_getUndoPos, hundo, hvalid]
    tauto

def symCoinbase (vout : List CTxOut) (h : vout.all (CTxOut.decoded 6) = true) :
    CTransaction Digest :=
  ⟨6, [.ofOutPoint .null [0x52, 2]], vout, 0, by decide, h⟩

def devOut (nValueBitCash : Int) : CTxOut :=
  .of 2150000000 nValueBitCash (getScriptForRawPubKey dev1ScriptPubKey) 0

def symBlock (prices : CPriceInfo) (vtx : List (CTransaction Digest)) : CBlock Digest :=
  { symHeader (.atom 1) (blockMerkleRoot symEnv vtx).1 prices with vtx := vtx, fChecked := false }

def symIndex (h : CBlockHeader Digest) : CBlockIndex Digest :=
  ⟨h.getHash symEnv, some (.atom 1), 2, 3, 1, 3, ⟨3, true, false, false, false⟩, 1, 0, 0⟩

def bobTx : CTransaction Digest :=
  ⟨6, [.ofNickname [98, 111, 98] dev1ScriptPubKey dev1ScriptPubKey.vch false false default], [], 0,
    by decide, by decide⟩

def bobBlock : CBlock Digest :=
  symBlock (pricesAt 1000000000 1000000000 (by decide))
    [symCoinbase [devOut 0] (by decide), bobTx]

def emptyState (block : CBlock Digest) : ConnectState Digest :=
  ⟨.ofBase (fun _ => none) (.atom 1), symIndex block.toCBlockHeader, .empty⟩

def connectSymbolic (block : CBlock Digest) : Res Unit × ConnectState Digest :=
  connectBlock symEnv symMain block (fun _ => none) (.ok 7) false (emptyState block)

/-- the coinbase of `bobBlock` breaks the conversion rule; the nickname stays registered, the undo
position set and the validity raised -/
theorem connectBlock_leaves_traces : (connectSymbolic bobBlock).1 = .error (.bad 100 "nValue-unequal-nValueBitCash") ∧
      (emptyState bobBlock).nicks.doesNicknameExist [98, 111, 98] = false ∧
      (connectSymbolic bobBlock).2.nicks.doesNicknameExist [98, 111, 98] = true ∧
      (emptyState bobBlock).pindex.nStatus.validity = 3 ∧ (connectSymbolic bobBlock).2.pindex.nStatus.validity = 5 ∧
      (emptyState bobBlock).pindex.getUndoPos = none ∧ (connectSymbolic bobBlock).2.pindex.getUndoPos = some 7 := by
  decide

def unpaidBlock : CBlock Digest :=
  symBlock (pricesAt 1000000000 1000000000 (by decide))
    [symCoinbase [.of 0 0 [] 0] (by decide), bobTx]

/-- a block that is rejected before the writes leaves no trace -/
theorem connectBlock_untouched_unpaid : (connectSymbolic unpaidBlock).1 = .error (.bad 100 "bad-cb-dev-payment") ∧
      Untouched (emptyState unpaidBlock) (connectSymbolic unpaidBlock).2 := by
  have herr : (connectSymbolic unpaidBlock).1 = .error (.bad 100 "bad-cb-dev-payment") := by
    decide
  refine ⟨herr, (connectBlock_untouched_iff symEnv symMain (Prod.ext herr rfl)).2 fun hl => ?_⟩
  obtain ⟨c, hc⟩ := hl.checks
  have hstop : (connectChecks symEnv symMain
      ⟨(emptyState unpaidBlock).pindex, (emptyState unpaidBlock).nicks, false⟩ unpaidBlock
      (emptyState unpaidBlock).view).isOk = false := by
    decide
  rw [hc] at hstop
  cases hstop

/-! ## a node with one coin -/

def tenTip : CoinsMap Digest := fun o =>
  if o = ⟨.atom 7, 0⟩ then some ⟨10, 10, [], 0, 1, false⟩ else none

def tenCoins : CoinsTip Digest where
  coins := tenTip
  null := by decide
  currency o c h := by
    unfold tenTip at h
    split at h
    · cases h
      decide
    · cases h

def tenState (block : CBlock Digest) : ConnectState Digest :=
  ⟨.ofBase tenTip (.atom 1), symIndex block.toCBlockHeader, .empty⟩

def spendTen (vout : List CTxOut) (h : vout.all (CTxOut.decoded 6) = true) : CTransaction Digest :=
  ⟨6, [.ofOutPoint ⟨.atom 7, 0⟩ []], vout, 0, .refl true, h⟩

def halfDollar : CPriceInfo := pricesAt 500000000 500000000 (by decide)

def halfBlock (vtx : List (CTransaction Digest)) : CBlock Digest :=
  symBlock halfDollar (symCoinbase [devOut 2150000000] (by decide) :: vtx)

end BitCash
