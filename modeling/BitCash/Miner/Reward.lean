import BitCash.Miner.Template
import BitCash.Ledger.Coinbase

/-!
# The reward of a template

A block template is connected when its coinbase takes no more than the subsidies and the fees, counted at the prices
in its header, and the amounts of its outputs are those of these prices.
-/

namespace BitCash
open Checks Machine Journal List CCoinsViewCache CTransaction Except

variable {H : Type} [Inhabited H] [DecidableEq H]

/-! ## the fees of a block -/

def txFee (env : Env H) (v : CCoinsViewCache H) (header : CBlockHeader H) (tx : CTransaction H) :
    Res Int :=
  tx.getValueOut >>= fun valueOut =>
    convertFee env (some header) (inputCurrency v.accessCoin tx) (spentTotal v tx.vin - valueOut)

def blockFees (env : Env H) (v : CCoinsViewCache H) (header : CBlockHeader H)
    (txs : List (CTransaction H)) : Res Int :=
  collect (txFee env v header) txs >>= fun fees => .ok fees.sum

variable {env : Env H} {params : Params H} {cenv : ChainEnv H} {menv : MinerEnv H}

variable {header : CBlockHeader H} {v : CCoinsViewCache H}

theorem blockFees_of_forall₂ {txs : List (CTransaction H)} {fees : List Int}
    (h : List.Forall₂ (fun tx fee => txFee env v header tx = .ok fee) txs fees) :
    blockFees env v header txs = .ok fees.sum := by
  rw [blockFees, collect_ok.2 h, ok_bind]

def OneCurrency (coins : COutPoint H → Coin) (tx : CTransaction H) : Prop :=
  ∀ i ∈ tx.coinInputs, (coins i.prevout).spendCurrency = inputCurrency coins tx

/-! ## CalculateFeesForBlock -/

variable {tip : CoinsMap H}

theorem calculateFeeIns_ok (hash : H) {l : List (CTxIn H)} {s t : UInt8 × Int}
    (h : run (calculateFeeIn tip) s l = .ok t) : t.2 = s.2 + spentTotal (.ofBase tip hash) l ∧
      (((∀ i ∈ l, i.isnickname) ∧ t.1 = s.1) ∨
        ∃ i ∈ l, i.isnickname = false ∧ t.1 = (tipCoin tip i.prevout).spendCurrency) := by
  induction l generalizing s with
  | nil =>
    cases h
    exact ⟨by simp [spentTotal], .inl ⟨fun i hi => absurd hi not_mem_nil, rfl⟩⟩
  | cons i l ih =>
    obtain ⟨u, hi, hl⟩ := run_cons_ok.1 h
    obtain ⟨htotal, hcur⟩ := ih hl
    unfold calculateFeeIn at hi
    cases hn : i.isnickname with
    | true =>
      rw [hn, if_pos rfl] at hi
      cases hi
      refine ⟨?_, ?_⟩
      · rw [htotal, spentTotal, spentTotal, filter_cons_of_neg (by simp [hn])]
      · rcases hcur with ⟨hall, hsame⟩ | ⟨j, hj, hjn⟩
        · exact .inl ⟨forall_mem_cons.2 ⟨hn, hall⟩, hsame⟩
        · exact .inr ⟨j, mem_cons_of_mem i hj, hjn⟩
    | false =>
      rw [hn, if_neg (by decide)] at hi
      simp only [bind_ok, addAmount_ok] at hi
      obtain ⟨nValueIn, ⟨-, rfl⟩, hret⟩ := hi
      cases hret
      refine ⟨?_, .inr ?_⟩
      · rw [htotal, spentTotal, spentTotal, filter_cons_of_pos (by simp [hn]), map_cons,
          sum_cons, accessCoin_ofBase, add_assoc]
      · rcases hcur with ⟨-, hsame⟩ | ⟨j, hj, hjn⟩
        · exact ⟨i, mem_cons_self, hn, hsame⟩
        · exact ⟨j, mem_cons_of_mem i hj, hjn⟩

theorem calculateFee_ok (hash : H) {tx : CTransaction H}
    (hone : OneCurrency (tipCoin tip) tx) {nFees t : Int} (h : calculateFee env tip header nFees tx = .ok t) :
    ∃ fee, txFee env (.ofBase tip hash) header tx = .ok fee ∧ t = nFees + fee := by
  simp only [calculateFee, bind_ok, addAmount_ok] at h
  obtain ⟨s, hs, valueOut, hv, diff, ⟨-, rfl⟩, fee, hfee, -, rfl⟩ := h
  obtain ⟨htotal, hcur⟩ := calculateFeeIns_ok hash hs
  have hcurrency : s.1 = inputCurrency (tipCoin tip) tx := by
    rcases hcur with ⟨hall, hzero⟩ | ⟨i, hi, hn, hc⟩
    · have hnil : tx.coinInputs = [] := by
        refine filter_eq_nil_iff.2 fun i hi => ?_
        simp [hall i hi]
      rw [hzero, inputCurrency, hnil]
    · rw [hc]
      exact hone i (mem_coinInputs.2 ⟨hi, hn⟩)
  rw [zero_add] at htotal
  refine ⟨fee, ?_, rfl⟩
  rw [txFee, hv, ok_bind, accessCoin_ofBase, ← hcurrency, ← htotal]
  exact hfee

theorem calculateFeesForBlock_ok (hash : H)
    {txs : List (CTransaction H)} (hone : ∀ tx ∈ txs, OneCurrency (tipCoin tip) tx) {nFees : Int}
    (h : calculateFeesForBlock env tip header txs = .ok nFees) :
    blockFees env (.ofBase tip hash) header txs = .ok nFees := by
  obtain ⟨_, -, hrun⟩ := bind_ok.1 h
  obtain ⟨fees, hfees, hsum⟩ := run_sum_rel id (fun _ => True)
    (fun s tx t htx _ ht => ⟨trivial, calculateFee_ok hash (hone tx htx) ht⟩) trivial hrun
  rw [blockFees_of_forall₂ hfees]
  rw [id, id, zero_add] at hsum
  rw [hsum]

/-! ## the fees of ConnectBlock -/

structure Inherits (ids : List H) (nHeight : Nat) (tip : CoinsMap H) (w : CCoinsViewCache H) : Prop where
  base : w.base = tip
  coin : ∀ o, o.hash ∉ ids → (w.accessCoin o).isSpent = false →
    w.accessCoin o = tipCoin tip o ∨ ((w.accessCoin o).fCoinBase = true ∧ (w.accessCoin o).nHeight = nHeight)

theorem Inherits.ofBase (ids : List H) (nHeight : Nat) (tip : CoinsMap H) (hash : H) :
    Inherits ids nHeight tip (.ofBase tip hash) :=
  ⟨rfl, fun o _ _ => .inl (congrFun (accessCoin_ofBase tip hash) o)⟩

variable {tx : CTransaction H} {ids : List H} {ctx : ConnectContext H} {nHeight : Nat} {txfee : Int}
  {header' : CBlockHeader H} {w : CCoinsViewCache H}

theorem Inherits.update (h : Inherits ids nHeight tip v) {undo : List Coin}
    (htx : tx.isCoinBase ∨ tx.getHash env ∈ ids)
    (hup : updateCoins env tx v nHeight = .ok (w, undo)) : Inherits ids nHeight tip w := by
  have hf := updateCoins_follows env hup
  refine ⟨hf.base.trans h.base, fun o ho hunspent => ?_⟩
  rcases hf.cases_at o with ⟨-, hsame⟩ | ⟨-, hnone | ⟨e, he, hspent⟩⟩ | ⟨e, hmem, he, -⟩
  · rw [accessCoin_congr hf.base hsame] at hunspent ⊢
    exact h.coin o ho hunspent
  · left
    rw [accessCoin_of_none hnone, hf.base, h.base, tipCoin]
  · rw [accessCoin_of_entry he, hspent] at hunspent
    cases hunspent
  · rw [accessCoin_of_entry he]
    rcases mem_append.1 hmem with hmem | hmem
    · cases (mem_txSpends hmem).1
    · obtain ⟨out, ⟨n, -, -, hout⟩, hput⟩ := mem_txCreates.1 hmem
      have hcoin : e.coin = Coin.ofOut out nHeight tx.isCoinBase := Write.put.inj hput
      rcases htx with hcb | hid
      · right
        rw [hcoin, hcb]
        exact ⟨rfl, rfl⟩
      · rw [hout] at ho
        exact absurd hid ho

theorem checkTxInputs_mature {ctx : InputContext H} {block : Option (CBlockHeader H)}
    (h : checkTxInputs env ctx block tx = .ok txfee) :
    ∀ i ∈ tx.coinInputs, premature ctx.nSpendHeight (ctx.view.accessCoin i.prevout) = false := by
  intro i hi
  obtain ⟨hmem, hn⟩ := mem_coinInputs.1 hi
  simp only [checkTxInputs, bind_ok, need_ok, exists_const] at h
  obtain ⟨-, s, hs, -⟩ := h
  obtain ⟨l, m, hsplit⟩ := append_of_mem hmem
  rw [hsplit] at hs
  obtain ⟨s₁, s₂, -, hstep, -⟩ := run_split hs
  rcases checkTxIn_ok env hstep with ⟨hnick, -⟩ | ⟨-, hcoin⟩
  · rw [hn] at hnick
    cases hnick
  · exact (checkCoin_ok.1 hcoin).2.1

theorem Inherits.spent {ctx : InputContext H}
    (h : Inherits ids ctx.nSpendHeight tip ctx.view) {block : Option (CBlockHeader H)}
    (hin : checkTxInputs env ctx block tx = .ok txfee)
    (hids : ∀ i ∈ tx.coinInputs, i.prevout.hash ∉ ids) :
    ∀ i ∈ tx.coinInputs, ctx.view.accessCoin i.prevout = tipCoin tip i.prevout := by
  intro i hi
  have hunspent := ((checkTxInputs_ok env hin).2.1 i hi).1
  rcases h.coin i.prevout (hids i hi) hunspent with hsame | ⟨hcb, hheight⟩
  · exact hsame
  · have hmature := checkTxInputs_mature hin i hi
    rw [premature, hcb, hheight, Bool.true_and, decide_eq_false_iff_not] at hmature
    exact absurd (by simp [COINBASE_MATURITY]) hmature

theorem inputCurrency_congr {f g : COutPoint H → Coin}
    (h : ∀ i ∈ tx.coinInputs, f i.prevout = g i.prevout) : inputCurrency f tx = inputCurrency g tx := by
  unfold inputCurrency
  cases hc : tx.coinInputs with
  | nil => rfl
  | cons i l =>
    show (f i.prevout).spendCurrency = (g i.prevout).spendCurrency
    rw [h i (by simp [hc])]

theorem spentTotal_congr (h : ∀ i ∈ tx.coinInputs, v.accessCoin i.prevout = w.accessCoin i.prevout) :
    spentTotal v tx.vin = spentTotal w tx.vin := by
  have hmap : tx.coinInputs.map (fun i => (v.accessCoin i.prevout).nValue) =
      tx.coinInputs.map fun i => (w.accessCoin i.prevout).nValue :=
    map_congr_left fun i hi => by rw [h i hi]
  exact congrArg sum hmap

theorem connectTx_fee (hash : H)
    {s t : ConnectLoop H} (hs : Inherits ids ctx.pindex.nHeight tip s.view) (hcb : tx.isCoinBase = false)
    (hids : ∀ i ∈ tx.coinInputs, i.prevout.hash ∉ ids) (h : connectTx env params ctx header s tx = .ok t) :
    ∃ fee, (OneCurrency (tipCoin tip) tx ∧ txFee env (.ofBase tip hash) header tx = .ok fee) ∧
      t.nFees = s.nFees + fee := by
  obtain ⟨fee, hin, hfees, -⟩ := connectFee_ok hcb (connectTx_ok h).1
  obtain ⟨-, hcoins, ⟨valueOut, hv, -, hfee⟩, -⟩ := checkTxInputs_ok env hin
  have hsame := hs.spent hin hids
  have hcur := inputCurrency_congr hsame
  have htotal : spentTotal s.view tx.vin = spentTotal (.ofBase tip hash) tx.vin := by
    refine spentTotal_congr fun i hi => ?_
    rw [accessCoin_ofBase]
    exact hsame i hi
  refine ⟨fee, ⟨fun i hi => ?_, ?_⟩, hfees⟩
  · rw [← hcur, ← hsame i hi]
    exact (hcoins i hi).2
  · rw [txFee, hv, ok_bind, accessCoin_ofBase, ← hcur, ← htotal]
    exact hfee

def SpendsNoneOf (env : Env H) (txs : List (CTransaction H)) : Prop :=
  ∀ tx ∈ txs, ∀ i ∈ tx.coinInputs, i.prevout.hash ∉ txs.map (·.getHash env)

theorem connectLoop_fees {block : CBlock H} {hash : H}
    {c : ConnectLoop H} (h : connectLoop env params ctx block (.ofBase tip hash) = .ok c)
    {cb : CTransaction H} {txs : List (CTransaction H)} (hvtx : block.vtx = cb :: txs)
    (hcb : cb.isCoinBase) (htxs : ∀ tx ∈ txs, tx.isCoinBase = false) (hnone : SpendsNoneOf env txs) :
    (∀ tx ∈ txs, OneCurrency (tipCoin tip) tx) ∧
      blockFees env (.ofBase tip hash) block.toCBlockHeader txs = .ok c.nFees := by
  rw [connectLoop, hvtx] at h
  obtain ⟨s, hfirst, hrest⟩ := run_cons_ok.1 h
  obtain ⟨hfee, -, undo, hup⟩ := connectTx_ok hfirst
  have hzero : s.nFees = 0 := by
    rw [connectFee, hcb, if_pos rfl] at hfee
    obtain ⟨-, -, hret⟩ := bind_ok.1 hfee
    exact (ok.inj hret).symm
  have hstart := (Inherits.ofBase (txs.map (·.getHash env)) ctx.pindex.nHeight tip hash).update (.inl hcb) hup
  obtain ⟨fees, hfees, hsum⟩ := run_sum_rel (fun s : ConnectLoop H => s.nFees)
    (fun s => Inherits (txs.map (·.getHash env)) ctx.pindex.nHeight tip s.view) (fun s tx t htx hs ht => by
      obtain ⟨-, -, undo, hup⟩ := connectTx_ok ht
      exact ⟨hs.update (.inr (mem_map_of_mem htx)) hup,
        connectTx_fee hash hs (htxs tx htx) (hnone tx htx) ht⟩) hstart hrest
  rw [hzero, zero_add] at hsum
  refine ⟨?_, ?_⟩
  · intro tx htx
    obtain ⟨fee, -, hfee⟩ := forall₂_mem_right (List.Forall₂.flip hfees) htx
    exact hfee.1
  · rw [blockFees_of_forall₂ (hfees.imp fun _ _ h => h.2), hsum]

/-! ## other amounts, the same fees -/

theorem getValueOut_revalues {a b : CTransaction H} (h : a.Revalues b) (hcb : b.isCoinBase = false)
    {x y : Int} (ha : a.getValueOut = .ok x) (hb : b.getValueOut = .ok y) : x = y := by
  obtain ⟨-, -, rfl⟩ := getValueOut_ok.1 ha
  obtain ⟨-, -, rfl⟩ := getValueOut_ok.1 hb
  rw [← h.isCoinBase, hcb]
  refine congrArg sum (forall₂_map_eq h.vout fun o p hop => ?_).symm
  rw [← hop]
  rfl

theorem txFee_revalues {a b : CTransaction H} (h : a.Revalues b) (hcb : b.isCoinBase = false) {fee fee' : Int}
    (ha : txFee env v header a = .ok fee) (hb : txFee env v header' b = .ok fee') : txFee env v header b = .ok fee := by
  obtain ⟨x, hx, hfee⟩ := bind_ok.1 ha
  obtain ⟨y, hy, -⟩ := bind_ok.1 hb
  rw [txFee, hy, ok_bind, inputCurrency_of_vin h.vin, h.vin, ← getValueOut_revalues h hcb hx hy]
  exact hfee

theorem blockFees_revalues {l m : List (CTransaction H)} (h : List.Forall₂ CTransaction.Revalues l m)
    (hcb : ∀ tx ∈ m, tx.isCoinBase = false) {nFees due : Int} (hl : blockFees env v header l = .ok nFees)
    (hm : blockFees env v header' m = .ok due) : blockFees env v header m = .ok nFees := by
  obtain ⟨fees, hfees, hsum⟩ := bind_ok.1 hl
  obtain ⟨fees', hfees', -⟩ := bind_ok.1 hm
  cases hsum
  rw [collect_ok] at hfees hfees'
  refine blockFees_of_forall₂ ?_
  clear hl hm
  induction h generalizing fees fees' with
  | nil =>
    cases hfees
    exact .nil
  | cons hab _ ih =>
    obtain ⟨hcb₁, hcb₂⟩ := forall_mem_cons.1 hcb
    cases hfees with
    | cons hx hxs =>
      cases hfees' with
      | cons hy hys => exact .cons (txFee_revalues hab hcb₁ hx hy) (ih hcb₂ _ hxs _ hys)

/-! ## the parts of a template -/

section Template
variable {s : Node H} {pindexPrev : CBlockIndex H} {block : CBlock H} {nFees p0 p1 : Int}
  {cb : CTransaction H} {txs : List (CTransaction H)}

def Node.tipView (s : Node H) : CCoinsViewCache H := .ofBase s.pcoinsTip s.bestBlock

theorem addPackageTxs_subset : addPackageTxs env menv s ⊆ s.mempool := by
  intro tx htx
  obtain ⟨hash, -, hfind⟩ := mem_filterMap.1 htx
  exact mem_of_find?_eq_some hfind

namespace IsTemplate

section
variable (h : IsTemplate params env cenv menv s pindexPrev block nFees p0 p1 cb txs)
include h

theorem revalues : List.Forall₂ CTransaction.Revalues (addPackageTxs env menv s) txs :=
  h.converted.imp fun _ _ hab => hab.1

theorem checked (hprev : s.tip = some pindexPrev) :
    (∃ t, run checkOut 0 cb.vout = .ok t) ∧ ∀ tx ∈ txs, tx.isCoinBase = false := by
  obtain ⟨b, hb⟩ := h.tested
  obtain ⟨hcheck, -⟩ := testBlockValidity_ok hprev hb
  rcases checkBlock_ok hcheck with ⟨hflag, -⟩ | ⟨-, hrules, -⟩
  · rw [h.unchecked] at hflag
    cases hflag
  · obtain ⟨-, -, -, hbody⟩ := blockRules_ok.1 hrules
    obtain ⟨⟨cb', txs', hvtx, -, hnone⟩, hall⟩ := bodyRules_ok hbody
    rw [h.vtx] at hvtx hall
    cases hvtx
    obtain ⟨-, -, -, houts, -⟩ := checkTransaction_ok env (hall cb (by simp))
    exact ⟨houts, hnone⟩

theorem connected (hprev : s.tip = some pindexPrev)
    (hgen : block.getHash env ≠ params.hashGenesisBlock) :
    ∃ ctx c, connectLoop env params ctx block s.tipView = .ok c ∧
      checkReward params block (pindexPrev.nHeight + 1) c.nFees = .ok () := by
  obtain ⟨b, hb⟩ := h.tested
  obtain ⟨hcheck, r, hr⟩ := testBlockValidity_ok hprev hb
  have hsame : b = block := by
    rcases checkBlock_ok hcheck with ⟨-, hb⟩ | ⟨-, -, hb⟩
    · exact hb
    · rw [hb, Bool.and_false, ← h.unchecked]
  rw [hsame] at hr
  obtain ⟨-, ⟨hg, -⟩ | ⟨-, c, -, hloop, hreward⟩⟩ := connectChecks_ok hr
  · exact absurd hg hgen
  · obtain ⟨t, ht, hmatch⟩ := connectLoop_of_dry (d := ⟨indexDummy env block pindexPrev, s.nicks, true⟩)
      ⟨rfl, rfl, rfl⟩ hloop
    rw [← hmatch.nFees] at hreward
    exact ⟨_, t, ht, hreward⟩

theorem spendsNone (hconf : SpendsNoneOf env s.mempool) : SpendsNoneOf env txs := by
  intro tx htx i hi hmem
  obtain ⟨tx₀, htx₀, hrev⟩ := forall₂_mem_right h.revalues htx
  rw [coinInputs_of_vin hrev.vin] at hi
  obtain ⟨tx', htx', hhash⟩ := mem_map.1 hmem
  obtain ⟨tx₁, htx₁, hrev₁⟩ := forall₂_mem_right h.revalues htx'
  refine hconf tx₀ (addPackageTxs_subset htx₀) i hi (mem_map.2 ⟨tx₁, addPackageTxs_subset htx₁, ?_⟩)
  exact (hrev₁.getHash env).symm.trans hhash

theorem fees_paid (hprev : s.tip = some pindexPrev) (hconf : SpendsNoneOf env s.mempool)
    (hgen : block.getHash env ≠ params.hashGenesisBlock) :
    blockFees env s.tipView (feeHeader params menv) txs = .ok nFees ∧
      ∃ due, blockFees env s.tipView block.toCBlockHeader txs = .ok due ∧
        checkReward params block (pindexPrev.nHeight + 1) due = .ok () := by
  obtain ⟨-, hnone⟩ := h.checked hprev
  obtain ⟨ctx, c, hloop, hreward⟩ := h.connected hprev hgen
  obtain ⟨hone, hdue⟩ := connectLoop_fees hloop h.vtx h.coinbase.isCoinBase hnone (h.spendsNone hconf)
  have hone₀ : ∀ tx ∈ addPackageTxs env menv s, OneCurrency (tipCoin s.pcoinsTip) tx := by
    intro tx htx i hi
    obtain ⟨tx', htx', hrev⟩ := forall₂_mem_right (List.Forall₂.flip h.revalues) htx
    have hrev : tx.Revalues tx' := hrev
    rw [← inputCurrency_of_vin hrev.vin]
    exact hone tx' htx' i (by rwa [coinInputs_of_vin hrev.vin])
  have hpaid := calculateFeesForBlock_ok s.bestBlock hone₀ h.fees
  exact ⟨blockFees_revalues h.revalues hnone hpaid hdue, c.nFees, hdue, hreward⟩

end

end IsTemplate

end Template

/-! ## the rules of ConnectBlock -/

/-- the coinbase takes no more than the subsidies and the fees at the price in the header, and the
outputs have the amounts of the prices in the header -/
structure RewardMatches (env : Env H) (params : Params H) (v : CCoinsViewCache H) (nHeight : Nat)
    (block : CBlock H) : Prop where
  reward : ∃ nFees, blockFees env v block.toCBlockHeader block.vtx.tail = .ok nFees ∧
    checkReward params block nHeight nFees = .ok ()
  conversions : checkConversions v.base block = .ok ()

def FeesCovered (env : Env H) (v : CCoinsViewCache H) (before header : CBlockHeader H)
    (txs : List (CTransaction H)) : Prop :=
  ∃ paid due, blockFees env v before txs = .ok paid ∧ blockFees env v header txs = .ok due ∧ paid ≤ due

def AmountHolds (q0 q1 p0 p1 : Int) (inputcurrency : UInt8) (o : CTxOut) : Prop :=
  (inputcurrency = 0 ∧ o.currency = 1 →
    narrow64 ((o.nValueBitCash * q1).tdiv COIN) = (o.nValueBitCash * p1).tdiv COIN) ∧
  (inputcurrency = 1 ∧ o.currency = 0 →
    p0 ≠ 0 ∧ narrow64 ((o.nValueBitCash * COIN).tdiv q0) = (o.nValueBitCash * COIN).tdiv p0)

def AmountsHold (tip : CoinsMap H) (before header : CBlockHeader H) (txs : List (CTransaction H)) : Prop :=
  ∃ q0 q1 p0 p1, before.getPriceinCurrency 0 = .ok q0 ∧ before.getPriceinCurrency 1 = .ok q1 ∧
    header.getPriceinCurrency 0 = .ok p0 ∧ header.getPriceinCurrency 1 = .ok p1 ∧
    ∀ tx ∈ txs, ∀ o ∈ tx.vout, AmountHolds q0 q1 p0 p1 (inputCurrency (tipCoin tip) tx) o

theorem convertOut_rule_iff {q0 q1 p0 p1 : Int} {c : UInt8} {o o' : CTxOut} (h : convertOut q0 q1 c o = .ok o') :
    conversionRule p0 p1 c false o' = .ok () ↔ AmountHolds q0 q1 p0 p1 c o' := by
  obtain ⟨amount, hwant, hret⟩ := bind_ok.1 h
  cases hret
  unfold wantedAmount at hwant
  unfold conversionRule AmountHolds
  dsimp only
  split at hwant
  · next hself =>
    have hamount : amount = o.nValueBitCash := (ok.inj hwant).symm
    rw [if_pos hself, need_ok, hamount, hself]
    refine iff_of_true (by simp) ⟨fun hc => ?_, fun hc => ?_⟩
    · exact absurd (hc.1.symm.trans hc.2) (by decide)
    · exact absurd (hc.1.symm.trans hc.2) (by decide)
  · next hself =>
    rw [if_neg hself]
    split at hwant
    · next hbuy =>
      have hamount := (divAmount_ok.1 hwant).2
      rw [if_pos hbuy, need_ok, decide_eq_true_eq, hamount]
      refine ⟨fun hrule => ⟨fun _ => hrule, fun hsell => ?_⟩, fun hrule => hrule.1 hbuy⟩
      exact absurd (hbuy.1.symm.trans hsell.1) (by decide)
    · next hbuy =>
      rw [if_neg hbuy]
      split at hwant
      · next hsell =>
        have hamount := (divAmount_ok.1 hwant).2
        rw [if_pos hsell]
        by_cases hp : p0 = 0
        · rw [if_pos hp]
          exact iff_of_false (fun e => nomatch e) fun hrule => (hrule.2 hsell).1 hp
        · rw [if_neg hp, need_ok, decide_eq_true_eq, hamount]
          exact ⟨fun hrule => ⟨fun e => absurd e hbuy, fun _ => ⟨hp, hrule⟩⟩, fun hrule => (hrule.2 hsell).2⟩
      · next hsell =>
        rw [if_neg hsell]
        exact iff_of_true rfl ⟨fun e => absurd e hbuy, fun e => absurd e hsell⟩

section Rules
variable {block : CBlock H} {cb : CTransaction H} {txs : List (CTransaction H)} {total : Int}

theorem PaysOut.valueInCurrency (h : PaysOut total cb) (houts : ∃ t, run checkOut 0 cb.vout = .ok t)
    (price : Int) : cb.getValueOutInCurrency 0 price = .ok total := by
  obtain ⟨t, ht⟩ := houts
  have htotal : t = total := by
    rw [← h.total, ← zero_add (sum _)]
    exact ((run_sum_ok (f := CTxOut.nValue)
      (P := fun o => o.currency < 2 ∧ o.referenceline.length ≤ 1000 ∧ moneyRange o.nValue = true)
      (Q := fun x => moneyRange x = true) fun _ _ _ => checkOut_ok).1 ht).2.2
  have hstep : ∀ (x y : Int) (o : CTxOut) (x' : Int), o ∈ cb.vout → x = y → checkOut x o = .ok x' →
      ∃ y', valueInCurrencyStep 0 price y o = .ok y' ∧ x' = y' := by
    rintro x _ o x' ho rfl hx
    obtain ⟨⟨-, -, hrange⟩, hsum, hx'⟩ := checkOut_ok.1 hx
    have hvalue : BitCash.valueInCurrency 0 price o = .ok o.nValue := by
      simp [BitCash.valueInCurrency, (h.bitcash o ho).1]
    refine ⟨x', ?_, rfl⟩
    simp only [valueInCurrencyStep, hvalue, ok_bind, bind_ok, need_ok, exists_const, addAmount_ok,
      Bool.and_eq_true, pure_ok]
    exact ⟨x', ⟨moneyRange_fits hsum, hx'⟩, ⟨hrange, hx' ▸ hsum⟩, rfl⟩
  obtain ⟨t', ht', hsame⟩ := run_sim (fun x y => x = y) hstep rfl ht
  rw [getValueOutInCurrency, ht', ← hsame, htotal]

theorem PaysOut.checkReward_iff (h : PaysOut total cb) (houts : ∃ t, run checkOut 0 cb.vout = .ok t)
    (hvtx : block.vtx = cb :: txs) {nFees : Int} : checkReward params block nHeight nFees = .ok () ↔
      (∃ price, block.getPriceinCurrency 0 = .ok price) ∧
        total ≤ nFees + getBlockSubsidy params nHeight + getBlockSubsidyDevs params nHeight := by
  rw [checkReward, hvtx]
  simp only [bind_ok, h.valueInCurrency houts, ok.injEq, exists_eq_left', need_ok, decide_eq_true_eq,
    exists_and_right]

theorem PaysOut.checkTxConversions (h : PaysOut total cb) {tip : CoinsTip H} (p0 p1 : Int) :
    checkTxConversions tip.coins p0 p1 cb = .ok () := by
  rw [BitCash.checkTxConversions, inputCurrency_coinBase h.isCoinBase, each_ok]
  intro o ho
  obtain ⟨hzero, hvalue⟩ := h.bitcash o ho
  rw [conversionRule, if_pos hzero, need_ok, decide_eq_true hvalue, Bool.true_or]

end Rules

/-! ## from the template to the chain -/

section Mined
variable {s : Node H} {pindexPrev : CBlockIndex H} {block block' : CBlock H} {nFees q0 q1 : Int}
  {cb cb' : CTransaction H} {txs : List (CTransaction H)}

theorem IsTemplate.checkConversions_iff {tip : CoinsTip H} (htip : s.pcoinsTip = tip.coins)
    (h : IsTemplate params env cenv menv s pindexPrev block nFees q0 q1 cb txs)
    (hnone : ∀ tx ∈ txs, tx.isCoinBase = false) {total : Int} (hcb : PaysOut total cb')
    (hvtx : block'.vtx = cb' :: txs) : checkConversions s.pcoinsTip block' = .ok () ↔
      AmountsHold s.pcoinsTip block.toCBlockHeader block'.toCBlockHeader txs := by
  -- the rule of one transaction, at any prices
  have htx : ∀ p0 p1, ∀ tx ∈ txs, checkTxConversions s.pcoinsTip p0 p1 tx = .ok () ↔
      ∀ o ∈ tx.vout, AmountHolds q0 q1 p0 p1 (inputCurrency (tipCoin s.pcoinsTip) tx) o := by
    intro p0 p1 tx hmem
    obtain ⟨tx₀, -, hrev, houts⟩ := forall₂_mem_right h.converted hmem
    rw [checkTxConversions, each_ok, hnone tx hmem, inputCurrency_of_vin hrev.vin]
    refine forall₂_congr fun o ho => ?_
    obtain ⟨o₀, -, hout⟩ := forall₂_mem_right houts ho
    exact convertOut_rule_iff hout
  simp only [checkConversions, bind_ok, hvtx, each_ok, forall_mem_cons]
  constructor
  · rintro ⟨p0, hp0, p1, hp1, -, hall⟩
    exact ⟨q0, q1, p0, p1, h.price, h.price2, hp0, hp1, fun tx hmem => (htx p0 p1 tx hmem).1 (hall tx hmem)⟩
  · rintro ⟨r0, r1, p0, p1, hr0, hr1, hp0, hp1, hall⟩
    cases h.price.symm.trans hr0
    cases h.price2.symm.trans hr1
    refine ⟨p0, hp0, p1, hp1, ?_, fun tx hmem => (htx p0 p1 tx hmem).2 (hall tx hmem)⟩
    rw [htip]
    exact hcb.checkTxConversions p0 p1

end Mined

/-- **a template after some time in the mining loop** passes the reward rule and the conversion rule of
`ConnectBlock` exactly when the fees at its last price cover those it was made with, and the amounts of its
outputs are the ones its last prices ask for -/
theorem template_matches_iff {tip : CoinsTip H} {s : Node H} (htip : s.pcoinsTip = tip.coins)
    {pindexPrev : CBlockIndex H} (hprev : s.tip = some pindexPrev) (hconf : SpendsNoneOf env s.mempool)
    {block block' : CBlock H} (h : createNewBlock params env cenv menv s = .ok block)
    (hgen : block.getHash env ≠ params.hashGenesisBlock)
    (hm : Relation.ReflTransGen (MinerStep params env (cenv.getMedianTimePast pindexPrev.hash)) block block') :
    (∀ ctx c, connectLoop env params ctx block' s.tipView = .ok c →
      blockFees env s.tipView block'.toCBlockHeader block'.vtx.tail = .ok c.nFees) ∧
    (RewardMatches env params s.tipView (pindexPrev.nHeight + 1) block' ↔
      FeesCovered env s.tipView (feeHeader params menv) block'.toCBlockHeader block'.vtx.tail ∧
        AmountsHold s.pcoinsTip block.toCBlockHeader block'.toCBlockHeader block'.vtx.tail) := by
  obtain ⟨nFees, q0, q1, cb, txs, ht⟩ := createNewBlock_ok htip hprev h
  obtain ⟨houts, hnone⟩ := ht.checked hprev
  obtain ⟨hpaid, -⟩ := ht.fees_paid hprev hconf hgen
  obtain ⟨cb', hvtx, hcb, hvout⟩ := mined_vtx hm ht.vtx
  have hpays : PaysOut (nFees + getBlockSubsidy params (pindexPrev.nHeight + 1) +
      getBlockSubsidyDevs params (pindexPrev.nHeight + 1)) cb' :=
    ⟨hcb.trans ht.coinbase.isCoinBase, hvout ▸ ht.coinbase.bitcash, hvout ▸ ht.coinbase.total⟩
  have houts' : ∃ t, run checkOut 0 cb'.vout = .ok t := hvout ▸ houts
  have hconv := ht.checkConversions_iff htip hnone hpays hvtx
  have htail : block'.vtx.tail = txs := by rw [hvtx, tail_cons]
  rw [htail]
  refine ⟨fun ctx c hloop => ?_, ⟨fun hmatch => ?_, fun hholds => ?_⟩⟩
  · exact (connectLoop_fees hloop hvtx hpays.isCoinBase hnone (ht.spendsNone hconf)).2
  · obtain ⟨⟨due, hdue, hpass⟩, hrule⟩ := hmatch
    rw [htail] at hdue
    obtain ⟨-, hle⟩ := (hpays.checkReward_iff houts' hvtx).1 hpass
    exact ⟨⟨nFees, due, hpaid, hdue, by omega⟩, hconv.1 hrule⟩
  · obtain ⟨⟨paid, due, hpaid', hdue, hle⟩, hamounts⟩ := hholds
    cases hpaid.symm.trans hpaid'
    obtain ⟨-, -, p0, -, -, -, hp0, -⟩ := id hamounts
    refine ⟨⟨due, ?_, (hpays.checkReward_iff houts' hvtx).2 ⟨⟨p0, hp0⟩, by omega⟩⟩, hconv.2 hamounts⟩
    rw [htail]
    exact hdue

/-! ## a price that doubles -/

def dollarCoins : CoinsTip Digest where
  coins o := if o = ⟨.atom 7, 0⟩ then some ⟨10, 10, [], 1, 1, false⟩ else none
  null := by decide
  currency o c h := by
    split at h
    · cases h
      decide
    · cases h

def sellTx : CTransaction Digest := spendTen [.of 0 4 [] 0] (by decide)

def minerNode : Node Digest := { symNode dollarCoins.coins with mempool := [sellTx] }

def answersAt (prices : CPriceInfo) : PriceAnswers :=
  ⟨.full prices (priceKeySig 0), .full prices (priceKeySig 1), .full prices (priceKeySig 2)⟩

def symMiner : MinerEnv Digest where
  getAdjustedTime := 1600000000
  time := 1600000000
  computeBlockVersion := 0x20000000#32
  blockversion := none
  answers := some (answersAt halfDollar)
  tick := ⟨1600000000, none, none⟩
  picked := [sellTx.getHash symEnv]
  walletOut := .of 0 0 [] 0
  includeextranonce := false
  segwitTimeout := true

def minerTemplate : CBlock Digest :=
  valueOr (createNewBlock symParams symEnv symChain symMiner minerNode)
    (halfBlock [])

def minerTemplateAt (t : Tick) : CBlock Digest :=
  { minerTemplate with toCBlockHeader := (updateTime symParams 0 t minerTemplate.toCBlockHeader).1 }

def parTick : Tick := ⟨1600000300, some (answersAt (pricesAt 1000000000 1000000000 (.refl true))), none⟩

theorem minerTemplate_ok :
    createNewBlock symParams symEnv symChain symMiner minerNode = .ok minerTemplate :=
  eq_valueOr (by decide)

theorem minerNode_confirmed : SpendsNoneOf symEnv minerNode.mempool := by
  unfold SpendsNoneOf
  decide

/-- the coinbase keeps the twelve units the fees were worth, six more than they are now, and the output
keeps its eight units, four more than the rule asks for -/
theorem refreshed_template_refused :
    createNewBlock symParams symEnv symChain symMiner minerNode = .ok minerTemplate ∧
      SpendsNoneOf symEnv minerNode.mempool ∧
      MinerStep symParams symEnv 0 minerTemplate (minerTemplateAt parTick) ∧
      (connectLoop symEnv symParams
        ⟨indexDummy symEnv (minerTemplateAt parTick) (connectedIndex (.atom 1) (some (.atom 0)) 1),
          minerNode.nicks, false⟩ (minerTemplateAt parTick) minerNode.tipView).map (·.nFees) = .ok 6 ∧
      checkReward symParams (minerTemplateAt parTick) 2 6 = .error (.bad 100 "bad-cb-amount") ∧
      checkConversions minerNode.pcoinsTip (minerTemplateAt parTick) = .error (.bad 100 "bad-currency-conversion") :=
  ⟨minerTemplate_ok, minerNode_confirmed, .updateTime _ _, by decide, by decide, by decide⟩

/-- a tick that leaves the prices alone leaves the template right -/
theorem kept_prices_match : RewardMatches symEnv symParams minerNode.tipView 2
      (minerTemplateAt ⟨1600000100, some (answersAt halfDollar), none⟩) := by
  have htip : minerNode.pcoinsTip = dollarCoins.coins := rfl
  have hprev : minerNode.tip = some (connectedIndex (.atom 1) (some (.atom 0)) 1) := by decide
  refine (template_matches_iff htip hprev minerNode_confirmed minerTemplate_ok (by decide)
    (.single (.updateTime _ _))).2.2 ⟨?_, ?_⟩
  · exact ⟨12, 12, by decide, by decide, le_refl _⟩
  · refine ⟨500000000, 500000000, 500000000, 500000000, by decide, by decide, by decide, by decide, ?_⟩
    unfold AmountHolds
    decide

end BitCash
