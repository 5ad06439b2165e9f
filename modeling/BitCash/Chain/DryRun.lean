import BitCash.Chain.Activate

/-!
# The dry run

`TestBlockValidity` of `validation.cpp` runs `ConnectBlock` with `fJustCheck` set, on a copy of the coins of the tip
and on an index entry of its own that is not in the block index.
-/

namespace BitCash
open Checks

variable {H : Type} [Inhabited H] [DecidableEq H]

/-- no block is assumed valid: an index entry outside the block index is nobody's ancestor -/
def Env.checkingScripts (env : Env H) : Env H := { env with fScriptChecks := fun _ => true }

variable (env : Env H) (cenv : ChainEnv H) (params : Params H)

def indexDummy (block : CBlock H) (pindexPrev : CBlockIndex H) : CBlockIndex H where
  hash := block.getHash env
  pprev := some pindexPrev.hash
  nHeight := pindexPrev.nHeight + 1
  nChainWork := 0
  nTx := 0
  nChainTx := 0
  nStatus := ⟨0, false, false, false, false⟩
  nSequenceId := 0
  nDataPos := 0
  nUndoPos := 0

def testBlockValidity (s : Node H) (block : CBlock H) (fCheckPOW fCheckMerkleRoot : Bool) :
    Res (CBlock H) :=
  match s.tip with
  | none => .error (.fault .assertionFailed)
  | some pindexPrev => do
    contextualCheckBlockHeader cenv params s block.toCBlockHeader pindexPrev
    let block ← checkBlock env params block fCheckPOW fCheckMerkleRoot
    contextualCheckBlock env cenv params block (some pindexPrev)
    (connectBlock env.checkingScripts params block s.pcoinsTip (.ok 0) true
      (s.connectState (indexDummy env block pindexPrev))).1
    pure block

variable {env cenv params}
  {block b : CBlock H} {view : CCoinsViewCache H} {header : CBlockHeader H} {tx : CTransaction H}
  {s : ConnectState H} {tip : CoinsMap H}
  {c d : ConnectContext H}

/-! ## the two loops -/

theorem checkInputs_of_checking {flags : BitVec 32}
    {b : Bool} (f : Bool) (h : checkInputs env view tx true flags = .ok b) :
    ∃ b', checkInputs env view tx f flags = .ok b' ∧ (b → b') := by
  cases f with
  | true => exact ⟨b, h, id⟩
  | false =>
    refine ⟨true, ?_, fun _ => rfl⟩
    unfold checkInputs
    rw [Bool.not_false, Bool.or_true, Bool.true_or, if_pos rfl]

structure LoopMatch (s t : ConnectLoop H) : Prop where
  i : t.i = s.i
  view : t.view = s.view
  nFees : t.nFees = s.nFees
  nSigOpsCost : t.nSigOpsCost = s.nSigOpsCost
  vtxundo : t.vtxundo = s.vtxundo
  queued : s.queued = true → t.queued = true

structure ContextMatch (c d : ConnectContext H) : Prop where
  hash : d.pindex.hash = c.pindex.hash
  nHeight : d.pindex.nHeight = c.pindex.nHeight
  nicks : d.nicks = c.nicks

theorem connectFee_of_dry (hcd : ContextMatch c d)
    {s t : ConnectLoop H} (hst : LoopMatch s t) (tx : CTransaction H) :
    connectFee env params d header t tx = connectFee env.checkingScripts params c header s tx := by
  unfold connectFee
  rw [hcd.hash, hcd.nHeight, hcd.nicks, hst.view, hst.nFees]
  rfl

theorem connectTx_of_dry (hcd : ContextMatch c d) {s t : ConnectLoop H} (hst : LoopMatch s t) {s' : ConnectLoop H}
    (h : connectTx env.checkingScripts params c header s tx = .ok s') :
    ∃ t', connectTx env params d header t tx = .ok t' ∧ LoopMatch s' t' := by
  simp only [connectTx, bind_ok, need_ok, exists_const] at h
  obtain ⟨nFees, hfee, hcost, scripts, hin, updated, hup, hret⟩ := h
  cases hret
  rw [← connectFee_of_dry hcd hst] at hfee
  obtain ⟨scripts', hin', himp⟩ := checkInputs_of_checking (env.fScriptChecks c.pindex.hash) hin
  have hreal : connectTx env params d header t tx = .ok ⟨t.i + 1, updated.1, nFees,
      s.nSigOpsCost + env.getTransactionSigOpCost tx
        (tx.coinInputs.map fun i => (s.view.accessCoin i.prevout).scriptPubKey)
        (env.getBlockScriptFlags c.pindex.hash),
      if t.i = 0 then t.vtxundo else t.vtxundo ++ [updated.2], t.queued && scripts'⟩ := by
    simp only [connectTx, bind_ok, need_ok, exists_const]
    rw [hcd.hash, hcd.nHeight, hst.view, hst.nSigOpsCost]
    exact ⟨nFees, hfee, hcost, scripts', hin', updated, hup, rfl⟩
  refine ⟨_, hreal, by rw [hst.i], rfl, rfl, rfl, by rw [hst.i, hst.vtxundo], ?_⟩
  intro hq
  obtain ⟨hs, hscripts⟩ := Bool.and_eq_true_iff.1 hq
  exact Bool.and_eq_true_iff.2 ⟨hst.queued hs, himp hscripts⟩

theorem connectLoop_of_dry (hcd : ContextMatch c d) {s : ConnectLoop H}
    (h : connectLoop env.checkingScripts params c block view = .ok s) :
    ∃ t, connectLoop env params d block view = .ok t ∧ LoopMatch s t := by
  unfold connectLoop at h ⊢
  apply run_sim LoopMatch _ ⟨rfl, rfl, rfl, rfl, rfl, id⟩ h
  intro s t tx s' _ hst hs
  exact connectTx_of_dry hcd hst hs

/-! ## what the real run adds -/

theorem connectBlock_dry_ok {undoPos : Res Nat} : (connectBlock env params block tip undoPos true s).1 = .ok () ↔
      ∃ r, connectChecks env params ⟨s.pindex, s.nicks, true⟩ block s.view = .ok r := by
  unfold connectBlock
  cases connectChecks env params ⟨s.pindex, s.nicks, true⟩ block s.view with
  | error e => simp
  | ok r =>
    cases r with
    | genesis => simp
    | connected c => simp

theorem connectBlock_real_ok {undoPos : Nat} : (connectBlock env params block tip (.ok undoPos) false s).1 = .ok () ↔
      ∃ r, connectChecks env params ⟨s.pindex, s.nicks, false⟩ block s.view = .ok r ∧
        (r = .genesis ∨ checkConversions tip block = .ok ()) := by
  have hwrite : ∃ p, writeUndoDataForBlock (.ok undoPos) s.pindex = .ok p := by
    unfold writeUndoDataForBlock
    split
    · exact ⟨_, rfl⟩
    · exact ⟨_, rfl⟩
  obtain ⟨p, hp⟩ := hwrite
  unfold connectBlock
  cases connectChecks env params ⟨s.pindex, s.nicks, false⟩ block s.view with
  | error e => simp
  | ok r =>
    cases r with
    | genesis => simp
    | connected c =>
      simp only [hp]
      cases checkConversions tip block with
      | error e => simp
      | ok u => simp

structure OnTip (env : Env H) (tip : CBlockIndex H) (header : CBlockHeader H) (p : CBlockIndex H) :
    Prop where
  hash : p.hash = header.getHash env
  pprev : p.pprev = some tip.hash
  nHeight : p.nHeight = tip.nHeight + 1

theorem testBlockValidity_ok {s : Node H} {tip : CBlockIndex H}
    {pow merkle : Bool} (htip : s.tip = some tip) (h : testBlockValidity env cenv params s block pow merkle = .ok b) :
    checkBlock env params block pow merkle = .ok b ∧
      ∃ r, connectChecks env.checkingScripts params ⟨indexDummy env b tip, s.nicks, true⟩ b
        (.ofBase s.pcoinsTip s.bestBlock) = .ok r := by
  unfold testBlockValidity at h
  rw [htip] at h
  simp only [bind_ok] at h
  obtain ⟨_, -, b', hb, _, -, u, hconnect, hret⟩ := h
  cases hret
  exact ⟨hb, connectBlock_dry_ok.1 hconnect⟩

theorem checkBlock_full_iff {pow merkle : Bool}
    (h : checkBlock env params block pow merkle = .ok b) : (∃ b', checkBlock env params b true true = .ok b') ↔
      block.fChecked ∨ (checkBlockHeader env block.toCBlockHeader true = .ok () ∧
        merkleRules env block true = .ok ()) := by
  rcases checkBlock_ok h with ⟨hc, rfl⟩ | ⟨hc, hr, rfl⟩
  · have hpass : checkBlock env params b true true = .ok b := if_pos hc
    exact ⟨fun _ => .inl hc, fun _ => ⟨b, hpass⟩⟩
  · obtain ⟨hhead, hmerkle, hprice, hbody⟩ := blockRules_ok.1 hr
    have hfull : blockRules env params block true true = .ok () ↔
        checkBlockHeader env block.toCBlockHeader true = .ok () ∧ merkleRules env block true = .ok () := by
      rw [blockRules_ok, headerRules_of_algo hhead]
      tauto
    rw [hc, ← hfull]
    simp only [Bool.false_eq_true, false_or]
    unfold checkBlock
    rw [blockRules_flag]
    cases hpm : (pow && merkle) with
    | true =>
      -- the dry run was asked for everything
      obtain ⟨rfl, rfl⟩ := Bool.and_eq_true_iff.1 hpm
      exact ⟨fun _ => hr, fun _ => ⟨_, rfl⟩⟩
    | false =>
      constructor
      · rintro ⟨b', hb'⟩
        obtain ⟨_, hrules, -⟩ := bind_ok.1 hb'
        exact hrules
      · intro hrules
        exact ⟨_, bind_ok.2 ⟨(), hrules, rfl⟩⟩

theorem connectChecks_of_dry {s : Node H} {tip pindex : CBlockIndex H}
    {r : Checked H} (hp : OnTip env tip b.toCBlockHeader pindex)
    (h : connectChecks env.checkingScripts params ⟨indexDummy env b tip, s.nicks, true⟩ b
      (.ofBase s.pcoinsTip s.bestBlock) = .ok r) :
    (∃ r', connectChecks env params ⟨pindex, s.nicks, false⟩ b (.ofBase s.pcoinsTip s.bestBlock) = .ok r' ∧
        (r' = .genesis ↔ b.getHash env = params.hashGenesisBlock)) ↔
      ∃ b', checkBlock env params b true true = .ok b' := by
  have hmatch : ContextMatch (H := H) ⟨indexDummy env b tip, s.nicks, true⟩
      ⟨pindex, s.nicks, false⟩ := ⟨hp.hash, hp.nHeight, rfl⟩
  obtain ⟨-, -, hprev, hrest⟩ := connectChecks_iff.1 h
  have hprev' : pindex.pprev.getD default = s.bestBlock := by
    rw [hp.pprev]
    exact hprev
  constructor
  · rintro ⟨r', hr', -⟩
    exact (connectChecks_iff.1 hr').2.1
  · intro hb
    rcases hrest with ⟨hgen, -⟩ | ⟨hne, -, hbip, c, hloop, hreward, hq, -⟩
    · refine ⟨.genesis, connectChecks_iff.2 ⟨hp.hash, hb, hprev', .inl ⟨hgen, rfl⟩⟩, ?_⟩
      exact ⟨fun _ => hgen, fun _ => rfl⟩
    · obtain ⟨t, ht, hst⟩ := connectLoop_of_dry (d := ⟨pindex, s.nicks, false⟩) hmatch hloop
      have hbip' : checkBIP30 env params b pindex (.ofBase s.pcoinsTip s.bestBlock) = .ok () := by
        unfold checkBIP30 at hbip ⊢
        rw [hp.nHeight]
        exact hbip
      have hreward' : checkReward params b pindex.nHeight t.nFees = .ok () := by
        rw [hp.nHeight, hst.nFees]
        exact hreward
      refine ⟨.connected t, connectChecks_iff.2 ⟨hp.hash, hb, hprev', .inr ⟨hne, ?_, hbip', t, ht,
        hreward', hst.queued hq, rfl⟩⟩, ?_⟩
      · rw [hp.pprev]
        rfl
      · exact ⟨fun hg => (nomatch hg), fun hg => absurd hg hne⟩

/-- **what a dry run predicts**: where `TestBlockValidity` accepts a block, `ConnectBlock` accepts it
on the same state exactly when the block was checked before, or its work is done and its merkle root
is right, and the conversion rule holds -/
theorem dry_run_predicts_iff {s : Node H} {tip pindex : CBlockIndex H} {block b : CBlock H}
    {pow merkle : Bool} (htip : s.tip = some tip) (h : testBlockValidity env cenv params s block pow merkle = .ok b)
    (hp : OnTip env tip b.toCBlockHeader pindex) (undoPos : Nat) :
    (connectBlock env params b s.pcoinsTip (.ok undoPos) false (s.connectState pindex)).1 = .ok () ↔
      (block.fChecked = true ∨ (checkBlockHeader env block.toCBlockHeader true = .ok () ∧
        merkleRules env block true = .ok ())) ∧ (block.getHash env ≠ params.hashGenesisBlock →
        checkConversions s.pcoinsTip block = .ok ()) := by
  obtain ⟨hb, r, hr⟩ := testBlockValidity_ok htip h
  have hsame : b.toCBlockHeader = block.toCBlockHeader ∧ b.vtx = block.vtx := by
    rcases checkBlock_ok hb with ⟨-, rfl⟩ | ⟨-, -, rfl⟩
    · exact ⟨rfl, rfl⟩
    · exact ⟨rfl, rfl⟩
  have hconv : checkConversions s.pcoinsTip b = checkConversions s.pcoinsTip block := by
    unfold checkConversions
    rw [hsame.1, hsame.2]
  rw [← checkBlock_full_iff hb, ← connectChecks_of_dry hp hr, connectBlock_real_ok, hconv, hsame.1]
  constructor
  · rintro ⟨r', hr', hrule⟩
    have hfull := (connectChecks_iff.1 hr').2.1
    obtain ⟨r'', hr'', hgen⟩ := (connectChecks_of_dry hp hr).2 hfull
    have heq : r' = r'' := Except.ok.inj (hr'.symm.trans hr'')
    rw [hsame.1] at hgen
    subst heq
    exact ⟨⟨r', hr', hgen⟩, fun hne => hrule.resolve_left fun hg => hne (hgen.1 hg)⟩
  · rintro ⟨⟨r', hr', hgen⟩, hrule⟩
    refine ⟨r', hr', ?_⟩
    by_cases hg : block.getHash env = params.hashGenesisBlock
    · exact .inl (hgen.2 hg)
    · exact .inr (hrule hg)

/-! ## two blocks on the tip -/

def dryRun (block : CBlock Digest) : Res (CBlock Digest) :=
  testBlockValidity symEnv symChain symMain (symNode fun _ => none)
    block true true

def realRun (block : CBlock Digest) : Res Unit :=
  (connectBlock symEnv symMain block (symNode fun _ => none).pcoinsTip (.ok 0)
    false ((symNode fun _ => none).connectState (symIndex block.toCBlockHeader))).1

theorem symIndex_onTip (h : CBlockHeader Digest) :
    OnTip symEnv (connectedIndex (.atom 1) (some (.atom 0)) 1) h (symIndex h) :=
  ⟨rfl, rfl, rfl⟩

/-- the coinbase of `bobBlock` has an `nValue` of 2.15 coins and an `nValueBitCash` of 0 -/
theorem dry_run_misses_conversion : dryRun bobBlock = .ok { bobBlock with fChecked := true } ∧
      realRun { bobBlock with fChecked := true } = .error (.bad 100 "nValue-unequal-nValueBitCash") := by
  decide

/-- a block with the right developer output is connected after its dry run -/
theorem dry_run_predicts_halfDollar : dryRun (halfBlock []) = .ok { halfBlock [] with fChecked := true } ∧
      realRun { halfBlock [] with fChecked := true } = .ok () := by
  have htip : (symNode fun _ => none).tip = some (connectedIndex (.atom 1) (some (.atom 0)) 1) := rfl
  have hdry : dryRun (halfBlock []) = .ok { halfBlock [] with fChecked := true } := by
    decide
  have hwork : checkBlockHeader symEnv (halfBlock []).toCBlockHeader true = .ok () := by
    decide
  have hroot : merkleRules symEnv (halfBlock []) true = .ok () := by decide
  have hrule : checkConversions (fun _ => none) (halfBlock []) = .ok () := by decide
  exact ⟨hdry, (dry_run_predicts_iff htip hdry (symIndex_onTip _) 0).2 ⟨.inr ⟨hwork, hroot⟩, fun _ => hrule⟩⟩

end BitCash
