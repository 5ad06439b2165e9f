import BitCash.Chain.Node

/-!
# Accepting a block

`CChainState::AcceptBlock` and the first half of `ProcessNewBlock`, up to `ActivateBestChain`.
-/

namespace BitCash
open Checks List

variable {H : Type} [Inhabited H] [DecidableEq H]

def Stop.isInvalid : Stop → Bool
  | .reject r => decide (r.mode = .invalid)
  | _ => false

def Stop.corruptionPossible : Stop → Bool
  | .reject r => r.corruptionPossible
  | _ => false

variable (env : Env H) (cenv : ChainEnv H) (params : Params H) {s t : Node H} {h : CBlockHeader H} {validate : Bool}

/-! ## linking the data -/

def workLess (a b : CBlockIndex H) : Bool :=
  if a.nChainWork = b.nChainWork then
    if a.nSequenceId = b.nSequenceId then decide (cenv.address b.hash < cenv.address a.hash)
    else decide (b.nSequenceId < a.nSequenceId)
  else decide (a.nChainWork < b.nChainWork)

namespace Node

def addCandidate (s : Node H) (h : H) (p : CBlockIndex H) : Node H :=
  if (s.tip.all fun t => !workLess cenv p t) && !s.setBlockIndexCandidates.contains h then
    { s with setBlockIndexCandidates := s.setBlockIndexCandidates ++ [h] }
  else s

def linked (s : Node H) (p : CBlockIndex H) : CBlockIndex H :=
  { p with
    nChainTx := ((p.pprev.bind s.mapBlockIndex).map (·.nChainTx)).getD 0 + p.nTx
    nSequenceId := s.nBlockSequenceId }

def link (s : Node H) (h : H) (p : CBlockIndex H) : Node H :=
  ({ s.setIndex h (s.linked p) with
    nBlockSequenceId := s.nBlockSequenceId + 1
    mapBlocksUnlinked := s.mapBlocksUnlinked.filter fun e => !decide (e.1 = h) } : Node H)
    |>.addCandidate cenv h (s.linked p)

def linkQueue : Nat → List H → Node H → Node H
  | n + 1, h :: queue, s =>
    match s.mapBlockIndex h with
    | none => linkQueue n queue s
    | some p =>
      let waiting := (s.mapBlocksUnlinked.filter fun e => decide (e.1 = h)).map (·.2)
      linkQueue n (queue ++ waiting) (s.link cenv h p)
  | _, _, s => s

def received (p : CBlockIndex H) (nTx pos : Nat) : CBlockIndex H :=
  ({ p with
    nTx := nTx
    nChainTx := 0
    nDataPos := pos
    nUndoPos := 0
    nStatus := { p.nStatus with haveData := true } } : CBlockIndex H).raiseValidity
      BLOCK_VALID_TRANSACTIONS

def linkOrWait (s : Node H) (h : H) (p : CBlockIndex H) : Node H :=
  match p.pprev with
  | none => s.linkQueue cenv (s.mapBlocksUnlinked.length + 1) [h]
  | some q =>
    if ((s.mapBlockIndex q).any fun prev => decide (prev.nChainTx ≠ 0)) then
      s.linkQueue cenv (s.mapBlocksUnlinked.length + 1) [h]
    else if ((s.mapBlockIndex q).any fun prev => prev.isValid BLOCK_VALID_TREE) then
      { s with mapBlocksUnlinked := s.mapBlocksUnlinked ++ [(q, h)] }
    else s

def receivedBlockTransactions (s : Node H) (h : H) (p : CBlockIndex H) (nTx pos : Nat) : Node H :=
  (s.setIndex h (received p nTx pos)).linkOrWait cenv h p

def store (s : Node H) (h : H) (p : CBlockIndex H) (b : CBlock H) : Node H :=
  ({ s with blockFiles := s.blockFiles ++ [{ b with fChecked := false }] } : Node H)
    |>.receivedBlockTransactions cenv h p b.vtx.length s.blockFiles.length

end Node

/-! ## AcceptBlock -/

def unwanted (s : Node H) (p : CBlockIndex H) (fRequested : Bool) : Bool :=
  !fRequested && (decide (p.nTx ≠ 0) ||
    (s.tip.any fun t => decide (p.nChainWork < t.nChainWork)) ||
    decide (s.height + MIN_BLOCKS_TO_KEEP < (p.nHeight : Int)) ||
    decide (p.nChainWork < cenv.nMinimumChainWork))

inductive Verdict where
  | known
  | unwanted
  | rejected (e : Stop)
  | unsaved
  | stored
  deriving DecidableEq

def storeRules (s : Node H) (p : CBlockIndex H) (b : CBlock H) : Res Unit := do
  let _ ← checkBlock env params b false true
  contextualCheckBlock env cenv params b (p.pprev.bind s.mapBlockIndex)

def verdict (s : Node H) (p : CBlockIndex H) (b : CBlock H) (fRequested : Bool) : Verdict :=
  -- `fAlreadyHave` comes first: data under a hash is never replaced
  if p.nStatus.haveData then .known
  else if unwanted cenv s p fRequested then .unwanted
  else match storeRules env cenv params s p b with
    | .error e => .rejected e
    | .ok _ => if cenv.saveBlockToDisk then .stored else .unsaved

def Stop.marks (e : Stop) : Bool := e.isInvalid && !e.corruptionPossible

def rejectBlock (s : Node H) (h : H) (p : CBlockIndex H) (e : Stop) : Node H :=
  if e.marks then s.setIndex h p.failValid else s

def carryOut (s : Node H) (h : H) (p : CBlockIndex H) (b : CBlock H) : Verdict → Res Unit × Node H
  | .known => (.ok (), s)
  | .unwanted => (.ok (), s)
  | .rejected e => (.error e, rejectBlock s h p e)
  | .unsaved => (.error (.systemError "Failed to find position to write new block to disk"), s)
  | .stored => (.ok (), s.store cenv h p b)

def acceptBlock (s : Node H) (b : CBlock H) (fRequested : Bool) : Res Unit × Node H :=
  match acceptBlockHeader env cenv params s b.toCBlockHeader with
  | (.error e, t) => (.error e, t)
  | (.ok p, t) =>
    carryOut cenv t (b.getHash env) p b (verdict env cenv params t p b fRequested)

/-! ## ProcessNewBlock up to the activation -/

/-- the block `ProcessNewBlock` hands to `AcceptBlock`: with its amounts rewritten, and checked;
`validate` is the outcome of `ShouldValidate` -/
def prepare (s : Node H) (block : CBlock H) (validate : Bool) : Res (CBlock H) := do
  let b ← normaliseBlock s.pcoinsTip (getTransaction env s) block
  checkBlock env params b validate validate

def arrive (s : Node H) (block : CBlock H) (fForceProcessing validate : Bool) :
    Res (CBlock H) × Node H :=
  match prepare env params s block validate with
  | .error e => (.error e, s)
  | .ok b =>
    match acceptBlock env cenv params s b fForceProcessing with
    | (.error e, t) => (.error e, t)
    | (.ok _, t) => (.ok b, t)

/-! ## the block files -/

namespace Node
variable {cenv}

@[simp] theorem setIndex_blockFiles (s : Node H) (h : H) (p : CBlockIndex H) :
    (s.setIndex h p).blockFiles = s.blockFiles := rfl

theorem link_blockFiles (s : Node H) (h : H) (p : CBlockIndex H) : (s.link cenv h p).blockFiles = s.blockFiles := by
  unfold link addCandidate
  split <;> rfl

theorem linkQueue_blockFiles (n : Nat) (queue : List H) (s : Node H) :
    (linkQueue cenv n queue s).blockFiles = s.blockFiles := by
  induction n generalizing queue s with
  | zero => rfl
  | succ n ih =>
    cases queue with
    | nil => rfl
    | cons h queue =>
      rw [linkQueue]
      cases s.mapBlockIndex h with
      | none => exact ih _ _
      | some p => exact (ih _ _).trans (link_blockFiles s h p)

theorem linkOrWait_blockFiles (s : Node H) (h : H) (p : CBlockIndex H) :
    (s.linkOrWait cenv h p).blockFiles = s.blockFiles := by
  unfold linkOrWait
  split
  · exact linkQueue_blockFiles _ _ _
  · split
    · exact linkQueue_blockFiles _ _ _
    · split <;> rfl

theorem store_blockFiles (s : Node H) (h : H) (p : CBlockIndex H) (b : CBlock H) :
    (s.store cenv h p b).blockFiles = s.blockFiles ++ [{ b with fChecked := false }] :=
  linkOrWait_blockFiles _ _ _

end Node

theorem markChildren_blockFiles (failed : H) (n : Nat) (h : H) (s : Node H) :
    (markChildren failed n h s).blockFiles = s.blockFiles := by
  induction n generalizing h s with
  | zero => rfl
  | succ n ih =>
    rw [markChildren]
    split
    · rfl
    · split
      · rfl
      · exact ih _ _

section Stored
variable {env cenv params}

theorem acceptBlockHeader_ok {p : CBlockIndex H}
    (hacc : acceptBlockHeader env cenv params s h = (.ok p, t)) : (s.mapBlockIndex (h.getHash env) = some p ∧ t = s ∧
        (h.getHash env = params.hashGenesisBlock ∨ p.nStatus.failed = false)) ∨
      (s.mapBlockIndex (h.getHash env) = none ∧ p = newIndex env cenv s h ∧ t = s.setIndex (h.getHash env) p ∧
        (h.getHash env = params.hashGenesisBlock ∨ ∃ prev, checkNewHeader env cenv params s h = .ok prev ∧
            failedAncestor s h.hashPrevBlock prev = none)) := by
  unfold acceptBlockHeader at hacc
  cases hk : s.mapBlockIndex (h.getHash env) with
  | some q =>
    rw [hk] at hacc
    dsimp only at hacc
    split at hacc
    · cases hacc
    · rename_i hnot
      cases hacc
      refine .inl ⟨rfl, rfl, ?_⟩
      by_cases hg : h.getHash env = params.hashGenesisBlock
      · exact .inl hg
      · exact .inr (by simpa [hg] using hnot)
  | none =>
    rw [hk] at hacc
    dsimp only at hacc
    by_cases hg : h.getHash env = params.hashGenesisBlock
    · rw [if_pos hg] at hacc
      cases hacc
      exact .inr ⟨rfl, rfl, rfl, .inl hg⟩
    · rw [if_neg hg, addHeader] at hacc
      cases hc : checkNewHeader env cenv params s h with
      | error e => rw [hc] at hacc; cases hacc
      | ok prev =>
        rw [hc] at hacc
        dsimp only at hacc
        cases hf : failedAncestor s h.hashPrevBlock prev with
        | some f => rw [hf] at hacc; cases hacc
        | none =>
          rw [hf] at hacc
          cases hacc
          exact .inr ⟨rfl, rfl, rfl, .inr ⟨prev, rfl, hf⟩⟩

theorem checkNewHeader_ok {prev : CBlockIndex H} (hc : checkNewHeader env cenv params s h = .ok prev) :
    checkBlockHeader env h true = .ok () ∧ s.mapBlockIndex h.hashPrevBlock = some prev ∧
      prev.nStatus.failed = false ∧ contextualCheckBlockHeader cenv params s h prev = .ok () := by
  rw [checkNewHeader, bind_ok] at hc
  obtain ⟨_, hpow, hc⟩ := hc
  cases hprev : s.mapBlockIndex h.hashPrevBlock with
  | none => rw [hprev] at hc; cases hc
  | some q =>
    rw [hprev] at hc
    simp only [bind_ok, need_ok, exists_const, Bool.not_eq_true'] at hc
    obtain ⟨hf, _, hctx, hret⟩ := hc
    cases hret
    exact ⟨hpow, rfl, hf, hctx⟩

theorem acceptBlockHeader_blockFiles {r : Res (CBlockIndex H)}
    (hacc : acceptBlockHeader env cenv params s h = (r, t)) : t.blockFiles = s.blockFiles := by
  have ht : t = (acceptBlockHeader env cenv params s h).2 := by rw [hacc]
  rw [ht]
  unfold acceptBlockHeader addHeader addToBlockIndex
  repeat' split
  all_goals first | rfl | exact markChildren_blockFiles _ _ _ _

theorem acceptBlock_stored {b stored : CBlock H} {fRequested : Bool}
    (h : (acceptBlock env cenv params s b fRequested).2.blockFiles = s.blockFiles ++ [stored]) :
    stored = { b with fChecked := false } ∧ ∃ p t, acceptBlockHeader env cenv params s b.toCBlockHeader = (.ok p, t) ∧
        storeRules env cenv params t p b = .ok () := by
  unfold acceptBlock at h
  cases hh : acceptBlockHeader env cenv params s b.toCBlockHeader with
  | mk r t =>
    have hfiles := acceptBlockHeader_blockFiles hh
    rw [hh] at h
    have hself : ∀ {u : Node H}, u.blockFiles = t.blockFiles → ¬ u.blockFiles = s.blockFiles ++ [stored] := by
      intro u hu e
      rw [hu, hfiles] at e
      exact absurd (congrArg length e) (by simp)
    cases r with
    | error e => exact absurd h (hself rfl)
    | ok p =>
      dsimp only at h
      unfold verdict at h
      split at h
      · exact absurd h (hself rfl)
      · split at h
        · exact absurd h (hself rfl)
        · cases hr : storeRules env cenv params t p b with
          | error e =>
            rw [hr] at h
            refine absurd h (hself ?_)
            show (rejectBlock t _ p e).blockFiles = t.blockFiles
            unfold rejectBlock
            split <;> rfl
          | ok u =>
            rw [hr] at h
            dsimp only at h
            split at h
            · rw [carryOut, Node.store_blockFiles, hfiles] at h
              exact ⟨(singleton_inj.1 (append_cancel_left h)).symm, p, t, rfl, hr⟩
            · exact absurd h (hself rfl)

theorem arrive_stored {block stored : CBlock H} {fForceProcessing : Bool}
    (h : (arrive env cenv params s block fForceProcessing validate).2.blockFiles = s.blockFiles ++ [stored]) :
    ∃ b, prepare env params s block validate = .ok b ∧
      (acceptBlock env cenv params s b fForceProcessing).2.blockFiles = s.blockFiles ++ [stored] := by
  unfold arrive at h
  cases hp : prepare env params s block validate with
  | error e =>
    rw [hp] at h
    exact absurd (congrArg length h) (by simp)
  | ok b =>
    rw [hp] at h
    refine ⟨b, rfl, ?_⟩
    dsimp only at h
    cases hacc : acceptBlock env cenv params s b fForceProcessing with
    | mk r t => cases r <;> (rw [hacc] at h; exact h)

theorem prepare_ok {block b : CBlock H} (h : prepare env params s block validate = .ok b) :
    ∃ nb, normaliseBlock s.pcoinsTip (getTransaction env s) block = .ok nb ∧ ((block.fChecked ∧ b = nb) ∨
        (block.fChecked = false ∧ blockRules env params nb validate validate = .ok () ∧
          b = { nb with fChecked := validate })) := by
  rw [prepare, bind_ok] at h
  obtain ⟨nb, hnb, hc⟩ := h
  obtain ⟨-, hflag, -⟩ := normaliseBlock_revalues hnb
  refine ⟨nb, hnb, ?_⟩
  rcases checkBlock_ok hc with ⟨hf, rfl⟩ | ⟨hf, hr, rfl⟩
  · exact .inl ⟨hflag.symm.trans hf, rfl⟩
  · exact .inr ⟨hflag.symm.trans hf, hr, by rw [Bool.and_self]⟩

/-- **stored blocks pass `CheckBlock` from scratch** exactly when a block that arrives with its flag
set keeps its amounts in range when they are rewritten, and a block whose work is not checked (not
sampled, and with a header that is there already) has its work done -/
theorem stored_checked_iff {s : Node H} {block stored : CBlock H} {fForceProcessing validate : Bool}
    (hflag : block.fChecked = true → blockRules env params block true true = .ok ())
    (hstored : (arrive env cenv params s block fForceProcessing validate).2.blockFiles = s.blockFiles ++ [stored]) :
    blockRules env params stored true true = .ok () ↔ (block.fChecked = true →
        ∀ b, normaliseBlock s.pcoinsTip (getTransaction env s) block = .ok b → ∀ tx ∈ b.vtx, amountsInRange tx.vout) ∧
      (block.fChecked = false → validate = false →
        ((s.mapBlockIndex (block.getHash env)).isSome = true ∨
          block.getHash env = params.hashGenesisBlock) →
        checkBlockHeader env block.toCBlockHeader true = .ok ()) := by
  obtain ⟨b, hprep, hacc⟩ := arrive_stored hstored
  obtain ⟨rfl, p, t, hhead, hrules⟩ := acceptBlock_stored hacc
  obtain ⟨nb, hnb, hcase⟩ := prepare_ok hprep
  obtain ⟨hh, -, hvtx⟩ := normaliseBlock_revalues hnb
  rcases hcase with ⟨hf, rfl⟩ | ⟨hf, hr, rfl⟩
  · -- the flag skips both checks: only the promise about the block as it came is left
    simp only [hf, true_implies, Bool.true_eq_false, false_implies, and_true]
    refine (blockRules_revalues_iff hh hvtx (hflag hf)).trans ⟨fun h b' hb' => ?_, fun h => h b hnb⟩
    rw [hnb] at hb'
    cases hb'
    exact h
  · simp only [hf, Bool.false_eq_true, false_implies, true_and, true_implies]
    cases validate with
    | true => simpa using hr
    | false =>
      simp only [true_implies]
      rw [storeRules, bind_ok] at hrules
      obtain ⟨b', hcheck, -⟩ := hrules
      rcases checkBlock_ok hcheck with ⟨hc, -⟩ | ⟨-, hm, -⟩
      · cases hc
      · rw [blockRules_flag] at hm
        obtain ⟨halgo, hmerkle, hprice, hbody⟩ := blockRules_ok.1 hm
        -- everything but the work has been checked
        have hiff : blockRules env params { nb with fChecked := false } true true = .ok () ↔
            checkBlockHeader env block.toCBlockHeader true = .ok () := by
          rw [blockRules_flag, blockRules_ok, headerRules_of_algo halgo, hh]
          exact and_iff_left ⟨hmerkle, hh ▸ hprice, hbody⟩
        rw [blockRules_flag, ← blockRules_flag nb false, hiff]
        refine ⟨fun h _ => h, fun h => ?_⟩
        rcases acceptBlockHeader_ok hhead with ⟨hknown, -⟩ | ⟨-, -, -, hg | ⟨prev, hnew, -⟩⟩
        · exact h (.inl (by rw [← hh]; simpa using congrArg Option.isSome hknown))
        · exact h (.inr (by rw [← hh]; exact hg))
        · rw [← hh]
          exact (checkNewHeader_ok hnew).1

end Stored

def minusFive : CTransaction Digest := spendTen [.of 1 (-5) [] 0] (by decide)

def minusFiveBlock : CBlock Digest := { halfBlock [minusFive] with fChecked := true }

/-- **the flag outlives the amounts it was set for**: the output is rewritten to minus five, and the
block is stored -/
theorem stored_negative : minusFiveBlock.fChecked = true ∧
      blockRules symEnv symMain minusFiveBlock true true = .ok () ∧
      ∃ stored, (arrive symEnv symChain symMain (symNode tenTip)
          minusFiveBlock true true).2.blockFiles = (symNode tenTip).blockFiles ++ [stored] ∧
        blockRules symEnv symMain stored true true =
          .error (.bad 100 "bad-txns-vout-negative") := by
  refine ⟨rfl, by decide, ?_⟩
  have hmap : ((arrive symEnv symChain symMain (symNode tenTip)
      minusFiveBlock true true).2.blockFiles.map fun b => blockRules symEnv symMain b true true) =
      [.error (.bad 100 "bad-txns-vout-negative")] := by
    decide
  obtain ⟨stored, hfiles, hrules⟩ := List.map_eq_singleton_iff.1 hmap
  exact ⟨stored, hfiles, hrules⟩

/-- a block without its flag, from a node that checks it: what is stored passes again -/
theorem stored_checked_moveTen :
    ∃ stored, (arrive symEnv symChain symMain (symNode tenTip)
        (halfBlock [moveTen]) true true).2.blockFiles = (symNode tenTip).blockFiles ++ [stored] ∧
      blockRules symEnv symMain stored true true = .ok () := by
  have hlen : (arrive symEnv symChain symMain (symNode tenTip)
      (halfBlock [moveTen]) true true).2.blockFiles.length = 1 := by
    decide
  obtain ⟨stored, hfiles⟩ := List.length_eq_one_iff.1 hlen
  have hunset : (halfBlock [moveTen]).fChecked = false := rfl
  refine ⟨stored, hfiles, (stored_checked_iff (by rw [hunset]; exact fun h => nomatch h) hfiles).2
    ⟨?_, fun _ h => nomatch h⟩⟩
  rw [hunset]
  exact fun h => nomatch h

end BitCash
