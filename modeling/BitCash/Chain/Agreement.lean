import BitCash.Chain.Accept
import BitCash.Lib.Rel

/-!
# Two nodes, one block

Two nodes with the same block tree (`SameTree`) may differ in their active chain, their mempool and their
transaction index.
-/

set_option linter.unusedSectionVars false

namespace BitCash
open Checks Related

variable {H : Type} [Inhabited H] [DecidableEq H] {env : Env H} {cenv : ChainEnv H} {params : Params H} {f : Bool}

/-! ## one tree -/

structure SameEntry (p q : CBlockIndex H) : Prop where
  hash : p.hash = q.hash
  pprev : p.pprev = q.pprev
  nHeight : p.nHeight = q.nHeight
  nChainWork : p.nChainWork = q.nChainWork
  nTx : p.nTx = q.nTx
  haveData : p.nStatus.haveData = q.nStatus.haveData
  failed : p.nStatus.failed = q.nStatus.failed

def SameIndex (s t : Node H) : Prop :=
  ∀ h, Option.Rel SameEntry (s.mapBlockIndex h) (t.mapBlockIndex h)

structure SameTree (s t : Node H) : Prop where
  index : SameIndex s t
  failedBlocks : s.failedBlocks = t.failedBlocks
  data : ∀ h p q, s.mapBlockIndex h = some p → t.mapBlockIndex h = some q →
    p.nStatus.haveData = true → s.blockFiles[p.nDataPos]? = t.blockFiles[q.nDataPos]?

structure Node.Sound (s : Node H) : Prop where
  tip : ∀ h, s.chainActive.getLast? = some h → (s.mapBlockIndex h).isSome = true
  connected : ∀ h p, s.mapBlockIndex h = some p → p.isValid BLOCK_VALID_SCRIPTS = true →
    failedBehind s h = none

section Agree
variable {s t : Node H} {p q : CBlockIndex H}

theorem walkBack_agree (h : SameIndex s t) (n : Nat) (x : H) : s.walkBack n x = t.walkBack n x := by
  induction n generalizing x with
  | zero => rfl
  | succ n ih =>
    have hprev : (s.mapBlockIndex x).bind (·.pprev) = (t.mapBlockIndex x).bind (·.pprev) :=
      rel_bind_eq (h x) fun _ _ hab => hab.pprev
    rw [Node.walkBack, Node.walkBack, hprev, funext ih]

theorem getAncestor_agree (h : SameIndex s t) (x : H) (n : Nat) : s.getAncestor x n = t.getAncestor x n := by
  refine rel_bind_eq (h x) fun p q hpq => ?_
  rw [hpq.nHeight, walkBack_agree h]

theorem parent_agree (h : SameIndex s t) (hpq : SameEntry p q) :
    Option.Rel SameEntry (p.pprev.bind s.mapBlockIndex) (q.pprev.bind t.mapBlockIndex) := by
  rw [hpq.pprev]
  cases q.pprev with
  | none => exact .none
  | some x => exact h x

theorem failedBehind_agree (h : SameTree s t) (x : H) : failedBehind s x = failedBehind t x := by
  unfold failedBehind
  rw [h.failedBlocks]
  congr 1
  funext f
  refine rel_any_eq (h.index f) fun p q hpq => ?_
  rw [getAncestor_agree h.index, hpq.nHeight]

theorem failedAncestor_eq (hs : s.Sound) {h : H} (hp : s.mapBlockIndex h = some p) :
    failedAncestor s h p = failedBehind s h := by
  unfold failedAncestor
  split
  · rename_i hv
    exact (hs.connected h p hp hv).symm
  · rfl

/-! ## the header -/

theorem contextualCheckBlockHeader_agree (h : SameIndex s t) (hpq : SameEntry p q) (header : CBlockHeader H) :
    contextualCheckBlockHeader cenv params s header p = contextualCheckBlockHeader cenv params t header q := by
  have hcheck : (getLastCheckpoint cenv s).map (·.nHeight) = (getLastCheckpoint cenv t).map (·.nHeight) :=
    rel_map_eq (rel_findSome h _) fun _ _ hab => hab.nHeight
  have hall : (getLastCheckpoint cenv s).all (fun c => decide (c.nHeight ≤ q.nHeight + 1)) =
      (getLastCheckpoint cenv t).all (fun c => decide (c.nHeight ≤ q.nHeight + 1)) := by
    have hmap : ∀ x : Option (CBlockIndex H), x.all (fun c => decide (c.nHeight ≤ q.nHeight + 1)) =
        (x.map (·.nHeight)).all (fun n => decide (n ≤ q.nHeight + 1)) := by
      intro x
      cases x <;> rfl
    rw [hmap, hmap, hcheck]
  simp only [contextualCheckBlockHeader, hpq.hash, hpq.nHeight, hall]

theorem checkNewHeader_agree (h : SameIndex s t) (header : CBlockHeader H) :
    Agree SameEntry (checkNewHeader env cenv params s header) (checkNewHeader env cenv params t header) := by
  unfold checkNewHeader
  refine (Agree.refl _).bind fun _ _ _ => ?_
  cases hs : s.mapBlockIndex header.hashPrevBlock with
  | none =>
    rw [rel_none (h _) hs]
    exact .error _
  | some p =>
    obtain ⟨q, ht, hpq⟩ := rel_some (h _) hs
    rw [ht]
    simp only [hpq.failed, contextualCheckBlockHeader_agree h hpq]
    exact (Agree.refl _).bind fun _ _ _ => (Agree.refl _).bind fun _ _ _ => .ok hpq

theorem newIndex_agree (h : SameIndex s t) (header : CBlockHeader H) :
    SameEntry (newIndex env cenv s header) (newIndex env cenv t header) := by
  have hprev := h header.hashPrevBlock
  refine ⟨rfl, rel_map_eq hprev fun _ _ _ => rfl, ?_, ?_, rfl, rfl, rfl⟩
  · exact congrArg (·.getD 0) (rel_map_eq hprev fun _ _ hab => congrArg (· + 1) hab.nHeight)
  · exact congrArg (·.getD 0 + cenv.getBlockProof header.nBits) (rel_map_eq hprev fun _ _ hab => hab.nChainWork)

theorem setIndex_agree (h : SameIndex s t) (x : H) (hpq : SameEntry p q) :
    SameIndex (s.setIndex x p) (t.setIndex x q) := by
  intro y
  show Option.Rel SameEntry (if y = x then some p else s.mapBlockIndex y)
    (if y = x then some q else t.mapBlockIndex y)
  split
  · exact .some hpq
  · exact h y

structure HeaderAgree (s t s' t' : Node H) (p q : CBlockIndex H) : Prop where
  entry : SameEntry p q
  index : SameIndex s' t'
  tip : s'.tip = s.tip ∧ t'.tip = t.tip
  height : s'.height = s.height ∧ t'.height = t.height
  blockFiles : s'.blockFiles = s.blockFiles ∧ t'.blockFiles = t.blockFiles

theorem setIndex_tip (hs : s.Sound) {x : H} (hx : s.mapBlockIndex x = none) : (s.setIndex x p).tip = s.tip := by
  show s.chainActive.getLast?.bind (s.setIndex x p).mapBlockIndex = s.chainActive.getLast?.bind s.mapBlockIndex
  cases hl : s.chainActive.getLast? with
  | none => rfl
  | some y =>
    have hy : y ≠ x := by
      rintro rfl
      have hknown := hs.tip _ hl
      rw [hx] at hknown
      cases hknown
    exact if_neg hy

theorem newHeader_agree (h : SameTree s t) (hs : s.Sound) (ht : t.Sound) {header : CBlockHeader H}
    (hns : s.mapBlockIndex (header.getHash env) = none) (hnt : t.mapBlockIndex (header.getHash env) = none) :
    ∃ p q s' t', addToBlockIndex env cenv s header = (.ok p, s') ∧
      addToBlockIndex env cenv t header = (.ok q, t') ∧ HeaderAgree s t s' t' p q :=
  ⟨_, _, _, _, rfl, rfl, newIndex_agree h.index header, setIndex_agree h.index _ (newIndex_agree h.index header),
    ⟨setIndex_tip hs hns, setIndex_tip ht hnt⟩, ⟨rfl, rfl⟩, ⟨rfl, rfl⟩⟩

theorem acceptBlockHeader_agree (h : SameTree s t) (hs : s.Sound) (ht : t.Sound) (header : CBlockHeader H) :
    (∃ e s' t', acceptBlockHeader env cenv params s header = (.error e, s') ∧
        acceptBlockHeader env cenv params t header = (.error e, t')) ∨
      ∃ p q s' t', acceptBlockHeader env cenv params s header = (.ok p, s') ∧
        acceptBlockHeader env cenv params t header = (.ok q, t') ∧ HeaderAgree s t s' t' p q := by
  have hself := h.index (header.getHash env)
  unfold acceptBlockHeader
  cases hks : s.mapBlockIndex (header.getHash env) with
  | some p =>
    rw [hks] at hself
    cases hkt : t.mapBlockIndex (header.getHash env) with
    | none => rw [hkt] at hself; cases hself
    | some q =>
      rw [hkt] at hself
      cases hself with
      | some hpq =>
        dsimp only
        rw [hpq.failed]
        split
        · exact .inl ⟨_, s, t, rfl, rfl⟩
        · exact .inr ⟨p, q, s, t, rfl, rfl, hpq, h.index, ⟨rfl, rfl⟩, ⟨rfl, rfl⟩, ⟨rfl, rfl⟩⟩
  | none =>
    rw [hks] at hself
    cases hkt : t.mapBlockIndex (header.getHash env) with
    | some _ => rw [hkt] at hself; cases hself
    | none =>
      dsimp only
      split
      · exact .inr (newHeader_agree h hs ht hks hkt)
      · unfold addHeader
        have hnew := @checkNewHeader_agree _ _ _ env cenv params s t h.index header
        cases hcs : checkNewHeader env cenv params s header with
        | error e =>
          rw [hcs] at hnew
          cases hct : checkNewHeader env cenv params t header with
          | error e' =>
            rw [hct] at hnew
            cases hnew
            exact .inl ⟨e, s, t, rfl, rfl⟩
          | ok _ => rw [hct] at hnew; cases hnew
        | ok p =>
          rw [hcs] at hnew
          cases hct : checkNewHeader env cenv params t header with
          | error _ => rw [hct] at hnew; cases hnew
          | ok q =>
            rw [hct] at hnew
            cases hnew with
            | ok hpq =>
              dsimp only
              rw [failedAncestor_eq hs (checkNewHeader_ok hcs).2.1,
                failedAncestor_eq ht (checkNewHeader_ok hct).2.1, failedBehind_agree h]
              cases failedBehind t header.hashPrevBlock with
              | some f => exact .inl ⟨_, _, _, rfl, rfl⟩
              | none => exact .inr (newHeader_agree h hs ht hks hkt)

/-! ## the block -/

def SameDemand (s t : Node H) (fForceProcessing : Bool) : Prop :=
  fForceProcessing = true ∨
    (s.tip.map (·.nChainWork) = t.tip.map (·.nChainWork) ∧ s.height = t.height)

theorem unwanted_agree (h : SameDemand s t f) (hpq : SameEntry p q) : unwanted cenv s p f = unwanted cenv t q f := by
  rcases h with rfl | ⟨hwork, hheight⟩
  · rfl
  · have hany : ∀ x : Option (CBlockIndex H), (x.any fun c => decide (q.nChainWork < c.nChainWork)) =
        (x.map (·.nChainWork)).any (fun n => decide (q.nChainWork < n)) := by
      intro x
      cases x <;> rfl
    unfold unwanted
    rw [hpq.nTx, hpq.nChainWork, hpq.nHeight, hheight, hany, hany, hwork]

theorem contextualCheckBlock_agree {x y : Option (CBlockIndex H)} (h : Option.Rel SameEntry x y)
    (b : CBlock H) : contextualCheckBlock env cenv params b x = contextualCheckBlock env cenv params b y := by
  cases h with
  | none => rfl
  | some hab => simp only [contextualCheckBlock, Option.map_some, hab.hash, hab.nHeight]

theorem verdict_agree {s' t' : Node H} (hagree : HeaderAgree s t s' t' p q)
    (hd : SameDemand s t f) (b : CBlock H) : verdict env cenv params s' p b f = verdict env cenv params t' q b f := by
  have hd' : SameDemand s' t' f := by
    unfold SameDemand
    rw [hagree.tip.1, hagree.tip.2, hagree.height.1, hagree.height.2]
    exact hd
  have hrules : storeRules env cenv params s' p b = storeRules env cenv params t' q b := by
    unfold storeRules
    rw [contextualCheckBlock_agree (parent_agree hagree.index hagree.entry)]
  unfold verdict
  rw [hagree.entry.haveData, unwanted_agree hd' hagree.entry, hrules]

def SameLookups (env : Env H) (s t : Node H) (block : CBlock H) : Prop :=
  ∀ tx ∈ block.vtx, 5 ≤ tx.nVersion →
    lookupCurrency s.pcoinsTip (getTransaction env s) tx =
      lookupCurrency t.pcoinsTip (getTransaction env t) tx

theorem prepare_agree {block : CBlock H} (h : SameLookups env s t block) (validate : Bool) :
    prepare env params s block validate = prepare env params t block validate := by
  have htx : ∀ p0 p1, collect (normaliseTx s.pcoinsTip (getTransaction env s) p0 p1) block.vtx =
      collect (normaliseTx t.pcoinsTip (getTransaction env t) p0 p1) block.vtx := by
    intro p0 p1
    refine collect_congr fun tx hmem => ?_
    unfold normaliseTx
    split
    · rename_i hv
      rw [h tx hmem hv]
    · rfl
  simp only [prepare, normaliseBlock, htx]

/-- **two nodes with one tree** that find the same currencies and want the block alike both reject it,
or both store the same contents, or both leave their files as they are -/
theorem arrive_agree {block : CBlock H} {f validate : Bool} (h : SameTree s t) (hs : s.Sound)
    (ht : t.Sound) (hlook : SameLookups env s t block) (hd : SameDemand s t f) :
    (∃ e, (arrive env cenv params s block f validate).1 = .error e ∧
        (arrive env cenv params t block f validate).1 = .error e) ∨
      (∃ b, (arrive env cenv params s block f validate).2.blockFiles = s.blockFiles ++ [b] ∧
        (arrive env cenv params t block f validate).2.blockFiles = t.blockFiles ++ [b]) ∨
      (∃ b, (arrive env cenv params s block f validate).1 = .ok b ∧
        (arrive env cenv params t block f validate).1 = .ok b ∧
        (arrive env cenv params s block f validate).2.blockFiles = s.blockFiles ∧
        (arrive env cenv params t block f validate).2.blockFiles = t.blockFiles) := by
  unfold arrive
  rw [prepare_agree hlook]
  cases prepare env params t block validate with
  | error e => exact .inl ⟨e, rfl, rfl⟩
  | ok b =>
    dsimp only
    unfold acceptBlock
    rcases @acceptBlockHeader_agree _ _ _ env cenv params s t h hs ht b.toCBlockHeader with
      ⟨e, s', t', hse, hte⟩ | ⟨p, q, s', t', hsp, htq, hagree⟩
    · rw [hse, hte]
      exact .inl ⟨e, rfl, rfl⟩
    · rw [hsp, htq]
      dsimp only
      rw [verdict_agree hagree hd]
      have hfs := hagree.blockFiles.1
      have hft := hagree.blockFiles.2
      cases hv : verdict env cenv params t' q b f with
      | known => exact .inr (.inr ⟨b, rfl, rfl, hfs, hft⟩)
      | unwanted => exact .inr (.inr ⟨b, rfl, rfl, hfs, hft⟩)
      | rejected e => exact .inl ⟨e, rfl, rfl⟩
      | unsaved => exact .inl ⟨_, rfl, rfl⟩
      | stored =>
        refine .inr (.inl ⟨{ b with fChecked := false }, ?_, ?_⟩)
        · exact (Node.store_blockFiles s' _ p b).trans (by rw [hfs])
        · exact (Node.store_blockFiles t' _ q b).trans (by rw [hft])

end Agree

theorem SameEntry.refl (p : CBlockIndex H) : SameEntry p p := ⟨rfl, rfl, rfl, rfl, rfl, rfl, rfl⟩

theorem sameTree_of_eq {s t : Node H} (hi : s.mapBlockIndex = t.mapBlockIndex)
    (hf : s.failedBlocks = t.failedBlocks) (hb : s.blockFiles = t.blockFiles) : SameTree s t := by
  refine ⟨fun h => ?_, hf, fun h p q hp hq _ => ?_⟩
  · rw [hi]
    cases t.mapBlockIndex h with
    | none => exact .none
    | some p => exact .some (.refl p)
  · rw [hi, hq] at hp
    cases hp
    rw [hb]

theorem sound_of_tip {s : Node H} (hf : s.failedBlocks = [])
    (ht : ∀ h ∈ s.chainActive.getLast?, (s.mapBlockIndex h).isSome) : s.Sound := by
  refine ⟨ht, fun h p _ _ => ?_⟩
  rw [failedBehind, hf]
  rfl

def forkNode (active : Digest) : Node Digest :=
  { symNode (fun _ => none) with
    mapBlockIndex := fun h =>
      if h = .atom 2 then some { connectedIndex (.atom 2) (some (.atom 0)) 1 with nChainWork := 10 }
      else (symNode fun _ => none).mapBlockIndex h
    chainActive := [.atom 0, active]
    bestBlock := active }

/-- **an unrequested block is stored where it beats the tip, and left where it does not** -/
theorem arrive_disagree : SameTree (forkNode (.atom 2)) (forkNode (.atom 1)) ∧ (forkNode (.atom 2)).Sound ∧
      (forkNode (.atom 1)).Sound ∧
      SameLookups symEnv (forkNode (.atom 2)) (forkNode (.atom 1)) (halfBlock []) ∧
      (arrive symEnv symChain symMain (forkNode (.atom 2)) (halfBlock [])
        false true).1.isOk = true ∧
      (arrive symEnv symChain symMain (forkNode (.atom 2)) (halfBlock [])
        false true).2.blockFiles = (forkNode (.atom 2)).blockFiles ∧
      ∃ b, (arrive symEnv symChain symMain (forkNode (.atom 1))
        (halfBlock []) false true).2.blockFiles = (forkNode (.atom 1)).blockFiles ++ [b] := by
  refine ⟨sameTree_of_eq rfl rfl rfl, sound_of_tip rfl (by decide), sound_of_tip rfl (by decide), ?_,
    by decide, ?_, ?_⟩
  · unfold SameLookups
    decide
  · exact List.length_eq_zero_iff.1 (by decide)
  · exact List.length_eq_one_iff.1 (by decide)

def indexedNode : Node Digest :=
  { symNode tenTip with mempool := [moveTen], txindex := some fun _ => none }

/-- neither the mempool nor the index matters to a block that spends coins of the tip -/
theorem arrive_agree_moveTen : ∃ b, (arrive symEnv symChain symMain (symNode tenTip)
        (halfBlock [moveTen]) false true).2.blockFiles = (symNode tenTip).blockFiles ++ [b] ∧
      (arrive symEnv symChain symMain indexedNode (halfBlock [moveTen])
        false true).2.blockFiles = indexedNode.blockFiles ++ [b] := by
  have hlook : SameLookups symEnv (symNode tenTip) indexedNode (halfBlock [moveTen]) := by
    unfold SameLookups
    decide
  have hfiles : (arrive symEnv symChain symMain (symNode tenTip)
      (halfBlock [moveTen]) false true).2.blockFiles.length = 1 := by
    decide
  have hok : (arrive symEnv symChain symMain (symNode tenTip)
      (halfBlock [moveTen]) false true).1.isOk = true := by
    decide
  have hdemand : SameDemand (symNode tenTip) indexedNode false := .inr (by decide)
  rcases @arrive_agree _ _ _ symEnv symChain symMain (symNode tenTip)
    indexedNode (halfBlock [moveTen]) false true (sameTree_of_eq rfl rfl rfl)
    (sound_of_tip rfl (by decide)) (sound_of_tip rfl (by decide)) hlook hdemand with
    ⟨e, he, -⟩ | h | ⟨b, -, -, hsame, -⟩
  · rw [he] at hok
    cases hok
  · exact h
  · rw [hsame] at hfiles
    cases hfiles

end BitCash
