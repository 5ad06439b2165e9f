import BitCash.Chain.Recovery
import BitCash.Chain.Inverse

/-!
# The tip is a function of the active chain

As long as no two transactions of an active chain share their id, its coins and its best block do not depend on
what was connected and disconnected on the way.  The undo record of a block comes from the disk.

* `utxo` and `tipHash`: the functions
* `PlainStep`: the steps considered
-/

namespace BitCash
open Checks Runs List CCoinsViewCache

variable {H : Type} [Inhabited H] [DecidableEq H] {env : Env H} {params : Params H} {a a' : ActiveChain H}

def LinkedBlocks (params : Params H) : List (ChainBlock H) → Prop
  | [] => True
  | b :: l => b.pindex.pprev = some (tipHash params l) ∧ LinkedBlocks params l

/-- the block with its undo record as the disk gives it back (`reads_blockUndo`) -/
def ChainBlock.fromDisk (b : ChainBlock H) : ChainBlock H := { b with vtxundo := b.vtxundo.map (map Coin.stored) }

/-- the coins the block spends come back from the disk as they were -/
def ChainBlock.Storable (b : ChainBlock H) : Prop :=
  SpentInRange b.block b.vtxundo ∧ SpentLow b.block b.vtxundo

structure Derived (env : Env H) (params : Params H) (a : ActiveChain H) : Prop where
  pcoinsTip : a.pcoinsTip = utxo env a.blocks
  bestBlock : a.bestBlock = tipHash params a.blocks
  valid : ValidBlocks env params a.blocks
  linked : LinkedBlocks params a.blocks
  storable : ∀ b ∈ a.blocks, b.Storable

/-- a step to a chain without a repeated id whose blocks spend storable coins -/
def PlainStep (env : Env H) (params : Params H) (a a' : ActiveChain H) : Prop :=
  ChainStep env params a a' ∧ (txids env a'.blocks).Nodup ∧ ∀ b ∈ a'.blocks, b.Storable

theorem ValidBlocks.stored {b : ChainBlock H} {l : List (ChainBlock H)} (h : ValidBlocks env params (b :: l))
    (hb : b.Storable) : SameRecords b.block.vtx.tail b.fromDisk.vtxundo b.vtxundo := by
  obtain ⟨cb, rest, hvtx, -, hall⟩ := h.1.coinbase
  rw [hvtx]
  exact hall.stored (restored_of_spent hvtx hb.1 hb.2)

theorem Derived.disconnect (ha : Derived env params a) {b : ChainBlock H} {l : List (ChainBlock H)}
    (hb : a.blocks = b :: l) {u : List (List Coin)} (hu : SameRecords b.block.vtx.tail u b.vtxundo) :
    disconnectLast env { a with blocks := { b with vtxundo := u } :: l } =
      .ok ⟨l, utxo env l, tipHash params l, removeNicknames b.block.vtx a.nicks⟩ := by
  obtain ⟨hcoins, -, hvalid, hlinked, -⟩ := ha
  rw [hb] at hcoins hvalid hlinked
  obtain ⟨hco, hget⟩ := hvalid.coherent a.bestBlock
  obtain ⟨y, hy, -, hhash, hm⟩ :=
    disconnectBlock_clean hlinked.1 (hvalid.undo_length hu) (hvalid.applied hu) hco hget
  unfold disconnectLast
  dsimp only
  rw [hcoins, hy, ok_bind, need_true, ok_bind, hm, hhash]
  rfl

theorem Derived.step (ha : Derived env params a) (h : PlainStep env params a a') : Derived env params a' := by
  obtain ⟨hstep, hnd, hstorable⟩ := h
  cases hstep with
  | connect l undoPos block pindex htop h =>
    obtain ⟨c, hc⟩ := connectNext_ok (htop.withLocal l) h
    obtain ⟨hcoins, hvalid⟩ := hc.valid ha.pcoinsTip ha.valid hnd
    refine ⟨hcoins, ?_, hvalid, ?_, hstorable⟩
    · rw [hc.bestBlock, hc.blocks]
      rfl
    · rw [hc.blocks]
      exact ⟨ha.bestBlock ▸ htop.pprev, ha.linked⟩
  | disconnect h =>
    obtain ⟨b, -, hb, -⟩ := disconnectLast_ok h
    have hvalid := ha.valid
    have hlinked := ha.linked
    rw [hb] at hvalid hlinked
    have hlast := ha.disconnect hb hvalid.sameRecords
    rw [← hb, h] at hlast
    have heq := Except.ok.inj hlast
    exact ⟨congrArg ActiveChain.pcoinsTip heq, congrArg ActiveChain.bestBlock heq, hvalid.2.2.2, hlinked.2,
      hstorable⟩

/-- **the tip is a function of the active chain** at every point of every run, and the last block can always
be disconnected, with its undo record from the disk -/
theorem tip_of_run {run : List (ActiveChain H)} (h : IsRun (PlainStep env params) (.genesis params) run) :
    ∀ a ∈ ActiveChain.genesis params :: run, a.pcoinsTip = utxo env a.blocks ∧
      a.bestBlock = tipHash params a.blocks ∧ ValidBlocks env params a.blocks ∧
      ∀ b l, a.blocks = b :: l → disconnectLast env { a with blocks := b.fromDisk :: l } =
        .ok ⟨l, utxo env l, tipHash params l, removeNicknames b.block.vtx a.nicks⟩ := by
  intro a ha
  have hstart : Derived env params (.genesis params) :=
    ⟨rfl, rfl, trivial, trivial, fun b hb => absurd hb not_mem_nil⟩
  have hderived := run_keeps (fun _ _ hs hstep => hs.step hstep) h hstart a ha
  refine ⟨hderived.pcoinsTip, hderived.bestBlock, hderived.valid, fun b l hb => ?_⟩
  have hvalid := hderived.valid
  rw [hb] at hvalid
  exact hderived.disconnect hb (hvalid.stored (hderived.storable b (hb ▸ mem_cons_self)))

/-- the gift is made and spent, and the block that spends it can be taken off -/
theorem tip_of_run_gift : regiftChain.pcoinsTip ⟨giftTx.getHash symEnv, 0⟩ = none ∧
    disconnectLast symEnv { regiftChain with blocks := [regiftBlock.fromDisk, giftBlock] } =
      .ok ⟨[giftBlock], utxo symEnv [giftBlock], tipHash symParams [giftBlock],
        removeNicknames regiftBlock.block.vtx regiftChain.nicks⟩ := by
  have hgift : giftChain.blocks = [giftBlock] := extend_blocks (by decide)
  have hnd : (txids symEnv [giftBlock]).Nodup := by decide
  have hmade : giftBlock.Storable := ⟨spentInRange_of_all (by decide), spentLow_of_written (by decide)⟩
  have hspent : regiftBlock.Storable := ⟨spentInRange_of_all (by decide), spentLow_of_written (by decide)⟩
  have hrun : IsRun (PlainStep symEnv symParams) (.genesis symParams) [giftChain, regiftChain] := by
    simp only [isRun_cons, isRun_nil, and_true]
    refine ⟨⟨extend_step (by decide), hgift ▸ hnd, ?_⟩, extend_step (by decide), regiftChain_nodup, ?_⟩
    · rw [hgift]
      exact forall_mem_singleton.2 hmade
    · rw [regiftChain_blocks]
      exact forall_mem_cons.2 ⟨hspent, forall_mem_singleton.2 hmade⟩
  obtain ⟨-, -, -, hlast⟩ := tip_of_run hrun regiftChain (by simp)
  exact ⟨by decide, hlast _ _ regiftChain_blocks⟩

/-! ## a node on the chain -/

def giftNode (a : ActiveChain Digest) (chainActive : List Digest) : Node Digest :=
  { branchNode with pcoinsTip := a.pcoinsTip, bestBlock := a.bestBlock, nicks := a.nicks, chainActive := chainActive }

def regiftOff : Res (List (CTransaction Digest)) × Node Digest :=
  disconnectTip symEnv symChain
    (giftNode regiftChain [.atom 0, giftBlock.pindex.hash, regiftBlock.pindex.hash])

theorem disconnectTip_last_gift : ∃ a', disconnectLast symEnv regiftChain = .ok a' ∧
    a'.blocks = [giftBlock] ∧ regiftOff.2.At a' := by
  have hok : regiftOff.1 = .ok regiftBlock.block.vtx.reverse := by decide
  exact disconnectTip_last ⟨rfl, rfl, rfl⟩ regiftChain_blocks (Prod.ext hok rfl) (by decide)

def regiftOn : Res (List (CTransaction Digest)) × Node Digest :=
  connectTip symEnv symChain symParams (giftNode giftChain [.atom 0, giftBlock.pindex.hash])
    regiftBlock.pindex.hash regiftBlock.pindex (some regiftBlock.block)

theorem connectTip_next_gift : ∃ u a', a'.blocks = ⟨regiftBlock.block, regiftBlock.pindex, u⟩ :: giftChain.blocks ∧
    regiftOn.2.At a' := by
  have hok : regiftOn.1 = .ok regiftBlock.block.vtx := by decide
  have htop : OnTop symEnv symParams giftChain regiftBlock.block regiftBlock.pindex :=
    blockOn_onTop rfl giftChain halfDollar 2 [regiftTx]
  obtain ⟨block, u, a', hb, -, hblocks, hat⟩ := connectTip_next ⟨rfl, rfl, rfl⟩ (Prod.ext hok rfl)
    fun block hb => (Option.some.inj hb) ▸ htop
  cases hb
  exact ⟨u, a', hblocks, hat⟩

end BitCash
