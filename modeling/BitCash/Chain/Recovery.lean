import BitCash.Chain.Replay

/-!
# Crash recovery is exact

Two chains of one block tree, each connected from the genesis block on, are stored with their undo records.
-/

set_option linter.unusedSectionVars false

namespace BitCash
open Checks Journal List Function CCoinsViewCache Nat COutPoint

variable {H : Type} [Inhabited H] [DecidableEq H] {env : Env H} {params : Params H}

/-! ## the coins of a chain -/

inductive ConnectedChain (env : Env H) (params : Params H) : ActiveChain H → Prop
  | genesis : ConnectedChain env params (.genesis params)
  | connect {a a' : ActiveChain H} {b : ChainBlock H} {c : ConnectLoop H} (l : LocalEnv H)
      (h : ConnectedChain env params a) (hc : Connects (env.withLocal l) params a b c a') :
      ConnectedChain env params a'

theorem ConnectedChain.next {a a' : ActiveChain H} (h : ConnectedChain env params a) (l : LocalEnv H)
    {undoPos : Res Nat} {block : CBlock H} {pindex : CBlockIndex H}
    (htop : OnTop env params a block pindex)
    (hok : connectNext (env.withLocal l) params undoPos a block pindex = .ok a') :
    ConnectedChain env params a' := by
  obtain ⟨c, hc⟩ := connectNext_ok (htop.withLocal l) hok
  exact .connect l h hc

def txids (env : Env H) (blocks : List (ChainBlock H)) : List H :=
  blocks.flatMap fun b => b.block.vtx.map (·.getHash env)

def utxo (env : Env H) : List (ChainBlock H) → CoinsMap H
  | [] => fun _ => none
  | b :: l => applyTo (utxo env l) (blockWrites env b.block.vtx b.pindex.nHeight)

def ValidBlocks (env : Env H) (params : Params H) : List (ChainBlock H) → Prop
  | [] => True
  | b :: l => BlockRecords env b.pindex.nHeight (utxo env l) b.block.vtx b.vtxundo ∧
      blockRules env params b.block true true = .ok () ∧ b.pindex.nHeight = l.length + 1 ∧
      ValidBlocks env params l

variable {tx : CTransaction H} {o : COutPoint H} {bh : H} {out : CTxOut}

theorem checked_of_rules {block : CBlock H} (h : blockRules env params block true true = .ok ())
    (htx : tx ∈ block.vtx) : checkTransaction env .empty tx true (block.getHash env) false = .ok () :=
  (bodyRules_ok (blockRules_ok.1 h).2.2.2).2 tx htx

structure CoinOf (env : Env H) (blocks : List (ChainBlock H)) (o : COutPoint H) (c : Coin) : Prop where
  txid : o.hash ∈ txids env blocks
  notNull : o ≠ COutPoint.null
  unspent : c.isSpent = false
  spendable : isUnspendable c.scriptPubKey = false
  height : c.nHeight ≠ 0

variable (hct : checkTransaction env .empty tx true bh false = .ok ())

include hct in
theorem makesAt_ne_null (hout : MakesAt env tx o out) : o ≠ null:= by
  have hlen := vout_length_lt hct
  obtain ⟨n, hn, -, rfl⟩ := hout
  have hlt : n < tx.vout.length := (List.getElem?_eq_some_iff.1 hn).1
  intro hnull
  have hn' : (UInt32.ofNat n).toNat = (0xffffffff : UInt32).toNat := congrArg (fun o : COutPoint H => o.n.toNat) hnull
  rw [UInt32.toNat_ofNat', mod_eq_of_lt (by omega)] at hn'
  have hmax : (0xffffffff : UInt32).toNat = 4294967295 := rfl
  omega

include hct in
theorem countable_of_checked : Countable tx:= by
  intro out hout
  have hrange := (checkTransaction_outs env hct out hout).2
  rw [moneyRange_iff] at hrange
  omega

theorem coinOf_created {b : ChainBlock H} {l : List (ChainBlock H)}
    (hrules : blockRules env params b.block true true = .ok ())
    (hheight : b.pindex.nHeight = l.length + 1) (htx : tx ∈ b.block.vtx) (hout : MakesAt env tx o out) :
    CoinOf env (b :: l) o (Coin.ofOut out b.pindex.nHeight tx.isCoinBase) := by
  have hct := checked_of_rules hrules htx
  have hnull := makesAt_ne_null hct hout
  obtain ⟨n, hn, hu, rfl⟩ := hout
  refine ⟨?_, hnull, ?_, hu, ?_⟩
  · exact mem_flatMap.2 ⟨b, mem_cons_self, mem_map_of_mem htx⟩
  · exact decide_eq_false (countable_of_checked hct out (mem_of_getElem? hn))
  · show b.pindex.nHeight ≠ 0
    omega

variable {l : List (ChainBlock H)} {c : Coin}

theorem ValidBlocks.coinOf (h : ValidBlocks env params l) (hc : utxo env l o = some c) : CoinOf env l o c := by
  induction l generalizing o c with
  | nil => cases hc
  | cons b l ih =>
    obtain ⟨-, hrules, hheight, hl⟩ := h
    refine applyTo_forall (P := fun o c => CoinOf env (b :: l) o c) (fun o c hc => ?_) (fun o c hput => ?_) hc
    · have hold := ih hl hc
      have hmem : o.hash ∈ txids env (b :: l) := mem_append_right _ hold.txid
      exact ⟨hmem, hold.notNull, hold.unspent, hold.spendable, hold.height⟩
    · rcases mem_blockWrites hput with ⟨hdel, -⟩ | ⟨tx, htx, out, hout, hput⟩
      · cases hdel
      · cases hput
        exact coinOf_created hrules hheight htx hout

theorem ValidBlocks.coherent (h : ValidBlocks env params l) (hash : H) :
    (ofBase (utxo env l) hash).Coherent ∧
      (ofBase (utxo env l) hash).getCoin = utxo env l :=
  coherent_ofBase (fun _ _ hc => (h.coinOf hc).unspent) (fun _ _ hc => (h.coinOf hc).spendable)

variable {m : CoinsMap H} {nHeight : Nat} {us : List (List Coin)} {txs : List (CTransaction H)} {a : ActiveChain H}

theorem RecordsAll.ofLocal {l : LocalEnv H}
    (h : RecordsAll (env.withLocal l) nHeight m txs us) : RecordsAll env nHeight m txs us := by
  induction txs generalizing us m with
  | nil =>
    cases us with
    | nil => trivial
    | cons u us => exact absurd h id
  | cons tx txs ih =>
    cases us with
    | nil => exact absurd h id
    | cons u us =>
      obtain ⟨⟨h1, h2, h3, h4, h5, h6, h7, h8⟩, hrest⟩ := h
      exact ⟨⟨h1, h2, h3, h4, h5, h6, h7, h8⟩, ih hrest⟩

theorem BlockRecords.ofLocal {l : LocalEnv H}
    (h : BlockRecords (env.withLocal l) nHeight m txs us) : BlockRecords env nHeight m txs us := by
  obtain ⟨cb, rest, hvtx, ⟨⟨h1, h2⟩, h3, h4, h5⟩, hrest⟩ := h.coinbase
  exact ⟨cb, rest, hvtx, ⟨⟨h1, h2⟩, h3, h4, h5⟩, hrest.ofLocal⟩

theorem Connects.valid {a' : ActiveChain H} {b : ChainBlock H} {c : ConnectLoop H} {l : LocalEnv H}
    (hc : Connects (env.withLocal l) params a b c a') (hcoins : a.pcoinsTip = utxo env a.blocks)
    (hvalid : ValidBlocks env params a.blocks) (hnd : (txids env a'.blocks).Nodup) :
    a'.pcoinsTip = utxo env a'.blocks ∧ ValidBlocks env params a'.blocks := by
  rw [hc.blocks] at hnd ⊢
  unfold txids at hnd
  rw [flatMap_cons, nodup_append] at hnd
  obtain ⟨-, -, hdisj⟩ := hnd
  obtain ⟨hco, hget⟩ := hvalid.coherent a.bestBlock
  have hloop := hc.loop
  rw [hcoins] at hloop
  have hnew : NewOutputs (env.withLocal l) b.block
      (ofBase (utxo env a.blocks) a.bestBlock).getCoin := by
    intro tx htx o ho
    rw [hget]
    cases hu : utxo env a.blocks o with
    | none => rfl
    | some x =>
      obtain ⟨n, -, rfl⟩ := mem_map.1 ho
      exact absurd rfl (hdisj _ (mem_map_of_mem htx) _ (hvalid.coinOf hu).txid)
  obtain ⟨-, hview, hrec⟩ := connectLoop_records hco hc.rules hnew hloop
  rw [hget] at hview hrec
  refine ⟨hc.pcoinsTip.trans hview, ?_, hc.rules, hc.nHeight, hvalid⟩
  rw [hc.undo]
  exact hrec.ofLocal

theorem ConnectedChain.valid (h : ConnectedChain env params a)
    (hnd : (txids env a.blocks).Nodup) : a.pcoinsTip = utxo env a.blocks ∧ ValidBlocks env params a.blocks := by
  induction h with
  | genesis => exact ⟨rfl, trivial⟩
  | @connect a a' b c l h hc ih =>
    have hndl : (txids env a.blocks).Nodup := by
      rw [hc.blocks] at hnd
      exact (nodup_append.1 hnd).2.1
    obtain ⟨hcoins, hvalid⟩ := ih hndl
    exact hc.valid hcoins hvalid hnd

/-! ## a block back and forth -/

theorem RecordsAll.coins {P : Coin → Prop} {l : List (CTransaction H)} (h : RecordsAll env nHeight m l us)
    (hm : ∀ o c, m o = some c → P c) (hput : ∀ o c, (o, .put c) ∈ blockWrites env l nHeight → P c) {u : List Coin}
    (hmem : (tx, u) ∈ l.zip us) {i : CTxIn H} (hic : (i, c) ∈ tx.vin.zip u) (hn : i.isnickname = false) : P c:= by
  induction l generalizing us m with
  | nil => cases hmem
  | cons ty l ih =>
    cases us with
    | nil => cases hmem
    | cons v us =>
      rcases mem_cons.1 hmem with heq | hmem
      · cases heq
        exact hm _ c (h.1.spent.getCoin hic hn)
      · refine ih h.2 (fun o d hd => ?_) (fun o d hd => hput o d (mem_append_right _ hd)) hmem
        exact applyTo_forall hm (fun o d hd => hput o d (mem_append_left _ hd)) hd

theorem put_height {vtx : List (CTransaction H)}
    (h : (o, .put c) ∈ blockWrites env vtx nHeight) : c.nHeight = nHeight := by
  rcases mem_blockWrites h with ⟨hdel, -⟩ | ⟨tx, -, out, -, hput⟩
  · cases hdel
  · cases hput
    rfl

variable {b : ChainBlock H} {u : List (List Coin)}

theorem ValidBlocks.applied (h : ValidBlocks env params (b :: l)) (hu : SameRecords b.block.vtx.tail u b.vtxundo) :
    AppliedAll env b.pindex.nHeight (utxo env l) (withRecords b.block.vtx u) := by
  obtain ⟨hrec, hrules, hheight, hl⟩ := h
  refine hrec.applied (fun o c hc => ?_) hu
  obtain ⟨cb, rest, hvtx, -, hall⟩ := hrec.coinbase
  obtain ⟨tx, v, hmem, i, hic, hn, -⟩ := hc
  rw [hvtx] at hmem
  rcases mem_cons.1 hmem with heq | hmem
  · cases heq
  · change (tx, some v) ∈ rest.zip (b.vtxundo.map some) at hmem
    rw [zip_map_right] at hmem
    obtain ⟨⟨ty, w⟩, hzip, heq⟩ := mem_map.1 hmem
    cases heq
    have hput : ∀ o c, (o, .put c) ∈ blockWrites env (cb :: rest) b.pindex.nHeight → c.nHeight ≠ 0 := by
      intro o c hc
      rw [put_height hc]
      omega
    refine hall.coins (P := fun c => c.nHeight ≠ 0) (fun o d hd => ?_)
      (fun o d hd => hput o d (mem_append_right _ hd)) hzip hic hn
    exact applyTo_forall (fun o d hd => (hl.coinOf hd).height) (fun o d hd => hput o d (mem_append_left _ hd)) hd

theorem AppliedAll.undoable {l : List (CTransaction H × Option (List Coin))}
    (h : AppliedAll env nHeight m l) : ∀ p ∈ l, Undoable p := by
  induction l generalizing m with
  | nil => exact fun p hp => nomatch hp
  | cons q l ih =>
    intro p hp
    rcases mem_cons.1 hp with rfl | hp
    · exact h.1.toUndoable
    · exact ih h.2 p hp

theorem SameRecords.length {l : List (CTransaction H)} {vs : List (List Coin)}
    (h : SameRecords l us vs) : us.length = l.length := by
  induction l generalizing us vs with
  | nil =>
    cases us with
    | nil => rfl
    | cons u us => cases vs <;> exact absurd h id
  | cons tx l ih =>
    cases us with
    | nil => exact absurd h id
    | cons u us =>
      cases vs with
      | nil => exact absurd h id
      | cons v vs => rw [length_cons, ih h.2]; rfl

theorem ValidBlocks.undo_length (h : ValidBlocks env params (b :: l))
    (hu : SameRecords b.block.vtx.tail u b.vtxundo) : u.length + 1 = b.block.vtx.length := by
  obtain ⟨cb, rest, hvtx, -⟩ := h.1.coinbase
  have hlen := hu.length
  rw [hvtx] at hlen ⊢
  rw [hlen]
  rfl

theorem RecordsAll.same {l : List (CTransaction H)} (h : RecordsAll env nHeight m l us) : SameRecords l us us := by
  induction l generalizing us m with
  | nil =>
    cases us with
    | nil => trivial
    | cons u us => exact absurd h id
  | cons tx l ih =>
    cases us with
    | nil => exact absurd h id
    | cons u us => exact ⟨SameCoins.refl h.1.length, ih h.2⟩

theorem ValidBlocks.sameRecords (h : ValidBlocks env params (b :: l)) :
    SameRecords b.block.vtx.tail b.vtxundo b.vtxundo := by
  obtain ⟨cb, rest, hvtx, -, hall⟩ := h.1.coinbase
  rw [hvtx]
  exact hall.same

theorem undo_utxo (h : ValidBlocks env params (b :: l)) (hu : SameRecords b.block.vtx.tail u b.vtxundo) :
    applyTo (utxo env (b :: l)) (blockUndoWrites env b.block.vtx u) = utxo env l := by
  -- what a disconnection on the coins of the block does, said twice
  have happ := h.applied hu
  have hlen := h.undo_length hu
  let p : CBlockIndex H := { b.pindex with pprev := some default }
  obtain ⟨hco, hget⟩ := h.coherent (default : H)
  have hprev : p.pprev = some default := rfl
  obtain ⟨y, hy, -, -, hm⟩ := disconnectBlock_clean hprev hlen happ hco hget
  obtain ⟨w, clean, hw, -, hwrites⟩ := disconnectBlock_writes env hprev hlen happ.undoable hco
  have heq : y = w := congrArg Prod.fst (Except.ok.inj (hy.symm.trans hw))
  rw [← hm, heq, hwrites, hget]

theorem applyTo_spendAll {l : List (CTxIn H)} (hl : ∀ i ∈ l, i.isnickname → i.prevout = .null)
    {m : CoinsMap H} (hm : m .null = none) : applyTo m (l.map fun i => (i.prevout, .del)) =
      applyTo m ((l.filter fun i => !i.isnickname).map fun i => (i.prevout, .del)) := by
  induction l generalizing m with
  | nil => rfl
  | cons i l ih =>
    have ih' := @ih (fun j hj => hl j (mem_cons_of_mem i hj))
    rw [map_cons, ← singleton_append, applyTo_append, applyTo_one]
    cases hn : i.isnickname with
    | true =>
      have hnull := hl i mem_cons_self hn
      have hupd : update m i.prevout (Write.del : Write Coin).value = m := by
        rw [hnull]
        exact update_eq_self_iff.2 hm.symm
      rw [hupd, filter_cons_of_neg (by rw [hn]; decide)]
      exact ih' hm
    | false =>
      rw [filter_cons_of_pos (by rw [hn]; decide), map_cons, ← singleton_append, applyTo_append, applyTo_one]
      refine ih' ?_
      by_cases hi : null = i.prevout
      · rw [hi, update_self]
        rfl
      · rw [update_of_ne hi, hm]

theorem applyTo_rollWrites (nHeight : Nat) (tx : CTransaction H) (hm : m .null = none) :
    applyTo m (rollWrites env nHeight tx) = applyTo m (txWrites env tx nHeight) := by
  unfold rollWrites txWrites txSpends
  cases tx.isCoinBase with
  | true => rfl
  | false =>
    rw [applyTo_append, applyTo_append]
    congr 1
    exact applyTo_spendAll (fun i hi hn => CTransaction.prevout_of_nickname hi hn) hm

include hct in
theorem applyTo_null (nHeight : Nat) (hm : m .null = none) : applyTo m (txWrites env tx nHeight) .null = none:= by
  cases h : applyTo m (txWrites env tx nHeight) .null with
  | none => rfl
  | some c =>
    refine absurd rfl (applyTo_forall (P := fun o _ => o ≠ null) (fun o d hd hnull => ?_)
      (fun o d hput => ?_) h)
    · rw [hnull, hm] at hd
      cases hd
    · rcases mem_append.1 hput with hs | hc
      · cases (mem_txSpends hs).1
      · obtain ⟨out, hout, -⟩ := mem_txCreates.1 hc
        exact makesAt_ne_null hct hout

theorem applyTo_rollAll {l : List (CTransaction H)} (nHeight : Nat)
    (hl : ∀ tx ∈ l, checkTransaction env .empty tx true bh false = .ok ()) {m : CoinsMap H} (hm : m .null = none) :
    applyTo m (l.flatMap (rollWrites env nHeight)) = applyTo m (blockWrites env l nHeight) := by
  induction l generalizing m with
  | nil => rfl
  | cons tx l ih =>
    show applyTo m (rollWrites env nHeight tx ++ l.flatMap (rollWrites env nHeight)) =
      applyTo m (txWrites env tx nHeight ++ blockWrites env l nHeight)
    rw [applyTo_append, applyTo_append, applyTo_rollWrites nHeight tx hm]
    exact ih (fun y hy => hl y (mem_cons_of_mem tx hy)) (applyTo_null (hl tx mem_cons_self) nHeight hm)

theorem roll_utxo (h : ValidBlocks env params (b :: l)) :
    applyTo (utxo env l) (b.block.vtx.flatMap (rollWrites env b.pindex.nHeight)) = utxo env (b :: l) := by
  obtain ⟨-, hrules, -, hl⟩ := h
  refine applyTo_rollAll _ (fun tx htx => checked_of_rules hrules htx) ?_
  cases hnull : utxo env l .null with
  | none => rfl
  | some c => exact absurd rfl (hl.coinOf hnull).notNull

/-! ## the chain in the index and in the files -/

def tipHash (params : Params H) : List (ChainBlock H) → H
  | [] => params.hashGenesisBlock
  | b :: _ => b.pindex.hash

structure StoredBlock (env : Env H) (s : Node H) (prev : H) (nHeight : Nat) (b : ChainBlock H)
    (p : CBlockIndex H) : Prop where
  entry : s.mapBlockIndex b.pindex.hash = some p
  hash : p.hash = b.pindex.hash
  pprev : p.pprev = some prev
  nHeight : p.nHeight = nHeight
  block : ∃ block, readBlockFromDisk env s p = some block ∧ block.vtx = b.block.vtx
  undo : ∃ u, undoReadFromDisk s p = some u ∧ SameRecords b.block.vtx.tail u b.vtxundo

def Stored (env : Env H) (params : Params H) (s : Node H) : List (ChainBlock H) → Prop
  | [] => ∃ p, s.mapBlockIndex params.hashGenesisBlock = some p ∧ p.hash = params.hashGenesisBlock ∧
      p.nHeight = 0
  | b :: l => (∃ p, StoredBlock env s (tipHash params l) (l.length + 1) b p) ∧ Stored env params s l

variable {s : Node H} {k : List (ChainBlock H)} {p q : CBlockIndex H}

theorem Stored.entry (h : Stored env params s l) :
    ∃ p, s.mapBlockIndex (tipHash params l) = some p ∧ p.hash = tipHash params l ∧ p.nHeight = l.length := by
  cases l with
  | nil => exact h
  | cons b l =>
    obtain ⟨⟨p, hp⟩, -⟩ := h
    exact ⟨p, hp.entry, hp.hash, hp.nHeight⟩

theorem Stored.pprev (h : Stored env params s (b :: l)) :
    (s.mapBlockIndex (tipHash params (b :: l))).bind (·.pprev) = some (tipHash params l) := by
  obtain ⟨⟨p, hp⟩, -⟩ := h
  show (s.mapBlockIndex b.pindex.hash).bind (·.pprev) = some (tipHash params l)
  rw [hp.entry]
  exact hp.pprev

section
variable (h : Stored env params s l)
include h

theorem Stored.drop (k : Nat) : Stored env params s (l.drop k) := by
  induction l generalizing k with
  | nil => rwa [drop_nil]
  | cons b l ih =>
    cases k with
    | zero => exact h
    | succ k => exact ih h.2 k

theorem Stored.walkBack {k : Nat}
    (hk : k ≤ l.length) : s.walkBack k (tipHash params l) = some (tipHash params (l.drop k)) := by
  induction l generalizing k with
  | nil =>
    have hzero : k = 0 := le_zero.1 hk
    rw [hzero]
    rfl
  | cons b l ih =>
    cases k with
    | zero => rfl
    | succ k =>
      unfold Node.walkBack
      rw [h.pprev]
      exact ih h.2 (le_of_succ_le_succ hk)

theorem Stored.getAncestor {n : Nat} (hn : n ≤ l.length) :
    s.getAncestor (tipHash params l) n = some (tipHash params (l.drop (l.length - n))) := by
  obtain ⟨p, hp, -, hheight⟩ := h.entry
  unfold Node.getAncestor
  rw [hp]
  show (if p.nHeight < n then none else s.walkBack (p.nHeight - n) (tipHash params l)) = _
  rw [if_neg (by omega), hheight]
  exact h.walkBack (sub_le _ _)

theorem Stored.length_eq (hk : Stored env params s k) (heq : tipHash params l = tipHash params k) :
    l.length = k.length := by
  obtain ⟨p, hp, -, hlen⟩ := h.entry
  obtain ⟨q, hq, -, hklen⟩ := hk.entry
  rw [heq, hq] at hp
  cases hp
  rw [← hlen, hklen]

theorem Stored.utxo_eq (hk : Stored env params s k) (hv : ValidBlocks env params l)
    (hvk : ValidBlocks env params k)
    (heq : tipHash params l = tipHash params k) : utxo env l = utxo env k := by
  have hlen := h.length_eq hk heq
  induction l generalizing k with
  | nil =>
    cases k with
    | nil => rfl
    | cons c k => cases hlen
  | cons b l ih =>
    cases k with
    | nil => cases hlen
    | cons c k =>
      obtain ⟨⟨p, hp⟩, hl⟩ := h
      obtain ⟨⟨q, hq⟩, hk⟩ := hk
      obtain ⟨-, -, hb, hv⟩ := hv
      obtain ⟨-, -, hc, hvk⟩ := hvk
      have hentry := hp.entry
      rw [show b.pindex.hash = c.pindex.hash from heq, hq.entry] at hentry
      cases hentry
      have hprev : tipHash params l = tipHash params k := Option.some.inj (hp.pprev.symm.trans hq.pprev)
      obtain ⟨x, hx, hxvtx⟩ := hp.block
      obtain ⟨y, hy, hyvtx⟩ := hq.block
      rw [hx] at hy
      cases hy
      have hlk : l.length = k.length := succ.inj hlen
      show applyTo (utxo env l) (blockWrites env b.block.vtx b.pindex.nHeight) =
        applyTo (utxo env k) (blockWrites env c.block.vtx c.pindex.nHeight)
      rw [ih hl hk hv hvk hprev hlk, ← hxvtx, ← hyvtx, hb, hc, hlk]

theorem commonFrom_spec (hk : Stored env params s k) (hlen : l.length = k.length) : ∃ n ≤ l.length,
      commonFrom s (l.length + 1) (tipHash params l) (tipHash params k) = some (tipHash params (l.drop n)) ∧
      tipHash params (l.drop n) = tipHash params (k.drop n) := by
  induction l generalizing k with
  | nil =>
    cases k with
    | nil => exact ⟨0, Nat.le_refl _, if_pos rfl, rfl⟩
    | cons c k => cases hlen
  | cons b l ih =>
    cases k with
    | nil => cases hlen
    | cons c k =>
      unfold commonFrom
      by_cases heq : tipHash params (b :: l) = tipHash params (c :: k)
      · rw [if_pos heq]
        exact ⟨0, Nat.zero_le _, rfl, heq⟩
      · rw [if_neg heq, h.pprev, hk.pprev]
        obtain ⟨n, hn, hfork, hsame⟩ := ih h.2 hk.2 (succ.inj hlen)
        exact ⟨n + 1, succ_le_succ hn, hfork, hsame⟩

theorem lastCommonAncestor_spec (hk : Stored env params s k) (hp : s.mapBlockIndex (tipHash params l) = some p)
    (hq : s.mapBlockIndex (tipHash params k) = some q) :
    ∃ x c y d, l = x ++ c ∧ k = y ++ d ∧ tipHash params c = tipHash params d ∧
      lastCommonAncestor s p q = some (tipHash params c) := by
  obtain ⟨p', hp', hphash, hplen⟩ := h.entry
  obtain ⟨q', hq', hqhash, hqlen⟩ := hk.entry
  cases hp.symm.trans hp'
  cases hq.symm.trans hq'
  let nHeight := min p.nHeight q.nHeight
  have hl : nHeight ≤ l.length := hplen ▸ Nat.min_le_left _ _
  have hr : nHeight ≤ k.length := hqlen ▸ Nat.min_le_right _ _
  have hllen : (l.drop (l.length - nHeight)).length = nHeight := by
    rw [length_drop]
    omega
  have hrlen : (k.drop (k.length - nHeight)).length = nHeight := by
    rw [length_drop]
    omega
  obtain ⟨n, -, hfork, hsame⟩ := commonFrom_spec (h.drop _) (hk.drop _) (hllen.trans hrlen.symm)
  rw [drop_drop] at hfork hsame
  rw [drop_drop] at hsame
  refine ⟨l.take (l.length - nHeight + n), l.drop (l.length - nHeight + n),
    k.take (k.length - nHeight + n), k.drop (k.length - nHeight + n),
    (take_append_drop _ l).symm, (take_append_drop _ k).symm, hsame, ?_⟩
  unfold lastCommonAncestor
  rw [hphash, hqhash]
  dsimp only
  rw [h.getAncestor hl, hk.getAncestor hr]
  rw [hllen] at hfork
  exact hfork

end

/-! ## the two loops -/

structure Replayed (j : List (COutPoint H × Write Coin)) (r t : Replay H) : Prop where
  coherent : t.cache.Coherent
  getCoin : t.cache.getCoin = applyTo r.cache.getCoin j

variable {r : Replay H} {vtx : List (CTransaction Digest)}

theorem Replayed.refl (h : r.cache.Coherent) : Replayed [] r r := ⟨h, rfl⟩

theorem Replayed.append {j k : List (COutPoint H × Write Coin)} {t u : Replay H}
    (h : Replayed j r t) (h' : Replayed k t u) : Replayed (j ++ k) r u :=
  ⟨h'.coherent, by rw [h'.getCoin, h.getCoin, applyTo_append]⟩

theorem rollbackBlock_replayed (hv : ValidBlocks env params (b :: l)) {prev : H}
    (hp : StoredBlock env s prev (l.length + 1) b p) (hr : r.cache.Coherent) :
    ∃ t j, rollbackBlock env s p r = .ok t ∧ Replayed j r t ∧ applyTo (utxo env (b :: l)) j = utxo env l := by
  obtain ⟨block, hread, hvtx⟩ := hp.block
  obtain ⟨u, hundo, hu⟩ := hp.undo
  have hlen := hv.undo_length hu
  have hall := (hv.applied hu).undoable
  rw [← hvtx] at hlen hall
  obtain ⟨w, clean, hw, hco, hget⟩ := disconnectBlock_writes env hp.pprev hlen hall hr
  refine ⟨⟨w, removeNicknames block.vtx r.nicks⟩, _, ?_, ⟨hco, hget⟩, ?_⟩
  · have hpos : 0 < p.nHeight := by
      rw [hp.nHeight]
      omega
    unfold rollbackBlock
    rw [if_pos hpos, hread]
    dsimp only
    rw [hundo, hw]
    rfl
  · rw [hvtx]
    exact undo_utxo hv hu

theorem rollback_replayed {x c : List (ChainBlock H)} (hs : Stored env params s (x ++ c))
    (hv : ValidBlocks env params (x ++ c)) {fuel : Nat} (hfuel : x.length < fuel) (hr : r.cache.Coherent) :
    ∃ t j, rollback env s (tipHash params c) fuel (tipHash params (x ++ c)) r = .ok t ∧
      Replayed j r t ∧ applyTo (utxo env (x ++ c)) j = utxo env c := by
  induction x generalizing fuel r with
  | nil =>
    obtain ⟨n, rfl⟩ : ∃ n, fuel = n + 1 := ⟨fuel - 1, by omega⟩
    exact ⟨r, [], if_pos rfl, Replayed.refl hr, rfl⟩
  | cons b x ih =>
    obtain ⟨n, rfl⟩ : ∃ n, fuel = n + 1 := ⟨fuel - 1, by omega⟩
    have hne : tipHash params (b :: (x ++ c)) ≠ tipHash params c := by
      intro heq
      have hc : Stored env params s c := by
        have hdrop := hs.drop (b :: x).length
        rwa [drop_left] at hdrop
      have hlen := hs.length_eq hc heq
      rw [length_append] at hlen
      exact absurd hlen (by rw [length_cons]; omega)
    obtain ⟨⟨p, hp⟩, hrest⟩ := hs
    obtain ⟨t, j, hstep, htj, hj⟩ := rollbackBlock_replayed hv hp hr
    obtain ⟨t', k, hrun, htk, hk⟩ := ih hrest hv.2.2.2 (lt_of_succ_lt_succ hfuel) htj.coherent
    refine ⟨t', j ++ k, ?_, htj.append htk, ?_⟩
    · show rollback env s (tipHash params c) (n + 1) (tipHash params (b :: (x ++ c))) r = .ok t'
      unfold rollback
      rw [if_neg hne, show s.mapBlockIndex (tipHash params (b :: (x ++ c))) = some p from hp.entry]
      dsimp only
      rw [hstep, hp.pprev]
      exact hrun
    · rw [applyTo_append]
      exact (congrArg (applyTo · k) hj).trans hk

theorem rollforwardBlock_replayed (hv : ValidBlocks env params (b :: l)) {prev : H}
    (hp : StoredBlock env s prev (l.length + 1) b p) (hr : r.cache.Coherent) :
    ∃ t j, rollforwardBlock env s p r = .ok t ∧ Replayed j r t ∧ applyTo (utxo env l) j = utxo env (b :: l) := by
  obtain ⟨block, hread, hvtx⟩ := hp.block
  have hcount : ∀ tx ∈ block.vtx, Countable tx := by
    rw [hvtx]
    exact fun tx htx => countable_of_checked (checked_of_rules hv.2.1 htx)
  obtain ⟨w, hw, hwrote⟩ := rollforwardTxs_wrote env p.nHeight hcount hr
  refine ⟨⟨w, addNicknames env (block.getHash env) block.vtx r.nicks⟩, _, ?_,
    ⟨hwrote.coherent, hwrote.getCoin⟩, ?_⟩
  · unfold rollforwardBlock
    rw [hread]
    dsimp only
    rw [hw]
    rfl
  · rw [hvtx, hp.nHeight, ← hv.2.2.1]
    exact roll_utxo hv

theorem rollforward_replayed {x : List (ChainBlock H)} (hs : Stored env params s (x ++ l))
    (hv : ValidBlocks env params l) {n : Nat} (hn : n ≤ l.length) (hr : r.cache.Coherent) :
    ∃ t j, rollforward env s (tipHash params (x ++ l)) n l.length r = .ok t ∧ Replayed j r t ∧
      applyTo (utxo env (l.drop (l.length - n))) j = utxo env l := by
  induction l generalizing x with
  | nil =>
    refine ⟨r, [], ?_, Replayed.refl hr, by rw [drop_nil]; rfl⟩
    unfold rollforward
    rw [show ([] : List (ChainBlock H)).length - n = 0 from Nat.zero_sub n]
    rfl
  | cons b l ih =>
    rcases Nat.eq_or_lt_of_le hn with heq | hlt
    · refine ⟨r, [], ?_, Replayed.refl hr, by rw [heq, Nat.sub_self]; rfl⟩
      unfold rollforward
      rw [heq, Nat.sub_self]
      rfl
    · have hnl : n ≤ l.length := le_of_lt_succ hlt
      have hassoc : x ++ b :: l = (x ++ [b]) ++ l := by rw [append_assoc]; rfl
      obtain ⟨t, j, hrun, htj, hj⟩ := ih (x := x ++ [b]) (hassoc ▸ hs) hv.2.2.2 hnl
      have hb : Stored env params s (b :: l) := by
        have hdrop := hs.drop x.length
        rwa [drop_left] at hdrop
      obtain ⟨p, hp⟩ := hb.1
      obtain ⟨t', k, hstep, htk, hk⟩ := rollforwardBlock_replayed hv hp htj.coherent
      refine ⟨t', j ++ k, ?_, htj.append htk, ?_⟩
      · -- the last round is at the height of the block
        have hrange : range' (n + 1) ((b :: l).length - n) =
            range' (n + 1) (l.length - n) ++ [l.length + 1] := by
          rw [length_cons, Nat.sub_add_comm hnl, range'_concat]
          congr 2
          omega
        have hanc : s.getAncestor (tipHash params (x ++ b :: l)) (l.length + 1) = some b.pindex.hash := by
          rw [hs.getAncestor (by rw [length_append, length_cons]; omega),
            show (x ++ b :: l).length - (l.length + 1) = x.length by
              rw [length_append, length_cons]; omega,
            drop_left]
          rfl
        unfold rollforward at hrun ⊢
        rw [← hassoc] at hrun
        rw [hrange, run_append, hrun, ok_bind, run_cons_ok]
        refine ⟨t', ?_, rfl⟩
        unfold rollforwardAt
        rw [hanc, Option.bind_some, hp.entry]
        exact hstep
      · rw [applyTo_append, length_cons, Nat.sub_add_comm hnl, drop_succ_cons, hj, hk]

/-! ## recovery -/

theorem ConnectedChain.bestBlock (h : ConnectedChain env params a) : a.bestBlock = tipHash params a.blocks:= by
  cases h with
  | genesis => rfl
  | connect l h hc => rw [hc.bestBlock, hc.blocks]; rfl

theorem ValidBlocks.append_right {x c : List (ChainBlock H)} (h : ValidBlocks env params (x ++ c)) :
    ValidBlocks env params c := by
  induction x with
  | nil => exact h
  | cons b x ih => exact ih h.2.2.2

theorem replayBranches_fork (hl : Stored env params s l)
    (hk : Stored env params s k) (hv : ValidBlocks env params l) (hvk : ValidBlocks env params k)
    (hp : s.mapBlockIndex (tipHash params l) = some p)
    (hq : s.mapBlockIndex (tipHash params k) = some q) (hr : r.cache.Coherent) :
    ∃ t back forth, replayBranches env s q (some p) r = .ok t ∧ Replayed (back ++ forth) r t ∧
      applyTo (applyTo (utxo env l) back) forth = utxo env k := by
  obtain ⟨p', hp', hphash, hplen⟩ := hl.entry
  obtain ⟨q', hq', hqhash, hqlen⟩ := hk.entry
  cases hp.symm.trans hp'
  cases hq.symm.trans hq'
  obtain ⟨x, c, y, d, rfl, rfl, hsame, hfork⟩ := lastCommonAncestor_spec hl hk hp hq
  have hc : Stored env params s c := by
    have hdrop := hl.drop x.length
    rwa [drop_left] at hdrop
  have hd : Stored env params s d := by
    have hdrop := hk.drop y.length
    rwa [drop_left] at hdrop
  have hlen := hc.length_eq hd hsame
  obtain ⟨f, hf, -, hflen⟩ := hc.entry
  have hfuel : x.length < p.nHeight + 1 := by
    rw [hplen, length_append]
    omega
  obtain ⟨t, back, hback, htb, hb⟩ := rollback_replayed hl hv hfuel hr
  have hle : f.nHeight ≤ (y ++ d).length := by
    rw [hflen, hlen, length_append]
    omega
  obtain ⟨t', forth, hforth, htf, hfo⟩ := rollforward_replayed (x := []) (l := y ++ d) hk hvk hle htb.coherent
  have hdrop : (y ++ d).drop ((y ++ d).length - f.nHeight) = d := by
    rw [hflen, hlen, length_append, Nat.add_sub_cancel, drop_left]
  refine ⟨t', back, forth, ?_, htb.append htf, ?_⟩
  · unfold replayBranches
    dsimp only
    rw [hfork]
    dsimp only
    rw [hf, hphash, hqhash, hqlen]
    dsimp only
    rw [hback, ok_bind]
    exact hforth
  · rw [hdrop] at hfo
    rw [hb, hc.utxo_eq hd hv.append_right hvk.append_right hsame]
    exact hfo

theorem replayBranches_first (hk : Stored env params s k) (hvk : ValidBlocks env params k)
    (hq : s.mapBlockIndex (tipHash params k) = some q) (hr : r.cache.Coherent) :
    ∃ t forth, replayBranches env s q none r = .ok t ∧ Replayed forth r t ∧
      applyTo (utxo env []) forth = utxo env k := by
  obtain ⟨q', hq', hqhash, hqlen⟩ := hk.entry
  cases hq.symm.trans hq'
  obtain ⟨t, forth, hforth, htf, hfo⟩ := rollforward_replayed (x := []) hk hvk (Nat.zero_le _) hr
  rw [Nat.sub_zero, drop_length] at hfo
  refine ⟨t, forth, ?_, htf, hfo⟩
  show rollforward env s q.hash 0 q.nHeight r = .ok t
  rw [hqhash, hqlen]
  exact hforth

def OldHead (old : ActiveChain H) (hashOld : H) : Prop :=
  (hashOld = old.bestBlock ∧ hashOld ≠ default) ∨ (hashOld = default ∧ old.blocks = [])

/-- **crash recovery is exact.**  Both chains are connected and stored, and every outpoint on disk has
its coin of the old tip or its coin of the new one. -/
theorem replayBlocks_exact {old new : ActiveChain H} (hold : ConnectedChain env params old)
    (hnew : ConnectedChain env params new) (hondup : (txids env old.blocks).Nodup)
    (hnndup : (txids env new.blocks).Nodup) (s : Node H) (hso : Stored env params s old.blocks)
    (hsn : Stored env params s new.blocks)
    (hdisk : ∀ o, s.pcoinsTip o = old.pcoinsTip o ∨ s.pcoinsTip o = new.pcoinsTip o) (hashOld : H)
    (hhead : OldHead old hashOld) :
    ∃ t, replayBlocks env s [new.bestBlock, hashOld] = .ok t ∧ t.pcoinsTip = new.pcoinsTip ∧
      t.bestBlock = new.bestBlock := by
  obtain ⟨hoc, hov⟩ := hold.valid hondup
  obtain ⟨hnc, hnv⟩ := hnew.valid hnndup
  rw [hoc, hnc] at hdisk
  -- the mixture is a coherent view
  have hmix : ∀ o c, s.pcoinsTip o = some c → c.isSpent = false ∧ isUnspendable c.scriptPubKey = false := by
    intro o c hc
    rcases hdisk o with h | h
    · have hof := hov.coinOf (h.symm.trans hc)
      exact ⟨hof.unspent, hof.spendable⟩
    · have hof := hnv.coinOf (h.symm.trans hc)
      exact ⟨hof.unspent, hof.spendable⟩
  have hbase : (CCoinsViewCache.ofBase s.pcoinsTip s.bestBlock).Coherent ∧
      (CCoinsViewCache.ofBase s.pcoinsTip s.bestBlock).getCoin = s.pcoinsTip :=
    CCoinsViewCache.coherent_ofBase (fun o c hc => (hmix o c hc).1) (fun o c hc => (hmix o c hc).2)
  obtain ⟨hco, hget⟩ := hbase
  obtain ⟨q, hq, hqhash, -⟩ := hsn.entry
  -- the old tip and the journal through both branches
  have hreplay : ∃ p t back forth, oldTip s hashOld = .ok p ∧
      replayBranches env s q p ⟨.ofBase s.pcoinsTip s.bestBlock, s.nicks⟩ = .ok t ∧
      Replayed (back ++ forth) ⟨.ofBase s.pcoinsTip s.bestBlock, s.nicks⟩ t ∧
      applyTo (applyTo (utxo env old.blocks) back) forth = utxo env new.blocks := by
    rcases hhead with ⟨hbest, hne⟩ | ⟨hnull, hempty⟩
    · obtain ⟨p, hp, -⟩ := hso.entry
      obtain ⟨t, back, forth, hok, hrep, happ⟩ := replayBranches_fork hso hsn hov hnv hp hq
        (r := ⟨.ofBase s.pcoinsTip s.bestBlock, s.nicks⟩) hco
      refine ⟨some p, t, back, forth, ?_, hok, hrep, happ⟩
      unfold oldTip
      rw [if_neg hne, hbest, hold.bestBlock, hp]
    · obtain ⟨t, forth, hok, hrep, happ⟩ := replayBranches_first hsn hnv hq
        (r := ⟨.ofBase s.pcoinsTip s.bestBlock, s.nicks⟩) hco
      refine ⟨none, t, [], forth, if_pos hnull, hok, hrep, ?_⟩
      rw [hempty]
      exact happ
  obtain ⟨p, t, back, forth, hold, hok, hrep, happ⟩ := hreplay
  refine ⟨{ s.flush (t.cache.setBestBlock q.hash) with nicks := t.nicks }, ?_, ?_, ?_⟩
  · unfold replayBlocks
    rw [hnew.bestBlock]
    dsimp only
    rw [hq]
    dsimp only
    rw [hold, ok_bind, hok]
    rfl
  · show t.cache.getCoin = new.pcoinsTip
    rw [hrep.getCoin, hnc]
    show applyTo (CCoinsViewCache.ofBase s.pcoinsTip s.bestBlock).getCoin (back ++ forth) = _
    rw [hget]
    exact applyTo_recover rfl happ hdisk
  · show q.hash = new.bestBlock
    rw [hqhash, hnew.bestBlock]

/-! ## two branches of the symbolic world -/

def lastBlock (a : ActiveChain Digest) (n : UInt8) (vtx : List (CTransaction Digest)) :
    ChainBlock Digest :=
  ⟨blockOn a halfDollar n vtx, indexOn a (blockOn a halfDollar n vtx),
    (((valueOr (extend a n vtx) a).blocks.head?).map (·.vtxundo)).getD []⟩

theorem extend_blocks {a : ActiveChain Digest} {n : UInt8}
    (h : (extend a n vtx).isOk) : (valueOr (extend a n vtx) a).blocks = lastBlock a n vtx :: a.blocks := by
  obtain ⟨c, hc⟩ := connectNext_ok (blockOn_onTop rfl a halfDollar n vtx) (eq_valueOr (a := a) h)
  have hblocks : (valueOr (extend a n vtx) a).blocks = _ := hc.blocks
  unfold lastBlock
  rw [hblocks]
  rfl

theorem extend_connected {a : ActiveChain Digest} {n : UInt8}
    (ha : ConnectedChain symEnv symParams a) (h : (extend a n vtx).isOk) :
    ConnectedChain symEnv symParams (valueOr (extend a n vtx) a) :=
  ha.next symEnv.localEnv (blockOn_onTop rfl a halfDollar n vtx) (eq_valueOr h)

def otherChain : ActiveChain Digest :=
  valueOr (extend (.genesis symParams) 3 [giftTx]) (.genesis symParams)

def giftBlock : ChainBlock Digest := lastBlock (.genesis symParams) 1 [giftTx]

def regiftBlock : ChainBlock Digest := lastBlock giftChain 2 [regiftTx]

def otherBlock : ChainBlock Digest := lastBlock (.genesis symParams) 3 [giftTx]

def savedIndex (b : ChainBlock Digest) (pos : Nat) : CBlockIndex Digest :=
  { b.pindex with nDataPos := pos, nUndoPos := pos, nStatus := ⟨5, true, true, false, false⟩ }

def halfFlushed : CoinsMap Digest := fun o =>
  if o = ⟨giftTx.getHash symEnv, 0⟩ then otherChain.pcoinsTip o else regiftChain.pcoinsTip o

def branchNode : Node Digest :=
  { symNode halfFlushed with
    mapBlockIndex := fun h =>
      if h = .atom 0 then some (connectedIndex (.atom 0) none 0)
      else if h = giftBlock.pindex.hash then some (savedIndex giftBlock 0)
      else if h = regiftBlock.pindex.hash then some (savedIndex regiftBlock 1)
      else if h = otherBlock.pindex.hash then some (savedIndex otherBlock 2)
      else none
    blockFiles := [giftBlock.block, regiftBlock.block, otherBlock.block]
    undoFiles := [giftBlock.vtxundo, regiftBlock.vtxundo, otherBlock.vtxundo] }

theorem giftChain_connected : ConnectedChain symEnv symParams giftChain :=
  extend_connected .genesis (by decide)

theorem regiftChain_connected : ConnectedChain symEnv symParams regiftChain :=
  extend_connected giftChain_connected (by decide)

theorem otherChain_connected : ConnectedChain symEnv symParams otherChain :=
  extend_connected .genesis (by decide)

theorem regiftChain_blocks : regiftChain.blocks = [regiftBlock, giftBlock] := by
  have hgift : giftChain.blocks = [giftBlock] := extend_blocks (by decide)
  have hregift : regiftChain.blocks = regiftBlock :: giftChain.blocks := extend_blocks (by decide)
  rw [hregift, hgift]

theorem otherChain_blocks : otherChain.blocks = [otherBlock] := extend_blocks (by decide)

theorem regiftChain_nodup : (txids symEnv regiftChain.blocks).Nodup := by
  rw [regiftChain_blocks]
  decide

theorem otherChain_nodup : (txids symEnv otherChain.blocks).Nodup := by
  rw [otherChain_blocks]
  decide

theorem storedBlock_saved {prev : Digest} {pos : Nat} {b : ChainBlock Digest}
    {l : List (ChainBlock Digest)} (hv : ValidBlocks symEnv symParams (b :: l))
    (hentry : branchNode.mapBlockIndex b.pindex.hash = some (savedIndex b pos))
    (hplace : b.pindex.pprev = some prev ∧ b.pindex.nHeight = nHeight)
    (hfiles : readBlockFromDisk symEnv branchNode (savedIndex b pos) = some b.block ∧
      undoReadFromDisk branchNode (savedIndex b pos) = some b.vtxundo) :
    StoredBlock symEnv branchNode prev nHeight b (savedIndex b pos) :=
  ⟨hentry, rfl, hplace.1, hplace.2, ⟨b.block, hfiles.1, rfl⟩, ⟨b.vtxundo, hfiles.2, hv.sameRecords⟩⟩

theorem regiftChain_stored : Stored symEnv symParams branchNode regiftChain.blocks := by
  have hv := (regiftChain_connected.valid regiftChain_nodup).2
  rw [regiftChain_blocks] at hv ⊢
  exact ⟨⟨savedIndex regiftBlock 1, storedBlock_saved hv (by decide) (by decide) (by decide)⟩,
    ⟨savedIndex giftBlock 0, storedBlock_saved hv.2.2.2 (by decide) (by decide) (by decide)⟩, ⟨_, rfl, rfl, rfl⟩⟩

theorem otherChain_stored : Stored symEnv symParams branchNode otherChain.blocks := by
  have hv := (otherChain_connected.valid otherChain_nodup).2
  rw [otherChain_blocks] at hv ⊢
  exact ⟨⟨savedIndex otherBlock 2, storedBlock_saved hv (by decide) (by decide) (by decide)⟩, ⟨_, rfl, rfl, rfl⟩⟩

/-- the coin is on disk, as on the new branch, with the moved one of the old branch; after the replay
the moved one is gone -/
theorem replayBlocks_exact_gift : (halfFlushed ⟨giftTx.getHash symEnv, 0⟩).isSome = true ∧
      (halfFlushed ⟨regiftTx.getHash symEnv, 0⟩).isSome = true ∧
      otherChain.pcoinsTip ⟨regiftTx.getHash symEnv, 0⟩ = none ∧
      ∃ t, replayBlocks symEnv branchNode [otherChain.bestBlock, regiftChain.bestBlock] = .ok t ∧
        t.pcoinsTip = otherChain.pcoinsTip ∧ t.bestBlock = otherChain.bestBlock := by
  refine ⟨by decide, by decide, by decide, ?_⟩
  refine replayBlocks_exact regiftChain_connected otherChain_connected regiftChain_nodup
    otherChain_nodup branchNode regiftChain_stored otherChain_stored (fun o => ?_) _
    (.inl ⟨rfl, by decide⟩)
  show halfFlushed o = regiftChain.pcoinsTip o ∨ halfFlushed o = otherChain.pcoinsTip o
  unfold halfFlushed
  split
  · exact .inr rfl
  · exact .inl rfl

end BitCash
