import BitCash.Chain.TipCoins
import BitCash.Consensus.Coherent

/-!
# What a disconnection does to a map of coins

`DisconnectBlock` on a coherent view, as a journal on the map of its unspent coins: the outputs of a transaction are
deleted, then the coins of its undo record are put back, from the last transaction to the first one.
-/

set_option linter.unusedSectionVars false

namespace BitCash
open Checks Journal List Function Coin CCoinsViewCache

variable {H : Type} [Inhabited H] [DecidableEq H] {v : CCoinsViewCache H}

structure Coin.PutBack (c : Coin) : Prop where
  height : c.nHeight ≠ 0
  unspent : c.isSpent = false
  spendable : isUnspendable c.scriptPubKey = false

structure RecordFor (vin : List (CTxIn H)) (u : List Coin) : Prop where
  length : u.length = vin.length
  putBack : ∀ i c, (i, c) ∈ vin.zip u → i.isnickname = false → c.PutBack

def restoreWrites (p : CTxIn H × Coin) : List (COutPoint H × Write Coin) :=
  if p.1.isnickname then [] else [(p.1.prevout, .put p.2)]

/-- the writes of a transaction that is undone, with its record unless it is the first one -/
def txUndoWrites (env : Env H) (p : CTransaction H × Option (List Coin)) :
    List (COutPoint H × Write Coin) :=
  ((txCreates env p.1 0).map fun x => (x.1, .del)) ++
    (p.2.map fun u => (p.1.vin.zip u).reverse.flatMap restoreWrites).getD []

def blockUndoWrites (env : Env H) (vtx : List (CTransaction H)) (vtxundo : List (List Coin)) :
    List (COutPoint H × Write Coin) :=
  (vtx.zip (none :: vtxundo.map some)).reverse.flatMap (txUndoWrites env)

/-- the second view is the first one after the writes of a journal -/
structure Wrote (j : List (COutPoint H × Write Coin)) (v w : CCoinsViewCache H) : Prop where
  coherent : w.Coherent
  hashBlock : w.hashBlock = v.hashBlock
  getCoin : w.getCoin = applyTo v.getCoin j

theorem Wrote.refl (hv : v.Coherent) : Wrote [] v v := ⟨hv, rfl, rfl⟩

theorem Wrote.append {j k : List (COutPoint H × Write Coin)} {u w : CCoinsViewCache H}
    (h : Wrote j u v) (h' : Wrote k v w) : Wrote (j ++ k) u w := by
  refine ⟨h'.coherent, h'.hashBlock.trans h.hashBlock, ?_⟩
  rw [h'.getCoin, h.getCoin, applyTo_append]

theorem run_wrote {α σ : Type} {step : σ → α → Res σ} (view : σ → CCoinsViewCache H)
    {writes : α → List (COutPoint H × Write Coin)} {l : List α}
    (hstep : ∀ a ∈ l, ∀ s, (view s).Coherent → ∃ t, step s a = .ok t ∧ Wrote (writes a) (view s) (view t)) {s : σ}
    (hs : (view s).Coherent) : ∃ t, run step s l = .ok t ∧ Wrote (l.flatMap writes) (view s) (view t) := by
  induction l generalizing s with
  | nil => exact ⟨s, rfl, Wrote.refl hs⟩
  | cons a l ih =>
    obtain ⟨s', hs', hone⟩ := hstep a mem_cons_self s hs
    obtain ⟨t, ht, hrest⟩ := ih (fun b hb => hstep b (mem_cons_of_mem a hb)) hone.coherent
    exact ⟨t, run_cons_ok.2 ⟨s', hs', ht⟩, hone.append hrest⟩

variable {env : Env H}

/-! ## outputs -/

def outPoint (env : Env H) (tx : CTransaction H) (p : CTxOut × Nat) : COutPoint H :=
  ⟨tx.getHash env, UInt32.ofNat p.2⟩

def removeWrites (env : Env H) (tx : CTransaction H) (p : CTxOut × Nat) :
    List (COutPoint H × Write Coin) :=
  if isUnspendable p.1.scriptPubKey then [] else [(outPoint env tx p, .del)]

theorem removeWrites_flatMap (tx : CTransaction H) (nHeight : Nat) : tx.vout.zipIdx.flatMap (removeWrites env tx) =
      (txCreates env tx nHeight).map fun x => (x.1, .del) := by
  unfold txCreates
  induction tx.vout.zipIdx with
  | nil => rfl
  | cons p l ih =>
    rw [flatMap_cons, ih, removeWrites]
    cases hu : isUnspendable p.1.scriptPubKey with
    | true => simp [hu]
    | false => simp [hu, outPoint]

theorem undoOutput_writes {nHeight : Nat} {tx : CTransaction H} {s : CCoinsViewCache H × Bool}
    (hv : s.1.Coherent) (p : CTxOut × Nat) : Wrote (removeWrites env tx p) s.1 (undoOutput env nHeight tx s p).1 ∧
      ((isUnspendable p.1.scriptPubKey = false →
          s.1.getCoin (outPoint env tx p) = some (ofOut p.1 nHeight tx.isCoinBase)) →
        (undoOutput env nHeight tx s p).2 = s.2) := by
  unfold undoOutput removeWrites outPoint
  cases hu : isUnspendable p.1.scriptPubKey with
  | true => exact ⟨Wrote.refl hv, fun _ => rfl⟩
  | false =>
    simp only [Bool.false_eq_true, if_false]
    cases hs : s.1.spendCoin ⟨tx.getHash env, UInt32.ofNat p.2⟩ with
    | none =>
      have hnone := CCoinsViewCache.Coherent.getCoin_of_spendCoin_none hs
      refine ⟨⟨hv, rfl, ?_⟩, fun h => ?_⟩
      · rw [applyTo_one]
        exact (update_eq_self_iff.2 hnone.symm).symm
      · rw [hnone] at h
        cases h trivial
    | some q =>
      obtain ⟨hco, hget, hfound, hhash⟩ := hv.spendCoin hs
      refine ⟨⟨hco, hhash, ?_⟩, fun h => ?_⟩
      · rw [applyTo_one]
        exact hget
      · rw [hfound] at h
        obtain ⟨coin, view⟩ := q
        obtain ⟨-, heq⟩ := unspent_eq_some.1 (h trivial)
        have hcoin : coin = ofOut p.1 nHeight tx.isCoinBase := heq.symm
        simp [hcoin, ofOut]

theorem undoOutputs_writes {nHeight : Nat} {tx : CTransaction H} {l : List (CTxOut × Nat)}
    {s : CCoinsViewCache H × Bool} (hv : s.1.Coherent) (hnd : (l.map (outPoint env tx)).Nodup) :
    Wrote (l.flatMap (removeWrites env tx)) s.1 (l.foldl (undoOutput env nHeight tx) s).1 ∧
      ((∀ p ∈ l, isUnspendable p.1.scriptPubKey = false →
          s.1.getCoin (outPoint env tx p) = some (ofOut p.1 nHeight tx.isCoinBase)) →
        (l.foldl (undoOutput env nHeight tx) s).2 = s.2) := by
  induction l generalizing s with
  | nil => exact ⟨Wrote.refl hv, fun _ => rfl⟩
  | cons p l ih =>
    rw [map_cons, nodup_cons] at hnd
    obtain ⟨hone, hflag⟩ := @undoOutput_writes _ _ _ env nHeight tx s hv p
    obtain ⟨hrest, hflags⟩ := ih hone.coherent hnd.2
    refine ⟨hone.append hrest, fun h => ?_⟩
    refine (hflags fun q hq hu => ?_).trans (hflag (h p mem_cons_self))
    -- the outputs still to come are at other outpoints
    have hne : outPoint env tx q ≠ outPoint env tx p := fun e => hnd.1 (e ▸ mem_map_of_mem hq)
    rw [hone.getCoin, applyTo_of_none, h q (mem_cons_of_mem p hq) hu]
    refine lastWrite_of_not_mem fun hmem => ?_
    unfold removeWrites at hmem
    split at hmem
    · cases hmem
    · exact hne (mem_singleton.1 hmem)

/-! ## inputs -/

variable {s : CCoinsViewCache H × Bool}

theorem undoInput_writes {p : CTxIn H × Coin} (hv : s.1.Coherent) (hp : p.1.isnickname = false → p.2.PutBack) :
    ∃ t, undoInput s p = .ok t ∧ Wrote (restoreWrites p) s.1 t.1 ∧ (p.1.isnickname → t.2 = s.2) ∧
      (p.1.isnickname = false → s.1.getCoin p.1.prevout = none → t.2 = s.2) := by
  unfold undoInput restoreWrites
  cases hn : p.1.isnickname with
  | true => exact ⟨s, rfl, Wrote.refl hv, fun _ => rfl, fun hf => nomatch hf⟩
  | false =>
    obtain ⟨hheight, hspent, hu⟩ := hp hn
    have hcoin : undoCoin s.1 p.2 p.1.prevout = some p.2 := if_neg hheight
    obtain ⟨w, hw, hco, hget, hhash⟩ := hv.addCoin (o := p.1.prevout) (s.1.haveCoin p.1.prevout) hspent hu fun h => by
        rw [haveCoin_eq] at h
        exact Option.isSome_eq_false_iff.1 h |> Option.isNone_iff_eq_none.1
    refine ⟨(w, s.2 && !s.1.haveCoin p.1.prevout), ?_, ⟨hco, hhash, ?_⟩, fun hf => (nomatch hf), fun _ hnone => ?_⟩
    · unfold applyTxInUndo
      rw [hcoin]
      dsimp only
      rw [hw]
      rfl
    · show w.getCoin = applyTo s.1.getCoin [(p.1.prevout, .put p.2)]
      rw [applyTo_one, hget]
      rfl
    · rw [haveCoin_eq, hnone]
      exact Bool.and_true _

theorem undoInputs_writes {l : List (CTxIn H × Coin)}
    (hv : s.1.Coherent) (hl : ∀ p ∈ l, p.1.isnickname = false → p.2.PutBack) :
    ∃ t, run undoInput s l = .ok t ∧ Wrote (l.flatMap restoreWrites) s.1 t.1 := by
  refine run_wrote Prod.fst (fun p hp s hs => ?_) hv
  obtain ⟨t, ht, hone, -⟩ := undoInput_writes hs (hl p hp)
  exact ⟨t, ht, hone⟩

def SpentBy (m : CoinsMap H) : List (CTxIn H) → List Coin → Prop
  | [], [] => True
  | i :: l, c :: u =>
    if i.isnickname then SpentBy m l u
    else m i.prevout = some c ∧ SpentBy (Function.update m i.prevout none) l u
  | _, _ => False

variable {x : CCoinsViewCache H} {m : CoinsMap H}
  {l : List (CTransaction H × Option (List Coin))} {p : CTransaction H × Option (List Coin)} {nHeight : Nat}

theorem undoInputs_clean {l : List (CTxIn H)} {u : List Coin} (h : SpentBy m l u)
    (hput : ∀ i c, (i, c) ∈ l.zip u → i.isnickname = false → c.PutBack)
    (hx : x.Coherent) (hm : x.getCoin = applyTo m (spendWrites l)) (b : Bool) :
    ∃ y, run undoInput (x, b) (l.zip u).reverse = .ok (y, b) ∧ y.Coherent ∧
      y.hashBlock = x.hashBlock ∧ y.getCoin = m := by
  induction l generalizing u m with
  | nil =>
    cases u with
    | nil => exact ⟨x, rfl, hx, rfl, hm⟩
    | cons c u => exact absurd h id
  | cons i l ih =>
    cases u with
    | nil => exact absurd h id
    | cons c u =>
      have hput' := fun j d hmem => hput j d (mem_cons_of_mem (i, c) hmem)
      rw [zip_cons_cons, reverse_cons]
      -- the map before the first input is undone, which is done last
      have hlast : ∀ y t : CCoinsViewCache H, run undoInput (x, b) (l.zip u).reverse = .ok (y, b) →
          undoInput (y, b) (i, c) = .ok (t, b) →
          run undoInput (x, b) ((l.zip u).reverse ++ [(i, c)]) = .ok (t, b) := by
        intro y t hy ht
        rw [run_append, hy]
        show run undoInput (y, b) [(i, c)] = _
        rw [run_cons, ht]
        rfl
      have hm' : x.getCoin =
          applyTo (applyTo m (if i.isnickname then [] else [(i.prevout, .del)])) (spendWrites l) := by
        rw [hm, ← applyTo_append]
        rfl
      change (if i.isnickname then _ else _) at h
      cases hn : i.isnickname with
      | true =>
        rw [hn] at h hm'
        obtain ⟨y, hy, hco, hhash, hget⟩ := ih h hput' hm'
        refine ⟨y, hlast y y hy ?_, hco, hhash, hget⟩
        unfold undoInput
        rw [hn]
        rfl
      | false =>
        rw [hn] at h hm'
        obtain ⟨hc, hrest⟩ := h
        have hone : applyTo m [(i.prevout, .del)] = update m i.prevout none := applyTo_one _ _ _
        obtain ⟨y, hy, hco, hhash, hget⟩ := ih hrest hput' (by rw [← hone]; exact hm')
        obtain ⟨t, ht, hw, -, hflag⟩ := undoInput_writes (s := (y, b)) (p := (i, c)) hco
          fun h => hput i c mem_cons_self h
        have hb : t.2 = b := hflag hn (by rw [hget]; exact update_self _ _ _)
        refine ⟨t.1, hlast y t.1 hy (by rw [ht, ← hb]), hw.coherent, hw.hashBlock.trans hhash, ?_⟩
        have hwrites : restoreWrites (i, c) = [(i.prevout, .put c)] := by
          unfold restoreWrites
          rw [hn]
          rfl
        rw [hw.getCoin, hwrites, applyTo_one, hget, update_idem]
        exact update_eq_self_iff.2 hc.symm

/-! ## transactions -/

structure Undoable (p : CTransaction H × Option (List Coin)) : Prop where
  outputs : p.1.vout.length < 2 ^ 32
  record : ∀ u, p.2 = some u → RecordFor p.1.vin u

theorem zipIdx_outPoint_nodup (env : Env H) {tx : CTransaction H} (h : tx.vout.length < 2 ^ 32) :
    (tx.vout.zipIdx.map (outPoint env tx)).Nodup := by
  have hnd := outPoints_nodup env h
  rwa [← outPoints_eq] at hnd

theorem disconnectTx_writes (env : Env H) (nHeight : Nat) (hv : s.1.Coherent) (hp : Undoable p) :
    ∃ t, disconnectTx env nHeight s p = .ok t ∧ Wrote (txUndoWrites env p) s.1 t.1 := by
  obtain ⟨tx, undo⟩ := p
  obtain ⟨hout, -⟩ := @undoOutputs_writes _ _ _ env nHeight tx tx.vout.zipIdx s hv
    (zipIdx_outPoint_nodup env hp.outputs)
  rw [removeWrites_flatMap tx 0] at hout
  unfold disconnectTx
  cases undo with
  | none =>
    refine ⟨_, rfl, ?_⟩
    have hwrites : txUndoWrites env (tx, none) = (txCreates env tx 0).map fun x => (x.1, .del) := append_nil _
    rw [hwrites]
    exact hout
  | some u =>
    have hrec := hp.record u rfl
    obtain ⟨t, ht, hin⟩ := undoInputs_writes (l := (tx.vin.zip u).reverse) hout.coherent
      fun q hq hn => hrec.putBack q.1 q.2 (mem_reverse.1 hq) hn
    refine ⟨t, ?_, hout.append hin⟩
    dsimp only
    rw [hrec.length, decide_eq_true rfl]
    exact ht

structure Applied (env : Env H) (nHeight : Nat) (m : CoinsMap H)
    (p : CTransaction H × Option (List Coin)) : Prop extends Undoable p where
  created : ∀ o w, (o, w) ∈ txCreates env p.1 nHeight → applyTo m (txSpends p.1) o = none
  coinbase : p.2 = none → p.1.isCoinBase = true
  spent : ∀ u, p.2 = some u → p.1.isCoinBase = false ∧ SpentBy m p.1.vin u

theorem disconnectTx_clean (h : Applied env nHeight m p) (hx : x.Coherent)
    (hm : x.getCoin = applyTo m (txWrites env p.1 nHeight)) (b : Bool) :
    ∃ y, disconnectTx env nHeight (x, b) p = .ok (y, b) ∧ y.Coherent ∧ y.hashBlock = x.hashBlock ∧ y.getCoin = m := by
  obtain ⟨tx, undo⟩ := p
  have hnd := zipIdx_outPoint_nodup env h.outputs
  obtain ⟨hout, hflag⟩ := @undoOutputs_writes _ _ _ env nHeight tx tx.vout.zipIdx (x, b) hx hnd
  rw [txWrites, applyTo_append] at hm
  have hkeys : ((txCreates env tx nHeight).map Prod.fst).Nodup := by
    have hsub : List.Sublist ((txCreates env tx nHeight).map Prod.fst) (tx.vout.zipIdx.map (outPoint env tx)) := by
      unfold txCreates
      rw [map_map]
      exact filter_sublist.map _
    exact hsub.nodup hnd
  have hflag' := hflag fun q hq hu => by
    rw [show (x, b).1.getCoin = _ from hm]
    refine applyTo_of_write (w := .put (ofOut q.1 nHeight tx.isCoinBase)) (lastWrite_of_nodup hkeys ?_)
    exact mem_map.2 ⟨q, mem_filter.2 ⟨hq, by simpa using hu⟩, rfl⟩
  rw [removeWrites_flatMap tx nHeight] at hout
  have hget := hout.getCoin
  rw [show (x, b).1.getCoin = _ from hm, applyTo_undo h.created] at hget
  unfold disconnectTx
  cases undo with
  | none =>
    have hsp : txSpends tx = [] := if_pos (h.coinbase rfl)
    rw [hsp] at hget
    exact ⟨_, congrArg Except.ok (Prod.ext rfl hflag'), hout.coherent, hout.hashBlock, hget⟩
  | some u =>
    obtain ⟨hcb, hsp⟩ := h.spent u rfl
    have hrec := h.record u rfl
    rw [txSpends_eq hcb] at hget
    obtain ⟨y, hy, hco, hhash, hm'⟩ := undoInputs_clean hsp hrec.putBack hout.coherent hget b
    refine ⟨y, ?_, hco, hhash.trans hout.hashBlock, hm'⟩
    dsimp only
    rw [hrec.length, decide_eq_true rfl]
    rw [← hy]
    show run undoInput _ _ = run undoInput _ _
    rw [show foldl (undoOutput env nHeight tx) (x, b) tx.vout.zipIdx = (_, b) from Prod.ext rfl hflag']

/-! ## blocks -/

def withRecords (vtx : List (CTransaction H)) (vtxundo : List (List Coin)) :
    List (CTransaction H × Option (List Coin)) :=
  vtx.zip (none :: vtxundo.map some)

def AppliedAll (env : Env H) (nHeight : Nat) :
    CoinsMap H → List (CTransaction H × Option (List Coin)) → Prop
  | _, [] => True
  | m, p :: l => Applied env nHeight m p ∧ AppliedAll env nHeight (applyTo m (txWrites env p.1 nHeight)) l

theorem disconnectTxs_writes (env : Env H) (nHeight : Nat) (hl : ∀ p ∈ l, Undoable p) (hv : s.1.Coherent) :
    ∃ t, run (disconnectTx env nHeight) s l = .ok t ∧ Wrote (l.flatMap (txUndoWrites env)) s.1 t.1 := by
  refine run_wrote Prod.fst (fun p hp s hs => ?_) hv
  exact disconnectTx_writes env nHeight hs (hl p hp)

theorem disconnectTxs_clean (h : AppliedAll env nHeight m l) (hx : x.Coherent)
    (hm : x.getCoin = applyTo m (l.flatMap fun p => txWrites env p.1 nHeight)) (b : Bool) :
    ∃ y, run (disconnectTx env nHeight) (x, b) l.reverse = .ok (y, b) ∧ y.Coherent ∧
      y.hashBlock = x.hashBlock ∧ y.getCoin = m := by
  induction l generalizing m with
  | nil => exact ⟨x, rfl, hx, rfl, hm⟩
  | cons p l ih =>
    rw [flatMap_cons, applyTo_append] at hm
    obtain ⟨y, hy, hco, hhash, hget⟩ := ih h.2 hm
    obtain ⟨z, hz, hco', hhash', hget'⟩ := disconnectTx_clean h.1 hco hget b
    refine ⟨z, ?_, hco', hhash'.trans hhash, hget'⟩
    rw [reverse_cons, run_append, hy]
    show run (disconnectTx env nHeight) (y, b) [p] = _
    rw [run_cons, hz]
    rfl

variable {vtxundo : List (List Coin)} {pindex : CBlockIndex H} {block : CBlock H} {prev : H}

theorem disconnectBlock_eq (hprev : pindex.pprev = some prev) (hlen : vtxundo.length + 1 = block.vtx.length)
    (v : CCoinsViewCache H) : disconnectBlock env block (some vtxundo) pindex v =
      run (disconnectTx env pindex.nHeight) (v, true) (withRecords block.vtx vtxundo).reverse >>=
        fun s => .ok (s.1.setBestBlock prev, s.2) := by
  unfold disconnectBlock
  rw [hprev]
  dsimp only
  rw [hlen, decide_eq_true rfl]
  rfl

theorem coherent_setBestBlock (hv : v.Coherent) (hash : H) : (v.setBestBlock hash).Coherent :=
  ⟨hv.good, hv.unspent, hv.spendable⟩

theorem disconnectBlock_writes (env : Env H) (hprev : pindex.pprev = some prev)
    (hlen : vtxundo.length + 1 = block.vtx.length)
    (h : ∀ p ∈ withRecords block.vtx vtxundo, Undoable p) (hv : v.Coherent) :
    ∃ w clean, disconnectBlock env block (some vtxundo) pindex v = .ok (w, clean) ∧ w.Coherent ∧
      w.getCoin = applyTo v.getCoin (blockUndoWrites env block.vtx vtxundo) := by
  obtain ⟨t, ht, hw⟩ := disconnectTxs_writes env pindex.nHeight (s := (v, true))
    (fun p hp => h p (mem_reverse.1 hp)) hv
  refine ⟨t.1.setBestBlock prev, t.2, ?_, coherent_setBestBlock hw.coherent prev, hw.getCoin⟩
  rw [disconnectBlock_eq hprev hlen, ht]
  rfl

theorem disconnectBlock_clean (hprev : pindex.pprev = some prev) (hlen : vtxundo.length + 1 = block.vtx.length)
    (h : AppliedAll env pindex.nHeight m (withRecords block.vtx vtxundo))
    (hx : x.Coherent) (hm : x.getCoin = applyTo m (blockWrites env block.vtx pindex.nHeight)) :
    ∃ y, disconnectBlock env block (some vtxundo) pindex x = .ok (y, true) ∧ y.Coherent ∧
      y.hashBlock = prev ∧ y.getCoin = m := by
  have hfst : (withRecords block.vtx vtxundo).map Prod.fst = block.vtx := by
    unfold withRecords
    rw [map_fst_zip]
    rw [length_cons, length_map]
    omega
  have hwrites : blockWrites env block.vtx pindex.nHeight =
      (withRecords block.vtx vtxundo).flatMap fun p => txWrites env p.1 pindex.nHeight := by
    unfold blockWrites
    rw [← hfst, flatMap_map, hfst]
  rw [hwrites] at hm
  obtain ⟨y, hy, hco, hhash, hget⟩ := disconnectTxs_clean h hx hm true
  refine ⟨y.setBestBlock prev, ?_, coherent_setBestBlock hco prev, rfl, hget⟩
  rw [disconnectBlock_eq hprev hlen, hy]
  rfl

end BitCash
