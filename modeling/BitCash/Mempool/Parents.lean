import BitCash.Mempool.Names
import BitCash.Script.Cache

/-!
# Unconfirmed parents in the memory pool

`AcceptToMemoryPool` takes the coins of a transaction from the tip, so that no transaction of the pool should spend
an output of another one.

* `PoolStep`: acceptances, connections, reorganisations and evictions
* `Separate`: the condition before a step
* `NoParents` and `Indexed`: what the steps keep
-/

namespace BitCash
open Checks Runs Journal CTxMemPool List CCoinsViewCache CTransaction

variable {H : Type} [Inhabited H] [DecidableEq H]

def CTransaction.IsOutput (env : Env H) (tx : CTransaction H) (o : COutPoint H) : Prop :=
  ∃ n < tx.vout.length, o = ⟨tx.getHash env, UInt32.ofNat n⟩

instance (env : Env H) (tx : CTransaction H) (o : COutPoint H) : Decidable (tx.IsOutput env o) :=
  inferInstanceAs (Decidable (∃ n < tx.vout.length, o = ⟨tx.getHash env, UInt32.ofNat n⟩))

structure NoParents (env : Env H) (s : PoolState H) : Prop where
  parents : ∀ e ∈ s.pool.mapTx, ∀ p ∈ s.pool.mapTx, p.tx ≠ e.tx → ∀ o ∈ e.tx.spent,
    ¬ p.tx.IsOutput env o
  coins : ∀ e ∈ s.pool.mapTx, ∀ o ∈ e.tx.spent, s.chain.view.haveCoin o = true

/-! ## reorganisations -/

/-- a node between two tips, with its `disconnectpool`, the oldest entry first -/
structure ReorgState (H : Type) [Inhabited H] [DecidableEq H] where
  chain : ActiveChain H
  pool : CTxMemPool H
  queuedTx : List (CTransaction H)

variable (env : Env H) (params : Params H)

def addTransaction (queuedTx : List (CTransaction H)) (tx : CTransaction H) : List (CTransaction H) :=
  if queuedTx.any fun q => q.getHash env = tx.getHash env then queuedTx else queuedTx ++ [tx]

def dropEarliest : Nat → ReorgState H → ReorgState H
  | 0, r => r
  | n + 1, r => match r.queuedTx with
    | [] => r
    | tx :: rest => dropEarliest n ⟨r.chain, r.pool.removeRecursive env tx, rest⟩

inductive ReorgMove : ReorgState H → ReorgState H → Prop
  | disconnect {r : ReorgState H} {a' : ActiveChain H} (b : ChainBlock H) (dropped : Nat)
      (hb : r.chain.blocks = b :: a'.blocks) (h : disconnectLast env r.chain = .ok a') :
      ReorgMove r (dropEarliest env dropped
        ⟨a', r.pool, b.block.vtx.reverse.foldl (addTransaction env) r.queuedTx⟩)
  | connect {r : ReorgState H} {a' : ActiveChain H} (l : LocalEnv H) (undoPos : Res Nat)
      (block : CBlock H) (pindex : CBlockIndex H) (htop : OnTop env params r.chain block pindex)
      (h : connectNext (env.withLocal l) params undoPos r.chain block pindex = .ok a') :
      ReorgMove r ⟨a', r.pool.removeForBlock env block.vtx, r.queuedTx.filter fun q =>
        !(block.vtx.any fun tx => tx.getHash env = q.getHash env)⟩

/-- one round of the loop of `UpdateMempoolForReorg`: the pool, and `vHashUpdate`.  Errors of a
resurrected transaction are ignored, an exception or a failed assertion is not -/
def reaccept (world : CTransaction H → LocalEnv H × PoolEnv H) (fAddToMempool : Bool)
    (a : ActiveChain H) (s : CTxMemPool H × List H) (tx : CTransaction H) :
    Res (CTxMemPool H × List H) :=
  if !fAddToMempool || tx.isCoinBase then .ok (s.1.removeRecursive env tx, s.2)
  else match acceptToMemoryPool (env.withLocal (world tx).1) params (world tx).2 ⟨true, 0, false⟩ a
      s.1 tx with
    | (.ok _, pool) =>
      .ok (pool, if pool.has env (tx.getHash env) then s.2 ++ [tx.getHash env] else s.2)
    | (.error e, pool) => if e.isVerdict then .ok (pool.removeRecursive env tx, s.2) else .error e

def updateMempoolForReorg (world : CTransaction H → LocalEnv H × PoolEnv H) (penv : PoolEnv H)
    (fAddToMempool : Bool) (r : ReorgState H) : Res (CTxMemPool H × List H) := do
  let s ← run (reaccept env params world fAddToMempool r.chain) (r.pool, []) r.queuedTx.reverse
  let pool := s.1.updateTransactionsFromBlock env s.2
  let pool := pool.removeForReorg env penv r.chain.view (r.chain.blocks.length + 1)
  pure (pool.limitMempoolSize env penv, s.2)

/-- a step of the node, with the chain, the pool and the transactions at the point where
`AcceptToMemoryPool` takes these -/
inductive PoolStep : PoolState H → ReorgState H → PoolState H → Prop
  | accept {s : PoolState H} (l : LocalEnv H) (penv : PoolEnv H) (args : AcceptArgs)
      (tx : CTransaction H) :
      PoolStep s
        ⟨s.chain, s.pool,
          if (acceptToMemoryPool (env.withLocal l) params penv args s.chain s.pool tx).1.isOk then [tx]
          else []⟩
        ⟨s.chain, (acceptToMemoryPool (env.withLocal l) params penv args s.chain s.pool tx).2⟩
  | connect {s : PoolState H} {a' : ActiveChain H} (l : LocalEnv H) (undoPos : Res Nat)
      (block : CBlock H) (pindex : CBlockIndex H) (htop : OnTop env params s.chain block pindex)
      (h : connectNext (env.withLocal l) params undoPos s.chain block pindex = .ok a') :
      PoolStep s ⟨a', s.pool.removeForBlock env block.vtx, []⟩
        ⟨a', s.pool.removeForBlock env block.vtx⟩
  | reorg {s : PoolState H} {r : ReorgState H} {pool : CTxMemPool H} {vHashUpdate : List H}
      (world : CTransaction H → LocalEnv H × PoolEnv H) (penv : PoolEnv H) (fAddToMempool : Bool)
      (hmoves : Relation.ReflTransGen (ReorgMove env params) ⟨s.chain, s.pool, []⟩ r)
      (h : updateMempoolForReorg env params world penv fAddToMempool r = .ok (pool, vHashUpdate)) :
      PoolStep s
        ⟨r.chain, r.pool, r.queuedTx.filter fun q => vHashUpdate.contains (q.getHash env)⟩
        ⟨r.chain, pool⟩
  | evict {s : PoolState H} (penv : PoolEnv H) :
      PoolStep s ⟨s.chain, s.pool, []⟩ ⟨s.chain, s.pool.limitMempoolSize env penv⟩

/-- no transaction that is taken has an output that an entry of the pool spends; and the tip has no
coin under the id of one, or of an entry next to it -/
def Separate (m : ReorgState H) : Prop :=
  ∀ q ∈ m.queuedTx, (∀ e ∈ m.pool.mapTx, ∀ o ∈ e.tx.spent, ¬ q.IsOutput env o) ∧
    ∀ p ∈ q :: m.pool.txs, ∀ n < p.vout.length,
      m.chain.view.haveCoin ⟨p.getHash env, UInt32.ofNat n⟩ = false

instance (m : ReorgState H) : Decidable (Separate env m) :=
  inferInstanceAs (Decidable (∀ q ∈ m.queuedTx, (∀ e ∈ m.pool.mapTx, ∀ o ∈ e.tx.spent, _) ∧
    ∀ p ∈ q :: m.pool.txs, ∀ n < p.vout.length, _))

variable {env params}

/-! ## coins that come and go -/

variable {a : ActiveChain H} {v : CCoinsViewCache H}

theorem view_haveCoin (h : a.pcoinsTip = v.getCoin) (o : COutPoint H) : a.view.haveCoin o = v.haveCoin o := by
  have hview : a.view.accessCoin o = (v.getCoin o).getD Coin.empty := by
    rw [← h]
    exact congrFun (accessCoin_ofBase _ _) o
  unfold getCoin at hview
  rw [haveCoin, hview]
  cases hv : v.haveCoin o with
  | true => exact hv
  | false => rfl

variable {o : COutPoint H} {j : List (COutPoint H × Write Coin)} {w : CCoinsViewCache H}

theorem Follows.del_of_lost (h : Follows j v w) (hv : v.haveCoin o) (hw : w.haveCoin o = false) : (o, .del) ∈ j := by
  rcases h.cases_at o with ⟨-, hsame⟩ | ⟨hdel, -⟩ | ⟨e, -, he, hc⟩
  · rw [haveCoin, accessCoin_congr h.base hsame] at hw
    exact absurd (hw.symm.trans hv) (by decide)
  · exact hdel
  · rw [haveCoin, accessCoin_of_entry he, hc] at hw
    cases hw

theorem Follows.have_of_put (h : Follows j v w) {x : Write Coin} (hx : (o, x) ∈ j) : w.haveCoin o ∨ (o, .del) ∈ j := by
  rcases h.cases_at o with ⟨hl, -⟩ | ⟨hdel, -⟩ | ⟨e, -, he, hc⟩
  · exact absurd hx (lastWrite_none hl x)
  · exact .inr hdel
  · left
    rw [haveCoin_iff, accessCoin_of_entry he, hc]

variable {b : ChainBlock H} {a' : ActiveChain H} {out : CTxOut} {tx : CTransaction H} {c : ConnectLoop H}

theorem disconnectLast_lost (hb : a.blocks = b :: a'.blocks)
    (h : disconnectLast env a = .ok a') (hv : a.view.haveCoin o)
    (hw : a'.view.haveCoin o = false) : ∃ tx ∈ b.block.vtx, ∃ out, MakesAt env tx o out := by
  obtain ⟨b', view, hb', hd, htip, -, -⟩ := disconnectLast_ok h
  have hbb : b' = b := (cons.inj (hb'.symm.trans hb)).1
  subst hbb
  obtain ⟨j, u, hj, hget, hwrites⟩ := disconnectBlock_follows hd
  rw [view_haveCoin (htip.trans hget)] at hw
  have hdel := hwrites _ (hj.del_of_lost hv hw)
  cases hdel with
  | output htx hout => exact ⟨_, htx, _, hout⟩

theorem spends_of_del {vtx : List (CTransaction H)} {nHeight : Nat}
    (h : (o, .del) ∈ blockWrites env vtx nHeight) : ∃ tx ∈ vtx, o ∈ tx.spent := by
  rcases mem_blockWrites h with ⟨-, tx, htx, -, i, hi, hio⟩ | ⟨tx, -, out, -, hput⟩
  · exact ⟨tx, htx, mem_map.2 ⟨i, hi, hio⟩⟩
  · cases hput

theorem Connects.lost (h : Connects env params a b c a') (hv : a.view.haveCoin o)
    (hw : a'.view.haveCoin o = false) : ∃ tx ∈ b.block.vtx, o ∈ tx.spent := by
  rw [view_haveCoin h.pcoinsTip] at hw
  exact spends_of_del (h.follows.del_of_lost hv hw)

theorem Connects.made (h : Connects env params a b c a') (htx : tx ∈ b.block.vtx) (hout : MakesAt env tx o out) :
    a'.view.haveCoin o ∨ ∃ tx' ∈ b.block.vtx, o ∈ tx'.spent := by
  have hput : (o, .put (Coin.ofOut out b.pindex.nHeight tx.isCoinBase)) ∈
      blockWrites env b.block.vtx b.pindex.nHeight :=
    mem_flatMap.2 ⟨tx, htx, mem_append_right _ (mem_txCreates.2 ⟨out, hout, rfl⟩)⟩
  rw [view_haveCoin h.pcoinsTip]
  rcases h.follows.have_of_put hput with hhave | hdel
  · exact .inl hhave
  · exact .inr (spends_of_del hdel)

/-! ## outputs of transactions with one id -/

theorem MakesAt.isOutput (h : MakesAt env tx o out) : tx.IsOutput env o := by
  obtain ⟨n, hn, -, ho⟩ := h
  exact ⟨n, (List.getElem?_eq_some_iff.1 hn).1, ho⟩

theorem CTransaction.IsOutput.of_hash (hinj : Function.Injective env.hashTx) {a b : CTransaction H}
    (hab : a.getHash env = b.getHash env) (h : a.IsOutput env o) : b.IsOutput env o := by
  obtain ⟨n, hn, ho⟩ := h
  have hlen := (sameIds_of_hash hinj hab).vout.length_eq
  exact ⟨n, by omega, by rw [ho, hab]⟩

theorem MakesAt.of_hash (hinj : Function.Injective env.hashTx) {a b : CTransaction H}
    (hab : a.getHash env = b.getHash env) (h : MakesAt env a o out) : ∃ out', MakesAt env b o out' := by
  obtain ⟨n, hn, hu, ho⟩ := h
  have hvout := (sameIds_of_hash hinj hab).vout
  obtain ⟨hlt, hget⟩ := List.getElem?_eq_some_iff.1 hn
  have hlt' : n < b.vout.length := by
    rw [← hvout.length_eq]
    exact hlt
  have hscript := (hvout.get hlt hlt').1
  refine ⟨b.vout.get ⟨n, hlt'⟩, n, List.getElem?_eq_some_iff.2 ⟨hlt', rfl⟩, ?_, by rw [ho, hab]⟩
  rw [← hscript]
  rw [get_eq_getElem, hget]
  exact hu

variable {pool : CTxMemPool H} {q : CTransaction H}

/-- **what `removeRecursive` leaves**: an entry that spends an output of the transaction is left only
where the transaction itself was in the pool -/
theorem removeRecursive_parent (h : Indexed env pool)
    {e : CTxMemPoolEntry H} (he : e ∈ (pool.removeRecursive env q).mapTx)
    (ho : o ∈ e.tx.spent) (hq : q.IsOutput env o) :
    ∃ p ∈ pool.mapTx, p.tx.getHash env = q.getHash env ∧ p.tx ≠ e.tx := by
  obtain ⟨hne, hspent⟩ := removeRecursive_gone h q he
  obtain ⟨n, hn, rfl⟩ := hq
  cases hhas : pool.has env (q.getHash env) with
  | false => exact absurd ho (hspent hhas n hn)
  | true =>
    obtain ⟨p, hp, hhash⟩ := has_iff.1 hhas
    exact ⟨p, hp, hhash, fun heq => hne (heq ▸ hhash)⟩

/-! ## the moves -/

structure Waiting (env : Env H) (s : PoolState H) (r : ReorgState H) : Prop where
  old : ∀ e ∈ r.pool.mapTx, e ∈ s.pool.mapTx
  indexed : Indexed env r.pool
  coins : ∀ e ∈ r.pool.mapTx, ∀ o ∈ e.tx.spent, r.chain.view.haveCoin o = true ∨
    ∃ q ∈ r.queuedTx, ∃ out, MakesAt env q o out
  queue : (r.queuedTx.map fun q => q.getHash env).Nodup

variable {s : PoolState H}

theorem Waiting.start (hs : NoParents env s) (hindex : Indexed env s.pool) : Waiting env s ⟨s.chain, s.pool, []⟩ :=
  ⟨fun _ he => he, hindex, fun e he o ho => .inl (hs.coins e he o ho), .nil⟩

section
variable (hs : NoParents env s) (hinj : Function.Injective env.hashTx)

include hs hinj in
theorem Waiting.drop {rest : List (CTransaction H)}
    (h : Waiting env s ⟨a, pool, q :: rest⟩) : Waiting env s ⟨a, pool.removeRecursive env q, rest⟩ := by
  have hshrink := @removeRecursive_shrinks _ _ _ env pool q
  refine ⟨fun e he => h.old e (hshrink.mem he), hshrink.indexed h.indexed, fun e he o ho => ?_,
    (nodup_cons.1 h.queue).2⟩
  rcases h.coins e (hshrink.mem he) o ho with hhave | ⟨x, hx, out, hout⟩
  · exact .inl hhave
  · rcases mem_cons.1 hx with rfl | hx
    · obtain ⟨p, hp, hhash, hne⟩ := removeRecursive_parent h.indexed he ho hout.isOutput
      have hpo := hout.isOutput.of_hash hinj hhash.symm
      exact absurd hpo (hs.parents e (h.old e (hshrink.mem he)) p (h.old p hp) hne o ho)
    · exact .inr ⟨x, hx, out, hout⟩

variable {r r' : ReorgState H}

include hs hinj in
theorem Waiting.dropEarliest (n : Nat) (h : Waiting env s r) : Waiting env s (dropEarliest env n r) := by
  induction n generalizing r with
  | zero => exact h
  | succ n ih =>
    obtain ⟨a, pool, queue⟩ := r
    cases queue with
    | nil => exact h
    | cons q rest => exact ih (h.drop hs hinj)

theorem addTransaction_nodup {queue : List (CTransaction H)} (h : (queue.map fun q => q.getHash env).Nodup)
    (tx : CTransaction H) : ((addTransaction env queue tx).map fun q => q.getHash env).Nodup := by
  unfold addTransaction
  split
  · exact h
  · next hno =>
    rw [map_append, map_cons, map_nil]
    refine h.append (by simp) fun x hx hx' => ?_
    obtain ⟨q, hq, rfl⟩ := mem_map.1 hx
    exact hno (any_eq_true.2 ⟨q, hq, by simpa using mem_singleton.1 hx'⟩)

theorem subset_addTransaction (queue : List (CTransaction H)) (tx : CTransaction H) :
    queue ⊆ addTransaction env queue tx := by
  unfold addTransaction
  split
  · exact List.Subset.refl _
  · exact subset_append_left _ _

theorem addTransaction_mem (queue : List (CTransaction H)) (tx : CTransaction H) :
    ∃ q ∈ addTransaction env queue tx, q.getHash env = tx.getHash env := by
  unfold addTransaction
  split
  · next h =>
    obtain ⟨q, hq, hhash⟩ := any_eq_true.1 h
    exact ⟨q, hq, by simpa using hhash⟩
  · exact ⟨tx, mem_append_right _ mem_cons_self, rfl⟩

theorem addTransactions_spec (l : List (CTransaction H)) {queue : List (CTransaction H)}
    (h : (queue.map fun q => q.getHash env).Nodup) :
    ((l.foldl (addTransaction env) queue).map fun q => q.getHash env).Nodup ∧
      queue ⊆ l.foldl (addTransaction env) queue ∧
      ∀ tx ∈ l, ∃ q ∈ l.foldl (addTransaction env) queue, q.getHash env = tx.getHash env := by
  induction l generalizing queue with
  | nil => exact ⟨h, List.Subset.refl _, fun tx htx => absurd htx not_mem_nil⟩
  | cons x l ih =>
    obtain ⟨hnodup, hsub, hmem⟩ := ih (addTransaction_nodup h x)
    refine ⟨hnodup, List.Subset.trans (subset_addTransaction queue x) hsub, forall_mem_cons.2 ⟨?_, hmem⟩⟩
    obtain ⟨q, hq, hhash⟩ := @addTransaction_mem _ _ _ env queue x
    exact ⟨q, hsub hq, hhash⟩

include hinj in
theorem Waiting.disconnect (h : Waiting env s r)
    (hb : r.chain.blocks = b :: a'.blocks) (hd : disconnectLast env r.chain = .ok a') :
    Waiting env s ⟨a', r.pool, b.block.vtx.reverse.foldl (addTransaction env) r.queuedTx⟩ := by
  obtain ⟨hnodup, hsub, hmem⟩ := addTransactions_spec b.block.vtx.reverse h.queue
  refine ⟨h.old, h.indexed, fun e he o ho => ?_, hnodup⟩
  rcases h.coins e he o ho with hhave | ⟨q, hq, out, hout⟩
  · cases hafter : a'.view.haveCoin o with
    | true => exact .inl rfl
    | false =>
      obtain ⟨tx, htx, out, hout⟩ := disconnectLast_lost hb hd hhave hafter
      obtain ⟨q, hq, hhash⟩ := hmem tx (mem_reverse.2 htx)
      obtain ⟨out', hout'⟩ := hout.of_hash hinj hhash.symm
      exact .inr ⟨q, hq, out', hout'⟩
  · exact .inr ⟨q, hsub hq, out, hout⟩

include hinj in
theorem Waiting.connect {s : PoolState H} {r : ReorgState H}
    (h : Waiting env s r) {l : LocalEnv H} {b : ChainBlock H} {c : ConnectLoop H} {a' : ActiveChain H}
    (hc : Connects (env.withLocal l) params r.chain b c a') :
    Waiting env s ⟨a', r.pool.removeForBlock env b.block.vtx, r.queuedTx.filter fun q =>
      !(b.block.vtx.any fun tx => tx.getHash env = q.getHash env)⟩ := by
  have hshrink := @removeForBlock_shrinks _ _ _ env r.pool b.block.vtx
  refine ⟨fun e he => h.old e (hshrink.mem he), hshrink.indexed h.indexed, fun e he o ho => ?_,
    ((filter_sublist).map _).nodup h.queue⟩
  -- what the block spends is gone from the pool
  have hkept : ¬ ∃ tx ∈ b.block.vtx, o ∈ tx.spent := fun ⟨tx, htx, hspent⟩ =>
    (removeForBlock_gone h.indexed he htx).2 o hspent ho
  rcases h.coins e (hshrink.mem he) o ho with hhave | ⟨q, hq, out, hout⟩
  · cases hafter : a'.view.haveCoin o with
    | true => exact .inl rfl
    | false => exact absurd (hc.lost hhave hafter) hkept
  · by_cases hin : (b.block.vtx.any fun tx => tx.getHash env = q.getHash env) = true
    · -- a transaction of the queue is in the block, and makes the coin again
      obtain ⟨tx, htx, hhash⟩ := any_eq_true.1 hin
      obtain ⟨out', hout'⟩ := hout.of_hash hinj (of_decide_eq_true hhash).symm
      exact .inl ((hc.made htx hout').resolve_right hkept)
    · exact .inr ⟨q, mem_filter.2 ⟨hq, by simpa using hin⟩, out, hout⟩

include hs hinj in
theorem ReorgMove.waiting (hmove : ReorgMove env params r r') (h : Waiting env s r) : Waiting env s r' := by
  cases hmove with
  | disconnect b dropped hb hd => exact (h.disconnect hinj hb hd).dropEarliest hs hinj dropped
  | connect l undoPos block pindex htop hc =>
    obtain ⟨c, hconn⟩ := connectNext_ok (htop.withLocal l) hc
    exact h.connect hinj hconn

include hs hinj in
theorem Waiting.moves (h : Waiting env s r)
    (hmoves : Relation.ReflTransGen (ReorgMove env params) r r') : Waiting env s r' := by
  induction hmoves with
  | refl => exact h
  | tail _ hmove ih => exact hmove.waiting hs hinj ih

/-! ## the loop over the queue -/

/-- in the loop an entry is old, or was put back with coins of the tip; and a coin of an entry is in the
tip, or made by a transaction that is to come or was put back -/
structure Readmits (env : Env H) (r : ReorgState H) (rest : List (CTransaction H))
    (p : CTxMemPool H × List H) : Prop where
  indexed : Indexed env p.1
  members : ∀ e ∈ p.1.mapTx, e ∈ r.pool.mapTx ∨ (e.tx ∈ r.queuedTx ∧ e.tx.getHash env ∈ p.2 ∧
    ∀ o ∈ e.tx.spent, r.chain.view.haveCoin o = true)
  coins : ∀ e ∈ p.1.mapTx, ∀ o ∈ e.tx.spent, r.chain.view.haveCoin o = true ∨
    (∃ q ∈ rest, q.IsOutput env o) ∨ ∃ q ∈ r.queuedTx, q.getHash env ∈ p.2 ∧ q.IsOutput env o
  fresh : ∀ q ∈ rest, q.getHash env ∉ p.2

variable {rest : List (CTransaction H)} {vHashUpdate : List H} {penv : PoolEnv H}

include hs hinj in
theorem Readmits.reject (hw : Waiting env s r) (h : Readmits env r (q :: rest) (pool, vHashUpdate)) :
    Readmits env r rest (pool.removeRecursive env q, vHashUpdate) := by
  have hshrink := @removeRecursive_shrinks _ _ _ env pool q
  refine ⟨hshrink.indexed h.indexed, fun e he => h.members e (hshrink.mem he), fun e he o ho => ?_,
    fun x hx => h.fresh x (mem_cons_of_mem q hx)⟩
  rcases h.coins e (hshrink.mem he) o ho with hhave | ⟨x, hx, hxo⟩ | hback
  · exact .inl hhave
  · rcases mem_cons.1 hx with rfl | hx
    · left
      rcases h.members e (hshrink.mem he) with hold | ⟨-, -, hhave⟩
      · obtain ⟨p, hp, hhash, hne⟩ := removeRecursive_parent h.indexed he ho hxo
        rcases h.members p hp with hpold | ⟨-, hpnew, -⟩
        · exact absurd (hxo.of_hash hinj hhash.symm)
            (hs.parents e (hw.old e hold) p (hw.old p hpold) hne o ho)
        · exact absurd (hhash ▸ hpnew) (h.fresh x mem_cons_self)
      · exact hhave o ho
    · exact .inr (.inl ⟨x, hx, hxo⟩)
  · exact .inr (.inr hback)

theorem Readmits.accept {l : LocalEnv H} {entry : CTxMemPoolEntry H} {all : List H} (hq : q ∈ r.queuedTx)
    (hnew : q.getHash env ∉ rest.map fun x => x.getHash env)
    (h : Readmits env r (q :: rest) (pool, vHashUpdate)) (htx : entry.tx = q)
    (hadm : Admitted (env.withLocal l) penv r.chain pool entry all) :
    Readmits env r rest (pool.replace env all entry, vHashUpdate ++ [q.getHash env]) := by
  have hcoins : ∀ o ∈ entry.tx.spent, r.chain.view.haveCoin o := hadm.haveCoin
  have hlater : ∀ x, x ∈ vHashUpdate → x ∈ vHashUpdate ++ [q.getHash env] := fun _ hx => mem_append_left _ hx
  have hself : q.getHash env ∈ vHashUpdate ++ [q.getHash env] := mem_append_right _ mem_cons_self
  refine ⟨(hadm.indexed (h.indexed.withLocal l)).ofLocal, fun e he => ?_, fun e he o ho => ?_, fun x hx hmem => ?_⟩
  · rcases mem_replace.1 he with ⟨he, -⟩ | rfl
    · rcases h.members e he with hold | ⟨hqueued, hback, hhave⟩
      · exact .inl hold
      · exact .inr ⟨hqueued, hlater _ hback, hhave⟩
    · exact .inr ⟨htx ▸ hq, htx ▸ hself, hcoins⟩
  · rcases mem_replace.1 he with ⟨he, -⟩ | rfl
    · rcases h.coins e he o ho with hhave | ⟨x, hx, hxo⟩ | ⟨x, hx, hback, hxo⟩
      · exact .inl hhave
      · rcases mem_cons.1 hx with rfl | hx
        · exact .inr (.inr ⟨x, hq, hself, hxo⟩)
        · exact .inr (.inl ⟨x, hx, hxo⟩)
      · exact .inr (.inr ⟨x, hx, hlater _ hback, hxo⟩)
    · exact .inl (hcoins o ho)
  · rcases mem_append.1 hmem with hmem | hmem
    · exact h.fresh x (mem_cons_of_mem q hx) hmem
    · exact hnew (mem_map.2 ⟨x, hx, mem_singleton.1 hmem⟩)

variable {world : CTransaction H → LocalEnv H × PoolEnv H} {m : ReorgState H} {fAdd : Bool}
  {t : PoolState H}

include hs hinj in
theorem Readmits.step {p p' : CTxMemPool H × List H} (hw : Waiting env s r) (hq : q ∈ r.queuedTx)
    (hnew : q.getHash env ∉ rest.map fun x => x.getHash env) (h : Readmits env r (q :: rest) p)
    (hstep : reaccept env params world fAdd r.chain p q = .ok p') : Readmits env r rest p' := by
  obtain ⟨pool, vHashUpdate⟩ := p
  unfold reaccept at hstep
  split at hstep
  · cases hstep
    exact h.reject hs hinj hw
  · generalize hacc : acceptToMemoryPool (env.withLocal (world q).1) params (world q).2
      ⟨true, 0, false⟩ r.chain pool q = acc at hstep
    obtain ⟨res, pool'⟩ := acc
    obtain ⟨rfl, hres⟩ | ⟨entry, all, htx, hadm, -, hbypass⟩ := acceptToMemoryPool_inv hacc
    · cases res with
      | ok u => exact absurd (hres rfl) (by simp)
      | error e =>
        dsimp only at hstep
        split at hstep
        · cases hstep
          exact h.reject hs hinj hw
        · cases hstep
    · obtain ⟨rfl, rfl⟩ := hbypass rfl
      have hhas : (pool.replace env all entry).has env (q.getHash env) = true :=
        has_iff.2 ⟨entry, mem_replace.2 (.inr rfl), by rw [htx]⟩
      have hstep' : (Except.ok (pool.replace env all entry,
          if (pool.replace env all entry).has env (q.getHash env) then vHashUpdate ++ [q.getHash env]
          else vHashUpdate) : Res (CTxMemPool H × List H)) = .ok p' := hstep
      rw [hhas, if_pos rfl] at hstep'
      cases hstep'
      exact h.accept hq hnew htx hadm

include hs hinj in
theorem Readmits.run {p p' : CTxMemPool H × List H} (hw : Waiting env s r) (hsub : rest ⊆ r.queuedTx)
    (hnodup : (rest.map fun x => x.getHash env).Nodup) (h : Readmits env r rest p)
    (hrun : run (reaccept env params world fAdd r.chain) p rest = .ok p') : Readmits env r [] p' := by
  induction rest generalizing p with
  | nil =>
    cases hrun
    exact h
  | cons q rest ih =>
    obtain ⟨u, hu, hrest⟩ := run_cons_ok.1 hrun
    obtain ⟨hq, hnodup'⟩ := nodup_cons.1 hnodup
    exact ih (fun x hx => hsub (mem_cons_of_mem q hx)) hnodup'
      (h.step hs hinj hw (hsub mem_cons_self) hq hu) hrest

theorem Waiting.readmits (hw : Waiting env s r) : Readmits env r r.queuedTx.reverse (r.pool, []) := by
  refine ⟨hw.indexed, fun e he => .inl he, fun e he o ho => ?_, fun _ _ hmem => absurd hmem not_mem_nil⟩
  rcases hw.coins e he o ho with hhave | ⟨q, hq, out, hout⟩
  · exact .inl hhave
  · exact .inr (.inl ⟨q, mem_reverse.2 hq, hout.isOutput⟩)

include hs hinj in
theorem Waiting.updated (hw : Waiting env s r)
    (h : updateMempoolForReorg env params world penv fAdd r = .ok (pool, vHashUpdate)) :
    ∃ p, Readmits env r [] (p, vHashUpdate) ∧ Shrinks env p pool := by
  simp only [updateMempoolForReorg, bind_ok, pure_ok] at h
  obtain ⟨p, hrun, hret⟩ := h
  cases hret
  have hnodup : (r.queuedTx.reverse.map fun x => x.getHash env).Nodup := by
    rw [map_reverse, nodup_reverse]
    exact hw.queue
  refine ⟨p.1, hw.readmits.run hs hinj hw (fun x hx => mem_reverse.1 hx) hnodup hrun, ?_⟩
  exact ((updateTransactionsFromBlock_shrinks p.1 p.2).trans
    (removeForReorg_shrinks penv r.chain.view (r.chain.blocks.length + 1) _)).trans
    (limitMempoolSize_shrinks penv _)

end

/-! ## the index of the pool -/

theorem dropEarliest_shrinks (n : Nat) (r : ReorgState H) : Shrinks env r.pool (dropEarliest env n r).pool := by
  induction n generalizing r with
  | zero => exact .refl env r.pool
  | succ n ih =>
    obtain ⟨a, pool, queue⟩ := r
    cases queue with
    | nil => exact .refl env pool
    | cons q rest => exact (removeRecursive_shrinks pool q).trans (ih ⟨a, pool.removeRecursive env q, rest⟩)

theorem ReorgMove.shrinks (h : ReorgMove env params r r') : Shrinks env r.pool r'.pool := by
  cases h with
  | @disconnect a' b dropped hb hd => exact dropEarliest_shrinks dropped ⟨a', r.pool, _⟩
  | connect l undoPos block pindex htop hc => exact removeForBlock_shrinks r.pool block.vtx

theorem reaccept_indexed {p p' : CTxMemPool H × List H} (hp : Indexed env p.1)
    (h : reaccept env params world fAdd a p q = .ok p') : Indexed env p'.1 := by
  unfold reaccept at h
  split at h
  · cases h
    exact (removeRecursive_shrinks p.1 q).indexed hp
  · have hacc := (@accept_step _ _ _ env params (world q).2 (world q).1 ⟨true, 0, false⟩ a p.1 hp q).1
    split at h
    · next heq =>
      cases h
      rwa [heq] at hacc
    · next heq =>
      rw [heq] at hacc
      split at h
      · cases h
        exact (removeRecursive_shrinks _ q).indexed hacc
      · cases h

theorem PoolStep.indexed (h : PoolStep env params s m t) (hs : Indexed env s.pool) : Indexed env t.pool := by
  cases h with
  | accept l penv args tx => exact (accept_step hs tx).1
  | connect l undoPos block pindex htop hc => exact (removeForBlock_shrinks s.pool block.vtx).indexed hs
  | @reorg r pool vHashUpdate world penv fAdd hmoves hupd =>
    have hr : Indexed env r.pool := by
      clear hupd
      induction hmoves with
      | refl => exact hs
      | tail _ hmove ih => exact hmove.shrinks.indexed ih
    simp only [updateMempoolForReorg, bind_ok, pure_ok] at hupd
    obtain ⟨p, hrun, hret⟩ := hupd
    cases hret
    have hp : Indexed env p.1 :=
      run_inv (fun p => Indexed env p.1) (fun _ _ _ _ hp hstep => reaccept_indexed hp hstep) hr hrun
    exact (((@updateTransactionsFromBlock_shrinks _ _ _ env p.1 p.2).trans
      (removeForReorg_shrinks penv r.chain.view (r.chain.blocks.length + 1) _)).trans
      (limitMempoolSize_shrinks penv _)).indexed hp
  | evict penv => exact (limitMempoolSize_shrinks penv s.pool).indexed hs

/-! ## steps -/

theorem accepted_of_mem {l : LocalEnv H} {args : AcceptArgs} {e : CTxMemPoolEntry H}
    (he : e ∈ (acceptToMemoryPool (env.withLocal l) params penv args a pool tx).2.mapTx)
    (hnew : e ∉ pool.mapTx) :
    (acceptToMemoryPool (env.withLocal l) params penv args a pool tx).1.isOk ∧ e.tx = tx ∧
      ∀ o ∈ e.tx.spent, a.view.haveCoin o := by
  unfold acceptToMemoryPool at he ⊢
  cases hc : acceptChecks (env.withLocal l) params penv args a pool tx with
  | error err =>
    rw [hc] at he
    exact absurd he hnew
  | ok p =>
    obtain ⟨entry, all⟩ := p
    obtain ⟨rfl, hadm⟩ := acceptChecks_ok hc
    rw [hc] at he
    dsimp only at he ⊢
    have hentry : ∀ pool', Shrinks env (pool.replace env all entry) pool' → e ∈ pool'.mapTx → e = entry :=
      fun pool' hsub hmem => (mem_replace.1 (hsub.mem hmem)).resolve_left fun h => hnew h.1
    split_ifs at he ⊢ with htest hbypass hhas
    · exact absurd he hnew
    · obtain rfl := hentry _ (.refl env _) he
      exact ⟨rfl, rfl, hadm.haveCoin⟩
    · obtain rfl := hentry _ (limitMempoolSize_shrinks penv _) he
      exact ⟨rfl, rfl, hadm.haveCoin⟩
    · -- the entry has been trimmed
      obtain rfl := hentry _ (limitMempoolSize_shrinks penv _) he
      exact absurd (has_iff.2 ⟨e, he, rfl⟩) hhas

/-- what is in the pool after a step was there when transactions were taken, or is one of these -/
structure Enters (env : Env H) (s : PoolState H) (m : ReorgState H) (t : PoolState H) : Prop where
  chain : t.chain = m.chain
  old : ∀ e ∈ m.pool.mapTx, e ∈ s.pool.mapTx
  members : ∀ e ∈ t.pool.mapTx, e ∈ m.pool.mapTx ∨
    (e.tx ∈ m.queuedTx ∧ ∀ o ∈ e.tx.spent, m.chain.view.haveCoin o = true)
  coins : ∀ e ∈ t.pool.mapTx, ∀ o ∈ e.tx.spent, m.chain.view.haveCoin o = true ∨
    ∃ q ∈ m.queuedTx, q.IsOutput env o

theorem PoolStep.enters (h : PoolStep env params s m t) (hinj : Function.Injective env.hashTx)
    (hindex : Indexed env s.pool) (hs : NoParents env s) : Enters env s m t := by
  cases h with
  | accept l penv args tx =>
    have hmem : ∀ e ∈ (acceptToMemoryPool (env.withLocal l) params penv args s.chain s.pool tx).2.mapTx,
        e ∈ s.pool.mapTx ∨ (e.tx ∈ (if (acceptToMemoryPool (env.withLocal l) params penv args s.chain
          s.pool tx).1.isOk then [tx] else []) ∧ ∀ o ∈ e.tx.spent, s.chain.view.haveCoin o = true) := by
      intro e he
      by_cases hold : e ∈ s.pool.mapTx
      · exact .inl hold
      · obtain ⟨hok, htx, hcoins⟩ := accepted_of_mem he hold
        rw [if_pos hok]
        exact .inr ⟨mem_singleton.2 htx, hcoins⟩
    refine ⟨rfl, fun _ he => he, hmem, fun e he o ho => .inl ?_⟩
    rcases hmem e he with hold | ⟨-, hcoins⟩
    · exact hs.coins e hold o ho
    · exact hcoins o ho
  | connect l undoPos block pindex htop hc =>
    obtain ⟨c, hconn⟩ := connectNext_ok (htop.withLocal l) hc
    have hw := (Waiting.start hs hindex).connect hinj hconn
    refine ⟨rfl, hw.old, fun e he => .inl he, fun e he o ho => ?_⟩
    rcases hw.coins e he o ho with hhave | ⟨q, hq, -⟩
    · exact .inl hhave
    · cases hq
  | @reorg r pool vHashUpdate world penv fAdd hmoves hupd =>
    have hw := (Waiting.start hs hindex).moves hs hinj hmoves
    obtain ⟨p, hend, hshrink⟩ := hw.updated hs hinj hupd
    refine ⟨rfl, hw.old, fun e he => ?_, fun e he o ho => ?_⟩
    · rcases hend.members e (hshrink.mem he) with hold | ⟨hq, hback, hcoins⟩
      · exact .inl hold
      · exact .inr ⟨mem_filter.2 ⟨hq, by simpa using hback⟩, hcoins⟩
    · rcases hend.coins e (hshrink.mem he) o ho with hhave | ⟨q, hq, -⟩ | ⟨q, hq, hback, hqo⟩
      · exact .inl hhave
      · cases hq
      · exact .inr ⟨q, mem_filter.2 ⟨hq, by simpa using hback⟩, hqo⟩
  | evict penv =>
    have hshrink := @limitMempoolSize_shrinks _ _ _ env penv s.pool
    exact ⟨rfl, fun _ he => he, fun e he => .inl (hshrink.mem he),
      fun e he o ho => .inl (hs.coins e (hshrink.mem he) o ho)⟩

theorem Enters.noParents (h : Enters env s m t) (hs : NoParents env s) (hsep : Separate env m) :
    NoParents env t := by
  have hcoins : ∀ e ∈ t.pool.mapTx, ∀ o ∈ e.tx.spent, m.chain.view.haveCoin o := by
    intro e he o ho
    rcases h.members e he with hold | ⟨-, hnew⟩
    · exact (h.coins e he o ho).resolve_right fun ⟨q, hq, hqo⟩ => (hsep q hq).1 e hold o ho hqo
    · exact hnew o ho
  refine ⟨fun e he p hp hne o ho hpo => ?_, h.chain ▸ hcoins⟩
  -- an output of an entry next to a transaction that is taken is no coin of the tip
  have hclear : ∀ q ∈ m.queuedTx, p.tx ∈ q :: m.pool.txs → False := by
    intro q hq hmem
    obtain ⟨n, hn, rfl⟩ := hpo
    have hno := (hsep q hq).2 p.tx hmem n hn
    rw [hcoins e he _ ho] at hno
    cases hno
  rcases h.members p hp with hpold | ⟨hpnew, -⟩
  · rcases h.members e he with hold | ⟨hnew, -⟩
    · exact hs.parents e (h.old e hold) p (h.old p hpold) hne o ho hpo
    · exact hclear e.tx hnew (mem_cons_of_mem _ (mem_map_of_mem hpold))
  · exact hclear p.tx hpnew mem_cons_self

/-- **no transaction of the pool has a parent in the pool**, at every point of a run, if every step finds
what it takes into the pool separate from the pool and the coins of the tip -/
theorem no_parents_of_separate (hinj : Function.Injective env.hashTx) {run : List (PoolState H)}
    (h : IsRun (fun s t => ∃ m, PoolStep env params s m t ∧ Separate env m) (.start params) run) :
    ∀ s ∈ PoolState.start params :: run, NoParents env s := by
  have hstart : NoParents env (.start params) :=
    ⟨fun e he => absurd he not_mem_nil, fun e he => absurd he not_mem_nil⟩
  intro s hs
  refine (run_keeps (J := fun s => Indexed env s.pool ∧ NoParents env s) ?_ h ⟨.empty, hstart⟩ s hs).2
  rintro s t ⟨hindex, hno⟩ ⟨m, hstep, hsep⟩
  exact ⟨hstep.indexed hindex, (hstep.enters hinj hindex hno).noParents hno hsep⟩

/-- **no two transactions of the pool spend one coin** or share their id, and `mapNextTx` lists what is
spent, at every point of every run -/
theorem pool_indexed_of_run {run : List (PoolState H)}
    (h : IsRun (fun s t => ∃ m, PoolStep env params s m t) (.start params) run) :
    ∀ s ∈ PoolState.start params :: run, Indexed env s.pool :=
  run_keeps (fun _ _ hs ⟨_, hstep⟩ => hstep.indexed hs) h .empty

/-! ## a parent that comes back -/

def parentTx : CTransaction Digest := dollarsTx 5 (.refl true)

def childTx : CTransaction Digest :=
  ⟨6, [.ofOutPoint ⟨parentTx.getHash symEnv, 0⟩ []], [.of 5 5 [] 1], 0, rfl, rfl⟩

def parentMined : PoolState Digest := mine (.start symParams) 1 [parentTx]

def childOffered : PoolState Digest := offer parentMined childTx

def parentBack : ReorgState Digest :=
  ⟨valueOr (disconnectLast symEnv childOffered.chain) childOffered.chain, childOffered.pool,
    (blockOn (.genesis symParams) halfDollar 1 [parentTx]).vtx.reverse.foldl
      (addTransaction symEnv) []⟩

def otherMined : ReorgState Digest :=
  let block := blockOn parentBack.chain halfDollar 2 []
  ⟨valueOr (extend parentBack.chain 2 []) parentBack.chain,
    parentBack.pool.removeForBlock symEnv block.vtx,
    parentBack.queuedTx.filter fun q =>
      !(block.vtx.any fun tx => tx.getHash symEnv = q.getHash symEnv)⟩

def reorganised : CTxMemPool Digest × List Digest :=
  valueOr (updateMempoolForReorg symEnv symParams (fun _ => (symEnv.localEnv, openPool))
    openPool true otherMined) (otherMined.pool, [])

theorem parentMined_step : PoolStep symEnv symParams (.start symParams)
    ⟨parentMined.chain, parentMined.pool, []⟩ parentMined :=
  .connect symEnv.localEnv (.ok 0) _ _ (blockOn_onTop rfl _ halfDollar 1 [parentTx])
    (@eq_valueOr _ _ _ (.genesis symParams) (by decide))

theorem childOffered_step : PoolStep symEnv symParams parentMined
    ⟨parentMined.chain, parentMined.pool,
      if (acceptToMemoryPool symEnv symParams openPool ⟨false, 0, false⟩ parentMined.chain
        parentMined.pool childTx).1.isOk then [childTx] else []⟩ childOffered :=
  .accept symEnv.localEnv openPool ⟨false, 0, false⟩ childTx

theorem reorganised_step : ∃ m, PoolStep symEnv symParams childOffered m
    ⟨otherMined.chain, reorganised.1⟩ := by
  have hback : disconnectLast symEnv childOffered.chain = .ok parentBack.chain :=
    @eq_valueOr _ _ _ childOffered.chain (by decide)
  have hconnect : connectNext symEnv symParams (.ok 0) parentBack.chain
      (blockOn parentBack.chain halfDollar 2 [])
      (indexOn parentBack.chain (blockOn parentBack.chain halfDollar 2 [])) = .ok otherMined.chain :=
    @eq_valueOr _ _ _ parentBack.chain (by decide)
  obtain ⟨b, -, hb, -⟩ := disconnectLast_ok hback
  have hvtx : b.block.vtx = (blockOn (.genesis symParams) halfDollar 1 [parentTx]).vtx := by
    have hall : ∀ b ∈ childOffered.chain.blocks,
        b.block.vtx = (blockOn (.genesis symParams) halfDollar 1 [parentTx]).vtx := by
      decide
    exact hall b (hb ▸ mem_cons_self)
  have hmove : ReorgMove symEnv symParams ⟨childOffered.chain, childOffered.pool, []⟩
      parentBack := by
    have h : ReorgMove symEnv symParams ⟨childOffered.chain, childOffered.pool, []⟩
        ⟨parentBack.chain, childOffered.pool, b.block.vtx.reverse.foldl (addTransaction symEnv) []⟩ :=
      .disconnect b 0 hb hback
    rwa [hvtx] at h
  refine ⟨_, .reorg (fun _ => (symEnv.localEnv, openPool)) openPool true
    (.tail (.single hmove) ?_) (@eq_valueOr _ _ _ (otherMined.pool, []) (by decide))⟩
  exact .connect symEnv.localEnv (.ok 0) _ _ (blockOn_onTop rfl _ halfDollar 2 []) hconnect

/-- the parent is put back into the pool, in which its child is: the child spends an output of the
parent, and no coin of the tip -/
theorem parent_in_pool :
    IsRun (fun s t => ∃ m, PoolStep symEnv symParams s m t) (.start symParams)
        [parentMined, childOffered, ⟨otherMined.chain, reorganised.1⟩] ∧ reorganised.1.txs = [childTx, parentTx] ∧
      (∃ o ∈ childTx.spent, parentTx.IsOutput symEnv o ∧ otherMined.chain.view.haveCoin o = false) := by
  refine ⟨?_, by decide, by decide⟩
  simp only [isRun_cons, isRun_nil, and_true]
  exact ⟨⟨_, parentMined_step⟩, ⟨_, childOffered_step⟩, reorganised_step⟩

/-- the child is the only one to spend its coin -/
theorem pool_indexed_reorganised : reorganised.1.txs = [childTx, parentTx] ∧ Indexed symEnv reorganised.1 := by
  have hrun : IsRun (fun s t => ∃ m, PoolStep symEnv symParams s m t)
      (.start symParams) [parentMined, childOffered, ⟨otherMined.chain, reorganised.1⟩] := by
    simp only [isRun_cons, isRun_nil, and_true]
    exact ⟨⟨_, parentMined_step⟩, ⟨_, childOffered_step⟩, reorganised_step⟩
  exact ⟨by decide, pool_indexed_of_run hrun ⟨otherMined.chain, reorganised.1⟩ (by simp)⟩

/-- as long as the block of the parent is connected the child has no parent in the pool -/
theorem no_parents_child : childOffered.pool.txs = [childTx] ∧
      ∀ s ∈ [PoolState.start symParams, parentMined, childOffered], NoParents symEnv s := by
  have hrun : IsRun (fun s t => ∃ m, PoolStep symEnv symParams s m t ∧ Separate symEnv m)
      (.start symParams) [parentMined, childOffered] := by
    simp only [isRun_cons, isRun_nil, and_true]
    exact ⟨⟨_, parentMined_step, by decide⟩, _, childOffered_step, by decide⟩
  exact ⟨by decide, no_parents_of_separate symEnv_injective.tx hrun⟩

end BitCash
