import BitCash.Chain.TipCoins
import BitCash.Lib.Walk
import Mathlib.Data.List.Flatten

/-!
# The memory pool

`CTxMemPool` of `txmempool.cpp`: the entries, the index `mapNextTx` from outpoints to the transactions that spend
them, and the links between parents and children.
-/

set_option linter.unusedSectionVars false

namespace BitCash
open Checks Walk List CTransaction

variable {H : Type} [Inhabited H] [DecidableEq H]

def CTransaction.spent (tx : CTransaction H) : List (COutPoint H) := tx.coinInputs.map (·.prevout)

variable {tx : CTransaction H} {o : COutPoint H}

theorem CTransaction.mem_spent : o ∈ tx.spent ↔ ∃ i ∈ tx.vin, i.isnickname = false ∧ i.prevout = o := by
  simp only [spent, mem_map, mem_coinInputs, and_assoc]

structure CTxMemPoolEntry (H : Type) [Inhabited H] [DecidableEq H] where
  tx : CTransaction H
  nFee : Int
  spendsCoinbase : Bool

structure CTxMemPool (H : Type) [Inhabited H] [DecidableEq H] where
  /-- the oldest first -/
  mapTx : List (CTxMemPoolEntry H)
  mapNextTx : List (COutPoint H × H)
  mapLinks : List (H × H)

/-- what the pool takes from outside: the clock, the options of the node, the policy for standard
transactions, what is expired, and what `TrimToSize` picks -/
structure PoolEnv (H : Type) [Inhabited H] [DecidableEq H] where
  time : Int
  prematurewitness : Bool
  witnessEnabled : Bool
  fRequireStandard : Bool
  isStandardTx : CTransaction H → Option String
  checkFinalTx : CTransaction H → Bool
  checkSequenceLocks : CTransaction H → Bool
  haveCoinInCache : COutPoint H → Bool
  areInputsStandard : CTransaction H → Bool
  isWitnessStandard : CTransaction H → Bool
  fEnableReplacement : Bool
  getTxSize : CTransaction H → Nat
  mapDeltas : H → Int
  minFeeRate : Int
  minRelayTxFee : Int
  incrementalRelayFee : Int
  ancestorLimits : CTransaction H → Bool
  promiscuousmempoolflags : Option (BitVec 32)
  expired : CTxMemPoolEntry H → Bool
  trimmed : List H

def CTxMemPool.empty : CTxMemPool H := ⟨[], [], []⟩

def ActiveChain.view (a : ActiveChain H) : CCoinsViewCache H := .ofBase a.pcoinsTip a.bestBlock

namespace CTxMemPool

def txs (pool : CTxMemPool H) : List (CTransaction H) := pool.mapTx.map (·.tx)

variable (env : Env H)

def find (pool : CTxMemPool H) (hash : H) : Option (CTxMemPoolEntry H) :=
  pool.mapTx.find? fun e => e.tx.getHash env = hash

def has (pool : CTxMemPool H) (hash : H) : Bool := (pool.find env hash).isSome

def nextTx (pool : CTxMemPool H) (o : COutPoint H) : Option H :=
  (pool.mapNextTx.find? fun p => p.1 = o).map (·.2)

def insertNext (hash : H) (next : List (COutPoint H × H)) (i : CTxIn H) : List (COutPoint H × H) :=
  if next.any (fun p => p.1 = i.prevout) then next else next ++ [(i.prevout, hash)]

def addUnchecked (pool : CTxMemPool H) (entry : CTxMemPoolEntry H) : CTxMemPool H :=
  let hash := entry.tx.getHash env
  let setParentTransactions := (entry.tx.vin.map (·.prevout.hash)).dedup
  ⟨pool.mapTx ++ [entry], entry.tx.vin.foldl (insertNext hash) pool.mapNextTx,
    pool.mapLinks ++ (setParentTransactions.filter (pool.has env)).map fun parent => (parent, hash)⟩

def removeStaged (pool : CTxMemPool H) (stage : List H) : CTxMemPool H :=
  let staged (e : CTxMemPoolEntry H) : Bool := stage.contains (e.tx.getHash env)
  let prevouts := (pool.mapTx.filter staged).flatMap fun e => e.tx.vin.map (·.prevout)
  ⟨pool.mapTx.filter fun e => !staged e, pool.mapNextTx.filter fun p => !prevouts.contains p.1,
    pool.mapLinks.filter fun p => !stage.contains p.1 && !stage.contains p.2⟩

def calculateDescendants (pool : CTxMemPool H) (entries : List H) : List H :=
  reached pool.mapLinks entries

def calculateMemPoolAncestors (pool : CTxMemPool H) (tx : CTransaction H) : List H :=
  reached (pool.mapLinks.map Prod.swap) ((tx.vin.map (·.prevout.hash)).filter (pool.has env))

def removeSeeds (pool : CTxMemPool H) (origTx : CTransaction H) : List H :=
  let hash := origTx.getHash env
  if pool.has env hash then [hash]
  else (List.range origTx.vout.length).filterMap fun n => pool.nextTx ⟨hash, UInt32.ofNat n⟩

def removeRecursive (pool : CTxMemPool H) (origTx : CTransaction H) : CTxMemPool H :=
  pool.removeStaged env (pool.calculateDescendants (pool.removeSeeds env origTx))

def removeConflict (tx : CTransaction H) (pool : CTxMemPool H) (i : CTxIn H) : CTxMemPool H :=
  if i.isnickname then pool
  else match (pool.nextTx i.prevout).bind (pool.find env) with
    | none => pool
    | some conflict =>
      if conflict.tx.getHash env = tx.getHash env ∨ conflict.tx.isNick = true then pool
      else pool.removeRecursive env conflict.tx

def removeConflicts (pool : CTxMemPool H) (tx : CTransaction H) : CTxMemPool H :=
  tx.vin.foldl (removeConflict env tx) pool

def removeForTx (pool : CTxMemPool H) (tx : CTransaction H) : CTxMemPool H :=
  removeConflicts env (if pool.has env (tx.getHash env) then pool.removeStaged env [tx.getHash env]
    else pool) tx

def removeForBlock (pool : CTxMemPool H) (vtx : List (CTransaction H)) : CTxMemPool H :=
  vtx.foldl (removeForTx env) pool

def immatureInput (pool : CTxMemPool H) (pcoins : CCoinsViewCache H) (nMemPoolHeight : Nat)
    (i : CTxIn H) : Bool :=
  !pool.has env i.prevout.hash && ((pcoins.accessCoin i.prevout).isSpent ||
    premature nMemPoolHeight (pcoins.accessCoin i.prevout))

def removeForReorg (penv : PoolEnv H) (pcoins : CCoinsViewCache H) (nMemPoolHeight : Nat)
    (pool : CTxMemPool H) : CTxMemPool H :=
  let txToRemove := pool.mapTx.filter fun e =>
    !penv.checkFinalTx e.tx || !penv.checkSequenceLocks e.tx ||
      (e.spendsCoinbase && e.tx.vin.any (pool.immatureInput env pcoins nMemPoolHeight))
  pool.removeStaged env (pool.calculateDescendants (txToRemove.map fun e => e.tx.getHash env))

def expire (penv : PoolEnv H) (pool : CTxMemPool H) : CTxMemPool H :=
  pool.removeStaged env (pool.calculateDescendants
    ((pool.mapTx.filter penv.expired).map fun e => e.tx.getHash env))

def limitMempoolSize (penv : PoolEnv H) (pool : CTxMemPool H) : CTxMemPool H :=
  penv.trimmed.foldl (fun pool hash => pool.removeStaged env (pool.calculateDescendants [hash]))
    (pool.expire env penv)

def updateTransaction (vHashesToUpdate : List H) (pool : CTxMemPool H) (hash : H) : CTxMemPool H :=
  if pool.has env hash then
    let children := ((pool.mapNextTx.filter fun p => p.1.hash = hash).map (·.2)).dedup
    { pool with mapLinks := pool.mapLinks ++
        (children.filter fun child => !vHashesToUpdate.contains child).map fun child => (hash, child) }
  else pool

def updateTransactionsFromBlock (pool : CTxMemPool H) (vHashesToUpdate : List H) : CTxMemPool H :=
  vHashesToUpdate.reverse.foldl (updateTransaction env vHashesToUpdate) pool

end CTxMemPool

open CTxMemPool

variable {env : Env H} {pool pool' : CTxMemPool H} {hash : H}

theorem CTxMemPool.has_iff : pool.has env hash ↔ ∃ e ∈ pool.mapTx, e.tx.getHash env = hash := by
  rw [has, find, find?_isSome]
  simp only [decide_eq_true_eq]

variable {e f : CTxMemPoolEntry H}
  {next : List (COutPoint H × H)} {i : CTxIn H} {p : COutPoint H × H} {l : List (CTxIn H)} {α : Type}

theorem CTxMemPool.find_some (h : pool.find env hash = some e) : e ∈ pool.mapTx ∧ e.tx.getHash env = hash :=
  ⟨mem_of_find?_eq_some h, by simpa using find?_some h⟩

/-! ## the index -/

structure Indexed (env : Env H) (pool : CTxMemPool H) : Prop where
  hashes : (pool.mapTx.map fun e => e.tx.getHash env).Nodup
  spent : (pool.mapTx.flatMap fun e => e.tx.spent).Nodup
  notNull : ∀ e ∈ pool.mapTx, COutPoint.null ∉ e.tx.spent
  listed : ∀ e ∈ pool.mapTx, ∀ o ∈ e.tx.spent, (o, e.tx.getHash env) ∈ pool.mapNextTx
  only : ∀ p ∈ pool.mapNextTx, p.1 ≠ .null →
    ∃ e ∈ pool.mapTx, e.tx.getHash env = p.2 ∧ p.1 ∈ e.tx.spent

theorem Indexed.empty : Indexed env empty :=
  ⟨.nil, .nil, fun _ h => absurd h not_mem_nil, fun _ h => absurd h not_mem_nil, fun _ h => absurd h not_mem_nil⟩

section
variable (h : Indexed env pool)
include h

theorem Indexed.eq_of_hash (he : e ∈ pool.mapTx)
    (hf : f ∈ pool.mapTx) (hh : e.tx.getHash env = f.tx.getHash env) : e = f :=
  inj_on_of_nodup_map h.hashes he hf hh

theorem Indexed.eq_of_spent (he : e ∈ pool.mapTx)
    (hf : f ∈ pool.mapTx) (heo : o ∈ e.tx.spent) (hfo : o ∈ f.tx.spent) : e = f := by
  by_contra hne
  have hpair := (nodup_flatMap.1 h.spent).2
  have : Std.Symm (Function.onFun List.Disjoint fun e : CTxMemPoolEntry H => e.tx.spent) :=
    ⟨fun _ _ hd _ hx hy => hd hy hx⟩
  exact hpair.forall he hf hne heo hfo

theorem Indexed.find_of_mem (he : e ∈ pool.mapTx) : pool.find env (e.tx.getHash env) = some e:= by
  have hhas : pool.has env (e.tx.getHash env) := has_iff.2 ⟨e, he, rfl⟩
  obtain ⟨f, hf⟩ := Option.isSome_iff_exists.1 hhas
  obtain ⟨hmem, hhash⟩ := find_some hf
  rw [hf, h.eq_of_hash hmem he hhash]

theorem Indexed.nextTx_of_spent (he : e ∈ pool.mapTx)
    (ho : o ∈ e.tx.spent) : pool.nextTx o = some (e.tx.getHash env) := by
  have hne : o ≠ .null := fun hnull => h.notNull e he (hnull ▸ ho)
  have hsome : (pool.mapNextTx.find? fun p => p.1 = o).isSome = true :=
    find?_isSome.2 ⟨_, h.listed e he o ho, by simp⟩
  obtain ⟨p, hp⟩ := Option.isSome_iff_exists.1 hsome
  have hpo : p.1 = o := by simpa using find?_some hp
  obtain ⟨f, hf, hhash, hfo⟩ := h.only p (mem_of_find?_eq_some hp) (hpo ▸ hne)
  rw [hpo] at hfo
  rw [nextTx, hp, Option.map_some, ← hhash, h.eq_of_spent hf he hfo ho]

end

/-! ## removals -/

theorem mem_removeStaged {stage : List H} :
    e ∈ (pool.removeStaged env stage).mapTx ↔ e ∈ pool.mapTx ∧ e.tx.getHash env ∉ stage := by
  simp [removeStaged]

structure Shrinks (env : Env H) (pool pool' : CTxMemPool H) : Prop where
  sublist : pool'.mapTx.Sublist pool.mapTx
  indexed : Indexed env pool → Indexed env pool'

theorem Shrinks.refl (env : Env H) (pool : CTxMemPool H) : Shrinks env pool pool := ⟨List.Sublist.refl _, fun h => h⟩

theorem Shrinks.trans {p q r : CTxMemPool H} (h : Shrinks env p q) (h' : Shrinks env q r) : Shrinks env p r :=
  ⟨h'.sublist.trans h.sublist, fun hp => h'.indexed (h.indexed hp)⟩

theorem Shrinks.mem (h : Shrinks env pool pool') (he : e ∈ pool'.mapTx) : e ∈ pool.mapTx := h.sublist.subset he

theorem Shrinks.foldl {f : CTxMemPool H → α → CTxMemPool H}
    (hf : ∀ pool a, Shrinks env pool (f pool a)) (l : List α) (pool : CTxMemPool H) :
    Shrinks env pool (l.foldl f pool) := by
  induction l generalizing pool with
  | nil => exact .refl env pool
  | cons a l ih => exact (hf pool a).trans (ih (f pool a))

theorem removeStaged_shrinks (pool : CTxMemPool H) (stage : List H) :
    Shrinks env pool (pool.removeStaged env stage) := by
  have hsub : (pool.removeStaged env stage).mapTx.Sublist pool.mapTx := filter_sublist
  refine ⟨hsub, fun h => ?_⟩
  refine ⟨(hsub.map _).nodup h.hashes, (hsub.flatMap _).nodup h.spent,
    fun e he => h.notNull e (hsub.subset he), fun e he o ho => ?_, fun p hp hne => ?_⟩
  · -- the outpoint of an entry that stays is not one of an entry that goes
    obtain ⟨hmem, hstay⟩ := mem_removeStaged.1 he
    refine mem_filter.2 ⟨h.listed e hmem o ho, ?_⟩
    simp only [Bool.not_eq_true', contains_eq_mem, decide_eq_false_iff_not, mem_flatMap,
      mem_filter, mem_map, decide_eq_true_eq]
    rintro ⟨f, ⟨hf, hgoes⟩, i, hi, hio⟩
    have hnick : i.isnickname = false := by
      by_contra hn
      rw [Bool.not_eq_false] at hn
      exact h.notNull e hmem ((hio.symm.trans (prevout_of_nickname hi hn)) ▸ ho)
    have hfo : o ∈ f.tx.spent := mem_spent.2 ⟨i, hi, hnick, hio⟩
    exact hstay (h.eq_of_spent hf hmem hfo ho ▸ hgoes)
  · obtain ⟨hp, hkeep⟩ := mem_filter.1 hp
    obtain ⟨e, he, hhash, ho⟩ := h.only p hp hne
    refine ⟨e, mem_removeStaged.2 ⟨he, fun hgoes => ?_⟩, hhash, ho⟩
    simp only [Bool.not_eq_true', contains_eq_mem, decide_eq_false_iff_not, mem_flatMap,
      mem_filter, mem_map, decide_eq_true_eq] at hkeep
    obtain ⟨i, hi, -, hio⟩ := mem_spent.1 ho
    exact hkeep ⟨e, ⟨he, hgoes⟩, i, hi, hio⟩

theorem removeRecursive_shrinks (pool : CTxMemPool H) (tx : CTransaction H) :
    Shrinks env pool (pool.removeRecursive env tx) := removeStaged_shrinks pool _

theorem removeConflict_shrinks (tx : CTransaction H) (pool : CTxMemPool H) (i : CTxIn H) :
    Shrinks env pool (removeConflict env tx pool i) := by
  unfold removeConflict
  split
  · exact .refl env pool
  · split
    · exact .refl env pool
    · split
      · exact .refl env pool
      · exact removeRecursive_shrinks pool _

theorem removeConflicts_shrinks (pool : CTxMemPool H) (tx : CTransaction H) :
    Shrinks env pool (pool.removeConflicts env tx) := .foldl (removeConflict_shrinks tx) tx.vin pool

theorem removeSame_shrinks (pool : CTxMemPool H) (hash : H) :
    Shrinks env pool (if pool.has env hash then pool.removeStaged env [hash] else pool) := by
  split
  · exact removeStaged_shrinks pool _
  · exact .refl env pool

theorem removeForTx_shrinks (pool : CTxMemPool H) (tx : CTransaction H) :
    Shrinks env pool (removeForTx env pool tx) :=
  (removeSame_shrinks pool _).trans (removeConflicts_shrinks _ tx)

theorem removeForBlock_shrinks (pool : CTxMemPool H) (vtx : List (CTransaction H)) :
    Shrinks env pool (pool.removeForBlock env vtx) := .foldl removeForTx_shrinks vtx pool

theorem removeForReorg_shrinks (penv : PoolEnv H) (pcoins : CCoinsViewCache H) (nMemPoolHeight : Nat)
    (pool : CTxMemPool H) : Shrinks env pool (pool.removeForReorg env penv pcoins nMemPoolHeight) :=
  removeStaged_shrinks pool _

theorem limitMempoolSize_shrinks (penv : PoolEnv H) (pool : CTxMemPool H) :
    Shrinks env pool (pool.limitMempoolSize env penv) :=
  (removeStaged_shrinks pool _).trans (.foldl (fun pool _ => removeStaged_shrinks pool _) penv.trimmed _)

theorem updateTransactionsFromBlock_shrinks (pool : CTxMemPool H) (vHashesToUpdate : List H) :
    Shrinks env pool (pool.updateTransactionsFromBlock env vHashesToUpdate) := by
  refine .foldl (fun pool hash => ?_) _ pool
  unfold updateTransaction
  split
  · exact ⟨.refl _, fun h => ⟨h.hashes, h.spent, h.notNull, h.listed, h.only⟩⟩
  · exact .refl env pool

theorem removeRecursive_gone (h : Indexed env pool) (tx : CTransaction H)
    (he : e ∈ (pool.removeRecursive env tx).mapTx) :
    e.tx.getHash env ≠ tx.getHash env ∧ (pool.has env (tx.getHash env) = false →
      ∀ n < tx.vout.length, (⟨tx.getHash env, UInt32.ofNat n⟩ : COutPoint H) ∉ e.tx.spent) := by
  obtain ⟨hmem, hstay⟩ := mem_removeStaged.1 he
  have hseed : e.tx.getHash env ∉ pool.removeSeeds env tx := fun hs => hstay (start_reached hs)
  unfold removeSeeds at hseed
  dsimp only at hseed
  cases hhas : pool.has env (tx.getHash env) with
  | true =>
    rw [hhas, if_pos rfl, mem_singleton] at hseed
    exact ⟨hseed, fun hno => nomatch hno⟩
  | false =>
    rw [hhas] at hseed
    refine ⟨fun heq => ?_, fun _ n hn ho => hseed ?_⟩
    · rw [has_iff.2 ⟨e, hmem, heq⟩] at hhas
      cases hhas
    · exact mem_filterMap.2 ⟨n, mem_range.2 hn, h.nextTx_of_spent hmem ho⟩

theorem removeConflict_gone (h : Indexed env pool)
    (hn : i.isnickname = false) (he : e ∈ (removeConflict env tx pool i).mapTx)
    (ho : i.prevout ∈ e.tx.spent) : e.tx.getHash env = tx.getHash env := by
  have hmem : e ∈ pool.mapTx := (removeConflict_shrinks tx pool i).mem he
  unfold removeConflict at he
  rw [hn, if_neg (by decide), h.nextTx_of_spent hmem ho, Option.bind_some, h.find_of_mem hmem] at he
  by_contra hne
  have hcoin : e.tx.isNick ≠ true := fun hnick => by
    obtain ⟨j, hj, hjn, -⟩ := mem_spent.1 ho
    rw [all_eq_true.1 hnick j hj] at hjn
    cases hjn
  dsimp only at he
  rw [if_neg (not_or.2 ⟨hne, hcoin⟩)] at he
  exact (removeRecursive_gone h e.tx he).1 rfl

theorem foldl_gone {f : CTxMemPool H → α → CTxMemPool H}
    (hf : ∀ pool a, Shrinks env pool (f pool a)) {l : List α} {a : α} (ha : a ∈ l)
    (h : Indexed env pool) (he : e ∈ (l.foldl f pool).mapTx) : ∃ pool', Indexed env pool' ∧ e ∈ (f pool' a).mapTx := by
  induction l generalizing pool with
  | nil => exact absurd ha not_mem_nil
  | cons b l ih =>
    rcases mem_cons.1 ha with rfl | ha
    · exact ⟨pool, h, (Shrinks.foldl hf l _).mem he⟩
    · exact ih ha ((hf pool b).indexed h) he

theorem removeForTx_gone (h : Indexed env pool) (he : e ∈ (removeForTx env pool tx).mapTx) :
    e.tx.getHash env ≠ tx.getHash env ∧ ∀ o ∈ tx.spent, o ∉ e.tx.spent := by
  have hsame : e.tx.getHash env ≠ tx.getHash env := by
    have hmem := (removeConflicts_shrinks _ tx).mem he
    intro heq
    split at hmem
    · exact (mem_removeStaged.1 hmem).2 (mem_singleton.2 heq)
    · next hno => exact hno (has_iff.2 ⟨e, hmem, heq⟩)
  refine ⟨hsame, fun o ho heo => hsame ?_⟩
  obtain ⟨i, hi, hn, rfl⟩ := mem_spent.1 ho
  obtain ⟨pool', h', he'⟩ := foldl_gone (removeConflict_shrinks tx) hi ((removeSame_shrinks pool _).indexed h) he
  exact removeConflict_gone h' hn he' heo

theorem removeForBlock_gone (h : Indexed env pool) {vtx : List (CTransaction H)}
    (he : e ∈ (pool.removeForBlock env vtx).mapTx) (htx : tx ∈ vtx) :
    e.tx.getHash env ≠ tx.getHash env ∧ ∀ o ∈ tx.spent, o ∉ e.tx.spent := by
  obtain ⟨pool', h', he'⟩ := foldl_gone removeForTx_shrinks htx h he
  exact removeForTx_gone h' he'

/-! ## a new entry -/

theorem mem_insertNext (hp : p ∈ insertNext hash next i) : p ∈ next ∨ p = (i.prevout, hash) := by
  unfold insertNext at hp
  split at hp
  · exact .inl hp
  · simpa using hp

theorem subset_insertNext (hash : H) (next : List (COutPoint H × H)) (i : CTxIn H) :
    next ⊆ insertNext hash next i := by
  unfold insertNext
  split
  · exact List.Subset.refl _
  · exact subset_append_left _ _

theorem mem_foldl_insertNext (hp : p ∈ l.foldl (insertNext hash) next) : p ∈ next ∨ ∃ i ∈ l, p = (i.prevout, hash) := by
  induction l generalizing next with
  | nil => exact .inl hp
  | cons i l ih =>
    rcases ih hp with h | ⟨j, hj, h⟩
    · rcases mem_insertNext h with h | h
      · exact .inl h
      · exact .inr ⟨i, mem_cons_self, h⟩
    · exact .inr ⟨j, mem_cons_of_mem _ hj, h⟩

theorem subset_foldl_insertNext (hash : H) (l : List (CTxIn H)) (next : List (COutPoint H × H)) :
    next ⊆ l.foldl (insertNext hash) next := by
  induction l generalizing next with
  | nil => exact List.Subset.refl _
  | cons i l ih => exact List.Subset.trans (subset_insertNext hash next i) (ih _)

theorem foldl_insertNext_mem (hi : i ∈ l) (hfree : ∀ p ∈ next, p.1 ≠ i.prevout) :
    (i.prevout, hash) ∈ l.foldl (insertNext hash) next := by
  induction l generalizing next with
  | nil => exact absurd hi not_mem_nil
  | cons j l ih =>
    by_cases hj : j.prevout = i.prevout
    · have hnone : next.any (fun p => p.1 = j.prevout) = false := by
        simp only [any_eq_false, decide_eq_true_eq]
        exact fun p hp => hj ▸ hfree p hp
      refine subset_foldl_insertNext hash l _ ?_
      rw [insertNext, hnone, hj]
      simp
    · have hil : i ∈ l := (mem_cons.1 hi).resolve_left fun h => hj (h ▸ rfl)
      refine ih hil fun p hp => ?_
      rcases mem_insertNext hp with hp | rfl
      · exact hfree p hp
      · exact hj

theorem Indexed.addUnchecked (h : Indexed env pool) {entry : CTxMemPoolEntry H}
    (hnew : ∀ e ∈ pool.mapTx, e.tx.getHash env ≠ entry.tx.getHash env)
    (hnodup : entry.tx.spent.Nodup) (hnull : COutPoint.null ∉ entry.tx.spent)
    (hfree : ∀ e ∈ pool.mapTx, ∀ o ∈ entry.tx.spent, o ∉ e.tx.spent) : Indexed env (pool.addUnchecked env entry) := by
  refine ⟨?_, ?_, ?_, ?_, ?_⟩
  · show ((pool.mapTx ++ [entry]).map _).Nodup
    rw [map_append, map_cons, map_nil]
    refine h.hashes.append (by simp) fun x hx hx' => ?_
    obtain ⟨e, he, rfl⟩ := mem_map.1 hx
    exact hnew e he (mem_singleton.1 hx')
  · show ((pool.mapTx ++ [entry]).flatMap _).Nodup
    rw [flatMap_append, flatMap_cons, flatMap_nil, append_nil]
    refine h.spent.append hnodup fun o ho ho' => ?_
    obtain ⟨e, he, heo⟩ := mem_flatMap.1 ho
    exact hfree e he o ho' heo
  · intro e he
    rcases mem_append.1 he with he | he
    · exact h.notNull e he
    · rw [mem_singleton.1 he]
      exact hnull
  · intro e he o ho
    rcases mem_append.1 he with he | he
    · exact subset_foldl_insertNext _ _ _ (h.listed e he o ho)
    · rw [mem_singleton.1 he] at ho ⊢
      obtain ⟨i, hi, -, rfl⟩ := mem_spent.1 ho
      refine foldl_insertNext_mem hi fun p hp hpo => ?_
      have hne : p.1 ≠ .null := fun hp0 => hnull (hpo.symm.trans hp0 ▸ ho)
      obtain ⟨f, hf, -, hfo⟩ := h.only p hp hne
      exact hfree f hf i.prevout ho (hpo ▸ hfo)
  · intro p hp hne
    rcases mem_foldl_insertNext hp with hp | ⟨i, hi, rfl⟩
    · obtain ⟨e, he, hhash, ho⟩ := h.only p hp hne
      exact ⟨e, mem_append_left _ he, hhash, ho⟩
    · refine ⟨entry, mem_append_right _ mem_cons_self, rfl, ?_⟩
      refine mem_spent.2 ⟨i, hi, ?_, rfl⟩
      by_contra hn
      rw [Bool.not_eq_false] at hn
      exact hne (prevout_of_nickname hi hn)

end BitCash
