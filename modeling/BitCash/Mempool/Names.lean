import BitCash.Mempool.Acceptance
import BitCash.Ledger.NicknameBook

/-!
# Nicknames in the memory pool

Two nickname inputs of the pool should not register one name, and none should register a name that a connected block
has registered, so that one block can take all nickname transactions of the pool.

* `NameStep`: acceptances and connections
* `KeepsNames`: the condition before a step
* `NamesConsistent`: what it keeps
-/

set_option linter.unusedSectionVars false

namespace BitCash
open Checks Runs CTxMemPool List CTransaction List.Pairwise

variable {H : Type} [Inhabited H] [DecidableEq H]

/-- the second of two nickname inputs may come after the first one: it has another name, and another
address unless the master key signs -/
def MayFollow (env : Env H) (i j : CTxIn H) : Prop :=
  toUpperCopy i.nickname ≠ toUpperCopy j.nickname ∧ (i.address = j.address → signedByMaster env j = true)

instance (env : Env H) (i j : CTxIn H) : Decidable (MayFollow env i j) :=
  inferInstanceAs (Decidable (_ ∧ _))

def CTransaction.nicknames (tx : CTransaction H) : List (CTxIn H) := tx.vin.filter (·.isnickname)

def registered (a : ActiveChain H) : List (CTxIn H) :=
  a.blocks.flatMap fun b => nicknameInputs b.block.vtx

/-- the transactions pass the nickname rules of one block on the chain: those of `CheckBlock`, and
those of `CheckTxInputs` as `CheckInputsAndUpdateCoins` calls it -/
structure Minable (env : Env H) (a : ActiveChain H) (vtx : List (CTransaction H)) : Prop where
  checked : ∀ tx ∈ vtx, ∀ hash, checkTransaction env .empty tx true hash false = .ok ()
  distinct : ∃ s, run (checkDuplicateNick env) ([], []) (nicknameInputs vtx) = .ok s
  inputs : ∀ tx ∈ vtx, ∃ txfee,
    checkTxInputs env ⟨a.nicks, a.view, a.blocks.length + 1, default, false⟩ none tx = .ok txfee

def CTxMemPool.nickTxs (pool : CTxMemPool H) : List (CTransaction H) :=
  pool.txs.filter fun tx => !tx.nicknames.isEmpty

structure NamesConsistent (env : Env H) (s : PoolState H) : Prop where
  distinct : ((nicknameInputs s.pool.txs).map fun i => toUpperCopy i.nickname).Nodup
  unregistered : ∀ i ∈ nicknameInputs s.pool.txs, ∀ j ∈ registered s.chain,
    toUpperCopy i.nickname ≠ toUpperCopy j.nickname
  minable : ∃ vtx, vtx.Perm s.pool.nickTxs ∧ Minable env s.chain vtx

inductive NameStep (env : Env H) (params : Params H) : PoolState H → PoolState H → Prop
  | accept {s : PoolState H} (l : LocalEnv H) (penv : PoolEnv H) (args : AcceptArgs)
      (tx : CTransaction H) :
      NameStep env params s
        ⟨s.chain, (acceptToMemoryPool (env.withLocal l) params penv args s.chain s.pool tx).2⟩
  | connect {s : PoolState H} {a' : ActiveChain H} (l : LocalEnv H) (undoPos : Res Nat)
      (block : CBlock H) (pindex : CBlockIndex H) (htop : OnTop env params s.chain block pindex)
      (h : connectNext (env.withLocal l) params undoPos s.chain block pindex = .ok a') :
      NameStep env params s ⟨a', s.pool.removeForBlock env block.vtx⟩

/-- what keeps the names consistent: a transaction that enters the pool is consistent in itself, and
before a block is connected every transaction of the pool with a nickname that may not follow one of the
block's is, by its id, in the block -/
def KeepsNames (env : Env H) (s s' : PoolState H) : Prop :=
  (∀ tx ∈ s'.pool.txs, tx ∉ s.pool.txs → tx.nicknames.Pairwise (MayFollow env)) ∧
    ∀ b, s'.chain.blocks = b :: s.chain.blocks → ∀ tx ∈ s.pool.txs,
      (∃ i ∈ tx.nicknames, ∃ j ∈ nicknameInputs b.block.vtx, ¬ MayFollow env j i) →
        ∃ t ∈ b.block.vtx, tx.getHash env = t.getHash env

variable {env : Env H} {params : Params H}

/-! ## the rules for nicknames -/

theorem checkDuplicateNick_iff {s t : List Bytes × List CPubKey} {i : CTxIn H} : checkDuplicateNick env s i = .ok t ↔
      toUpperCopy i.nickname ∉ s.1 ∧ (i.address ∈ s.2 → signedByMaster env i) ∧
        t = (s.1 ++ [toUpperCopy i.nickname], s.2 ++ [i.address]) := by
  refine ⟨checkDuplicateNick_ok, ?_⟩
  rintro ⟨hname, haddr, rfl⟩
  simp only [checkDuplicateNick, bind_ok, need_ok, exists_const, pure_ok, and_true]
  refine ⟨by simpa using hname, ?_⟩
  by_cases hmem : i.address ∈ s.2
  · rw [haddr hmem, Bool.or_true]
  · simp [hmem]

theorem checkDuplicateNicks_iff {l : List (CTxIn H)} {s : List Bytes × List CPubKey} :
    (∃ t, run (checkDuplicateNick env) s l = .ok t) ↔
      (∀ i ∈ l, toUpperCopy i.nickname ∉ s.1 ∧ (i.address ∈ s.2 → signedByMaster env i)) ∧
        l.Pairwise (MayFollow env) := by
  induction l generalizing s with
  | nil => simp
  | cons i l ih =>
    simp only [run_cons_ok, checkDuplicateNick_iff]
    rw [forall_mem_cons, pairwise_cons]
    constructor
    · rintro ⟨t, u, ⟨hname, haddr, rfl⟩, ht⟩
      obtain ⟨hrest, hpair⟩ := ih.1 ⟨t, ht⟩
      refine ⟨⟨⟨hname, haddr⟩, fun j hj => ?_⟩, fun j hj => ?_, hpair⟩
      · have h := hrest j hj
        simp only [mem_append, mem_singleton, not_or] at h
        exact ⟨h.1.1, fun ha => h.2 (.inl ha)⟩
      · have h := hrest j hj
        simp only [mem_append, mem_singleton, not_or] at h
        exact ⟨fun heq => h.1.2 heq.symm, fun ha => h.2 (.inr ha.symm)⟩
    · rintro ⟨⟨⟨hname, haddr⟩, hrest⟩, hi, hpair⟩
      have hnext : ∀ j ∈ l, toUpperCopy j.nickname ∉ s.1 ++ [toUpperCopy i.nickname] ∧
          (j.address ∈ s.2 ++ [i.address] → signedByMaster env j = true) := by
        intro j hj
        simp only [mem_append, mem_singleton, not_or]
        refine ⟨⟨(hrest j hj).1, fun heq => (hi j hj).1 heq.symm⟩, ?_⟩
        rintro (ha | ha)
        · exact (hrest j hj).2 ha
        · exact (hi j hj).2 ha.symm
      obtain ⟨t, ht⟩ := (@ih (s.1 ++ [toUpperCopy i.nickname], s.2 ++ [i.address])).2 ⟨hnext, hpair⟩
      exact ⟨t, _, ⟨hname, haddr, rfl⟩, ht⟩

theorem nicknameConflict_iff {i j : CTxIn H} : nicknameConflict env i j = .ok () ↔ MayFollow env j i := by
  simp only [nicknameConflict, bind_ok, need_ok, exists_const, MayFollow, Bool.not_eq_true',
    decide_eq_false_iff_not, Bool.and_eq_false_iff, Bool.not_eq_false']
  rw [eq_comm, @eq_comm _ i.address, ne_eq, imp_iff_not_or]

structure NameForm (env : Env H) (i : CTxIn H) : Prop where
  short : 3 ≤ i.nickname.length
  long : i.nickname.length ≤ 20
  chars : i.nickname.all validCharacter = true
  address : i.address.isValid = true
  signed : (env.verify i.address (nicknameHash env i) i.nicknamesig || signedByMaster env i) = true

variable {nicks : Nicknames H} {i : CTxIn H} {bh : H} {dbl : Bool}

theorem checkNickname_form (h : checkNickname env nicks bh dbl i = .ok ()) : NameForm env i := by
  simp only [checkNickname, bind_ok, need_ok, exists_const, decide_eq_true_eq] at h
  exact ⟨h.1, h.2.1, h.2.2.1, h.2.2.2.2.1, h.2.2.2.2.2.2.2⟩

theorem checkNicknameInput_iff : checkNicknameInput env nicks bh false i = .ok () ↔
      NameForm env i ∧ nicks.doesNicknameExist i.nickname = false ∧
        (0 < (nicks.getNicknameForAddress i.address).length → signedByMaster env i) := by
  simp only [checkNicknameInput, bind_ok, need_ok, exists_const, decide_eq_true_eq, Bool.not_false,
    Bool.true_or, Bool.and_true, Bool.not_eq_true']
  constructor
  · rintro ⟨h3, h20, hc, hex, ha, hnamed, hs⟩
    refine ⟨⟨h3, h20, hc, ha, hs⟩, hex, fun hlen => ?_⟩
    simpa [hlen] using hnamed
  · rintro ⟨⟨h3, h20, hc, ha, hs⟩, hex, hnamed⟩
    refine ⟨h3, h20, hc, hex, ha, ?_, hs⟩
    by_cases hlen : 0 < (nicks.getNicknameForAddress i.address).length
    · simp [hnamed hlen]
    · simp [hlen]

variable {tx : CTransaction H} {ctx : InputContext H} {dup : Bool}

theorem checkTransaction_undoubled (h : checkTransaction env nicks tx true bh true = .ok ()) (hash : H) :
    checkTransaction env .empty tx true hash false = .ok () := by
  simp only [checkTransaction, bind_ok, need_ok, exists_const] at h ⊢
  obtain ⟨hvin, hvout, hsize, t, ht, hdup, u, hcv, hnick⟩ := h
  refine ⟨hvin, hvout, hsize, t, ht, hdup, u, hcv, each_ok.2 fun i hi => ?_⟩
  have hi := each_ok.1 hnick i hi
  simp only [checkNickname, bind_ok, need_ok, exists_const] at hi ⊢
  exact ⟨hi.1, hi.2.1, hi.2.2.1, rfl, hi.2.2.2.2.1, hi.2.2.2.2.2.1, rfl, hi.2.2.2.2.2.2.2⟩

theorem checkTransaction_nameForm (h : checkTransaction env nicks tx dup bh dbl = .ok ())
    (hi : i ∈ tx.nicknames) : NameForm env i := by
  obtain ⟨-, -, -, -, -, -, hnick⟩ := checkTransaction_ok env h
  exact checkNickname_form (each_ok.1 hnick i hi)

theorem nicknameLoop_ok {l : List (CTxIn H)} {s t : InputTotal}
    (hl : ∀ i ∈ l, i.isnickname) : run (checkTxIn env ctx) s l = .ok t ↔
      (∀ i ∈ l, checkNicknameInput env ctx.nicks ctx.blockhash ctx.usehash i = .ok ()) ∧ t = s := by
  induction l with
  | nil =>
    rw [run_nil]
    simp [@eq_comm _ s t]
  | cons i l ih =>
    have hone : ∀ u, checkTxIn env ctx s i = .ok u ↔
        checkNicknameInput env ctx.nicks ctx.blockhash ctx.usehash i = .ok () ∧ u = s := by
      intro u
      rw [checkTxIn, hl i mem_cons_self, if_pos rfl, bind_ok]
      exact ⟨fun ⟨_, hi, hu⟩ => ⟨hi, (Except.ok.inj hu).symm⟩, fun ⟨hi, hu⟩ => ⟨(), hi, hu ▸ rfl⟩⟩
    rw [run_cons_ok, forall_mem_cons]
    constructor
    · rintro ⟨u, hu, ht⟩
      obtain ⟨hi, rfl⟩ := (hone u).1 hu
      obtain ⟨hrest, rfl⟩ := (ih fun j hj => hl j (mem_cons_of_mem i hj)).1 ht
      exact ⟨⟨hi, hrest⟩, rfl⟩
    · rintro ⟨⟨hi, hrest⟩, rfl⟩
      exact ⟨t, (hone t).2 ⟨hi, rfl⟩, (ih fun j hj => hl j (mem_cons_of_mem i hj)).2 ⟨hrest, rfl⟩⟩

theorem checkTxInputs_nick (hnick : tx.isNick) {txfee : Int} : checkTxInputs env ctx none tx = .ok txfee ↔
      (∀ i ∈ tx.vin, checkNicknameInput env ctx.nicks ctx.blockhash ctx.usehash i = .ok ()) ∧
        ∃ valueOut, tx.getValueOut = .ok valueOut ∧ valueOut ≤ 0 ∧ txfee = -valueOut ∧ moneyRange txfee := by
  have hall := all_eq_true.1 hnick
  have hin : ctx.view.haveInputs tx := by
    rw [CCoinsViewCache.haveInputs, Bool.or_eq_true]
    refine .inr (all_eq_true.2 fun i hi => ?_)
    rw [hall i hi, Bool.true_or]
  simp only [checkTxInputs, bind_ok, need_ok, exists_const, pure_ok, hin, true_and,
    nicknameLoop_ok hall, decide_eq_true_eq]
  constructor
  · rintro ⟨_, ⟨hi, rfl⟩, v, hv, hle, fee, hfee, hr, hret⟩
    cases hret
    cases hfee
    exact ⟨hi, v, hv, hle, zero_sub v, hr⟩
  · rintro ⟨hi, v, hv, hle, rfl, hr⟩
    refine ⟨_, ⟨hi, rfl⟩, v, hv, hle, -v, ?_, hr, rfl⟩
    rw [← zero_sub]
    rfl

theorem checkNicknameInput_withLocal (l : LocalEnv H) (nicks : Nicknames H) (bh : H) (usehash : Bool) (i : CTxIn H) :
    checkNicknameInput (env.withLocal l) nicks bh usehash i = checkNicknameInput env nicks bh usehash i :=
  rfl

theorem isNick_of_nicknames (h : checkTransaction env nicks tx dup bh dbl = .ok ()) (hcb : tx.isCoinBase = false)
    (hi : i ∈ tx.nicknames) : tx.isNick := by
  by_contra hno
  obtain ⟨-, -, -, -, -, hvin, -⟩ := checkTransaction_ok env h
  rw [Bool.not_eq_true] at hno
  rw [checkVin, hcb, hno] at hvin
  obtain ⟨hmem, hn⟩ := mem_filter.1 hi
  have hnot := need_ok.1 (each_ok.1 hvin i hmem)
  rw [prevout_of_nickname hmem hn, COutPoint.isNull_iff.2 rfl] at hnot
  cases hnot

/-! ## the book of a chain without disconnections -/

structure BookOf (n : Nicknames H) (R : CTxIn H → Prop) : Prop where
  name : ∀ u, 0 < (n.mapNicknameBook u).pubkey.size ↔ ∃ j, R j ∧ toUpperCopy j.nickname = u
  address : ∀ a, 0 < (n.getNicknameForAddress a).length ↔ ∃ j, R j ∧ j.address = a

theorem BookOf.empty : BookOf (Nicknames.empty : Nicknames H) fun _ => False := by
  refine ⟨fun u => ⟨fun h => absurd h (lt_irrefl 0), ?_⟩, fun a => ⟨fun h => absurd h (lt_irrefl 0), ?_⟩⟩
  · rintro ⟨_, h, -⟩
    exact h.elim
  · rintro ⟨_, h, -⟩
    exact h.elim

variable {n : Nicknames H} {R : CTxIn H → Prop} {vtx : List (CTransaction H)} {pool : CTxMemPool H}

theorem BookOf.addNickname (h : BookOf n R) (hash : H) (hi : NameForm env i) :
    BookOf (addNickname env hash n i) fun j => R j ∨ j = i := by
  constructor
  · intro u
    by_cases hu : u = toUpperCopy i.nickname
    · rw [hu, addNickname_entry]
      exact iff_of_true (of_decide_eq_true hi.address) ⟨i, .inr rfl, rfl⟩
    · have hsame : 0 < ((BitCash.addNickname env hash n i).mapNicknameBook u).pubkey.size ↔
          0 < (n.mapNicknameBook u).pubkey.size := by
        rw [addNickname_other i hu]
        split <;> exact Iff.rfl
      rw [hsame, h.name]
      constructor
      · rintro ⟨j, hj, hju⟩
        exact ⟨j, .inl hj, hju⟩
      · rintro ⟨j, hj | rfl, hju⟩
        · exact ⟨j, hj, hju⟩
        · exact absurd hju.symm hu
  · intro a
    by_cases ha : a = i.address
    · have hname : (BitCash.addNickname env hash n i).getNicknameForAddress a = i.nickname := by
        rw [ha]
        exact addNickname_name i
      rw [hname]
      have hshort := hi.short
      exact iff_of_true (by omega) ⟨i, .inr rfl, ha.symm⟩
    · have hsame : (BitCash.addNickname env hash n i).getNicknameForAddress a =
          n.getNicknameForAddress a := congrArg _ (addNickname_address i ha)
      rw [hsame, h.address]
      constructor
      · rintro ⟨j, hj, hja⟩
        exact ⟨j, .inl hj, hja⟩
      · rintro ⟨j, hj | rfl, hja⟩
        · exact ⟨j, hj, hja⟩
        · exact absurd hja.symm ha

theorem BookOf.congr {S : CTxIn H → Prop} (h : BookOf n R) (hRS : ∀ j, R j ↔ S j) : BookOf n S := by
  have hR : R = S := funext fun j => propext (hRS j)
  rwa [← hR]

theorem BookOf.addNicknames (h : BookOf n R) (hash : H) (hform : ∀ i ∈ nicknameInputs vtx, NameForm env i) :
    BookOf (addNicknames env hash vtx n) fun j => R j ∨ j ∈ nicknameInputs vtx := by
  unfold BitCash.addNicknames
  generalize nicknameInputs vtx = l at hform ⊢
  induction l generalizing n R with
  | nil => exact h.congr fun j => by simp
  | cons i l ih =>
    rw [forall_mem_cons] at hform
    refine (ih (h.addNickname hash hform.1) hform.2).congr fun j => ?_
    rw [mem_cons, or_assoc]

theorem BookOf.checkNicknameInput_iff (h : BookOf n R) (hi : NameForm env i) :
    checkNicknameInput env n bh false i = .ok () ↔ ∀ j, R j → MayFollow env j i := by
  have hname : n.doesNicknameExist i.nickname = false ↔
      ∀ j, R j → toUpperCopy j.nickname ≠ toUpperCopy i.nickname := by
    rw [doesNicknameExist_eq_false_iff hi.chars, h.name]
    exact ⟨fun hno j hj heq => hno ⟨j, hj, heq⟩, fun hall ⟨j, hj, heq⟩ => hall j hj heq⟩
  have haddr : (0 < (n.getNicknameForAddress i.address).length → signedByMaster env i = true) ↔
      ∀ j, R j → j.address = i.address → signedByMaster env i = true := by
    rw [h.address]
    exact ⟨fun hs j hj heq => hs ⟨j, hj, heq⟩, fun hall ⟨j, hj, heq⟩ => hall j hj heq⟩
  rw [BitCash.checkNicknameInput_iff, hname, haddr]
  exact ⟨fun hall j hj => ⟨hall.2.1 j hj, hall.2.2 j hj⟩,
    fun hall => ⟨hi, fun j hj => (hall j hj).1, fun j hj => (hall j hj).2⟩⟩

/-! ## what holds at every point -/

structure PoolNames (env : Env H) (s : PoolState H) : Prop where
  indexed : Indexed env s.pool
  book : BookOf s.chain.nicks (· ∈ registered s.chain)
  checked : ∀ tx ∈ s.pool.txs, ∀ hash, checkTransaction env .empty tx true hash false = .ok ()
  nick : ∀ tx ∈ s.pool.txs, ∀ i ∈ tx.nicknames,
    tx.isNick = true ∧ ∃ ctx txfee, checkTxInputs env ctx none tx = .ok txfee
  order : s.pool.txs.Pairwise fun tx tx' => ∀ i ∈ tx.nicknames, ∀ j ∈ tx'.nicknames, MayFollow env i j

structure Tidy (env : Env H) (s : PoolState H) : Prop where
  own : ∀ tx ∈ s.pool.txs, tx.nicknames.Pairwise (MayFollow env)
  free : ∀ tx ∈ s.pool.txs, ∀ i ∈ tx.nicknames, ∀ j ∈ registered s.chain, MayFollow env j i

theorem mem_nicknameInputs : i ∈ nicknameInputs vtx ↔ ∃ tx ∈ vtx, i ∈ tx.nicknames := mem_flatMap

theorem nicknameInputs_nickTxs (pool : CTxMemPool H) : nicknameInputs pool.nickTxs = nicknameInputs pool.txs := by
  unfold nickTxs nicknameInputs
  induction pool.txs with
  | nil => rfl
  | cons tx txs ih =>
    rw [flatMap_cons, ← ih]
    cases hn : tx.nicknames with
    | nil =>
      have hnone : tx.vin.filter (·.isnickname) = [] := hn
      rw [filter_cons_of_neg (by simp [hn]), hnone, nil_append]
    | cons i l => rw [filter_cons_of_pos (by simp [hn]), flatMap_cons]

variable {s : PoolState H} {l : LocalEnv H} {penv : PoolEnv H} {pool' : CTxMemPool H}

theorem PoolNames.inputs (h : PoolNames env s) (htx : tx ∈ s.pool.nickTxs)
    (hfree : ∀ i ∈ tx.nicknames, ∀ j ∈ registered s.chain, MayFollow env j i) : ∃ txfee, checkTxInputs env
      ⟨s.chain.nicks, s.chain.view, s.chain.blocks.length + 1, default, false⟩ none tx = .ok txfee := by
  obtain ⟨hpool, hsome⟩ := mem_filter.1 htx
  obtain ⟨i₀, hi₀⟩ : ∃ i, i ∈ tx.nicknames := by
    refine exists_mem_of_ne_nil _ fun hnil => ?_
    simp [hnil] at hsome
  obtain ⟨hnick, ctx, fee, hfee⟩ := h.nick tx hpool i₀ hi₀
  obtain ⟨-, hvalue⟩ := (checkTxInputs_nick hnick).1 hfee
  refine ⟨fee, (checkTxInputs_nick hnick).2 ⟨fun i hi => ?_, hvalue⟩⟩
  have hi : i ∈ tx.nicknames := mem_filter.2 ⟨hi, all_eq_true.1 hnick i hi⟩
  exact (h.book.checkNicknameInput_iff (checkTransaction_nameForm (h.checked tx hpool default) hi)).2 (hfree i hi)

theorem PoolNames.consistent (h : PoolNames env s) (ht : Tidy env s) : NamesConsistent env s := by
  have hpair : (nicknameInputs s.pool.txs).Pairwise (MayFollow env) := pairwise_flatMap.2 ⟨ht.own, h.order⟩
  refine ⟨?_, ?_, s.pool.nickTxs, .refl _, ?_, ?_, ?_⟩
  · exact pairwise_map.2 (hpair.imp fun hij => hij.1)
  · intro i hi j hj heq
    obtain ⟨tx, htx, hi⟩ := mem_nicknameInputs.1 hi
    exact (ht.free tx htx i hi j hj).1 heq.symm
  · exact fun tx htx => h.checked tx (mem_filter.1 htx).1
  · rw [nicknameInputs_nickTxs]
    exact checkDuplicateNicks_iff.2 ⟨by simp, hpair⟩
  · exact fun tx htx => h.inputs htx (ht.free tx (mem_filter.1 htx).1)

/-! ## steps -/

theorem txs_sublist (h : pool'.mapTx.Sublist pool.mapTx) : pool'.txs.Sublist pool.txs := h.map _

theorem Admitted.names (hs : PoolNames env s) {entry : CTxMemPoolEntry H} {all : List H}
    (h : Admitted (env.withLocal l) penv s.chain s.pool entry all) :
    (∀ hash, checkTransaction env .empty entry.tx true hash false = .ok ()) ∧ (∀ i ∈ entry.tx.nicknames,
        entry.tx.isNick ∧ ∃ ctx txfee, checkTxInputs env ctx none entry.tx = .ok txfee) ∧
      (∀ i ∈ entry.tx.nicknames, ∀ tx ∈ s.pool.txs, ∀ j ∈ tx.nicknames, MayFollow env j i) ∧
      ∀ i ∈ entry.tx.nicknames, ∀ j ∈ registered s.chain, MayFollow env j i := by
  have hct : checkTransaction env s.chain.nicks entry.tx true default true = .ok () := h.checked
  have hchecked := checkTransaction_undoubled hct
  have hnick : ∀ i ∈ entry.tx.nicknames, entry.tx.isNick = true ∧
      (∀ i ∈ entry.tx.vin, checkNicknameInput env s.chain.nicks default false i = .ok ()) ∧
      ∃ valueOut, entry.tx.getValueOut = .ok valueOut ∧ valueOut ≤ 0 ∧ entry.nFee = -valueOut ∧
        moneyRange entry.nFee = true := by
    intro i hi
    have hisNick := isNick_of_nicknames hct h.notCoinBase hi
    obtain ⟨hinputs, hvalue⟩ := (checkTxInputs_nick hisNick).1 h.fee
    simp only [checkNicknameInput_withLocal] at hinputs
    exact ⟨hisNick, hinputs, hvalue⟩
  refine ⟨hchecked, fun i hi => ?_, fun i hi tx htx j hj => ?_, fun i hi => ?_⟩
  · obtain ⟨hisNick, hinputs, hvalue⟩ := hnick i hi
    exact ⟨hisNick, ⟨s.chain.nicks, s.chain.view, 0, default, false⟩, entry.nFee,
      (checkTxInputs_nick hisNick).2 ⟨hinputs, hvalue⟩⟩
  · obtain ⟨setConflicts, hconf, -⟩ := h.conflicts
    obtain ⟨hmem, hn⟩ := mem_filter.1 hi
    have hcomp := ((findConflicts_ok (hs.indexed.withLocal l) hconf).2 i hmem).2 hn j
      (mem_nicknameInputs.2 ⟨tx, htx, hj⟩)
    exact nicknameConflict_iff.1 hcomp
  · obtain ⟨-, hinputs, -⟩ := hnick i hi
    exact (hs.book.checkNicknameInput_iff (checkTransaction_nameForm (hchecked default) hi)).1
      (hinputs i (mem_filter.1 hi).1)

theorem accept_names {args : AcceptArgs} (hs : PoolNames env s) (tx : CTransaction H)
    (hp : (acceptToMemoryPool (env.withLocal l) params penv args s.chain s.pool tx).2 = pool') :
    PoolNames env ⟨s.chain, pool'⟩ ∧ ∀ tx' ∈ pool'.txs, tx' ∉ s.pool.txs →
      ∀ i ∈ tx'.nicknames, ∀ j ∈ registered s.chain, MayFollow env j i := by
  obtain ⟨hindexed, hsame | ⟨entry, all, rfl, hadm, hsub⟩⟩ :=
    @accept_step _ _ _ env params penv l args s.chain s.pool hs.indexed tx
  · rw [← hp, hsame]
    exact ⟨⟨hs.indexed, hs.book, hs.checked, hs.nick, hs.order⟩, fun tx' h hno => absurd h hno⟩
  · rw [hp] at hindexed hsub
    obtain ⟨hchecked, hnick, horder, hfree⟩ := hadm.names hs
    have htxs : pool'.txs.Sublist (s.pool.txs ++ [entry.tx]) := by
      refine (hsub.map _).trans ?_
      show (((s.pool.removeStaged env all).mapTx ++ [entry]).map _).Sublist _
      rw [map_append]
      exact (txs_sublist (removeStaged_shrinks s.pool all).sublist).append (.refl _)
    have hmem : ∀ tx' ∈ pool'.txs, tx' ∈ s.pool.txs ∨ tx' = entry.tx := by
      intro tx' h
      simpa using htxs.subset h
    refine ⟨⟨hindexed, hs.book, fun tx' h => ?_, fun tx' h => ?_, ?_⟩, fun tx' h hno => ?_⟩
    · rcases hmem tx' h with h | rfl
      · exact hs.checked tx' h
      · exact hchecked
    · rcases hmem tx' h with h | rfl
      · exact hs.nick tx' h
      · exact hnick
    · refine sublist htxs (pairwise_append.2 ⟨hs.order, by simp, ?_⟩)
      intro tx₁ h₁ tx₂ h₂ i hi j hj
      rw [mem_singleton.1 h₂] at hj
      exact horder j hj tx₁ h₁ i hi
    · rw [(hmem tx' h).resolve_left hno]
      exact hfree

theorem connect_names (hs : PoolNames env s) {b : ChainBlock H}
    {c : ConnectLoop H} {a' : ActiveChain H} (hc : Connects (env.withLocal l) params s.chain b c a') :
    PoolNames env ⟨a', s.pool.removeForBlock env b.block.vtx⟩ := by
  have hshrink := @removeForBlock_shrinks _ _ _ env s.pool b.block.vtx
  have htxs := txs_sublist hshrink.sublist
  have hform : ∀ i ∈ nicknameInputs b.block.vtx, NameForm env i := by
    intro i hi
    obtain ⟨tx, htx, hi⟩ := mem_nicknameInputs.1 hi
    have hbody : bodyRules env params b.block = .ok () := (blockRules_ok.1 hc.rules).2.2.2
    exact checkTransaction_nameForm ((bodyRules_ok hbody).2 tx htx) hi
  refine ⟨hshrink.indexed hs.indexed, ?_, fun tx htx => hs.checked tx (htxs.subset htx),
    fun tx htx => hs.nick tx (htxs.subset htx), sublist htxs hs.order⟩
  have hbook := hs.book.addNicknames b.pindex.hash hform
  rw [show a'.nicks = addNicknames env b.pindex.hash b.block.vtx s.chain.nicks from hc.nicks]
  refine hbook.congr fun j => ?_
  rw [registered, registered, hc.blocks, flatMap_cons, mem_append, or_comm]

theorem poolNames_start : PoolNames env (.start params) := by
  refine ⟨.empty, BookOf.empty.congr fun j => ?_, fun tx h => ?_, fun tx h => ?_, .nil⟩
  · simp [registered, PoolState.start, ActiveChain.genesis]
  · cases h
  · cases h

/-- what a connected block leaves in the pool was there before and is not in the block -/
theorem mem_removeForBlock_txs (hs : Indexed env pool) (htx : tx ∈ (pool.removeForBlock env vtx).txs) :
    tx ∈ pool.txs ∧ ∀ t ∈ vtx, tx.getHash env ≠ t.getHash env := by
  refine ⟨(txs_sublist (removeForBlock_shrinks pool vtx).sublist).subset htx, fun t ht => ?_⟩
  obtain ⟨e, he, rfl⟩ := mem_map.1 htx
  exact (removeForBlock_gone hs he ht).1

theorem NameStep.names {s' : PoolState H} (h : NameStep env params s s') (hs : PoolNames env s) (ht : Tidy env s)
    (hk : KeepsNames env s s') : PoolNames env s' ∧ Tidy env s' := by
  cases h with
  | accept l penv args tx =>
    obtain ⟨hnames, hnew⟩ := accept_names hs tx rfl
    refine ⟨hnames, fun tx' h => ?_, fun tx' h => ?_⟩
    · by_cases hold : tx' ∈ s.pool.txs
      · exact ht.own tx' hold
      · exact hk.1 tx' h hold
    · by_cases hold : tx' ∈ s.pool.txs
      · exact ht.free tx' hold
      · exact hnew tx' h hold
  | connect l undoPos block pindex htop h =>
    obtain ⟨c, hc⟩ := connectNext_ok (htop.withLocal l) h
    refine ⟨connect_names hs hc, fun tx htx => ?_, fun tx htx i hi j hj => ?_⟩
    · exact ht.own tx (mem_removeForBlock_txs hs.indexed htx).1
    · obtain ⟨hold, hout⟩ := mem_removeForBlock_txs hs.indexed htx
      rw [registered, hc.blocks, flatMap_cons] at hj
      rcases mem_append.1 hj with hj | hj
      · by_contra hno
        obtain ⟨t, ht, hid⟩ := hk.2 _ hc.blocks tx hold ⟨i, hi, j, hj, hno⟩
        exact hout t ht hid
      · exact ht.free tx hold i hi j hj

/-- **the names of the pool are consistent at every point** of a run, if every transaction that enters is
consistent in itself and every block finds only such names in the pool as may follow its own, or has the
transaction -/
theorem names_consistent {run : List (PoolState H)}
    (h : IsRun (fun s s' => NameStep env params s s' ∧ KeepsNames env s s') (.start params) run) :
    ∀ s ∈ PoolState.start params :: run, NamesConsistent env s := by
  have hstart : Tidy env (.start params) := by
    constructor
    all_goals
      intro tx htx
      cases htx
  intro s hs
  obtain ⟨hnames, htidy⟩ := run_keeps (J := fun s => PoolNames env s ∧ Tidy env s)
    (fun s s' hj hstep => hstep.1.names hj.1 hj.2 hstep.2) h ⟨poolNames_start, hstart⟩ s hs
  exact hnames.consistent htidy

/-! ## one name twice -/

def openPool : PoolEnv Digest where
  time := 1563877000
  prematurewitness := false
  witnessEnabled := true
  fRequireStandard := false
  isStandardTx := fun _ => none
  checkFinalTx := fun _ => true
  checkSequenceLocks := fun _ => true
  haveCoinInCache := fun _ => false
  areInputsStandard := fun _ => true
  isWitnessStandard := fun _ => true
  fEnableReplacement := false
  getTxSize := fun _ => 1
  mapDeltas := fun _ => 0
  minFeeRate := 0
  minRelayTxFee := 0
  incrementalRelayFee := 0
  ancestorLimits := fun _ => true
  promiscuousmempoolflags := none
  expired := fun _ => false
  trimmed := []

def offer (s : PoolState Digest) (tx : CTransaction Digest) : PoolState Digest :=
  ⟨s.chain, (acceptToMemoryPool symEnv symParams openPool ⟨false, 0, false⟩ s.chain s.pool tx).2⟩

def mine (s : PoolState Digest) (n : UInt8) (vtx : List (CTransaction Digest)) : PoolState Digest :=
  ⟨valueOr (extend s.chain n vtx) s.chain,
    s.pool.removeForBlock symEnv (blockOn s.chain halfDollar n vtx).vtx⟩

theorem offer_step (s : PoolState Digest) (tx : CTransaction Digest) :
    NameStep symEnv symParams s (offer s tx) :=
  .accept symEnv.localEnv openPool ⟨false, 0, false⟩ tx

theorem mine_step {s : PoolState Digest} {n : UInt8} {vtx : List (CTransaction Digest)}
    (h : (extend s.chain n vtx).isOk) : NameStep symEnv symParams s (mine s n vtx) :=
  .connect symEnv.localEnv (.ok 0) _ _ (blockOn_onTop rfl s.chain halfDollar n vtx) (eq_valueOr h)

def twoBobs : CTransaction Digest :=
  ⟨6, [registerInput [98, 111, 98] dev1ScriptPubKey false,
    registerInput [66, 111, 98] dev1ScriptPubKey false], [], 0, rfl, .refl true⟩

def bobOffered : PoolState Digest :=
  offer (.start symParams) (registerTx [98, 111, 98] dev1ScriptPubKey)

def bobMined : PoolState Digest := mine bobOffered 1 [registerTx [66, 111, 98] dev1ScriptPubKey]

/-- a transaction that registers one name twice is accepted; and a transaction stays in the pool when a
block with another one registers its name -/
theorem names_inconsistent : (IsRun (NameStep symEnv symParams) (.start symParams)
        [offer (.start symParams) twoBobs] ∧
      (nicknameInputs (offer (.start symParams) twoBobs).pool.txs).map
        (fun i => toUpperCopy i.nickname) = [[66, 79, 66], [66, 79, 66]]) ∧
    (IsRun (NameStep symEnv symParams) (.start symParams) [bobOffered, bobMined] ∧
      (nicknameInputs bobMined.pool.txs).map (fun i => toUpperCopy i.nickname) = [[66, 79, 66]] ∧
      (registered bobMined.chain).map (fun i => toUpperCopy i.nickname) = [[66, 79, 66]]) := by
  refine ⟨⟨?_, by decide⟩, ?_, by decide⟩
  · simp only [isRun_cons, isRun_nil, and_true]
    exact offer_step _ _
  · simp only [isRun_cons, isRun_nil, and_true]
    exact ⟨offer_step _ _, mine_step (by decide)⟩

def annOffered : PoolState Digest := offer bobOffered (registerTx [97, 110, 110] nicknameMasterPubKey)

def bobConfirmed : PoolState Digest := mine annOffered 1 [registerTx [98, 111, 98] dev1ScriptPubKey]

theorem keepsNames_offer {s : PoolState Digest} {tx : CTransaction Digest}
    (h : ∀ tx' ∈ (offer s tx).pool.txs, tx'.nicknames.Pairwise (MayFollow symEnv)) :
    KeepsNames symEnv s (offer s tx) := by
  refine ⟨fun tx' htx' _ => h tx' htx', fun b hb => ?_⟩
  have hlen := congrArg List.length hb
  simp [offer] at hlen

/-- bob and ann are offered, and a block takes bob: ann stays, and the names are consistent throughout -/
theorem names_consistent_bob : bobConfirmed.pool.txs = [registerTx [97, 110, 110] nicknameMasterPubKey] ∧
      ∀ s ∈ [PoolState.start symParams, bobOffered, annOffered, bobConfirmed], NamesConsistent symEnv s := by
  refine ⟨by decide, @names_consistent _ _ _ symEnv symParams _ ?_⟩
  simp only [isRun_cons, isRun_nil, and_true]
  refine ⟨⟨offer_step _ _, keepsNames_offer (by decide)⟩, ⟨offer_step _ _, keepsNames_offer (by decide)⟩,
    mine_step (by decide), ?_, fun b hb => ?_⟩
  · have hown : ∀ tx ∈ bobConfirmed.pool.txs, tx.nicknames.Pairwise (MayFollow symEnv) := by decide
    exact fun tx h _ => hown tx h
  · have hvtx : some b.block.vtx = bobConfirmed.chain.blocks.head?.map (·.block.vtx) := by rw [hb]; rfl
    have hblock : bobConfirmed.chain.blocks.head?.map (·.block.vtx) =
        some (blockOn annOffered.chain halfDollar 1 [registerTx [98, 111, 98] dev1ScriptPubKey]).vtx := by decide
    rw [Option.some.inj (hvtx.trans hblock)]
    decide

end BitCash
