import BitCash.Chain.TipCoins
import BitCash.Ledger.Commitment

/-!
# The script execution cache

`CheckInputs` remembers under the witness hash and the flags that all scripts of a transaction were valid, and
returns at once when it finds the entry again.

* `CacheState`: the cache, with the check that inserted each entry
* `ChangedScriptsValid`: the scripts whose amounts have changed are valid
-/

namespace BitCash
open Checks Runs List CCoinsViewCache Except CTransaction Digest.Code Digest

variable {H : Type} [Inhabited H] [DecidableEq H]

abbrev ScriptCache (H : Type) := List (H × BitVec 32)

def Env.caching (env : Env H) (cache : ScriptCache H) (pvChecks : Bool) : Env H :=
  env.withLocal { env.localEnv with
    scriptCached := fun tx flags => cache.contains (tx.getWitnessHash env, flags)
    scriptThreads := pvChecks }

def checkInputsStore (env : Env H) (cache : ScriptCache H) (view : CCoinsViewCache H)
    (tx : CTransaction H) (fScriptChecks : Bool) (flags : BitVec 32)
    (cacheFullScriptStore pvChecks : Bool) : Res Bool × ScriptCache H :=
  match checkInputs (env.caching cache pvChecks) view tx fScriptChecks flags with
  | .error e => (.error e, cache)
  | .ok valid =>
    (.ok valid,
      if tx.isCoinBase || !fScriptChecks || cache.contains (tx.getWitnessHash env, flags) ||
          !cacheFullScriptStore || pvChecks then cache
      else (tx.getWitnessHash env, flags) :: cache)

inductive ViewOn (env : Env H) (a : ActiveChain H) : CCoinsViewCache H → Prop
  | tip : ViewOn env a (.ofBase a.pcoinsTip a.bestBlock)
  | update {v w : CCoinsViewCache H} {tx : CTransaction H} {undo : List Coin} {nicks : Nicknames H}
      {dup dbl : Bool} {bh : H} (hv : ViewOn env a v)
      (hct : checkTransaction env nicks tx dup bh dbl = .ok ())
      (hup : updateCoins env tx v (a.blocks.length + 1) = .ok (w, undo)) : ViewOn env a w

/-- the node, with the check that made each entry of the cache: its transaction and its view -/
structure CacheState (H : Type) [Inhabited H] [DecidableEq H] where
  chain : ActiveChain H
  cache : ScriptCache H
  inserted : H × BitVec 32 → Option (CTransaction H × CCoinsViewCache H)

def CacheState.start (params : Params H) : CacheState H := ⟨.genesis params, [], fun _ => none⟩

def CacheState.check (env : Env H) (s : CacheState H) (view : CCoinsViewCache H) (tx : CTransaction H)
    (fScriptChecks : Bool) (flags : BitVec 32) (cacheFullScriptStore pvChecks : Bool) : CacheState H :=
  let cache := (checkInputsStore env s.cache view tx fScriptChecks flags cacheFullScriptStore pvChecks).2
  ⟨s.chain, cache, if cache.length = s.cache.length then s.inserted
    else Function.update s.inserted (tx.getWitnessHash env, flags) (some (tx, view))⟩

inductive CacheStep (env : Env H) (params : Params H) : CacheState H → CacheState H → Prop
  | chain {s : CacheState H} {a' : ActiveChain H} (h : ChainStep env params s.chain a') :
      CacheStep env params s { s with chain := a' }
  | check {s : CacheState H} {view : CCoinsViewCache H} (hview : ViewOn env s.chain view)
      (tx : CTransaction H) (fScriptChecks : Bool) (flags : BitVec 32)
      (cacheFullScriptStore pvChecks : Bool) :
      CacheStep env params s (s.check env view tx fScriptChecks flags cacheFullScriptStore pvChecks)
  | evict {s : CacheState H} {cache : ScriptCache H} (h : cache ⊆ s.cache) :
      CacheStep env params s { s with cache := cache }

variable {env : Env H} {params : Params H}
  {view : CCoinsViewCache H} {flags : BitVec 32} {tx : CTransaction H} {p : CTxIn H × Nat}

/-! ## a full check -/

def FullPass (env : Env H) (view : CCoinsViewCache H) (tx : CTransaction H) (flags : BitVec 32) : Prop :=
  ∃ k, ∀ p ∈ tx.vin.zipIdx, p.1.isnickname = false →
    (view.accessCoin p.1.prevout).isSpent = false ∧
    (view.accessCoin p.1.prevout).spendCurrency = k ∧
    env.scriptCheck (view.accessCoin p.1.prevout).scriptPubKey (view.accessCoin p.1.prevout).nValue
      tx p.2 flags = true

theorem checkInputScript_nick (hn : p.1.isnickname) (s : Option UInt8 × Bool) :
    checkInputScript env view tx flags s p = .ok s := by
  unfold checkInputScript
  rw [if_pos hn]

theorem checkInputScript_coin (hn : p.1.isnickname = false) {s t : Option UInt8 × Bool} :
    (checkInputScript env view tx flags s p = .ok t ∧ t.2) ↔ (view.accessCoin p.1.prevout).isSpent = false ∧
      s.1.getD (view.accessCoin p.1.prevout).spendCurrency = (view.accessCoin p.1.prevout).spendCurrency ∧
      env.scriptCheck (view.accessCoin p.1.prevout).scriptPubKey (view.accessCoin p.1.prevout).nValue tx p.2 flags ∧
      s.2 ∧ t = (some (view.accessCoin p.1.prevout).spendCurrency, true) := by
  unfold checkInputScript
  rw [hn]
  simp only [Bool.false_eq_true, if_false, bind_ok, need_ok, exists_const, Bool.not_eq_true',
    beq_iff_eq, pure_ok, ok.injEq]
  constructor
  · rintro ⟨⟨hspent, hcur, -, -, rfl⟩, hvalid⟩
    obtain ⟨hs, hcheck⟩ := Bool.and_eq_true_iff.1 hvalid
    refine ⟨hspent, hcur, hcheck, hs, ?_⟩
    rw [hcur, hs, hcheck]
    rfl
  · rintro ⟨hspent, hcur, hcheck, hs, rfl⟩
    refine ⟨⟨hspent, hcur, ?_, ?_, ?_⟩, rfl⟩
    · simp [hcheck]
    · simp [hcheck]
    · rw [hcur, hs, hcheck]
      rfl

theorem scriptLoop_iff {view : CCoinsViewCache H} {tx : CTransaction H} {flags : BitVec 32}
    {l : List (CTxIn H × Nat)} {s : Option UInt8 × Bool} :
    (∃ c, run (checkInputScript env view tx flags) s l = .ok (c, true)) ↔
      s.2 ∧ ∃ k, (∀ c, s.1 = some c → c = k) ∧ ∀ p ∈ l, p.1.isnickname = false →
        (view.accessCoin p.1.prevout).isSpent = false ∧ (view.accessCoin p.1.prevout).spendCurrency = k ∧
        env.scriptCheck (view.accessCoin p.1.prevout).scriptPubKey
          (view.accessCoin p.1.prevout).nValue tx p.2 flags := by
  induction l generalizing s with
  | nil =>
    constructor
    · rintro ⟨c, h⟩
      cases h
      refine ⟨rfl, c.getD 0, ?_, fun p hp => nomatch hp⟩
      intro d hd
      have hcd : c = some d := hd
      rw [hcd]
      rfl
    · rintro ⟨hs, -⟩
      exact ⟨s.1, by rw [← hs]; rfl⟩
  | cons p l ih =>
    simp only [run_cons_ok, forall_mem_cons]
    cases hn : p.1.isnickname with
    | true =>
      have hstep : ∀ t, checkInputScript env view tx flags s p = .ok t ↔ t = s := by
        intro t
        rw [checkInputScript_nick hn, ok.injEq]
        exact eq_comm
      simp only [hstep, exists_eq_left, Bool.true_eq_false, false_implies, true_and]
      exact ih
    | false =>
      simp only [forall_const]
      constructor
      · rintro ⟨c, t, ht, hl⟩
        obtain ⟨ht2, k, hk, hall⟩ := ih.1 ⟨c, hl⟩
        obtain ⟨hspent, hcur, hcheck, hs, rfl⟩ := (checkInputScript_coin hn).1 ⟨ht, ht2⟩
        have hkp := hk _ rfl
        refine ⟨hs, k, ?_, ⟨hspent, hkp, hcheck⟩, hall⟩
        intro d hd
        rw [hd, Option.getD_some] at hcur
        rw [hcur, hkp]
      · rintro ⟨hs, k, hk, ⟨hspent, hkp, hcheck⟩, hall⟩
        have hcur : s.1.getD (view.accessCoin p.1.prevout).spendCurrency =
            (view.accessCoin p.1.prevout).spendCurrency := by
          cases hs1 : s.1 with
          | none => rfl
          | some d => rw [Option.getD_some, hk d hs1, hkp]
        have hstep := (checkInputScript_coin hn).2 ⟨hspent, hcur, hcheck, hs, rfl⟩
        have hrest := (ih (s := (some (view.accessCoin p.1.prevout).spendCurrency, true))).2
          ⟨rfl, k, fun d hd => by rw [← hkp]; exact (Option.some.inj hd).symm, hall⟩
        obtain ⟨c, hc⟩ := hrest
        exact ⟨c, _, hstep.1, hc⟩

theorem checkInputs_full_iff {view : CCoinsViewCache H} {tx : CTransaction H} {flags : BitVec 32}
    (hcb : tx.isCoinBase = false) (hmiss : env.scriptCached tx flags = false) :
    checkInputs env view tx true flags = .ok true ↔ FullPass env view tx flags := by
  have hloop := @scriptLoop_iff _ _ _ env view tx flags tx.vin.zipIdx (none, true)
  unfold checkInputs
  rw [hcb, hmiss]
  simp only [Bool.not_true, Bool.or_false, Bool.false_eq_true, if_false, bind_ok, ok.injEq]
  unfold FullPass
  constructor
  · rintro ⟨⟨c, b⟩, hrun, rfl⟩
    obtain ⟨-, k, -, hall⟩ := hloop.1 ⟨c, hrun⟩
    exact ⟨k, hall⟩
  · rintro ⟨k, hall⟩
    obtain ⟨c, hrun⟩ := hloop.2 ⟨rfl, k, (fun c hc => nomatch hc), hall⟩
    exact ⟨_, hrun, rfl⟩

theorem checkInputs_inline {b : Bool} (hinline : env.scriptThreads = false)
    (h : checkInputs env view tx true flags = .ok b) : b := by
  unfold checkInputs at h
  split at h
  · cases h
    rfl
  · obtain ⟨s, hs, hret⟩ := bind_ok.1 h
    cases hret
    refine run_inv (fun t : Option UInt8 × Bool => t.2 = true) ?_ rfl hs
    intro t p t' _ ht hstep
    unfold checkInputScript at hstep
    split at hstep
    · cases hstep
      exact ht
    · simp only [bind_ok, need_ok, exists_const, pure_ok, hinline, Bool.false_or] at hstep
      obtain ⟨-, -, -, hcheck, hret⟩ := hstep
      cases hret
      rw [ht, hcheck]
      rfl

/-! ## what the witness hash fixes -/

structure Env.InjectiveIds (env : Env H) : Prop where
  tx : Function.Injective env.hashTx
  witness : ∀ p w q x, env.hashWitnessTx p w = env.hashWitnessTx q x → p = q ∧ w = x
  tx_ne_witness : ∀ p q w, env.hashTx p ≠ env.hashWitnessTx q w

theorem sameIds_of_witnessHash (hinj : env.InjectiveIds) {a b : CTransaction H}
    (h : a.getWitnessHash env = b.getWitnessHash env) : a.SameIds env b := by
  refine sameIds_of_hash hinj.tx ?_
  unfold getWitnessHash at h
  split at h
  · split at h
    · exact congrArg env.hashTx (hinj.witness _ _ _ _ h).1
    · exact absurd h.symm (hinj.tx_ne_witness _ _ _)
  · split at h
    · exact absurd h (hinj.tx_ne_witness _ _ _)
    · exact h

theorem RootedAt.unique (hinj : Function.Injective env.hashTx) {o : COutPoint H} {c d : Coin}
    (hc : RootedAt env o c) (hd : RootedAt env o d) :
    c.scriptPubKey = d.scriptPubKey ∧ c.spendCurrency = d.spendCurrency := by
  obtain ⟨tx, n, out, hn, hlen, rfl, hs, hcur, hcb, -⟩ := hc
  obtain ⟨ty, m, out', hm, hlen', ho, hs', hcur', hcb', -⟩ := hd
  obtain ⟨hhash, hidx⟩ := COutPoint.mk.inj ho
  have hids := sameIds_of_hash hinj hhash
  have hnm : n = m := by
    have h1 := (List.getElem?_eq_some_iff.1 hn).1
    have h2 := (List.getElem?_eq_some_iff.1 hm).1
    have hmod := congrArg UInt32.toNat hidx
    rw [UInt32.toNat_ofNat', UInt32.toNat_ofNat', Nat.mod_eq_of_lt (by omega), Nat.mod_eq_of_lt (by omega)] at hmod
    exact hmod
  subst hnm
  have hout : out.scriptPubKey = out'.scriptPubKey ∧ out.currency = out'.currency := by
    have hrel := forall₂_iff_get.1 hids.vout
    obtain ⟨h1, e1⟩ := List.getElem?_eq_some_iff.1 hn
    obtain ⟨h2, e2⟩ := List.getElem?_eq_some_iff.1 hm
    have := hrel.2 n h1 h2
    simp only [get_eq_getElem, e1, e2] at this
    exact ⟨this.1, this.2.1⟩
  refine ⟨by rw [hs, hs', hout.1], ?_⟩
  unfold Coin.spendCurrency
  rw [hcb, hcb', hids.isCoinBase, hcur, hcur', hout.2]

theorem ViewOn.rooted {a : ActiveChain H} (ha : RootedChain env a) {v : CCoinsViewCache H}
    (h : ViewOn env a v) : RootedView env v := by
  induction h with
  | tip => exact .ofBase ha.coins a.bestBlock
  | update _ hct hup ih => exact updateCoins_rooted ih (vout_length_lt hct) (by omega) hup

/-! ## the cache -/

def CheckedBefore (env : Env H) (key : H × BitVec 32) (tx : CTransaction H)
    (view : CCoinsViewCache H) : Prop :=
  tx.getWitnessHash env = key.1 ∧ RootedView env view ∧ FullPass env view tx key.2

structure SoundCache (env : Env H) (s : CacheState H) : Prop where
  chain : RootedChain env s.chain
  cache : ∀ key ∈ s.cache, ∃ tx view, s.inserted key = some (tx, view) ∧ CheckedBefore env key tx view

theorem SoundCache.step {s t : CacheState H} (hs : SoundCache env s) (h : CacheStep env params s t) :
    SoundCache env t := by
  cases h with
  | chain h => exact ⟨hs.chain.step h, hs.cache⟩
  | evict h => exact ⟨hs.chain, fun key hkey => hs.cache key (h hkey)⟩
  | @check view hview tx fScriptChecks flags store pvChecks =>
    refine ⟨hs.chain, fun key hkey => ?_⟩
    unfold CacheState.check checkInputsStore at hkey ⊢
    cases hc : checkInputs (env.caching s.cache pvChecks) view tx fScriptChecks flags with
    | error e =>
      rw [hc] at hkey
      simp only [if_true]
      exact hs.cache key hkey
    | ok valid =>
      simp only [hc] at hkey ⊢
      split at hkey
      · next hkept =>
        simp only [hkept, if_true]
        exact hs.cache key hkey
      · rename_i hstore
        have hlen : ((tx.getWitnessHash env, flags) :: s.cache).length ≠ s.cache.length := by simp
        simp only [hstore, if_false, hlen, Bool.false_eq_true]
        simp only [Bool.or_eq_true, not_or, Bool.not_eq_true, Bool.not_eq_false'] at hstore
        obtain ⟨⟨⟨⟨hcb, hchecks⟩, hmiss⟩, -⟩, hpv⟩ := hstore
        rcases mem_cons.1 hkey with rfl | hkey
        · rw [hchecks, hpv] at hc
          have hvalid : valid := checkInputs_inline rfl hc
          rw [hvalid] at hc
          have hfull : FullPass (env.caching s.cache false) view tx flags := (checkInputs_full_iff hcb hmiss).1 hc
          exact ⟨tx, view, Function.update_self .., rfl, hview.rooted hs.chain, hfull⟩
        · -- an entry that was there keeps its check: the new one was not
          have hne : key ≠ (tx.getWitnessHash env, flags) := by
            rintro rfl
            rw [contains_iff_mem.2 hkey] at hmiss
            cases hmiss
          rw [Function.update_of_ne hne]
          exact hs.cache key hkey

theorem sound_of_run {run : List (CacheState H)} (h : IsRun (CacheStep env params) (.start params) run) :
    ∀ s ∈ CacheState.start params :: run, SoundCache env s :=
  run_keeps (fun _ _ hs hstep => hs.step hstep) h ⟨rootedChain_genesis, fun _ hkey => absurd hkey not_mem_nil⟩

/-- the scripts of the transaction that are not those of the first check, with their amounts, are
valid now -/
def ChangedScriptsValid (env : Env H) (view view₀ : CCoinsViewCache H) (tx tx₀ : CTransaction H)
    (flags : BitVec 32) : Prop :=
  ∀ p ∈ tx.vin.zipIdx, p.1.isnickname = false →
    (tx ≠ tx₀ ∨ (view.accessCoin p.1.prevout).nValue ≠ (view₀.accessCoin p.1.prevout).nValue) →
    env.scriptCheck (view.accessCoin p.1.prevout).scriptPubKey (view.accessCoin p.1.prevout).nValue
      tx p.2 flags = true

theorem zipIdx_of_sameIds {a b : CTransaction H} (h : a.SameIds env b) {p : CTxIn H × Nat}
    (hp : p ∈ a.vin.zipIdx) : ∃ q ∈ b.vin.zipIdx, q.1.isnickname = p.1.isnickname ∧
      q.1.prevout = p.1.prevout ∧ q.2 = p.2 := by
  obtain ⟨i, n⟩ := p
  have hrel := forall₂_iff_get.1 h.vin
  obtain ⟨hn, hi⟩ := List.getElem?_eq_some_iff.1 (mem_zipIdx_iff_getElem?.1 hp)
  have hn' : n < b.vin.length := hrel.1 ▸ hn
  have hij := hrel.2 n hn hn'
  simp only [get_eq_getElem, hi] at hij
  exact ⟨(b.vin[n], n), mem_zipIdx_iff_getElem?.2 (getElem?_eq_getElem hn'), hij.1.symm, hij.2.symm, rfl⟩

theorem fullPass_iff_changed (hinj : env.InjectiveIds) {view₀ : CCoinsViewCache H}
    {tx₀ : CTransaction H} (hview : RootedView env view)
    (havail : view.haveInputs tx) (hcb : tx.isCoinBase = false)
    (hbefore : CheckedBefore env (tx.getWitnessHash env, flags) tx₀ view₀) :
    FullPass env view tx flags ↔ ChangedScriptsValid env view view₀ tx tx₀ flags := by
  obtain ⟨hhash, hview₀, k, hpass₀⟩ := hbefore
  have hids := sameIds_of_witnessHash hinj hhash
  constructor
  · rintro ⟨_, hpass⟩ p hp hn _
    exact (hpass p hp hn).2.2
  · intro hchanged
    refine ⟨k, fun p hp hn => ?_⟩
    have hmem : p.1 ∈ tx.vin := fst_mem_of_mem_zipIdx hp
    have hhave : view.haveCoin p.1.prevout := by
      unfold haveInputs at havail
      rw [hcb, Bool.false_or, all_eq_true] at havail
      have := havail p.1 hmem
      rwa [hn, Bool.false_or] at this
    obtain ⟨q, hq, hqn, hqo, hqi⟩ := @zipIdx_of_sameIds _ _ _ env tx tx₀ (sameIds_of_witnessHash hinj hhash.symm) p hp
    obtain ⟨hspent₀, hcur₀, hcheck₀⟩ := hpass₀ q hq (hqn.trans hn)
    rw [hqo] at hspent₀ hcur₀ hcheck₀
    have hhave₀ : view₀.haveCoin p.1.prevout := haveCoin_iff.2 hspent₀
    obtain ⟨hscript, hcur⟩ := (hview.access hhave).unique hinj.tx (hview₀.access hhave₀)
    refine ⟨haveCoin_iff.1 hhave, hcur.trans hcur₀, ?_⟩
    by_cases hsame : tx = tx₀ ∧ (view.accessCoin p.1.prevout).nValue = (view₀.accessCoin p.1.prevout).nValue
    · rw [hscript, hsame.2, hsame.1, ← hqi]
      exact hcheck₀
    · refine hchanged p hp hn ?_
      by_contra hno
      rw [not_or, not_not, not_not] at hno
      exact hsame hno

/-- **the script cache is transparent** up to the amounts: on a hit, `CheckInputs` returns what a full
check returns exactly when the scripts of the inputs whose amounts are not those of the check that made
the entry are valid at the new amounts -/
theorem cache_transparent_iff (hinj : env.InjectiveIds) {run : List (CacheState H)}
    (hrun : IsRun (CacheStep env params) (.start params) run) {s : CacheState H}
    (hs : s ∈ CacheState.start params :: run) {view : CCoinsViewCache H}
    (hview : ViewOn env s.chain view) {tx : CTransaction H} {flags : BitVec 32}
    (hcb : tx.isCoinBase = false) (havail : view.haveInputs tx = true)
    (hit : (tx.getWitnessHash env, flags) ∈ s.cache) (pvChecks : Bool) :
    ∃ tx₀ view₀, s.inserted (tx.getWitnessHash env, flags) = some (tx₀, view₀) ∧
      (checkInputs (env.caching s.cache pvChecks) view tx true flags =
          checkInputs (env.caching [] pvChecks) view tx true flags ↔
        ChangedScriptsValid env view view₀ tx tx₀ flags) := by
  have hsound := sound_of_run hrun s hs
  obtain ⟨tx₀, view₀, hmade, hbefore⟩ := hsound.cache _ hit
  refine ⟨tx₀, view₀, hmade, ?_⟩
  have hhit : checkInputs (env.caching s.cache pvChecks) view tx true flags = .ok true := by
    unfold checkInputs
    have hcached : (env.caching s.cache pvChecks).scriptCached tx flags = true := List.contains_iff_mem.2 hit
    rw [hcached, Bool.or_true, if_pos rfl]
  rw [hhit, ← fullPass_iff_changed hinj (hview.rooted hsound.chain) havail hcb hbefore]
  have hfull := @checkInputs_full_iff _ _ _ (env.caching [] pvChecks) view tx flags hcb rfl
  constructor
  · exact fun h => hfull.1 h.symm
  · exact fun h => (hfull.2 h).symm

/-! ## one coin, two amounts -/

def amountEnv : Env Digest := { symEnv with scriptCheck := fun _ amount _ _ _ => decide (amount = 5) }

theorem amountEnv_injectiveIds : amountEnv.InjectiveIds where
  tx _ _ h := inj (tagged_inj h).2
  witness _ _ _ _ h := Prod.ext_iff.1 (inj (tagged_inj h).2)
  tx_ne_witness _ _ _ h := by cases (tagged_inj h).1

theorem amountEnv_hashHeader : amountEnv.hashHeader = symEnv.hashHeader := rfl

def givingBack : List CTxOut := List.replicate 10 (.of 0 (-1) [] 1)

def dollarsTx (nValue : Int)
    (h : (CTxOut.of nValue 10 [] 1 :: givingBack).all (CTxOut.decoded 6) = true) : CTransaction Digest :=
  ⟨6, [.ofNickname [98, 111, 98] dev1ScriptPubKey dev1ScriptPubKey.vch false false default],
    .of nValue 10 [] 1 :: givingBack, 0, .refl true, h⟩

def spendBob : CTransaction Digest :=
  ⟨6, [.ofOutPoint ⟨(dollarsTx 5 (by decide)).getHash symEnv, 0⟩ []], [], 0, rfl, .refl true⟩

def fiveChain : ActiveChain Digest :=
  valueOr (extendIn amountEnv (.genesis symParams) halfDollar 1 [dollarsTx 5 (by decide)])
    (.genesis symParams)

def backChain : ActiveChain Digest := valueOr (disconnectLast amountEnv fiveChain) fiveChain

def nineChain : ActiveChain Digest :=
  valueOr (extendIn amountEnv backChain (pricesAt 900000000 900000000 (by decide)) 1
    [dollarsTx 9 (by decide)]) backChain

def fiveView : CCoinsViewCache Digest := .ofBase fiveChain.pcoinsTip fiveChain.bestBlock

def fiveMined : CacheState Digest := { CacheState.start symParams with chain := fiveChain }

/-- after a check of `spendBob` on the first chain -/
def fiveChecked : CacheState Digest := fiveMined.check amountEnv fiveView spendBob true 0 true false

theorem fiveChain_run : IsRun (CacheStep amountEnv symParams) (.start symParams)
    [fiveMined, fiveChecked] := by
  have hfive : ChainStep amountEnv symParams (.genesis symParams) fiveChain :=
    extendIn_step amountEnv_hashHeader (by decide)
  simp only [isRun_cons, isRun_nil, and_true]
  exact ⟨.chain hfive, .check .tip spendBob true 0 true false⟩

/-- the block of bob is replaced by one at another price; the coin has another amount, for which the
script is not valid, and the cache says that it is -/
theorem cache_not_transparent : IsRun (CacheStep amountEnv symParams) (.start symParams)
        [fiveMined, fiveChecked, { fiveChecked with chain := backChain },
          { fiveChecked with chain := nineChain }] ∧
      CCoinsViewCache.haveInputs (.ofBase nineChain.pcoinsTip nineChain.bestBlock) spendBob = true ∧
      checkInputs (amountEnv.caching fiveChecked.cache false)
        (.ofBase nineChain.pcoinsTip nineChain.bestBlock) spendBob true 0 = .ok true ∧
      checkInputs (amountEnv.caching [] false) (.ofBase nineChain.pcoinsTip nineChain.bestBlock) spendBob true 0 =
          .error (.bad 100 "mandatory-script-verify-flag-failed") := by
  have hback : ChainStep amountEnv symParams fiveChain backChain := .disconnect (eq_valueOr (by decide))
  have hnine : ChainStep amountEnv symParams backChain nineChain :=
    extendIn_step amountEnv_hashHeader (by decide)
  refine ⟨?_, by decide⟩
  obtain ⟨h1, h2⟩ := isRun_cons.1 fiveChain_run
  simp only [isRun_cons, isRun_nil, and_true] at h2 ⊢
  have hstep : CacheStep amountEnv symParams fiveChecked { fiveChecked with chain := backChain } :=
    .chain hback
  exact ⟨h1, h2, hstep, @CacheStep.chain _ _ _ _ _ { fiveChecked with chain := backChain } _ hnine⟩

/-- on the chain on which the entry was made no amount has changed, and the cache is right -/
theorem cache_transparent_five : checkInputs (amountEnv.caching fiveChecked.cache false) fiveView spendBob true 0 =
      checkInputs (amountEnv.caching [] false) fiveView spendBob true 0 := by
  have hit : (spendBob.getWitnessHash amountEnv, 0#32) ∈ fiveChecked.cache := by decide
  obtain ⟨tx₀, view₀, hmade, hiff⟩ := cache_transparent_iff amountEnv_injectiveIds fiveChain_run
    (List.mem_cons_of_mem _ (List.mem_cons_of_mem _ List.mem_cons_self)) .tip (by decide)
    (by decide) hit false
  have hfirst : fiveChecked.inserted (spendBob.getWitnessHash amountEnv, 0#32) = some (spendBob, fiveView) := by
    simp only [fiveChecked, CacheState.check]
    rw [if_neg (by decide)]
    exact Function.update_self ..
  obtain ⟨rfl, rfl⟩ := Prod.mk.inj (Option.some.inj (hmade.symm.trans hfirst))
  refine hiff.2 fun p _ _ hchanged => ?_
  rcases hchanged with h | h
  · exact absurd rfl h
  · exact absurd rfl h

end BitCash
