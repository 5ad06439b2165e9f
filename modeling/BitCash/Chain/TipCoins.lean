import BitCash.Chain.Branch

/-!
# Where the coins of the tip come from

The amount of a coin is not among these: the id of a transaction does not fix it.
-/

namespace BitCash
open Checks Runs Journal List Coin CTxOut

variable {H : Type} [Inhabited H] [DecidableEq H] {env : Env H} {params : Params H}

/-! ## journals -/

def blockWrites (env : Env H) (vtx : List (CTransaction H)) (nHeight : Nat) :
    List (COutPoint H × Write Coin) :=
  vtx.flatMap fun tx => txWrites env tx nHeight

def MakesAt (env : Env H) (tx : CTransaction H) (o : COutPoint H) (out : CTxOut) : Prop :=
  ∃ n, tx.vout[n]? = some out ∧ isUnspendable out.scriptPubKey = false ∧
    o = ⟨tx.getHash env, UInt32.ofNat n⟩

variable {tx : CTransaction H} {o : COutPoint H} {nHeight : Nat}

theorem mem_txCreates {w : Write Coin} : (o, w) ∈ txCreates env tx nHeight ↔
      ∃ out, MakesAt env tx o out ∧ w = .put (ofOut out nHeight tx.isCoinBase) := by
  unfold txCreates MakesAt
  rw [mem_map]
  constructor
  · rintro ⟨⟨out, n⟩, hmem, heq⟩
    rw [mem_filter, mem_zipIdx_iff_getElem?] at hmem
    cases heq
    exact ⟨out, ⟨n, hmem.1, by simpa using hmem.2, rfl⟩, rfl⟩
  · rintro ⟨out, ⟨n, hn, hu, rfl⟩, rfl⟩
    refine ⟨(out, n), ?_, rfl⟩
    rw [mem_filter, mem_zipIdx_iff_getElem?]
    exact ⟨hn, by simpa using hu⟩

theorem mem_txSpends {w : Write Coin} (h : (o, w) ∈ txSpends tx) :
    w = .del ∧ tx.isCoinBase = false ∧ ∃ i ∈ tx.coinInputs, i.prevout = o := by
  unfold txSpends at h
  cases hcb : tx.isCoinBase with
  | true =>
    rw [hcb] at h
    cases h
  | false =>
    rw [hcb] at h
    obtain ⟨i, hi, heq⟩ := mem_map.1 h
    cases heq
    exact ⟨rfl, rfl, i, hi, rfl⟩

theorem mem_blockWrites {vtx : List (CTransaction H)} {w : Write Coin} (h : (o, w) ∈ blockWrites env vtx nHeight) :
    (w = .del ∧ ∃ tx ∈ vtx, tx.isCoinBase = false ∧ ∃ i ∈ tx.coinInputs, i.prevout = o) ∨
      ∃ tx ∈ vtx, ∃ out, MakesAt env tx o out ∧ w = .put (ofOut out nHeight tx.isCoinBase) := by
  obtain ⟨tx, htx, hw⟩ := mem_flatMap.1 h
  rcases mem_append.1 hw with hs | hc
  · obtain ⟨hdel, hcb, hi⟩ := mem_txSpends hs
    exact .inl ⟨hdel, tx, htx, hcb, hi⟩
  · obtain ⟨out, hout, hput⟩ := mem_txCreates.1 hc
    exact .inr ⟨tx, htx, out, hout, hput⟩

variable {a a' : ActiveChain H}

theorem Connects.follows {b : ChainBlock H} {c : ConnectLoop H} (h : Connects env params a b c a') :
    Follows (blockWrites env b.block.vtx b.pindex.nHeight) (.ofBase a.pcoinsTip a.bestBlock) c.view := by
  refine run_follows (fun s : ConnectLoop H => s.view) (fun s tx t ht => ?_) h.loop
  obtain ⟨-, -, undo, hup⟩ := connectTx_ok ht
  exact updateCoins_follows env hup

theorem run_journal {α σ : Type} {step : σ → α → Res σ} {P : α → COutPoint H × Write Coin → Prop}
    (view : σ → CCoinsViewCache H)
    (hstep : ∀ s a t, step s a = .ok t → ∃ j, Follows j (view s) (view t) ∧ ∀ w ∈ j, P a w)
    {l : List α} {s t : σ} (h : run step s l = .ok t) :
    ∃ j, Follows j (view s) (view t) ∧ ∀ w ∈ j, ∃ a ∈ l, P a w := by
  induction l generalizing s with
  | nil =>
    cases h
    exact ⟨[], Follows.refl _, fun w hw => absurd hw not_mem_nil⟩
  | cons a l ih =>
    obtain ⟨s', ha, hl⟩ := run_cons_ok.1 h
    obtain ⟨j, hj, hjw⟩ := hstep s a s' ha
    obtain ⟨k, hk, hkw⟩ := ih hl
    refine ⟨j ++ k, hj.append hk, fun w hw => ?_⟩
    rcases mem_append.1 hw with hw | hw
    · exact ⟨a, mem_cons_self, hjw w hw⟩
    · obtain ⟨x, hx, hxw⟩ := hkw w hw
      exact ⟨x, mem_cons_of_mem a hx, hxw⟩

def Restores (vtx : List (CTransaction H)) (vtxundo : List (List Coin)) (o : COutPoint H) (u : Coin) :
    Prop :=
  ∃ tx vprevout, (tx, some vprevout) ∈ vtx.zip (none :: vtxundo.map some) ∧
    ∃ i, (i, u) ∈ tx.vin.zip vprevout ∧ i.isnickname = false ∧ i.prevout = o

inductive UndoWrite (env : Env H) (vtx : List (CTransaction H)) (vtxundo : List (List Coin)) :
    COutPoint H × Write Coin → Prop
  | output {tx : CTransaction H} {o : COutPoint H} {out : CTxOut} (htx : tx ∈ vtx)
      (hout : MakesAt env tx o out) : UndoWrite env vtx vtxundo (o, .del)
  | input {o : COutPoint H} {u c : Coin} (hu : Restores vtx vtxundo o u) (hc : c.isSpent = false)
      (hvalue : c.nValue = u.nValue) (hsame : u.nHeight ≠ 0 → c = u) :
      UndoWrite env vtx vtxundo (o, .put c)

theorem undoOutput_follows {nHeight : Nat} {tx : CTransaction H} {s : CCoinsViewCache H × Bool}
    {out : CTxOut} {n : Nat} (hn : tx.vout[n]? = some out) :
    ∃ j, Follows j s.1 (undoOutput env nHeight tx s (out, n)).1 ∧
      ∀ w ∈ j, ∃ o out, MakesAt env tx o out ∧ w = (o, .del) := by
  unfold undoOutput
  cases hu : isUnspendable out.scriptPubKey with
  | true => exact ⟨[], Follows.refl _, fun w hw => absurd hw not_mem_nil⟩
  | false =>
    simp only [Bool.false_eq_true, if_false]
    cases hs : s.1.spendCoin ⟨tx.getHash env, UInt32.ofNat n⟩ with
    | none => exact ⟨[], Follows.refl _, fun w hw => absurd hw not_mem_nil⟩
    | some p =>
      refine ⟨_, spendCoin_follows hs, fun w hw => ?_⟩
      rw [mem_singleton.1 hw]
      exact ⟨_, out, ⟨n, hn, hu, rfl⟩, rfl⟩

theorem undoOutputs_follows {nHeight : Nat} {tx : CTransaction H} (l : List (CTxOut × Nat))
    (hl : ∀ p ∈ l, tx.vout[p.2]? = some p.1) (s : CCoinsViewCache H × Bool) :
    ∃ j, Follows j s.1 (l.foldl (undoOutput env nHeight tx) s).1 ∧
      ∀ w ∈ j, ∃ o out, MakesAt env tx o out ∧ w = (o, .del) := by
  induction l generalizing s with
  | nil => exact ⟨[], Follows.refl _, fun w hw => absurd hw not_mem_nil⟩
  | cons p l ih =>
    obtain ⟨out, n⟩ := p
    obtain ⟨j, hj, hjw⟩ := @undoOutput_follows _ _ _ env nHeight tx s out n (hl _ mem_cons_self)
    obtain ⟨k, hk, hkw⟩ := ih (fun q hq => hl q (mem_cons_of_mem _ hq)) (undoOutput env nHeight tx s (out, n))
    refine ⟨j ++ k, hj.append hk, fun w hw => ?_⟩
    rcases mem_append.1 hw with hw | hw
    · exact hjw w hw
    · exact hkw w hw

theorem undoInput_follows {s t : CCoinsViewCache H × Bool} {i : CTxIn H} {u : Coin} (h : undoInput s (i, u) = .ok t) :
    ∃ j, Follows j s.1 t.1 ∧ ∀ w ∈ j, ∃ c, w = (i.prevout, .put c) ∧ i.isnickname = false ∧
      c.isSpent = false ∧ c.nValue = u.nValue ∧ (u.nHeight ≠ 0 → c = u) := by
  unfold undoInput at h
  cases hn : i.isnickname with
  | true =>
    rw [hn, if_pos rfl] at h
    cases h
    exact ⟨[], Follows.refl _, fun w hw => absurd hw not_mem_nil⟩
  | false =>
    rw [hn] at h
    simp only [Bool.false_eq_true, if_false, bind_ok] at h
    obtain ⟨r, hr, hret⟩ := h
    cases hret
    unfold applyTxInUndo at hr
    cases hc : undoCoin s.1 u i.prevout with
    | none => rw [hc] at hr; cases hr
    | some c =>
      rw [hc] at hr
      obtain ⟨v, hv, hret⟩ := bind_ok.1 hr
      cases hret
      have hspent := (CCoinsViewCache.addCoin_ok.1 hv).1
      have hfrom : c.nValue = u.nValue ∧ (u.nHeight ≠ 0 → c = u) := by
        unfold undoCoin at hc
        by_cases h0 : u.nHeight = 0
        · rw [if_pos h0] at hc
          obtain ⟨alt, -, rfl⟩ := Option.map_eq_some_iff.1 hc
          exact ⟨rfl, fun hne => absurd h0 hne⟩
        · rw [if_neg h0] at hc
          cases hc
          exact ⟨rfl, fun _ => rfl⟩
      refine ⟨_, addCoin_follows hv, fun w hw => ?_⟩
      unfold outWrites at hw
      split at hw
      · cases hw
      · rw [mem_singleton.1 hw]
        exact ⟨c, rfl, rfl, hspent, hfrom⟩

theorem disconnectTx_follows {s t : CCoinsViewCache H × Bool}
    {undo : Option (List Coin)} (h : disconnectTx env nHeight s (tx, undo) = .ok t) :
    ∃ j, Follows j s.1 t.1 ∧ ∀ w ∈ j, (∃ o out, MakesAt env tx o out ∧ w = (o, .del)) ∨
      ∃ vprevout i u c, undo = some vprevout ∧ (i, u) ∈ tx.vin.zip vprevout ∧
        w = (i.prevout, .put c) ∧ i.isnickname = false ∧ c.isSpent = false ∧ c.nValue = u.nValue ∧
        (u.nHeight ≠ 0 → c = u) := by
  have hidx : ∀ p ∈ tx.vout.zipIdx, tx.vout[p.2]? = some p.1 := fun p hp =>
    mem_zipIdx_iff_getElem?.1 hp
  obtain ⟨j, hj, hjw⟩ := @undoOutputs_follows _ _ _ env nHeight tx tx.vout.zipIdx hidx s
  unfold disconnectTx at h
  cases undo with
  | none =>
    cases h
    exact ⟨j, hj, fun w hw => .inl (hjw w hw)⟩
  | some vprevout =>
    simp only [bind_ok, need_ok, exists_const] at h
    obtain ⟨-, h⟩ := h
    obtain ⟨k, hk, hkw⟩ := run_journal (fun s : CCoinsViewCache H × Bool => s.1)
      (P := fun (p : CTxIn H × Coin) w => ∃ c, w = (p.1.prevout, .put c) ∧ p.1.isnickname = false ∧
        c.isSpent = false ∧ c.nValue = p.2.nValue ∧ (p.2.nHeight ≠ 0 → c = p.2))
      (fun s p t ht => undoInput_follows ht) h
    refine ⟨j ++ k, hj.append hk, fun w hw => ?_⟩
    rcases mem_append.1 hw with hw | hw
    · exact .inl (hjw w hw)
    · obtain ⟨⟨i, u⟩, hmem, c, hwc⟩ := hkw w hw
      exact .inr ⟨vprevout, i, u, c, rfl, mem_reverse.1 hmem, hwc⟩

variable {v w : CCoinsViewCache H} {undo : List Coin}

theorem disconnectBlock_follows {block : CBlock H} {vtxundo : List (List Coin)}
    {pindex : CBlockIndex H} {clean : Bool} (h : disconnectBlock env block (some vtxundo) pindex v = .ok (w, clean)) :
    ∃ j u, Follows j v u ∧ w.getCoin = u.getCoin ∧ ∀ x ∈ j, UndoWrite env block.vtx vtxundo x := by
  unfold disconnectBlock at h
  cases hp : pindex.pprev with
  | none => rw [hp] at h; cases h
  | some prev =>
    rw [hp] at h
    simp only [bind_ok, need_ok, exists_const] at h
    obtain ⟨-, s, hs, hret⟩ := h
    cases hret
    obtain ⟨j, hj, hjw⟩ := run_journal (fun s : CCoinsViewCache H × Bool => s.1)
      (P := fun (p : CTransaction H × Option (List Coin)) w =>
        (∃ o out, MakesAt env p.1 o out ∧ w = (o, .del)) ∨
        ∃ vprevout i u c, p.2 = some vprevout ∧ (i, u) ∈ p.1.vin.zip vprevout ∧
          w = (i.prevout, .put c) ∧ i.isnickname = false ∧ c.isSpent = false ∧ c.nValue = u.nValue ∧
          (u.nHeight ≠ 0 → c = u))
      (fun s p t ht => disconnectTx_follows ht) hs
    refine ⟨j, s.1, hj, rfl, fun x hx => ?_⟩
    obtain ⟨⟨tx, undo⟩, hmem, hw⟩ := hjw x hx
    have hzip := mem_reverse.1 hmem
    rcases hw with ⟨o, out, hout, rfl⟩ | ⟨vprevout, i, u, c, hundo, hiu, rfl, hn, hsp, hval, hsame⟩
    · exact .output (of_mem_zip hzip).1 hout
    · have hundo' : undo = some vprevout := hundo
      rw [hundo'] at hzip
      exact .input ⟨tx, vprevout, hzip, i, hiu, hn, rfl⟩ hsp hval hsame

/-! ## rooted coins -/

def RootedAt (env : Env H) (o : COutPoint H) (c : Coin) : Prop :=
  ∃ (tx : CTransaction H) (n : Nat) (out : CTxOut), tx.vout[n]? = some out ∧ tx.vout.length < 2 ^ 32 ∧
    o = ⟨tx.getHash env, UInt32.ofNat n⟩ ∧ c.scriptPubKey = out.scriptPubKey ∧
    c.currency = out.currency ∧ c.fCoinBase = tx.isCoinBase ∧ c.nHeight ≠ 0

structure RootedView (env : Env H) (v : CCoinsViewCache H) : Prop where
  base : ∀ o c, v.base o = some c → c.isSpent = false → RootedAt env o c
  entry : ∀ o e, v.cacheCoins o = some e → e.coin.isSpent = false → RootedAt env o e.coin

section
variable (h : RootedView env v)
include h

theorem RootedView.fetch {e : CCoinsCacheEntry} (he : v.fetchCoin o = some e) (hc : e.coin.isSpent = false) :
    RootedAt env o e.coin := by
  unfold CCoinsViewCache.fetchCoin at he
  cases hx : v.cacheCoins o with
  | some x =>
    rw [hx, Option.some_or] at he
    cases he
    exact h.entry o e hx hc
  | none =>
    rw [hx, Option.none_or] at he
    obtain ⟨c, hb, rfl⟩ := Option.map_eq_some_iff.1 he
    exact h.base o c hb hc

theorem RootedView.access (ho : v.haveCoin o) : RootedAt env o (v.accessCoin o) := by
  rw [CCoinsViewCache.haveCoin_iff] at ho
  unfold CCoinsViewCache.accessCoin at ho ⊢
  cases he : v.fetchCoin o with
  | none => rw [he] at ho; cases ho
  | some e =>
    rw [he] at ho
    exact h.fetch he ho

theorem RootedView.follows {j : List (COutPoint H × Write Coin)} (hj : Follows j v w)
    (hput : ∀ o c, (o, .put c) ∈ j → c.isSpent = false → RootedAt env o c) : RootedView env w := by
  refine ⟨by rw [hj.base]; exact h.base, fun o e he hc => ?_⟩
  rcases hj.cases_at o with ⟨-, hsame⟩ | ⟨-, hnone | ⟨e', he', hspent⟩⟩ | ⟨e', hmem, he', -⟩
  · exact h.entry o e (hsame ▸ he) hc
  · rw [hnone] at he
    cases he
  · have heq : e = e' := Option.some.inj (he.symm.trans he')
    rw [heq, hspent] at hc
    cases hc
  · have heq : e = e' := Option.some.inj (he.symm.trans he')
    rw [heq] at hc ⊢
    exact hput o e'.coin hmem hc

theorem RootedView.getCoin {c : Coin} (hc : v.getCoin o = some c) : RootedAt env o c := by
  unfold CCoinsViewCache.getCoin at hc
  split at hc
  · rename_i hhave
    cases hc
    exact h.access hhave
  · cases hc

end

theorem RootedView.ofBase {coins : CoinsMap H} (h : ∀ o c, coins o = some c → RootedAt env o c)
    (hash : H) : RootedView env (.ofBase coins hash) :=
  ⟨fun o c hc _ => h o c hc, fun _ _ he => nomatch he⟩

theorem vout_length_lt {nicks : Nicknames H} {dup dbl : Bool} {bh : H}
    (h : checkTransaction env nicks tx dup bh dbl = .ok ()) : tx.vout.length < 2 ^ 32 := by
  have hsize := (checkTransaction_ok env h).2.2.1
  have hsum : tx.vout.length ≤ (tx.vout.map (serializeSize tx.nVersion)).sum := by
    have hone : ∀ k ∈ tx.vout.map (serializeSize tx.nVersion), 1 ≤ k := by
      intro k hk
      obtain ⟨out, -, rfl⟩ := mem_map.1 hk
      unfold serializeSize
      omega
    simpa using length_le_sum_of_one_le _ hone
  unfold CTransaction.strippedSize listSize WITNESS_SCALE_FACTOR MAX_BLOCK_WEIGHT at hsize
  omega

theorem rootedAt_of_makes (hlen : tx.vout.length < 2 ^ 32)
    {out : CTxOut} (h : MakesAt env tx o out) (hh : nHeight ≠ 0) :
    RootedAt env o (ofOut out nHeight tx.isCoinBase) := by
  obtain ⟨n, hn, -, ho⟩ := h
  exact ⟨tx, n, out, hn, hlen, ho, rfl, rfl, rfl, hh⟩

theorem updateCoins_rooted (h : RootedView env v) (hlen : tx.vout.length < 2 ^ 32) (hh : nHeight ≠ 0)
    (hup : updateCoins env tx v nHeight = .ok (w, undo)) : RootedView env w := by
  refine h.follows (updateCoins_follows env hup) fun o c hput _ => ?_
  rcases mem_append.1 hput with hs | hc
  · exact absurd (mem_txSpends hs).1 (by simp)
  · obtain ⟨out, hout, heq⟩ := mem_txCreates.1 hc
    cases heq
    exact rootedAt_of_makes hlen hout hh

/-! ## the undo records -/

def UndoRooted (env : Env H) (tx : CTransaction H) (vprevout : List Coin) : Prop :=
  ∀ i u, (i, u) ∈ tx.vin.zip vprevout → i.isnickname = false → u.isSpent = false →
    RootedAt env i.prevout u

theorem spendInputs_rooted {l : List (CTxIn H)} {s t : CCoinsViewCache H × List Coin}
    (h : RootedView env s.1) (hrun : run spendInput s l = .ok t) :
    ∃ us, t.2 = s.2 ++ us ∧ ∀ i u, (i, u) ∈ l.zip us → i.isnickname = false → u.isSpent = false →
      RootedAt env i.prevout u := by
  induction l generalizing s with
  | nil =>
    cases hrun
    exact ⟨[], (append_nil _).symm, fun i u hmem => nomatch hmem⟩
  | cons i l ih =>
    obtain ⟨s', hi, hl⟩ := run_cons_ok.1 hrun
    have hroot : RootedView env s'.1 := by
      refine h.follows (spendInput_follows hi) fun o c hput => ?_
      split at hput
      · cases hput
      · exact absurd (mem_singleton.1 hput) (by simp)
    obtain ⟨us, hus, hall⟩ := ih hroot hl
    have hone : ∃ u, s'.2 = s.2 ++ [u] ∧ (i.isnickname = false → u.isSpent = false → RootedAt env i.prevout u) := by
      unfold spendInput at hi
      cases hn : i.isnickname with
      | true =>
        rw [hn, if_pos rfl] at hi
        cases hi
        exact ⟨_, rfl, fun hf => nomatch hf⟩
      | false =>
        rw [hn] at hi
        cases hs : s.1.spendCoin i.prevout with
        | none => rw [hs] at hi; cases hi
        | some p =>
          rw [hs] at hi
          cases hi
          obtain ⟨e, he, heq⟩ := Option.map_eq_some_iff.1 hs
          refine ⟨p.1, rfl, fun _ hunspent => ?_⟩
          rw [← heq] at hunspent ⊢
          exact h.fetch he hunspent
    obtain ⟨u, hu, hrooted⟩ := hone
    refine ⟨u :: us, by rw [hus, hu, append_assoc]; rfl, ?_⟩
    intro j x hmem
    rw [zip_cons_cons] at hmem
    rcases mem_cons.1 hmem with heq | hmem
    · cases heq
      exact hrooted
    · exact hall j x hmem

theorem updateCoins_undo (h : RootedView env v) (hup : updateCoins env tx v nHeight = .ok (w, undo)) :
    UndoRooted env tx undo := by
  obtain ⟨u, hs, -⟩ := updateCoins_ok env hup
  unfold spendInputs at hs
  cases hcb : tx.isCoinBase with
  | true =>
    rw [hcb] at hs
    cases hs
    intro i x hmem
    simp at hmem
  | false =>
    rw [hcb] at hs
    obtain ⟨us, hus, hall⟩ := spendInputs_rooted h hs
    rw [nil_append] at hus
    have hundo : undo = us := hus
    rw [hundo]
    exact hall

theorem connectLoop_undo {ctx : ConnectContext H} {header : CBlockHeader H}
    (hh : ctx.pindex.nHeight ≠ 0) {l : List (CTransaction H)} (hlen : ∀ tx ∈ l, tx.vout.length < 2 ^ 32)
    {s t : ConnectLoop H} (hi : 0 < s.i) (h : RootedView env s.view)
    (hrun : run (connectTx env params ctx header) s l = .ok t) :
    ∃ us, t.vtxundo = s.vtxundo ++ us ∧ ∀ tx vprevout, (tx, vprevout) ∈ l.zip us → UndoRooted env tx vprevout := by
  induction l generalizing s with
  | nil =>
    cases hrun
    exact ⟨[], (append_nil _).symm, fun tx u hmem => nomatch hmem⟩
  | cons tx l ih =>
    obtain ⟨s', htx, hl⟩ := run_cons_ok.1 hrun
    obtain ⟨undo, hup, hundo⟩ : ∃ undo, updateCoins env tx s.view ctx.pindex.nHeight =
        .ok (s'.view, undo) ∧ s'.vtxundo = s.vtxundo ++ [undo] := by
      simp only [connectTx, bind_ok, need_ok, exists_const] at htx
      obtain ⟨_, -, -, _, -, ⟨view, undo⟩, hup, hret⟩ := htx
      cases hret
      exact ⟨undo, hup, if_neg (by omega)⟩
    have hi' : 0 < s'.i := by
      rw [(connectTx_ok htx).2.1]
      omega
    have hroot := updateCoins_rooted h (hlen tx mem_cons_self) hh hup
    obtain ⟨us, hus, hall⟩ := ih (fun x hx => hlen x (mem_cons_of_mem tx hx)) hi' hroot hl
    refine ⟨undo :: us, by rw [hus, hundo, append_assoc]; rfl, ?_⟩
    intro x vprevout hmem
    rw [zip_cons_cons] at hmem
    rcases mem_cons.1 hmem with heq | hmem
    · cases heq
      exact updateCoins_undo h hup
    · exact hall x vprevout hmem

/-! ## runs -/

structure RootedChain (env : Env H) (a : ActiveChain H) : Prop where
  coins : ∀ o c, a.pcoinsTip o = some c → RootedAt env o c
  undo : ∀ b ∈ a.blocks, ∀ o u, Restores b.block.vtx b.vtxundo o u → u.isSpent = false →
    RootedAt env o u

theorem RootedChain.connect {a a' : ActiveChain H} {b : ChainBlock H} {c : ConnectLoop H}
    (ha : RootedChain env a) (h : Connects env params a b c a') : RootedChain env a' := by
  have hbody := (blockRules_ok.1 h.rules).2.2.2
  have hlen : ∀ tx ∈ b.block.vtx, tx.vout.length < 2 ^ 32 := fun tx htx =>
    vout_length_lt ((bodyRules_ok hbody).2 tx htx)
  have hheight : b.pindex.nHeight ≠ 0 := by
    rw [h.nHeight]
    omega
  have hroot : RootedView env (.ofBase a.pcoinsTip a.bestBlock) := .ofBase ha.coins a.bestBlock
  have hview : RootedView env c.view := by
    refine hroot.follows h.follows fun o coin hput _ => ?_
    rcases mem_blockWrites hput with ⟨hdel, -⟩ | ⟨tx, htx, out, hout, heq⟩
    · cases hdel
    · cases heq
      exact rootedAt_of_makes (hlen tx htx) hout hheight
  refine ⟨fun o coin hc => ?_, fun x hx => ?_⟩
  · rw [h.pcoinsTip] at hc
    exact hview.getCoin hc
  · rw [h.blocks] at hx
    rcases mem_cons.1 hx with rfl | hx
    · -- the first transaction has no undo record
      obtain ⟨⟨cb, rest, hvtx, -⟩, -⟩ := bodyRules_ok hbody
      have hloop := h.loop
      rw [connectLoop, hvtx] at hloop
      obtain ⟨s', htx, hl⟩ := run_cons_ok.1 hloop
      obtain ⟨undo, hup, hundo⟩ : ∃ undo, updateCoins env cb (.ofBase a.pcoinsTip a.bestBlock)
          x.pindex.nHeight = .ok (s'.view, undo) ∧ s'.vtxundo = [] := by
        simp only [connectTx, bind_ok, need_ok, exists_const] at htx
        obtain ⟨_, -, -, _, -, ⟨view, undo⟩, hup, hret⟩ := htx
        cases hret
        exact ⟨undo, hup, rfl⟩
      have hi : 0 < s'.i := by
        rw [(connectTx_ok htx).2.1]
        omega
      have hcb := updateCoins_rooted hroot (hlen cb (by rw [hvtx]; exact mem_cons_self)) hheight hup
      obtain ⟨us, hus, hall⟩ := connectLoop_undo hheight
        (fun tx hmem => hlen tx (by rw [hvtx]; exact mem_cons_of_mem cb hmem)) hi hcb hl
      rw [hundo, nil_append] at hus
      rintro o u ⟨tx, vprevout, hzip, i, hiu, hn, rfl⟩ hspent
      rw [hvtx, h.undo, hus, zip_cons_cons] at hzip
      rcases mem_cons.1 hzip with heq | hzip
      · cases heq
      · rw [zip_map_right, mem_map] at hzip
        obtain ⟨⟨ty, vp⟩, hmem, heq⟩ := hzip
        cases heq
        exact hall _ _ hmem i u hiu hn hspent
    · exact ha.undo x hx

theorem RootedChain.disconnect (ha : RootedChain env a) (h : disconnectLast env a = .ok a') : RootedChain env a' := by
  obtain ⟨b, view, hblocks, hd, hcoins, -, -⟩ := disconnectLast_ok h
  obtain ⟨j, u, hj, hgetCoin, hwrites⟩ := disconnectBlock_follows hd
  have hundo := ha.undo b (by rw [hblocks]; exact mem_cons_self)
  have hroot : RootedView env u := by
    have hbase : RootedView env (.ofBase a.pcoinsTip a.bestBlock) := .ofBase ha.coins a.bestBlock
    refine hbase.follows hj fun o c hput hspent => ?_
    cases hwrites _ hput with
    | @input _ x _ hx _ hvalue hsame =>
      have hx' : x.isSpent = false := by
        unfold isSpent at hspent ⊢
        rw [← hvalue]
        exact hspent
      have hrooted := hundo o x hx hx'
      obtain ⟨-, -, -, -, -, -, -, -, -, hheight⟩ := hrooted
      rw [hsame hheight]
      exact hundo o x hx hx'
  refine ⟨fun o c hc => ?_, fun x hx => ha.undo x (by rw [hblocks]; exact mem_cons_of_mem b hx)⟩
  rw [hcoins, hgetCoin] at hc
  exact hroot.getCoin hc

theorem RootedChain.step (ha : RootedChain env a) (h : ChainStep env params a a') : RootedChain env a' := by
  rcases h.inv with ⟨l, b, c, hc⟩ | hd
  · -- what is the node's own changes no id
    have hlocal : RootedChain (env.withLocal l) a := ⟨ha.coins, ha.undo⟩
    have hnext := hlocal.connect hc
    exact ⟨hnext.coins, hnext.undo⟩
  · exact ha.disconnect hd

theorem rootedChain_genesis : RootedChain env (.genesis params) :=
  ⟨(fun _ _ hc => nomatch hc), (fun _ hb => nomatch hb)⟩

/-- **the coins of the tip are rooted** at every point of every run -/
theorem rooted_of_run {run : List (ActiveChain H)} (h : IsRun (ChainStep env params) (.genesis params) run) :
    ∀ a ∈ ActiveChain.genesis params :: run, RootedChain env a :=
  run_keeps (fun _ _ ha hstep => ha.step hstep) h rootedChain_genesis

/-- a coin is made and spent, and the block that spends it is taken off again -/
theorem rooted_of_run_block : RootedChain symEnv regiftChain ∧
    RootedChain symEnv (valueOr (disconnectLast symEnv regiftChain) giftChain) := by
  have hrun : IsRun (ChainStep symEnv symParams) (.genesis symParams)
      [giftChain, regiftChain, valueOr (disconnectLast symEnv regiftChain) giftChain] := by
    simp only [isRun_cons, isRun_nil, and_true]
    exact ⟨extend_step (by decide), extend_step (by decide), .disconnect (eq_valueOr (by decide))⟩
  have hall := rooted_of_run hrun
  exact ⟨hall _ (mem_cons_of_mem _ (mem_cons_of_mem _ mem_cons_self)),
    hall _ (mem_cons_of_mem _ (mem_cons_of_mem _ (mem_cons_of_mem _ mem_cons_self)))⟩

end BitCash
