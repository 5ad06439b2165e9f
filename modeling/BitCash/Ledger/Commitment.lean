import BitCash.Ledger.Conversion

/-!
# What a block hash commits to

Two accepted blocks with the same hash have the same transaction ids in the same order (`ids_eq_of_hash`), so their
transactions differ at most in `nValue` and in the witnesses (`CTransaction.SameIds`), and their effects on a view
go in step: the same coins are spent and made (`connectLoop_sameShape`), and only the amounts of the coins may
differ.
-/

set_option linter.unusedSectionVars false

variable {c : UInt8}

namespace BitCash
open Checks Journal List Option Bool

variable {H : Type} [Inhabited H] [DecidableEq H] {env : Env H} {params : Params H}
  {tx : CTransaction H} {block : CBlock H} {nHeight : Nat} {ctx : ConnectContext H} {cb : Bool}

/-! ## from the hash to the transactions -/

structure CTransaction.SameIds (env : Env H) (a b : CTransaction H) : Prop where
  hash : a.getHash env = b.getHash env
  nVersion : a.nVersion = b.nVersion
  vin : List.Forall₂ (fun i j : CTxIn H => i.isnickname = j.isnickname ∧ i.prevout = j.prevout)
    a.vin b.vin
  vout : List.Forall₂ (fun o p : CTxOut => o.scriptPubKey = p.scriptPubKey ∧
    o.currency = p.currency ∧ o.nValueBitCash = p.nValueBitCash ∧
    (a.nVersion < 5 → o.nValue = p.nValue)) a.vout b.vout

theorem forall₂_of_map_eq {α β γ : Type} {f : α → γ} {g : β → γ} {R : α → β → Prop} {l : List α}
    {m : List β} (hR : ∀ a ∈ l, ∀ b ∈ m, f a = g b → R a b) (h : l.map f = m.map g) : List.Forall₂ R l m := by
  induction l generalizing m with
  | nil =>
    cases m with
    | nil => exact .nil
    | cons b m => cases h
  | cons a l ih =>
    cases m with
    | nil => cases h
    | cons b m =>
      rw [map_cons, map_cons, cons.injEq] at h
      exact .cons (hR a (by simp) b (by simp) h.1) (ih (fun c hc d hd => hR c (by simp [hc]) d (by simp [hd])) h.2)

theorem CTransaction.sameIds_of_hash (hinj : Function.Injective env.hashTx) {a b : CTransaction H}
    (h : a.getHash env = b.getHash env) : a.SameIds env b := by
  have hpre : a.preimage = b.preimage := hinj h
  simp only [CTransaction.preimage, TxPreimage.mk.injEq] at hpre
  obtain ⟨hver, hvin, hvout, -⟩ := hpre
  refine ⟨h, hver, forall₂_of_map_eq (fun i hi j hj hij => ?_) hvin,
    forall₂_of_map_eq (fun o ho p hp hop => ?_) hvout⟩
  · have hj' := all_eq_true.1 b.vin_decoded j hj
    rw [← hver] at hij hj'
    exact CTxIn.eq_of_preimage (all_eq_true.1 a.vin_decoded i hi) hj' hij
  · have hp' := b.decoded_of_mem hp
    rw [← hver] at hop hp'
    exact CTxOut.eq_of_preimage (a.decoded_of_mem ho) hp' hop

theorem ids_eq_of_hash (hinj : env.Injective) {a b : CBlock H}
    (ha : blockRules env params a true true = .ok ()) (hb : blockRules env params b true true = .ok ())
    (h : a.getHash env = b.getHash env) :
    List.Forall₂ (CTransaction.SameIds env) a.vtx b.vtx := by
  obtain ⟨-, -, hroot, -⟩ := CBlockHeader.eq_of_preimage (hinj.header h)
  obtain ⟨-, hma, -, hba⟩ := blockRules_ok.1 ha
  obtain ⟨-, hmb, -, hbb⟩ := blockRules_ok.1 hb
  obtain ⟨hra, hca⟩ := merkleRules_ok hma
  obtain ⟨hrb, hcb⟩ := merkleRules_ok hmb
  have hne : ∀ {c : CBlock H}, bodyRules env params c = .ok () → c.vtx.map (·.getHash env) ≠ [] := by
    intro c hc hnil
    obtain ⟨⟨cb, rest, hv, -⟩, -⟩ := bodyRules_ok hc
    rw [hv] at hnil
    cases hnil
  have hleaf : ∀ c : CBlock H, ∀ x ∈ c.vtx.map (·.getHash env), ∀ y z, x ≠ env.hashPair y z := by
    intro c x hx y z
    obtain ⟨tx, -, rfl⟩ := mem_map.1 hx
    exact hinj.tx_ne_pair _ y z
  have hids : a.vtx.map (·.getHash env) = b.vtx.map (·.getHash env) :=
    Merkle.computeRoot_inj hinj.pair (hne hba) (hne hbb) (hleaf a) (hleaf b) hca hcb
      (hra.symm.trans (hroot.trans hrb))
  exact forall₂_of_map_eq (fun _ _ _ _ e => CTransaction.sameIds_of_hash hinj.tx e) hids

namespace CTransaction.SameIds
variable {a b : CTransaction H}

theorem isCoinBase (h : a.SameIds env b) : a.isCoinBase = b.isCoinBase := by
  have hvin := h.vin
  unfold CTransaction.isCoinBase
  generalize a.vin = l at hvin ⊢
  generalize b.vin = m at hvin ⊢
  cases hvin with
  | nil => rfl
  | cons hij htail =>
    cases htail with
    | nil => rw [isCoinBaseVin, isCoinBaseVin, hij.1, hij.2]
    | cons _ _ => rfl

theorem coinInputs (h : a.SameIds env b) : a.coinInputs.map (·.prevout) = b.coinInputs.map (·.prevout) := by
  have hvin := h.vin
  unfold CTransaction.coinInputs
  generalize a.vin = l at hvin ⊢
  generalize b.vin = m at hvin ⊢
  induction hvin with
  | nil => rfl
  | @cons i j _ _ hij _ ih =>
    cases hn : j.isnickname with
    | true => simp only [filter_cons, hij.1, hn, Bool.not_true, false_eq_true, if_false, ih]
    | false =>
      simp only [filter_cons, hij.1, hn, Bool.not_false, if_true, map_cons, hij.2, ih]

theorem inputCurrency (h : a.SameIds env b) (coins : COutPoint H → Coin) :
    BitCash.inputCurrency coins a = BitCash.inputCurrency coins b := by
  have hin := h.coinInputs
  unfold BitCash.inputCurrency
  generalize a.coinInputs = l at hin ⊢
  generalize b.coinInputs = m at hin ⊢
  cases l with
  | nil =>
    cases m with
    | nil => rfl
    | cons _ _ => cases hin
  | cons i _ =>
    cases m with
    | nil => cases hin
    | cons j _ =>
      rw [map_cons, map_cons, cons.injEq] at hin
      show (coins i.prevout).spendCurrency = (coins j.prevout).spendCurrency
      rw [hin.1]

end CTransaction.SameIds

/-! ## two views in step -/

def entryShape (e : CCoinsCacheEntry) : Bool × Bool × Bool := (e.coin.isSpent, e.dirty, e.fresh)

structure SameShape (v w : CCoinsViewCache H) : Prop where
  base : v.base = w.base
  entry : ∀ o, (v.cacheCoins o).map entryShape = (w.cacheCoins o).map entryShape

namespace SameShape
variable {v w v' w' : CCoinsViewCache H} {o : COutPoint H}

theorem refl (v : CCoinsViewCache H) : SameShape v v := ⟨rfl, fun _ => rfl⟩

section
variable (h : SameShape v w)
include h

theorem setEntry {e e' : Option CCoinsCacheEntry}
    (he : e.map entryShape = e'.map entryShape) : SameShape (v.setEntry o e) (w.setEntry o e') := by
  refine ⟨h.base, fun x => ?_⟩
  by_cases hx : x = o
  · rw [hx, CCoinsViewCache.setEntry_self, CCoinsViewCache.setEntry_self, he]
  · rw [CCoinsViewCache.setEntry_of_ne v e hx, CCoinsViewCache.setEntry_of_ne w e' hx, h.entry x]

theorem fetchCoin (o : COutPoint H) : (v.fetchCoin o).map entryShape = (w.fetchCoin o).map entryShape:= by
  have he := h.entry o
  unfold CCoinsViewCache.fetchCoin
  rw [h.base]
  cases hv : v.cacheCoins o with
  | none =>
    rw [hv] at he
    rw [map_eq_none_iff.1 he.symm]
  | some e =>
    rw [hv] at he
    obtain ⟨e', hw, hs⟩ := map_eq_some_iff.1 he.symm
    rw [hw]
    exact congrArg some hs.symm

theorem spendCoin {c d : Coin} (hv : v.spendCoin o = some (c, v'))
    (hw : w.spendCoin o = some (d, w')) : SameShape v' w' := by
  obtain ⟨e, hfv, hev⟩ := map_eq_some_iff.1 hv
  obtain ⟨e', hfw, hew⟩ := map_eq_some_iff.1 hw
  cases hev
  cases hew
  have hf := h.fetchCoin o
  rw [hfv, hfw] at hf
  have hfresh : e.fresh = e'.fresh := congrArg (·.2.2) (some.inj hf)
  refine h.setEntry ?_
  rw [hfresh]

theorem addCoin {c d : Coin} {ow : Bool}
    (hscript : c.scriptPubKey = d.scriptPubKey) (hv : v.addCoin o c ow = .ok v')
    (hw : w.addCoin o d ow = .ok w') : SameShape v' w' := by
  have hat : entryShape (v.entryAt o) = entryShape (w.entryAt o) := by
    have he := h.entry o
    unfold CCoinsViewCache.entryAt
    cases hv : v.cacheCoins o with
    | none =>
      rw [hv] at he
      rw [map_eq_none_iff.1 he.symm]
    | some e =>
      rw [hv] at he
      obtain ⟨e', hw, hs⟩ := map_eq_some_iff.1 he.symm
      rw [hw]
      exact hs.symm
  obtain ⟨hc, hv⟩ := CCoinsViewCache.addCoin_ok.1 hv
  obtain ⟨hd, hw⟩ := CCoinsViewCache.addCoin_ok.1 hw
  rw [hscript] at hv
  rcases hv with ⟨hu, rfl⟩ | ⟨hu, -, rfl⟩ <;> rcases hw with ⟨hu', rfl⟩ | ⟨hu', -, rfl⟩
  · exact h
  · rw [hu] at hu'; cases hu'
  · rw [hu] at hu'; cases hu'
  · have hdirty : (v.entryAt o).dirty = (w.entryAt o).dirty := congrArg (·.2.1) hat
    have hfresh : (v.entryAt o).fresh = (w.entryAt o).fresh := congrArg (·.2.2) hat
    refine h.setEntry ?_
    simp only [map_some, entryShape, hc, hd, hdirty, hfresh]

end

end SameShape

theorem spendInput_sameShape {s t s' t' : CCoinsViewCache H × List Coin} {i j : CTxIn H}
    (h : SameShape s.1 t.1) (hij : i.isnickname = j.isnickname ∧ i.prevout = j.prevout)
    (hi : spendInput s i = .ok s') (hj : spendInput t j = .ok t') : SameShape s'.1 t'.1 := by
  unfold spendInput at hi hj
  rw [hij.1, hij.2] at hi
  cases hn : j.isnickname with
  | true =>
    rw [hn, if_pos rfl] at hi hj
    cases hi
    cases hj
    exact h
  | false =>
    rw [hn] at hi hj
    cases hs : s.1.spendCoin j.prevout with
    | none => rw [hs] at hi; cases hi
    | some x =>
      cases ht : t.1.spendCoin j.prevout with
      | none => rw [ht] at hj; cases hj
      | some y =>
        rw [hs] at hi
        rw [ht] at hj
        cases hi
        cases hj
        exact h.spendCoin hs ht

theorem forall₂_zipIdx {α β : Type} {R : α → β → Prop} {l : List α} {m : List β} (h : List.Forall₂ R l m) (n : Nat) :
    List.Forall₂ (fun x y => R x.1 y.1 ∧ x.2 = y.2) (l.zipIdx n) (m.zipIdx n) := by
  induction h generalizing n with
  | nil => exact .nil
  | cons hab _ ih => exact .cons ⟨hab, rfl⟩ (ih (n + 1))

theorem updateCoins_sameShape {a b : CTransaction H} {v w v' w' : CCoinsViewCache H}
    {undo undo' : List Coin} (hab : a.SameIds env b) (h : SameShape v w)
    (ha : updateCoins env a v nHeight = .ok (v', undo))
    (hb : updateCoins env b w nHeight = .ok (w', undo')) : SameShape v' w' := by
  obtain ⟨u, hsa, haa⟩ := updateCoins_ok env ha
  obtain ⟨x, hsb, hab'⟩ := updateCoins_ok env hb
  have hux : SameShape u x := by
    unfold spendInputs at hsa hsb
    rw [hab.isCoinBase] at hsa
    cases hc : b.isCoinBase with
    | true =>
      rw [hc] at hsa hsb
      cases hsa
      cases hsb
      exact h
    | false =>
      rw [hc] at hsa hsb
      have h0 : SameShape (v, ([] : List Coin)).1 (w, ([] : List Coin)).1 := h
      exact run_rel (fun s t => SameShape s.1 t.1) _
        (fun _ _ _ _ _ _ hst hij => spendInput_sameShape hst hij) hab.vin h0 hsa hsb
  refine run_rel SameShape _ ?_ (forall₂_zipIdx hab.vout 0) hux haa hab'
  intro s t p q s' t' hst hpq hs ht
  rw [hab.hash, hab.isCoinBase, hpq.2] at hs
  exact hst.addCoin hpq.1.1 hs ht

theorem connectLoop_sameShape {ctx' : ConnectContext H} {a b : CBlock H} {v : CCoinsViewCache H}
    {c d : ConnectLoop H} (hctx : ctx.pindex.nHeight = ctx'.pindex.nHeight)
    (hab : List.Forall₂ (CTransaction.SameIds env) a.vtx b.vtx)
    (ha : connectLoop env params ctx a v = .ok c) (hb : connectLoop env params ctx' b v = .ok d) :
    SameShape c.view d.view := by
  refine run_rel (fun s t : ConnectLoop H => SameShape s.view t.view) _ ?_ hab
    (SameShape.refl v : SameShape (ConnectLoop.view ⟨0, v, 0, 0, [], true⟩) _) ha hb
  intro s t x y s' t' hst hxy hs ht
  obtain ⟨-, -, undo, hx⟩ := connectTx_ok hs
  obtain ⟨-, -, undo', hy⟩ := connectTx_ok ht
  rw [hctx] at hx
  exact updateCoins_sameShape hxy hst hx hy

/-! ## the journal of a block -/

def txOuts (env : Env H) (tx : CTransaction H) :
    List (COutPoint H × Write (CTransaction H × CTxOut)) :=
  (if tx.isCoinBase then [] else (tx.coinInputs.map (·.prevout)).map fun o => (o, .del)) ++
    (tx.vout.zipIdx.filter fun p => !isUnspendable p.1.scriptPubKey).map fun p =>
      (⟨tx.getHash env, UInt32.ofNat p.2⟩, .put (tx, p.1))

def blockOuts (env : Env H) (block : CBlock H) : List (COutPoint H × Write (CTransaction H × CTxOut)) :=
  block.vtx.flatMap (txOuts env)

def outCoin (nHeight : Nat) (p : CTransaction H × CTxOut) : Coin :=
  Coin.ofOut p.2 nHeight p.1.isCoinBase

theorem txWrites_eq (tx : CTransaction H) (nHeight : Nat) :
    txWrites env tx nHeight = (txOuts env tx).map fun a => (a.1, a.2.map (outCoin nHeight)) := by
  unfold txWrites txSpends txCreates txOuts
  cases hc : tx.isCoinBase <;> simp [Write.map, outCoin, Function.comp_def, hc]

theorem mem_blockOuts {o : COutPoint H} {out : CTxOut}
    (h : (o, Write.put (tx, out)) ∈ blockOuts env block) : tx ∈ block.vtx ∧ out ∈ tx.vout := by
  obtain ⟨tx', htx', h⟩ := mem_flatMap.1 h
  rcases mem_append.1 h with h | h
  · split at h
    · cases h
    · obtain ⟨_, -, e⟩ := mem_map.1 h
      cases e
  · obtain ⟨p, hp, e⟩ := mem_map.1 h
    cases e
    exact ⟨htx', fst_mem_of_mem_zipIdx (mem_filter.1 hp).1⟩

def SameOut (env : Env H) (p q : CTransaction H × CTxOut) : Prop :=
  p.1.SameIds env q.1 ∧ p.2.scriptPubKey = q.2.scriptPubKey ∧ p.2.currency = q.2.currency ∧
    p.2.nValueBitCash = q.2.nValueBitCash ∧ (p.1.nVersion < 5 → p.2.nValue = q.2.nValue)

theorem txOuts_rel {a b : CTransaction H} (h : a.SameIds env b) :
    List.Forall₂ (fun x y => x.1 = y.1 ∧ WriteRel (SameOut env) x.2 y.2) (txOuts env a) (txOuts env b) := by
  unfold txOuts
  refine rel_append ?_ ?_
  · rw [h.isCoinBase, h.coinInputs]
    exact forall₂_same.2 fun x hx => by
      split at hx
      · cases hx
      · obtain ⟨o, -, rfl⟩ := mem_map.1 hx
        exact ⟨rfl, .del⟩
  · refine rel_map (R := fun x y => (x.1.scriptPubKey = y.1.scriptPubKey ∧
      x.1.currency = y.1.currency ∧ x.1.nValueBitCash = y.1.nValueBitCash ∧
      (a.nVersion < 5 → x.1.nValue = y.1.nValue)) ∧ x.2 = y.2) (fun x y hxy => ?_)
      (rel_filter (fun x y hxy => ?_) (forall₂_zipIdx h.vout 0))
    · exact ⟨by rw [h.hash, hxy.2], .put ⟨h, hxy.1⟩⟩
    · simp only [hxy.1.1]

theorem blockOuts_rel {a b : CBlock H} (h : List.Forall₂ (CTransaction.SameIds env) a.vtx b.vtx) :
    List.Forall₂ (fun x y => x.1 = y.1 ∧ WriteRel (SameOut env) x.2 y.2) (blockOuts env a) (blockOuts env b) :=
  rel_flatMap h fun _ _ hab => txOuts_rel hab

theorem connectLoop_follows {v : CCoinsViewCache H}
    {c : ConnectLoop H} (h : connectLoop env params ctx block v = .ok c) :
    Follows ((blockOuts env block).map fun a => (a.1, a.2.map (outCoin ctx.pindex.nHeight))) v c.view := by
  have hrun : Follows (block.vtx.flatMap fun tx => txWrites env tx ctx.pindex.nHeight) v c.view := by
    refine run_follows (fun s : ConnectLoop H => s.view) (fun s tx t ht => ?_) h
    obtain ⟨-, -, undo, hup⟩ := connectTx_ok ht
    exact updateCoins_follows env hup
  rw [blockOuts, map_flatMap]
  simpa only [txWrites_eq] using hrun

theorem getCoin_eq_iff {j k : List (COutPoint H × Write Coin)} {v v₁ v₂ : CCoinsViewCache H}
    {R : Coin → Coin → Prop} (h₁ : Follows j v v₁) (h₂ : Follows k v v₂) (hs : SameShape v₁ v₂)
    (o : COutPoint H) (hrel : Option.Rel (WriteRel R) (lastWrite j o) (lastWrite k o)) : v₁.getCoin o = v₂.getCoin o ↔
      ∀ c d, lastWrite j o = some (.put c) → lastWrite k o = some (.put d) → c = d := by
  have e₁ := h₁.entry o
  have e₂ := h₂.entry o
  have hsh := hs.entry o
  cases hj : lastWrite j o with
  | none =>
    rw [hj] at hrel e₁
    cases hk : lastWrite k o with
    | some y => rw [hk] at hrel; cases hrel
    | none =>
      rw [hk] at e₂
      have hsame : v₁.cacheCoins o = v₂.cacheCoins o := Eq.trans e₁ (Eq.symm e₂)
      have hacc : v₁.accessCoin o = v₂.accessCoin o := CCoinsViewCache.accessCoin_congr hs.base hsame
      simp [CCoinsViewCache.getCoin, CCoinsViewCache.haveCoin, hacc]
  | some x =>
    rw [hj] at hrel e₁
    cases hk : lastWrite k o with
    | none => rw [hk] at hrel; cases hrel
    | some y =>
      rw [hk] at hrel e₂
      cases hrel with
      | some hxy =>
        cases hxy with
        | put _ =>
          rename_i c d
          obtain ⟨hc, e, he, rfl⟩ := e₁
          obtain ⟨hd, e', he', rfl⟩ := e₂
          simp [CCoinsViewCache.getCoin, CCoinsViewCache.haveCoin,
            CCoinsViewCache.accessCoin_of_entry he, CCoinsViewCache.accessCoin_of_entry he', hc, hd]
        | del =>
          refine iff_of_true ?_ (fun c d h => by cases h)
          rcases e₁ with hn | ⟨e, he, hspent⟩
          · -- a fresh entry was dropped in both runs: the parent shows through
            have hn' : v₂.cacheCoins o = none := by
              rw [hn] at hsh
              exact map_eq_none_iff.1 hsh.symm
            have hacc : v₁.accessCoin o = v₂.accessCoin o := by
              rw [CCoinsViewCache.accessCoin_of_none hn, CCoinsViewCache.accessCoin_of_none hn', hs.base]
            simp [CCoinsViewCache.getCoin, CCoinsViewCache.haveCoin, hacc]
          · rw [he] at hsh
            obtain ⟨e', he', hshape⟩ := map_eq_some_iff.1 hsh.symm
            have hspent' : e'.coin.isSpent := (congrArg (·.1) hshape).trans hspent
            simp [CCoinsViewCache.getCoin, CCoinsViewCache.haveCoin,
              CCoinsViewCache.accessCoin_of_entry he, CCoinsViewCache.accessCoin_of_entry he',
              hspent, hspent']

/-! ## the amounts -/

theorem inputCurrency_lt (tip : CoinsTip H) (tx : CTransaction H) : inputCurrency (tipCoin tip.coins) tx < 2 := by
  unfold inputCurrency
  split
  · decide
  · rename_i i _ _
    unfold Coin.spendCurrency tipCoin
    split
    · decide
    · cases hc : tip.coins i.prevout with
      | none => decide
      | some c => exact tip.currency _ _ hc

theorem requiredAmount_isSome (p0 p1 : Int) {o : CTxOut} (hc : c < 2)
    (ho : o.currency < 2) : ∃ a, requiredAmount p0 p1 c o = some a := by
  have htwo : ∀ x : UInt8, x < 2 → x = 0 ∨ x = 1 := by
    intro x hx
    have hx' : x.toNat < 2 := UInt8.lt_iff_toNat_lt.1 hx
    rcases (show x.toNat = 0 ∨ x.toNat = 1 by omega) with h | h
    · exact .inl (UInt8.toNat_inj.1 h)
    · exact .inr (UInt8.toNat_inj.1 h)
  unfold requiredAmount
  rcases htwo c hc with rfl | rfl <;> rcases htwo _ ho with h | h <;> simp [h]

theorem requiredAmount_congr {p0 p1 : Int} {o p : CTxOut} (hc : o.currency = p.currency)
    (hv : o.nValueBitCash = p.nValueBitCash) : requiredAmount p0 p1 c o = requiredAmount p0 p1 c p := by
  unfold requiredAmount
  rw [hc, hv]

theorem conversionRule_self {p0 p1 : Int} {o : CTxOut} (ho : o.currency = c)
    (hs : o.nValue ≠ -1) (h : conversionRule p0 p1 c cb o = .ok ()) :
    o.nValue = if o.nValueBitCash = -1 then 2150000000 else o.nValueBitCash := by
  rw [conversionRule, if_pos ho, need_ok, or_eq_true, decide_eq_true_iff] at h
  unfold toleratedOut at h
  simp only [and_eq_true, decide_eq_true_eq] at h
  split
  · rcases h with h | h
    · omega
    · exact h.1.2
  · rcases h with h | h
    · exact h
    · omega

/-- **when two prices ask for one amount**: an output that differs at most in `nValue` has the same
`nValue` under two sets of prices exactly when they require the same amount of it -/
theorem nValue_eq_iff {p0 p1 q0 q1 : Int} {o p : CTxOut} (hc : c < 2)
    (ho : o.currency < 2) (hcur : o.currency = p.currency) (hval : o.nValueBitCash = p.nValueBitCash)
    (hs : o.nValue ≠ -1) (hs' : p.nValue ≠ -1) (hrule : conversionRule p0 p1 c cb o = .ok ())
    (hrule' : conversionRule q0 q1 c cb p = .ok ()) :
    o.nValue = p.nValue ↔ requiredAmount p0 p1 c o = requiredAmount q0 q1 c o := by
  by_cases hself : o.currency = c
  · have h1 := conversionRule_self hself hs hrule
    have h2 := conversionRule_self (hcur.symm.trans hself) hs' hrule'
    rw [requiredAmount_self hself, requiredAmount_self hself, h1, h2, hval]
    simp
  · obtain ⟨a, ha⟩ := requiredAmount_isSome p0 p1 hc ho
    obtain ⟨b, hb⟩ := requiredAmount_isSome q0 q1 hc ho
    have hb' : requiredAmount q0 q1 c p = some b := by rw [← requiredAmount_congr hcur hval, hb]
    have h1 := conversionRule_other hself ha hrule
    have h2 := conversionRule_other (fun e => hself (hcur.trans e)) hb' hrule'
    rw [ha, hb, h1, h2, some.injEq]

/-! ## the hash and the coins -/

section SameHash
variable {tip : CoinsTip H} {a b : CBlock H} {undoPos undoPos' : Res Nat} {s t t' : ConnectState H}
  {p0 p1 q0 q1 : Int}

theorem Accepts.conversionRule (h : Accepts env params a tip.coins undoPos s t)
    (hp0 : a.getPriceinCurrency 0 = .ok p0)
    (hp1 : a.getPriceinCurrency 1 = .ok p1) {o : CTxOut} (htx : tx ∈ a.vtx) (ho : o ∈ tx.vout) :
    BitCash.conversionRule p0 p1 (inputCurrency (tipCoin tip.coins) tx) tx.isCoinBase o = .ok () := by
  obtain ⟨c, -, -, hconv, -⟩ := h.inv
  simp only [checkConversions, hp0, hp1, ok_bind] at hconv
  exact each_ok.1 (each_ok.1 hconv tx htx) o ho

theorem outCoin_eq_iff (ha : Accepts env params a tip.coins undoPos s t)
    (hb : Accepts env params b tip.coins undoPos' s t') (hca : blockRules env params a true true = .ok ())
    (hp0 : a.getPriceinCurrency 0 = .ok p0) (hp1 : a.getPriceinCurrency 1 = .ok p1)
    (hq0 : b.getPriceinCurrency 0 = .ok q0) (hq1 : b.getPriceinCurrency 1 = .ok q1)
    {x y : CTransaction H × CTxOut} (hxy : SameOut env x y) (hx : x.1 ∈ a.vtx ∧ x.2 ∈ x.1.vout)
    (hy : y.1 ∈ b.vtx ∧ y.2 ∈ y.1.vout) (hs : (outCoin nHeight x).isSpent = false)
    (hs' : (outCoin nHeight y).isSpent = false) : outCoin nHeight x = outCoin nHeight y ↔ (5 ≤ x.1.nVersion →
      requiredAmount p0 p1 (inputCurrency (tipCoin tip.coins) x.1) x.2 =
        requiredAmount q0 q1 (inputCurrency (tipCoin tip.coins) x.1) x.2) := by
  obtain ⟨hids, hscript, hcur, hval, hold⟩ := hxy
  have hnValue : outCoin nHeight x = outCoin nHeight y ↔ x.2.nValue = y.2.nValue := by
    simp [outCoin, Coin.ofOut, hscript, hcur, hval, hids.isCoinBase]
  rw [hnValue]
  by_cases hv : 5 ≤ x.1.nVersion
  · simp only [hv, true_implies]
    have hrule := ha.conversionRule hp0 hp1 hx.1 hx.2
    have hrule' := hb.conversionRule hq0 hq1 hy.1 hy.2
    rw [← hids.inputCurrency, ← hids.isCoinBase] at hrule'
    have hout := checkTransaction_outs env ((bodyRules_ok (blockRules_ok.1 hca).2.2.2).2 x.1 hx.1)
    exact nValue_eq_iff (inputCurrency_lt tip x.1) (hout x.2 hx.2).1 hcur hval
      (of_decide_eq_false hs) (of_decide_eq_false hs') hrule hrule'
  · exact iff_of_true (hold (by omega)) fun h => absurd h hv

/-- **a block hash determines the coins** exactly when, for every output of version 5 or higher that
the block leaves unspent, the prices of both blocks require the same amount -/
theorem same_hash_same_coins_iff (hinj : env.Injective) (hca : blockRules env params a true true = .ok ())
    (hcb : blockRules env params b true true = .ok ())
    (hhash : a.getHash env = b.getHash env)
    (ha : Accepts env params a tip.coins undoPos s t) (hb : Accepts env params b tip.coins undoPos' s t')
    (hp0 : a.getPriceinCurrency 0 = .ok p0) (hp1 : a.getPriceinCurrency 1 = .ok p1)
    (hq0 : b.getPriceinCurrency 0 = .ok q0) (hq1 : b.getPriceinCurrency 1 = .ok q1) :
    t.view.getCoin = t'.view.getCoin ↔
      ∀ o tx out, lastWrite (blockOuts env a) o = some (.put (tx, out)) → 5 ≤ tx.nVersion →
        requiredAmount p0 p1 (inputCurrency (tipCoin tip.coins) tx) out =
          requiredAmount q0 q1 (inputCurrency (tipCoin tip.coins) tx) out := by
  have hids := ids_eq_of_hash hinj hca hcb hhash
  obtain ⟨c, hla, -, -, hta, -⟩ := ha.inv
  obtain ⟨d, hlb, -, -, htb, -⟩ := hb.inv
  have hfa := connectLoop_follows hla
  have hfb := connectLoop_follows hlb
  have hshape := connectLoop_sameShape rfl hids hla hlb
  rw [hta, htb, funext_iff]
  refine forall_congr' fun o => ?_
  have hrel := lastWrite_rel (blockOuts_rel hids) o
  rw [getCoin_eq_iff hfa hfb hshape o (by rw [lastWrite_map, lastWrite_map]; exact rel_map hrel),
    lastWrite_map, lastWrite_map]
  cases hx : lastWrite (blockOuts env a) o with
  | none => simp
  | some wx =>
    cases hy : lastWrite (blockOuts env b) o with
    | none => rw [hx, hy] at hrel; cases hrel
    | some wy =>
      rw [hx, hy] at hrel
      cases hrel with
      | some hw =>
        cases hw with
        | del => simp [Write.map]
        | put hxy =>
          rename_i x y
          have ex := hfa.entry o
          have ey := hfb.entry o
          rw [lastWrite_map, hx] at ex
          rw [lastWrite_map, hy] at ey
          have hiff := outCoin_eq_iff ha hb hca hp0 hp1 hq0 hq1 hxy
            (mem_blockOuts (lastWrite_mem hx)) (mem_blockOuts (lastWrite_mem hy)) ex.1 ey.1
          obtain ⟨tx, out⟩ := x
          simp only [Option.map_some, Write.map, Option.some.injEq, Write.put.injEq, Prod.mk.injEq,
            forall_eq', and_imp, forall_apply_eq_imp_iff]
          exact hiff

end SameHash

def parBlock (vtx : List (CTransaction Digest)) : CBlock Digest :=
  symBlock (pricesAt 1000000000 1000000000 (.refl true))
    (symCoinbase [devOut 2150000000] (.refl true) :: vtx)

def buyAtPar : CTransaction Digest := spendTen [.of 10 10 [] 1] (by decide)

/-- **one hash, two sets of coins**: the same id buys five Dollars at one price and ten at another, and
both headers have one hash -/
theorem same_hash_other_coins : (halfBlock [buyDollars]).getHash symEnv =
        (parBlock [buyAtPar]).getHash symEnv ∧
      blockRules symEnv symMain (halfBlock [buyDollars]) true true = .ok () ∧
      blockRules symEnv symMain (parBlock [buyAtPar]) true true = .ok () ∧
      ∃ t t', Accepts symEnv symMain (halfBlock [buyDollars]) tenTip (.ok 7)
          (tenState (halfBlock [buyDollars])) t ∧
        Accepts symEnv symMain (parBlock [buyAtPar]) tenTip (.ok 7)
          (tenState (halfBlock [buyDollars])) t' ∧
        t.view.getCoin ⟨buyDollars.getHash symEnv, 0⟩ = some ⟨5, 10, [], 1, 2, false⟩ ∧
        t'.view.getCoin ⟨buyDollars.getHash symEnv, 0⟩ = some ⟨10, 10, [], 1, 2, false⟩ := by
  refine ⟨by decide, by decide, by decide,
    (connectBlock symEnv symMain (halfBlock [buyDollars]) tenTip (.ok 7) false
      (tenState (halfBlock [buyDollars]))).2,
    (connectBlock symEnv symMain (parBlock [buyAtPar]) tenTip (.ok 7) false
      (tenState (halfBlock [buyDollars]))).2,
    ⟨Prod.ext (by decide) rfl, by decide⟩,
    ⟨Prod.ext (by decide) rfl, by decide⟩, by decide, by decide⟩

def keepTen : CTransaction Digest := spendTen [.of 10 10 [] 0] (by decide)

/-- where nothing is converted, the prices do not matter -/
theorem same_hash_same_coins_keepTen :
    ∃ t t', Accepts symEnv symMain (halfBlock [keepTen]) tenTip (.ok 7)
        (tenState (halfBlock [keepTen])) t ∧
      Accepts symEnv symMain (parBlock [keepTen]) tenTip (.ok 7)
        (tenState (halfBlock [keepTen])) t' ∧ t.view.getCoin = t'.view.getCoin := by
  have ha : Accepts symEnv symMain (halfBlock [keepTen]) tenCoins.coins (.ok 7)
      (tenState (halfBlock [keepTen]))
      (connectBlock symEnv symMain (halfBlock [keepTen]) tenTip (.ok 7) false
        (tenState (halfBlock [keepTen]))).2 :=
    ⟨Prod.ext (by decide) rfl, by decide⟩
  have hb : Accepts symEnv symMain (parBlock [keepTen]) tenCoins.coins (.ok 7)
      (tenState (halfBlock [keepTen]))
      (connectBlock symEnv symMain (parBlock [keepTen]) tenTip (.ok 7) false
        (tenState (halfBlock [keepTen]))).2 :=
    ⟨Prod.ext (by decide) rfl, by decide⟩
  have hp : ∀ c : UInt8, c = 0 ∨ c = 1 →
      (halfBlock [keepTen]).getPriceinCurrency c = .ok 500000000 := by
    rintro c (rfl | rfl) <;> decide
  have hq : ∀ c : UInt8, c = 0 ∨ c = 1 →
      (parBlock [keepTen]).getPriceinCurrency c = .ok 1000000000 := by
    rintro c (rfl | rfl) <;> decide
  refine ⟨_, _, ha, hb, (same_hash_same_coins_iff symEnv_injective (by decide)
    (by decide) (by decide) ha hb (hp 0 (.inl rfl)) (hp 1 (.inr rfl))
    (hq 0 (.inl rfl)) (hq 1 (.inr rfl))).2 ?_⟩
  have hall : ∀ tx ∈ (halfBlock [keepTen]).vtx, inputCurrency (tipCoin tenCoins.coins) tx = 0 ∧
      ∀ out ∈ tx.vout, out.currency = 0 := by
    decide
  intro o tx out hlast _
  obtain ⟨htx, hout⟩ := mem_blockOuts (lastWrite_mem hlast)
  obtain ⟨hin, hcur⟩ := hall tx htx
  replace hcur := hcur out hout
  rw [requiredAmount_self (hcur.trans hin.symm), requiredAmount_self (hcur.trans hin.symm)]

end BitCash
