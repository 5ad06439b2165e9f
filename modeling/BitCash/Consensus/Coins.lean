import BitCash.Consensus.Params
import BitCash.Lib.Journal

/-!
# Coins and the views on them

`Coin`, `CCoinsViewCache` and `UpdateCoins` of `coins.h`, `coins.cpp`, `validation.cpp`.
-/

set_option linter.unusedSectionVars false

namespace BitCash
open Checks Journal Option

variable {H : Type} [Inhabited H] [DecidableEq H] {ow : Bool}

structure Coin where
  nValue : Int
  nValueBitCash : Int
  scriptPubKey : CScript
  currency : UInt8
  nHeight : Nat
  fCoinBase : Bool
  deriving DecidableEq

def Coin.empty : Coin := ⟨-1, -1, [], 0, 0, false⟩

def Coin.isSpent (c : Coin) : Bool := decide (c.nValue = -1)

def Coin.spendCurrency (c : Coin) : UInt8 := if c.fCoinBase then 0 else c.currency

def Coin.ofOut (o : CTxOut) (nHeight : Nat) (fCoinBase : Bool) : Coin :=
  ⟨o.nValue, o.nValueBitCash, o.scriptPubKey, o.currency, nHeight, fCoinBase⟩

@[simp] theorem Coin.isSpent_empty : Coin.empty.isSpent := rfl

abbrev CoinsMap (H : Type) := COutPoint H → Option Coin

structure CCoinsCacheEntry where
  coin : Coin
  dirty : Bool
  fresh : Bool
  deriving DecidableEq

structure CCoinsViewCache (H : Type) where
  base : CoinsMap H
  cacheCoins : COutPoint H → Option CCoinsCacheEntry
  hashBlock : H

variable {c : Coin}

namespace CCoinsViewCache

def ofBase (base : CoinsMap H) (hashBlock : H) : CCoinsViewCache H := ⟨base, fun _ => none, hashBlock⟩

def fetchCoin (v : CCoinsViewCache H) (o : COutPoint H) : Option CCoinsCacheEntry :=
  (v.cacheCoins o).or ((v.base o).map fun c => ⟨c, false, c.isSpent⟩)

def accessCoin (v : CCoinsViewCache H) (o : COutPoint H) : Coin :=
  ((v.fetchCoin o).map (·.coin)).getD Coin.empty

def haveCoin (v : CCoinsViewCache H) (o : COutPoint H) : Bool := !(v.accessCoin o).isSpent

def getCoin (v : CCoinsViewCache H) : CoinsMap H := fun o =>
  if v.haveCoin o then some (v.accessCoin o) else none

def haveInputs (v : CCoinsViewCache H) (tx : CTransaction H) : Bool :=
  tx.isCoinBase || tx.vin.all fun i => i.isnickname || v.haveCoin i.prevout

def setEntry (v : CCoinsViewCache H) (o : COutPoint H) (e : Option CCoinsCacheEntry) :
    CCoinsViewCache H :=
  { v with cacheCoins := fun x => if x = o then e else v.cacheCoins x }

def entryAt (v : CCoinsViewCache H) (o : COutPoint H) : CCoinsCacheEntry :=
  (v.cacheCoins o).getD ⟨Coin.empty, false, false⟩

def addCoin (v : CCoinsViewCache H) (o : COutPoint H) (coin : Coin) (possibleOverwrite : Bool) :
    Res (CCoinsViewCache H) := do
  need (!coin.isSpent) (.fault .assertionFailed)
  if isUnspendable coin.scriptPubKey then pure v
  else do
    let old := v.entryAt o
    need (possibleOverwrite || old.coin.isSpent)
      (.throws "Adding new coin that replaces non-pruned entry")
    pure (v.setEntry o (some ⟨coin, true, old.fresh || (!possibleOverwrite && !old.dirty)⟩))

def spendCoin (v : CCoinsViewCache H) (o : COutPoint H) : Option (Coin × CCoinsViewCache H) :=
  (v.fetchCoin o).map fun e =>
    (e.coin, v.setEntry o (if e.fresh then none else some ⟨Coin.empty, true, false⟩))

def setBestBlock (v : CCoinsViewCache H) (hash : H) : CCoinsViewCache H := { v with hashBlock := hash }

section
variable (v : CCoinsViewCache H)
include v

@[simp] theorem setBestBlock_getCoin (hash : H) : (v.setBestBlock hash).getCoin = v.getCoin := rfl

@[simp] theorem setEntry_base (o : COutPoint H) (e : Option CCoinsCacheEntry) :
    (v.setEntry o e).base = v.base := rfl

@[simp] theorem setEntry_self (o : COutPoint H)
    (e : Option CCoinsCacheEntry) : (v.setEntry o e).cacheCoins o = e := if_pos rfl

theorem setEntry_of_ne {o x : COutPoint H} (e : Option CCoinsCacheEntry)
    (h : x ≠ o) : (v.setEntry o e).cacheCoins x = v.cacheCoins x := if_neg h

end

variable {o : COutPoint H} {v : CCoinsViewCache H}

theorem accessCoin_of_entry {e : CCoinsCacheEntry} (h : v.cacheCoins o = some e) : v.accessCoin o = e.coin := by
  simp [accessCoin, fetchCoin, h]

theorem accessCoin_of_none (h : v.cacheCoins o = none) : v.accessCoin o = (v.base o).getD Coin.empty := by
  simp only [accessCoin, fetchCoin, h, none_or, map_map]
  cases v.base o <;> rfl

theorem haveCoin_iff : v.haveCoin o ↔ (v.accessCoin o).isSpent = false := by
  rw [haveCoin, Bool.not_eq_true']

theorem accessCoin_congr {w : CCoinsViewCache H} (hbase : w.base = v.base)
    (h : w.cacheCoins o = v.cacheCoins o) : w.accessCoin o = v.accessCoin o := by
  simp only [accessCoin, fetchCoin, h, hbase]

theorem addCoin_ok {w : CCoinsViewCache H} : v.addCoin o c ow = .ok w ↔ c.isSpent = false ∧
      ((isUnspendable c.scriptPubKey ∧ w = v) ∨
        (isUnspendable c.scriptPubKey = false ∧ (ow ∨ (v.entryAt o).coin.isSpent) ∧
          w = v.setEntry o (some ⟨c, true, (v.entryAt o).fresh || (!ow && !(v.entryAt o).dirty)⟩))) := by
  simp only [addCoin, need_bind_ok, Bool.not_eq_true']
  cases isUnspendable c.scriptPubKey with
  | true => simp [@eq_comm _ w]
  | false => simp [need_bind_ok, @eq_comm _ w]

end CCoinsViewCache

variable (env : Env H)

def addCoins (v : CCoinsViewCache H) (tx : CTransaction H) (nHeight : Nat) :
    Res (CCoinsViewCache H) :=
  run (fun v p => v.addCoin ⟨tx.getHash env, UInt32.ofNat p.2⟩ (Coin.ofOut p.1 nHeight tx.isCoinBase)
    tx.isCoinBase) v tx.vout.zipIdx

def spendInput (s : CCoinsViewCache H × List Coin) (i : CTxIn H) :
    Res (CCoinsViewCache H × List Coin) :=
  if i.isnickname then .ok (s.1, s.2 ++ [Coin.empty])
  else match s.1.spendCoin i.prevout with
    | none => .error (.fault .assertionFailed)
    | some (c, v) => .ok (v, s.2 ++ [c])

/-- the first half of `UpdateCoins`: mark the inputs spent -/
def spendInputs (tx : CTransaction H) (v : CCoinsViewCache H) :
    Res (CCoinsViewCache H × List Coin) :=
  if tx.isCoinBase then .ok (v, []) else run spendInput (v, []) tx.vin

def updateCoins (tx : CTransaction H) (v : CCoinsViewCache H) (nHeight : Nat) :
    Res (CCoinsViewCache H × List Coin) := do
  let spent ← spendInputs tx v
  let v ← addCoins env spent.1 tx nHeight
  pure (v, spent.2)

/-! ## the journal of a transaction -/

def txSpends (tx : CTransaction H) : List (COutPoint H × Write Coin) :=
  if tx.isCoinBase then [] else tx.coinInputs.map fun i => (i.prevout, .del)

def txCreates (tx : CTransaction H) (nHeight : Nat) : List (COutPoint H × Write Coin) :=
  (tx.vout.zipIdx.filter fun p => !isUnspendable p.1.scriptPubKey).map fun p =>
    (⟨tx.getHash env, UInt32.ofNat p.2⟩, .put (Coin.ofOut p.1 nHeight tx.isCoinBase))

def txWrites (tx : CTransaction H) (nHeight : Nat) : List (COutPoint H × Write Coin) :=
  txSpends tx ++ txCreates env tx nHeight

def EntryAfter (before : Option CCoinsCacheEntry) :
    Option (Write Coin) → Option CCoinsCacheEntry → Prop
  | some (.put c), after => c.isSpent = false ∧ ∃ e, after = some e ∧ e.coin = c
  | some .del, after => after = none ∨ ∃ e, after = some e ∧ e.coin.isSpent = true
  | none, after => after = before

/-- the cache of the second view is that of the first one with the writes of the journal -/
structure Follows (l : List (COutPoint H × Write Coin)) (v w : CCoinsViewCache H) : Prop where
  base : w.base = v.base
  hashBlock : w.hashBlock = v.hashBlock
  entry : ∀ o, EntryAfter (v.cacheCoins o) (lastWrite l o) (w.cacheCoins o)

theorem Follows.refl (v : CCoinsViewCache H) : Follows [] v v := ⟨rfl, rfl, fun _ => rfl⟩

variable {v w : CCoinsViewCache H}
  {tx : CTransaction H} {undo : List Coin} {l : List (COutPoint H × Write Coin)} {nHeight : Nat}

/-- **what is at an outpoint afterwards**: what was there before, where nothing was written, no unspent
coin of the cache, or a coin of the journal -/
theorem Follows.cases_at (h : Follows l v w) (o : COutPoint H) :
    (lastWrite l o = none ∧ w.cacheCoins o = v.cacheCoins o) ∨ ((o, .del) ∈ l ∧
        (w.cacheCoins o = none ∨ ∃ e, w.cacheCoins o = some e ∧ e.coin.isSpent)) ∨
      ∃ e, (o, .put e.coin) ∈ l ∧ w.cacheCoins o = some e ∧ e.coin.isSpent = false := by
  have hentry := h.entry o
  cases hl : lastWrite l o with
  | none =>
    rw [hl] at hentry
    exact .inl ⟨rfl, hentry⟩
  | some x =>
    rw [hl] at hentry
    cases x with
    | del => exact .inr (.inl ⟨lastWrite_mem hl, hentry⟩)
    | put c =>
      obtain ⟨hc, e, he, rfl⟩ := hentry
      exact .inr (.inr ⟨e, lastWrite_mem hl, he, hc⟩)

theorem Follows.append {m : List (COutPoint H × Write Coin)} {u : CCoinsViewCache H}
    (h : Follows l u v) (h' : Follows m v w) : Follows (l ++ m) u w := by
  refine ⟨h'.base.trans h.base, h'.hashBlock.trans h.hashBlock, fun o => ?_⟩
  have hv := h.entry o
  have hw := h'.entry o
  rw [lastWrite_append]
  cases hm : lastWrite m o with
  | some x =>
    rw [hm] at hw
    cases x with
    | put c => exact hw
    | del => exact hw
  | none =>
    rw [hm] at hw
    rw [none_or]
    have hsame : w.cacheCoins o = v.cacheCoins o := hw
    rwa [hsame]

theorem Follows.setEntry (v : CCoinsViewCache H) (o : COutPoint H) (x : Write Coin)
    (e : Option CCoinsCacheEntry) (h : EntryAfter (v.cacheCoins o) (some x) e) :
    Follows [(o, x)] v (v.setEntry o e) := by
  refine ⟨rfl, rfl, fun y => ?_⟩
  rw [lastWrite_cons, lastWrite_nil, none_or]
  by_cases hy : o = y
  · rw [← hy, if_pos rfl, CCoinsViewCache.setEntry_self]
    exact h
  · rw [if_neg hy, CCoinsViewCache.setEntry_of_ne v e (fun h => hy h.symm)]
    rfl

theorem spendCoin_follows {o : COutPoint H} (h : v.spendCoin o = some (c, w)) : Follows [(o, .del)] v w := by
  obtain ⟨e, -, he⟩ := map_eq_some_iff.1 h
  cases he
  refine Follows.setEntry v o .del _ ?_
  cases e.fresh with
  | true => exact .inl rfl
  | false => exact .inr ⟨_, rfl, rfl⟩

def outWrites (o : COutPoint H) (c : Coin) : List (COutPoint H × Write Coin) :=
  if isUnspendable c.scriptPubKey then [] else [(o, .put c)]

theorem addCoin_follows {o : COutPoint H} (h : v.addCoin o c ow = .ok w) : Follows (outWrites o c) v w := by
  obtain ⟨hc, ⟨hu, rfl⟩ | ⟨hu, -, rfl⟩⟩ := CCoinsViewCache.addCoin_ok.1 h
  · rw [outWrites, if_pos hu]
    exact Follows.refl _
  · rw [outWrites, hu]
    exact Follows.setEntry v o (.put c) _ ⟨hc, _, rfl, rfl⟩

theorem run_follows {α σ : Type} {step : σ → α → Res σ} {f : α → List (COutPoint H × Write Coin)}
    (view : σ → CCoinsViewCache H) (hstep : ∀ s a t, step s a = .ok t → Follows (f a) (view s) (view t))
    {l : List α} {s t : σ} (h : run step s l = .ok t) : Follows (l.flatMap f) (view s) (view t) := by
  induction l generalizing s with
  | nil =>
    cases h
    exact Follows.refl _
  | cons a l ih =>
    obtain ⟨s', ha, hl⟩ := run_cons_ok.1 h
    rw [List.flatMap_cons]
    exact (hstep s a s' ha).append (ih hl)

theorem spendInput_follows {s t : CCoinsViewCache H × List Coin} {i : CTxIn H} (h : spendInput s i = .ok t) :
    Follows (if i.isnickname then [] else [(i.prevout, .del)]) s.1 t.1 := by
  unfold spendInput at h
  cases hn : i.isnickname with
  | true =>
    rw [hn, if_pos rfl] at h
    cases h
    exact Follows.refl _
  | false =>
    rw [hn] at h
    cases hs : s.1.spendCoin i.prevout with
    | none => rw [hs] at h; cases h
    | some p =>
      rw [hs] at h
      cases h
      exact spendCoin_follows hs

theorem txSpends_eq (h : tx.isCoinBase = false) :
    txSpends tx = tx.vin.flatMap fun i => if i.isnickname then [] else [(i.prevout, .del)] := by
  rw [txSpends, h, CTransaction.coinInputs]
  induction tx.vin with
  | nil => rfl
  | cons i l ih => cases hi : i.isnickname <;> simp_all

theorem txCreates_eq (tx : CTransaction H) (nHeight : Nat) :
    txCreates env tx nHeight = tx.vout.zipIdx.flatMap fun p =>
      outWrites ⟨tx.getHash env, UInt32.ofNat p.2⟩ (Coin.ofOut p.1 nHeight tx.isCoinBase) := by
  rw [txCreates]
  induction tx.vout.zipIdx with
  | nil => rfl
  | cons p l ih => cases hp : isUnspendable p.1.scriptPubKey <;> simp_all [outWrites, Coin.ofOut]

theorem updateCoins_ok (h : updateCoins env tx v nHeight = .ok (w, undo)) :
    ∃ u, spendInputs tx v = .ok (u, undo) ∧ addCoins env u tx nHeight = .ok w := by
  rw [updateCoins] at h
  obtain ⟨⟨u, undo'⟩, hs, h⟩ := bind_ok.1 h
  obtain ⟨w', ha, h⟩ := bind_ok.1 h
  cases h
  exact ⟨u, hs, ha⟩

theorem updateCoins_follows (h : updateCoins env tx v nHeight = .ok (w, undo)) :
    Follows (txWrites env tx nHeight) v w := by
  obtain ⟨u, hs, ha⟩ := updateCoins_ok env h
  have hspend : Follows (txSpends tx) v u := by
    unfold spendInputs at hs
    cases hc : tx.isCoinBase with
    | true =>
      rw [hc] at hs
      cases hs
      rw [txSpends, hc]
      exact Follows.refl _
    | false =>
      rw [hc] at hs
      rw [txSpends_eq hc]
      exact run_follows (fun s => s.1) (fun _ _ _ => spendInput_follows) hs
  refine hspend.append ?_
  rw [txCreates_eq]
  exact run_follows id (fun _ _ _ => addCoin_follows) ha

end BitCash
