import BitCash.Consensus.Layers

/-!
# Coherent views

A view is coherent when the flags of its cached entries are right over its parent (`WriteBack.Good`) and no
unspendable coin is in it, as `AddCoin` sees to.
-/

set_option linter.unusedSectionVars false

variable {e : Option CCoinsCacheEntry}

namespace BitCash
open Checks Journal WriteBack List Function CCoinsCacheEntry UInt32

variable {H : Type} [Inhabited H] [DecidableEq H] {ow : Bool}

namespace CCoinsViewCache

structure Coherent (v : CCoinsViewCache H) : Prop where
  good : ∀ o, Good (v.base o) ((v.cacheCoins o).map CCoinsCacheEntry.entry)
  unspent : ∀ o c, v.base o = some c → c.isSpent = false
  spendable : ∀ o c, v.getCoin o = some c → isUnspendable c.scriptPubKey = false

variable {v w : CCoinsViewCache H} {o : COutPoint H} {c : Coin}

theorem getCoin_eq_unspent (v : CCoinsViewCache H) (o : COutPoint H) : v.getCoin o = (v.accessCoin o).unspent := by
  unfold getCoin haveCoin Coin.unspent
  cases (v.accessCoin o).isSpent <;> rfl

theorem getCoin_of_entry {e : CCoinsCacheEntry} (h : v.cacheCoins o = some e) : v.getCoin o = e.coin.unspent := by
  rw [getCoin_eq_unspent, accessCoin_of_entry h]

theorem getCoin_unspent (h : v.getCoin o = some c) : c.isSpent = false := by
  rw [getCoin_eq_unspent] at h
  obtain ⟨hc, rfl⟩ := Coin.unspent_eq_some.1 h
  exact hc

theorem haveCoin_eq (v : CCoinsViewCache H) (o : COutPoint H) : v.haveCoin o = (v.getCoin o).isSome := by
  unfold getCoin
  cases v.haveCoin o <;> rfl

theorem Coherent.getCoin_eq_read (hv : v.Coherent) (o : COutPoint H) :
    v.getCoin o = read (v.base o) ((v.cacheCoins o).map entry) := by
  cases h : v.cacheCoins o with
  | some e => exact getCoin_of_entry h
  | none =>
    rw [getCoin_eq_unspent, accessCoin_of_none h, Option.map_none, read_none]
    cases hb : v.base o with
    | none => rfl
    | some c => exact Coin.unspent_of_not_spent (hv.unspent o c hb)

theorem coherent_ofBase {base : CoinsMap H} {hashBlock : H} (hunspent : ∀ o c, base o = some c → c.isSpent = false)
    (hspendable : ∀ o c, base o = some c → isUnspendable c.scriptPubKey = false) :
    (ofBase base hashBlock).Coherent ∧ (ofBase base hashBlock).getCoin = base := by
  have hget : (ofBase base hashBlock).getCoin = base := by
    funext o
    rw [getCoin_eq_unspent, accessCoin_of_none rfl]
    show ((base o).getD Coin.empty).unspent = base o
    cases hb : base o with
    | none => rfl
    | some c => exact Coin.unspent_of_not_spent (hunspent o c hb)
  refine ⟨⟨fun o => Good.none _, hunspent, fun o c hc => hspendable o c ?_⟩, hget⟩
  rwa [hget] at hc

theorem Coherent.setEntry (hv : v.Coherent) {x : Option Coin} (hgood : Good (v.base o) (e.map entry))
    (hread : read (v.base o) (e.map entry) = x)
    (hx : ∀ c, x = some c → isUnspendable c.scriptPubKey = false) :
    (v.setEntry o e).Coherent ∧ (v.setEntry o e).getCoin = update v.getCoin o x := by
  have hgood' : ∀ y, Good ((v.setEntry o e).base y) (((v.setEntry o e).cacheCoins y).map entry) := by
    intro y
    by_cases hy : y = o
    · rw [hy, setEntry_self]
      exact hgood
    · rw [setEntry_of_ne v e hy]
      exact hv.good y
  have hget : (v.setEntry o e).getCoin = update v.getCoin o x := by
    funext y
    by_cases hy : y = o
    · rw [hy, update_self, ← hread]
      cases e with
      | some e => exact getCoin_of_entry (setEntry_self v o _)
      | none =>
        rw [getCoin_eq_unspent, accessCoin_of_none (setEntry_self v o none)]
        show ((v.base o).getD Coin.empty).unspent = v.base o
        cases hb : v.base o with
        | none => rfl
        | some c => exact Coin.unspent_of_not_spent (hv.unspent o c hb)
    · rw [update_of_ne hy, getCoin_eq_unspent, getCoin_eq_unspent,
        accessCoin_congr (setEntry_base v o e) (setEntry_of_ne v e hy)]
  refine ⟨⟨hgood', hv.unspent, fun y c hc => ?_⟩, hget⟩
  rw [hget] at hc
  by_cases hy : y = o
  · rw [hy, update_self] at hc
    exact hx c hc
  · rw [update_of_ne hy] at hc
    exact hv.spendable y c hc

theorem Coherent.fetch_good (hv : v.Coherent) {e : CCoinsCacheEntry} (he : v.fetchCoin o = some e) :
    Good (v.base o) (some e.entry) ∧ v.getCoin o = e.coin.unspent := by
  unfold fetchCoin at he
  cases hc : v.cacheCoins o with
  | some x =>
    rw [hc, Option.some_or] at he
    cases he
    have hgood := hv.good o
    rw [hc] at hgood
    exact ⟨hgood, getCoin_of_entry hc⟩
  | none =>
    rw [hc, Option.none_or] at he
    obtain ⟨c, hb, rfl⟩ := Option.map_eq_some_iff.1 he
    have hspent := hv.unspent o c hb
    have hget := hv.getCoin_eq_read o
    rw [hc, Option.map_none, read_none, hb] at hget
    refine ⟨?_, ?_⟩
    · show Good (v.base o) (some ⟨c.unspent, false, c.isSpent⟩)
      rw [Coin.unspent_of_not_spent hspent, hspent, hb]
      exact Good.copy _
    · rw [hget, Coin.unspent_of_not_spent hspent]

theorem Coherent.spendCoin (hv : v.Coherent) (h : v.spendCoin o = some (c, w)) :
    w.Coherent ∧ w.getCoin = update v.getCoin o none ∧ v.getCoin o = c.unspent ∧ w.hashBlock = v.hashBlock := by
  obtain ⟨e, he, heq⟩ := Option.map_eq_some_iff.1 h
  cases heq
  obtain ⟨hgood, hget⟩ := hv.fetch_good he
  have herase : (if e.fresh then none else some ⟨Coin.empty, true, false⟩ :
      Option CCoinsCacheEntry).map entry = erase e.entry := by
    unfold erase
    cases hf : e.fresh <;> simp [entry, hf, Coin.unspent]
  obtain ⟨hgood', hread⟩ := good_erase hgood
  obtain ⟨hco, hup⟩ := hv.setEntry (o := o)
    (e := if e.fresh then none else some ⟨Coin.empty, true, false⟩) (x := none)
    (by rw [herase]; exact hgood') (by rw [herase]; exact hread) (fun c hc => nomatch hc)
  exact ⟨hco, hup, hget, rfl⟩

theorem Coherent.getCoin_of_spendCoin_none (h : v.spendCoin o = none) : v.getCoin o = none := by
  have hf : v.fetchCoin o = none := Option.map_eq_none_iff.1 h
  rw [getCoin_eq_unspent, CCoinsViewCache.accessCoin, hf]
  rfl

theorem Coherent.addCoin (hv : v.Coherent) (ow : Bool) (hc : c.isSpent = false)
    (hu : isUnspendable c.scriptPubKey = false) (how : ow = false → v.getCoin o = none) :
    ∃ w, v.addCoin o c ow = .ok w ∧ w.Coherent ∧ w.getCoin = update v.getCoin o (some c) ∧
      w.hashBlock = v.hashBlock := by
  have hentry : (some (⟨c, true, (v.entryAt o).fresh || (!ow && !(v.entryAt o).dirty)⟩ :
      CCoinsCacheEntry)).map entry =
      some (put ((v.cacheCoins o).map entry) c ow) := by
    unfold entryAt put entry
    cases v.cacheCoins o <;> simp [Coin.unspent_of_not_spent hc]
  have hgood : Good (v.base o) (some (put ((v.cacheCoins o).map entry) c ow)) := by
    refine good_put (hv.good o) c fun hf => ?_
    rw [← hv.getCoin_eq_read]
    exact how hf
  obtain ⟨hco, hup⟩ := hv.setEntry (o := o)
    (e := some ⟨c, true, (v.entryAt o).fresh || (!ow && !(v.entryAt o).dirty)⟩) (x := some c)
    (by rw [hentry]; exact hgood) (by rw [hentry]; rfl)
    (fun d hd => by cases hd; exact hu)
  refine ⟨_, addCoin_ok.2 ⟨hc, .inr ⟨hu, ?_, rfl⟩⟩, hco, hup, rfl⟩
  cases ow with
  | true => exact .inl rfl
  | false =>
    refine .inr ?_
    have hnone := how rfl
    unfold entryAt
    cases he : v.cacheCoins o with
    | none => rfl
    | some e =>
      rw [getCoin_of_entry he] at hnone
      unfold Coin.unspent at hnone
      cases hs : e.coin.isSpent with
      | true => exact hs
      | false => rw [hs] at hnone; cases hnone

/-! ## a transaction -/

def NoShadow (v : CCoinsViewCache H) (s : COutPoint H → Prop) : Prop :=
  ∀ o, s o → v.cacheCoins o = none → v.base o = none

variable {s : COutPoint H → Prop}

theorem Coherent.noShadow (hv : v.Coherent) (h : ∀ o, s o → v.getCoin o = none) : v.NoShadow s := by
  intro o ho hc
  have hget := hv.getCoin_eq_read o
  rw [h o ho, hc] at hget
  exact hget.symm

theorem NoShadow.setEntry (h : v.NoShadow s) (he : e = none → v.base o = none) : (v.setEntry o e).NoShadow s := by
  intro y hy hc
  by_cases heq : y = o
  · rw [heq, setEntry_self] at hc
    rw [heq]
    exact he hc
  · rw [setEntry_of_ne v e heq] at hc
    exact h y hy hc

theorem NoShadow.spendCoin (hv : v.Coherent) (hs : v.NoShadow s) (h : v.spendCoin o = some (c, w)) :
    w.NoShadow s := by
  obtain ⟨e, he, heq⟩ := Option.map_eq_some_iff.1 h
  cases heq
  refine hs.setEntry fun hnone => ?_
  have hgood := (hv.fetch_good he).1
  cases hf : e.fresh with
  | true => exact hgood.fresh _ rfl hf
  | false => rw [hf] at hnone; cases hnone

theorem Coherent.addCoin_ok (hv : v.Coherent) (hs : v.NoShadow s) (ho : s o)
    (how : ow → v.getCoin o = none) (h : v.addCoin o c ow = .ok w) :
    w.Coherent ∧ w.NoShadow s ∧ c.isSpent = false ∧ w.hashBlock = v.hashBlock ∧
      w.getCoin = applyTo v.getCoin (outWrites o c) ∧
      (isUnspendable c.scriptPubKey = false → v.getCoin o = none) := by
  obtain ⟨hc, ⟨hu, rfl⟩ | ⟨hu, hold, rfl⟩⟩ := CCoinsViewCache.addCoin_ok.1 h
  · rw [outWrites, if_pos hu]
    exact ⟨hv, hs, hc, rfl, rfl, fun hf => absurd (hu.symm.trans hf) (by decide)⟩
  · have hnew : v.getCoin o = none := by
      rcases hold with how' | hspent
      · exact how how'
      · cases he : v.cacheCoins o with
        | none =>
          have hget := hv.getCoin_eq_read o
          rw [he, Option.map_none, read_none, hs o ho he] at hget
          exact hget
        | some e =>
          unfold entryAt at hspent
          rw [he] at hspent
          rw [getCoin_of_entry he]
          exact Coin.unspent_of_spent hspent
    obtain ⟨w, hw, hco, hget, hhash⟩ := hv.addCoin ow hc hu fun _ => hnew
    have heq := Except.ok.inj (hw.symm.trans h)
    rw [outWrites, hu]
    show _ ∧ _ ∧ _ ∧ _ ∧ _ = applyTo v.getCoin [(o, .put c)] ∧ _
    rw [applyTo_one]
    subst heq
    exact ⟨hco, hs.setEntry fun hf => (by cases hf), hc, hhash, hget, fun _ => hnew⟩

end CCoinsViewCache

def spendWrites (l : List (CTxIn H)) : List (COutPoint H × Write Coin) :=
  l.flatMap fun i => if i.isnickname then [] else [(i.prevout, .del)]

/-- the coins of a record are what the inputs find, one after the other: an unspent coin, or nothing; at
a nickname input the record may hold anything -/
def FoundBy (m : CoinsMap H) : List (CTxIn H) → List Coin → Prop
  | [], [] => True
  | i :: l, c :: u =>
    if i.isnickname then FoundBy m l u
    else m i.prevout = c.unspent ∧ FoundBy (Function.update m i.prevout none) l u
  | _, _ => False

structure Records (m : CoinsMap H) (l : List (CTxIn H)) (u : List Coin) : Prop where
  length : u.length = l.length
  empty : ∀ i c, (i, c) ∈ l.zip u → i.isnickname = true → c = Coin.empty
  found : FoundBy m l u

structure Writes (s : COutPoint H → Prop) (j : List (COutPoint H × Write Coin))
    (v w : CCoinsViewCache H) : Prop where
  coherent : w.Coherent
  noShadow : w.NoShadow s
  hashBlock : w.hashBlock = v.hashBlock
  getCoin : w.getCoin = applyTo v.getCoin j

theorem Writes.append {s : COutPoint H → Prop} {j k : List (COutPoint H × Write Coin)}
    {u v w : CCoinsViewCache H} (h : Writes s j u v) (h' : Writes s k v w) : Writes s (j ++ k) u w := by
  refine ⟨h'.coherent, h'.noShadow, h'.hashBlock.trans h.hashBlock, ?_⟩
  rw [h'.getCoin, h.getCoin, applyTo_append]

variable {s : COutPoint H → Prop} {tx : CTransaction H}

theorem spendInput_writes {a b : CCoinsViewCache H × List Coin} {i : CTxIn H} (hv : a.1.Coherent)
    (hs : a.1.NoShadow s) (h : spendInput a i = .ok b) : ∃ c, b.2 = a.2 ++ [c] ∧
      Writes s (if i.isnickname then [] else [(i.prevout, .del)]) a.1 b.1 ∧ (i.isnickname → c = Coin.empty) ∧
      (i.isnickname = false → a.1.getCoin i.prevout = c.unspent) := by
  unfold spendInput at h
  cases hn : i.isnickname with
  | true =>
    rw [hn, if_pos rfl] at h
    cases h
    exact ⟨_, rfl, ⟨hv, hs, rfl, rfl⟩, fun _ => rfl, fun hf => nomatch hf⟩
  | false =>
    rw [hn] at h
    cases hp : a.1.spendCoin i.prevout with
    | none => rw [hp] at h; cases h
    | some p =>
      rw [hp] at h
      cases h
      obtain ⟨hco, hget, hfound, hhash⟩ := hv.spendCoin hp
      refine ⟨p.1, rfl, ⟨hco, hs.spendCoin hv hp, hhash, ?_⟩, fun hf => (nomatch hf), fun _ => hfound⟩
      show p.2.getCoin = applyTo a.1.getCoin [(i.prevout, .del)]
      rw [applyTo_one, hget]
      rfl

theorem spendInputs_writes {l : List (CTxIn H)} {a b : CCoinsViewCache H × List Coin}
    (hv : a.1.Coherent) (hs : a.1.NoShadow s) (h : run spendInput a l = .ok b) :
    ∃ u, b.2 = a.2 ++ u ∧ Writes s (spendWrites l) a.1 b.1 ∧ Records a.1.getCoin l u := by
  induction l generalizing a with
  | nil =>
    cases h
    exact ⟨[], (append_nil _).symm, ⟨hv, hs, rfl, rfl⟩, rfl, fun i c hmem => (nomatch hmem), trivial⟩
  | cons i l ih =>
    obtain ⟨a', hi, hl⟩ := run_cons_ok.1 h
    obtain ⟨c, hc, hone, hempty, hfound⟩ := spendInput_writes hv hs hi
    obtain ⟨u, hu, hrest, hrec⟩ := ih hone.coherent hone.noShadow hl
    refine ⟨c :: u, by rw [hu, hc, append_assoc]; rfl, hone.append hrest,
      by rw [length_cons, hrec.length]; rfl, fun j d hmem => ?_, ?_⟩
    · rcases mem_cons.1 hmem with heq | hmem
      · cases heq
        exact hempty
      · exact hrec.empty j d hmem
    have htail := hrec.found
    have hget := hone.getCoin
    show if i.isnickname then _ else _
    cases hn : i.isnickname with
    | true =>
      rw [hn] at hget
      rw [if_pos rfl]
      rwa [show a'.1.getCoin = a.1.getCoin from hget] at htail
    | false =>
      rw [hn] at hget
      have hupdate : a'.1.getCoin = update a.1.getCoin i.prevout none := by
        rw [hget]
        exact applyTo_one _ _ _
      rw [hupdate] at htail
      exact ⟨hfound hn, htail⟩

theorem addCoin_run {α : Type} {key : α → COutPoint H} {coin : α → Coin} {l : List α}
    {v w : CCoinsViewCache H} (hv : v.Coherent) (hs : v.NoShadow s) (hl : ∀ a ∈ l, s (key a))
    (hnd : (l.map key).Nodup) (how : ow → ∀ a ∈ l, v.getCoin (key a) = none)
    (h : run (fun v a => v.addCoin (key a) (coin a) ow) v l = .ok w) :
    Writes s (l.flatMap fun a => outWrites (key a) (coin a)) v w ∧ ∀ a ∈ l, (coin a).isSpent = false ∧
        (isUnspendable (coin a).scriptPubKey = false → v.getCoin (key a) = none) := by
  induction l generalizing v with
  | nil =>
    cases h
    exact ⟨⟨hv, hs, rfl, rfl⟩, fun a ha => nomatch ha⟩
  | cons a l ih =>
    obtain ⟨v', ha, hrest⟩ := run_cons_ok.1 h
    rw [map_cons, nodup_cons] at hnd
    obtain ⟨hco, hno, hspent, hhash, hget, hnew⟩ :=
      hv.addCoin_ok hs (hl a mem_cons_self) (fun e => how e a mem_cons_self) ha
    -- the write of this round is at another outpoint than the later ones
    have hother : ∀ b ∈ l, v'.getCoin (key b) = v.getCoin (key b) := by
      intro b hb
      have hne : key b ≠ key a := fun e => hnd.1 (e ▸ mem_map_of_mem hb)
      rw [hget]
      refine applyTo_of_none (lastWrite_of_not_mem fun hmem => ?_)
      unfold outWrites at hmem
      split at hmem
      · cases hmem
      · exact hne (mem_singleton.1 hmem)
    obtain ⟨hw, hall⟩ := ih hco hno (fun b hb => hl b (mem_cons_of_mem a hb)) hnd.2
      (fun e b hb => (hother b hb).trans (how e b (mem_cons_of_mem a hb))) hrest
    refine ⟨Writes.append ⟨hco, hno, hhash, hget⟩ hw, fun b hb => ?_⟩
    rcases mem_cons.1 hb with rfl | hb
    · exact ⟨hspent, hnew⟩
    · exact ⟨(hall b hb).1, fun hu => (hother b hb).symm.trans ((hall b hb).2 hu)⟩

def outPoints (env : Env H) (tx : CTransaction H) : List (COutPoint H) :=
  (List.range tx.vout.length).map fun n => ⟨tx.getHash env, UInt32.ofNat n⟩

theorem outPoints_eq (env : Env H) (tx : CTransaction H) :
    tx.vout.zipIdx.map (fun p => (⟨tx.getHash env, ofNat p.2⟩ : COutPoint H)) = outPoints env tx := by
  unfold outPoints
  rw [range_eq_range', ← zipIdx_map_snd 0 tx.vout, map_map]
  rfl

theorem outPoints_nodup (env : Env H) (h : tx.vout.length < 2 ^ 32) : (outPoints env tx).Nodup := by
  refine List.Nodup.map_on (fun n hn k hk heq => ?_) nodup_range
  rw [mem_range] at hn hk
  have hnat := congrArg (fun o : COutPoint H => o.n.toNat) heq
  have hle : ∀ x, x < tx.vout.length → (ofNat x).toNat = x := by
    intro x hx
    rw [toNat_ofNat']
    exact Nat.mod_eq_of_lt (by omega)
  have hnat' : (ofNat n).toNat = (ofNat k).toNat := hnat
  rwa [hle n hn, hle k hk] at hnat'

structure Spends (env : Env H) (m : CoinsMap H) (tx : CTransaction H) (nHeight : Nat)
    (undo : List Coin) : Prop where
  created : ∀ o w, (o, w) ∈ txCreates env tx nHeight → applyTo m (txSpends tx) o = none
  unspent : ∀ o c, (o, .put c) ∈ txCreates env tx nHeight → c.isSpent = false
  record : tx.isCoinBase = false → Records m tx.vin undo

theorem updateCoins_writes {env : Env H} {v w : CCoinsViewCache H}
    {nHeight : Nat} {undo : List Coin} (hv : v.Coherent) (hs : v.NoShadow s)
    (hout : ∀ o ∈ outPoints env tx, s o) (hlen : tx.vout.length < 2 ^ 32)
    (hcb : tx.isCoinBase → ∀ o ∈ outPoints env tx, v.getCoin o = none)
    (h : updateCoins env tx v nHeight = .ok (w, undo)) :
    Writes s (txWrites env tx nHeight) v w ∧ Spends env v.getCoin tx nHeight undo := by
  obtain ⟨x, hx, ha⟩ := updateCoins_ok env h
  have hspend : Writes s (txSpends tx) v x ∧ (tx.isCoinBase = true → x = v) ∧
      (tx.isCoinBase = false → Records v.getCoin tx.vin undo) := by
    unfold spendInputs at hx
    cases hc : tx.isCoinBase with
    | true =>
      rw [hc] at hx
      cases hx
      rw [txSpends, hc]
      exact ⟨⟨hv, hs, rfl, rfl⟩, fun _ => rfl, fun hf => by cases hf⟩
    | false =>
      rw [hc] at hx
      obtain ⟨u, hu, hw, hrec⟩ := spendInputs_writes hv hs hx
      rw [txSpends_eq hc]
      have hundo : undo = u := hu
      rw [hundo]
      exact ⟨hw, fun hf => (by cases hf), fun _ => hrec⟩
  obtain ⟨hwx, hsame, hrec⟩ := hspend
  have hmem : ∀ p ∈ tx.vout.zipIdx, (⟨tx.getHash env, ofNat p.2⟩ : COutPoint H) ∈ outPoints env tx := by
    intro p hp
    rw [← outPoints_eq]
    exact mem_map_of_mem (f := fun p : CTxOut × Nat =>
      (⟨tx.getHash env, ofNat p.2⟩ : COutPoint H)) hp
  have hnd := outPoints_nodup env hlen
  rw [← outPoints_eq] at hnd
  obtain ⟨hwa, hall⟩ := addCoin_run hwx.coherent hwx.noShadow (fun p hp => hout _ (hmem p hp)) hnd
    (fun e p hp => by rw [hsame e]; exact hcb e _ (hmem p hp)) ha
  refine ⟨?_, ⟨fun o y hy => ?_, fun o c hy => ?_, hrec⟩⟩
  · rw [txWrites, txCreates_eq]
    exact hwx.append hwa
  · obtain ⟨p, hp, heq⟩ := mem_map.1 hy
    obtain ⟨hp, hu⟩ := mem_filter.1 hp
    cases heq
    have hspendable : isUnspendable p.1.scriptPubKey = false := by simpa using hu
    rw [← hwx.getCoin]
    exact (hall p hp).2 hspendable
  · obtain ⟨p, hp, heq⟩ := mem_map.1 hy
    cases heq
    exact (hall p (mem_filter.1 hp).1).1

end BitCash
