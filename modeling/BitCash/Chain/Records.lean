import BitCash.Chain.Undo

/-!
# The records `ConnectBlock` makes

`ConnectBlock` accepts a transaction only where its inputs are there and different, so the record of its inputs
holds the coins they spend: `SpentBy`, which is what a disconnection needs (`Applied`).
-/

set_option linter.unusedSectionVars false

namespace BitCash
open Checks Journal List CCoinsViewCache Function Nat

variable {H : Type} [Inhabited H] [DecidableEq H]

/-! ## what the inputs find -/

variable {m : CoinsMap H} {u v : List Coin}

theorem FoundBy.spentBy {l : List (CTxIn H)} (h : FoundBy m l u)
    (hnd : ((l.filter fun i => !i.isnickname).map (·.prevout)).Nodup)
    (hthere : ∀ i ∈ l, i.isnickname = false → m i.prevout ≠ none) : SpentBy m l u := by
  induction l generalizing u m with
  | nil =>
    cases u with
    | nil => trivial
    | cons d u => exact absurd h id
  | cons j l ih =>
    cases u with
    | nil => exact absurd h id
    | cons d u =>
      change (if j.isnickname then _ else _) at h
      show if j.isnickname then _ else _
      cases hj : j.isnickname with
      | true =>
        rw [hj] at h
        rw [filter_cons_of_neg (by simp [hj])] at hnd
        exact ih h hnd fun i hi => hthere i (mem_cons_of_mem j hi)
      | false =>
        rw [hj] at h
        rw [filter_cons_of_pos (by simp [hj]), map_cons, nodup_cons] at hnd
        have hd : d.unspent ≠ none := by
          rw [← h.1]
          exact hthere j mem_cons_self hj
        obtain ⟨c, hc⟩ := Option.ne_none_iff_exists'.1 hd
        obtain ⟨-, rfl⟩ := Coin.unspent_eq_some.1 hc
        refine ⟨h.1.trans hc, ih h.2 hnd.2 fun i hi hn => ?_⟩
        -- the coin just spent is at another outpoint
        have hne : i.prevout ≠ j.prevout := fun e =>
          hnd.1 (e ▸ mem_map_of_mem (mem_filter.2 ⟨hi, by simp [hn]⟩))
        rw [update_of_ne hne]
        exact hthere i (mem_cons_of_mem j hi) hn

theorem SpentBy.getCoin {l : List (CTxIn H)} (h : SpentBy m l u)
    {i : CTxIn H} {c : Coin} (hmem : (i, c) ∈ l.zip u) (hn : i.isnickname = false) : m i.prevout = some c := by
  induction l generalizing u m with
  | nil => cases hmem
  | cons j l ih =>
    cases u with
    | nil => cases hmem
    | cons d u =>
      change (if j.isnickname then _ else _) at h
      cases hj : j.isnickname with
      | true =>
        rw [hj] at h
        rcases mem_cons.1 hmem with heq | hmem
        · cases heq
          rw [hj] at hn
          cases hn
        · exact ih h hmem
      | false =>
        rw [hj] at h
        rcases mem_cons.1 hmem with heq | hmem
        · cases heq
          exact h.1
        · have hlater := ih h.2 hmem
          by_cases ho : i.prevout = j.prevout
          · rw [ho, update_self] at hlater
            cases hlater
          · rwa [update_of_ne ho] at hlater

/-! ## records that differ at nickname inputs -/

def SameCoins : List (CTxIn H) → List Coin → List Coin → Prop
  | [], [], [] => True
  | i :: l, c :: u, d :: v => (i.isnickname = false → c = d) ∧ SameCoins l u v
  | _, _, _ => False

theorem SameCoins.refl {l : List (CTxIn H)} (h : u.length = l.length) : SameCoins l u u := by
  induction l generalizing u with
  | nil =>
    rw [length_eq_zero_iff.1 h]
    trivial
  | cons i l ih =>
    cases u with
    | nil => cases h
    | cons c u => exact ⟨fun _ => rfl, ih (succ.inj h)⟩

theorem SameCoins.map {l : List (CTxIn H)} {f : Coin → Coin} (hlen : u.length = l.length)
    (hf : ∀ i c, (i, c) ∈ l.zip u → i.isnickname = false → f c = c) : SameCoins l (u.map f) u := by
  induction l generalizing u with
  | nil =>
    rw [length_eq_zero_iff.1 hlen]
    trivial
  | cons i l ih =>
    cases u with
    | nil => cases hlen
    | cons c u =>
      exact ⟨hf i c mem_cons_self, ih (succ.inj hlen) fun j d hmem =>
        hf j d (mem_cons_of_mem _ hmem)⟩

theorem SameCoins.spentBy {l : List (CTxIn H)} (h : SameCoins l u v) (hv : SpentBy m l v) : SpentBy m l u := by
  induction l generalizing u v m with
  | nil =>
    cases u with
    | nil => trivial
    | cons c u => cases v <;> exact absurd h id
  | cons i l ih =>
    cases u with
    | nil => exact absurd h id
    | cons c u =>
      cases v with
      | nil => exact absurd h id
      | cons d v =>
        change (if i.isnickname then _ else _) at hv
        show if i.isnickname then _ else _
        cases hi : i.isnickname with
        | true =>
          rw [hi] at hv
          exact ih h.2 hv
        | false =>
          rw [hi] at hv
          refine ⟨?_, ih h.2 hv.2⟩
          rw [h.1 hi]
          exact hv.1

theorem SameCoins.recordFor {l : List (CTxIn H)} (h : SameCoins l u v) (hv : RecordFor l v) : RecordFor l u := by
  induction l generalizing u v with
  | nil =>
    cases u with
    | nil => exact ⟨rfl, fun i c hmem => nomatch hmem⟩
    | cons c u => cases v <;> exact absurd h id
  | cons i l ih =>
    cases u with
    | nil => exact absurd h id
    | cons c u =>
      cases v with
      | nil => exact absurd h id
      | cons d v =>
        have htail := ih h.2 ⟨succ.inj hv.length, fun j x hmem =>
          hv.putBack j x (mem_cons_of_mem _ hmem)⟩
        refine ⟨by rw [length_cons, htail.length]; rfl, fun j x hmem hn => ?_⟩
        rcases mem_cons.1 hmem with heq | hmem
        · cases heq
          rw [h.1 hn]
          exact hv.putBack i d mem_cons_self hn
        · exact htail.putBack j x hmem hn

/-! ## transactions -/

variable {env : Env H} {params : Params H} {s : COutPoint H → Prop}

/-- the record of a transaction holds the coins its inputs spend, and an empty one for a nickname -/
structure TxRecord (env : Env H) (nHeight : Nat) (m : CoinsMap H) (tx : CTransaction H)
    (u : List Coin) : Prop where
  outputs : tx.vout.length < 2 ^ 32
  noCoinbase : tx.isCoinBase = false
  spendable : ∀ o c, m o = some c → isUnspendable c.scriptPubKey = false
  unspent : ∀ o c, m o = some c → c.isSpent = false
  created : ∀ o w, (o, w) ∈ txCreates env tx nHeight → applyTo m (txSpends tx) o = none
  length : u.length = tx.vin.length
  empty : ∀ i c, (i, c) ∈ tx.vin.zip u → i.isnickname = true → c = Coin.empty
  spent : SpentBy m tx.vin u

variable {tx : CTransaction H} {nHeight : Nat}

theorem TxRecord.applied (h : TxRecord env nHeight m tx u)
    (hheight : ∀ i c, (i, c) ∈ tx.vin.zip u → i.isnickname = false → c.nHeight ≠ 0)
    (hv : SameCoins tx.vin v u) : Applied env nHeight m (tx, some v) := by
  have hrec : RecordFor tx.vin u := by
    refine ⟨h.length, fun i c hmem hn => ?_⟩
    have hc := h.spent.getCoin hmem hn
    exact ⟨hheight i c hmem hn, h.unspent _ c hc, h.spendable _ c hc⟩
  refine ⟨⟨h.outputs, fun x hx => ?_⟩, h.created, fun hf => (nomatch hf), fun x hx => ⟨h.noCoinbase, ?_⟩⟩
  · cases hx
    exact hv.recordFor hrec
  · cases hx
    exact hv.spentBy h.spent

def RecordsAll (env : Env H) (nHeight : Nat) :
    CoinsMap H → List (CTransaction H) → List (List Coin) → Prop
  | _, [], [] => True
  | m, tx :: l, u :: us =>
    TxRecord env nHeight m tx u ∧ RecordsAll env nHeight (applyTo m (txWrites env tx nHeight)) l us
  | _, _, _ => False

def SameRecords : List (CTransaction H) → List (List Coin) → List (List Coin) → Prop
  | [], [], [] => True
  | tx :: l, u :: us, v :: vs => SameCoins tx.vin u v ∧ SameRecords l us vs
  | _, _, _ => False

variable {l : List (CTransaction H)} {us vs : List (List Coin)}

section
variable (h : RecordsAll env nHeight m l us)
include h

theorem RecordsAll.length : us.length = l.length := by
  induction l generalizing us m with
  | nil =>
    cases us with
    | nil => rfl
    | cons u us => exact absurd h id
  | cons tx l ih =>
    cases us with
    | nil => exact absurd h id
    | cons u us => rw [length_cons, ih h.2]; rfl

theorem RecordsAll.mem (hmem : (tx, u) ∈ l.zip us) : ∃ m', TxRecord env nHeight m' tx u:= by
  induction l generalizing us m with
  | nil => cases hmem
  | cons ty l ih =>
    cases us with
    | nil => cases hmem
    | cons v us =>
      rcases mem_cons.1 hmem with heq | hmem
      · cases heq
        exact ⟨m, h.1⟩
      · exact ih h.2 hmem

theorem RecordsAll.applied
    (hheight : ∀ tx u, (tx, u) ∈ l.zip us → ∀ i c, (i, c) ∈ tx.vin.zip u → i.isnickname = false → c.nHeight ≠ 0)
    (hv : SameRecords l vs us) : AppliedAll env nHeight m (l.zip (vs.map some)) := by
  induction l generalizing us vs m with
  | nil => exact trivial
  | cons tx l ih =>
    cases us with
    | nil => exact absurd h id
    | cons u us =>
      cases vs with
      | nil => exact absurd hv id
      | cons v vs =>
        exact ⟨h.1.applied (hheight tx u mem_cons_self) hv.1,
          ih h.2 (fun ty w hmem => hheight ty w (mem_cons_of_mem _ hmem)) hv.2⟩

end

/-! ## the loop -/

variable {ctx : ConnectContext H} {header : CBlockHeader H} {a b : ConnectLoop H} {vtx : List (CTransaction H)}

theorem connectTx_undo (h : connectTx env params ctx header a tx = .ok b) :
    ∃ undo, updateCoins env tx a.view ctx.pindex.nHeight = .ok (b.view, undo) ∧ b.i = a.i + 1 ∧
      b.vtxundo = if a.i = 0 then a.vtxundo else a.vtxundo ++ [undo] := by
  simp only [connectTx, bind_ok, need_ok, exists_const] at h
  obtain ⟨_, -, -, _, -, ⟨view, undo⟩, hup, hret⟩ := h
  cases hret
  exact ⟨undo, hup, rfl, rfl⟩

theorem connectTx_inputs (hcb : tx.isCoinBase = false) (h : connectTx env params ctx header a tx = .ok b) :
    ∀ i ∈ tx.vin, i.isnickname = false → a.view.getCoin i.prevout ≠ none := by
  obtain ⟨txfee, hfee, -⟩ := connectFee_ok hcb (connectTx_ok h).1
  rw [checkTxInputs] at hfee
  obtain ⟨_, hhave, -⟩ := bind_ok.1 hfee
  rw [need_ok, haveInputs, hcb, Bool.false_or, all_eq_true] at hhave
  intro i hi hn hnone
  have hone := hhave i hi
  rw [hn, Bool.false_or, haveCoin_eq, hnone] at hone
  cases hone

theorem coinInputs_nodup {nicks : Nicknames H} {dbl : Bool} {bh : H}
    (h : checkTransaction env nicks tx true bh dbl = .ok ()) :
    ((tx.vin.filter fun i => !i.isnickname).map (·.prevout)).Nodup := by
  obtain ⟨-, -, -, -, hdup, -⟩ := checkTransaction_ok env h
  cases hn : tx.isNick with
  | false => exact ((filter_sublist).map _).nodup (hdup rfl hn)
  | true =>
    have hempty : tx.vin.filter (fun i => !i.isnickname) = [] := by
      refine filter_eq_nil_iff.2 fun i hi => ?_
      simp [all_eq_true.1 hn i hi]
    rw [hempty]
    exact nodup_nil

theorem connectTxs_records (hi : 0 < a.i) (hv : a.view.Coherent)
    (hs : a.view.NoShadow s) (hout : ∀ tx ∈ l, ∀ o ∈ outPoints env tx, s o)
    (hcheck : ∀ tx ∈ l, ∃ nicks bh dbl, checkTransaction env nicks tx true bh dbl = .ok ())
    (hcb : ∀ tx ∈ l, tx.isCoinBase = false) (h : run (connectTx env params ctx header) a l = .ok b) :
    ∃ us, b.vtxundo = a.vtxundo ++ us ∧ Writes s (blockWrites env l ctx.pindex.nHeight) a.view b.view ∧
      RecordsAll env ctx.pindex.nHeight a.view.getCoin l us := by
  induction l generalizing a with
  | nil =>
    cases h
    exact ⟨[], (append_nil _).symm, ⟨hv, hs, rfl, rfl⟩, trivial⟩
  | cons tx l ih =>
    obtain ⟨a', htx, hl⟩ := run_cons_ok.1 h
    obtain ⟨undo, hup, hi', hundo⟩ := connectTx_undo htx
    rw [if_neg (by omega)] at hundo
    have hcb' := hcb tx mem_cons_self
    obtain ⟨nicks, bh, dbl, hct⟩ := hcheck tx mem_cons_self
    have hlen := vout_length_lt hct
    obtain ⟨hw, hsp⟩ := updateCoins_writes hv hs (hout tx mem_cons_self) hlen
      (fun hf => by rw [hcb'] at hf; cases hf) hup
    obtain ⟨us, hus, hrest, hrec⟩ := ih (by omega) hw.coherent hw.noShadow
      (fun x hx => hout x (mem_cons_of_mem tx hx))
      (fun x hx => hcheck x (mem_cons_of_mem tx hx))
      (fun x hx => hcb x (mem_cons_of_mem tx hx)) hl
    have hr := hsp.record hcb'
    refine ⟨undo :: us, by rw [hus, hundo, append_assoc]; rfl, hw.append hrest, ?_, ?_⟩
    · exact ⟨hlen, hcb', hv.spendable, fun _ _ hc => getCoin_unspent hc, hsp.created,
        hr.length, hr.empty, hr.found.spentBy (coinInputs_nodup hct) (connectTx_inputs hcb' htx)⟩
    · rw [hw.getCoin] at hrec
      exact hrec

theorem connectCoinbase_applied (hi : a.i = 0) (hv : a.view.Coherent)
    (hs : a.view.NoShadow s) (hout : ∀ o ∈ outPoints env tx, s o)
    (hnew : ∀ o ∈ outPoints env tx, a.view.getCoin o = none)
    (hlen : tx.vout.length < 2 ^ 32) (hcb : tx.isCoinBase) (h : connectTx env params ctx header a tx = .ok b) :
    b.i = 1 ∧ b.vtxundo = a.vtxundo ∧ Writes s (txWrites env tx ctx.pindex.nHeight) a.view b.view ∧
      Applied env ctx.pindex.nHeight a.view.getCoin (tx, none) := by
  obtain ⟨undo, hup, hi', hundo⟩ := connectTx_undo h
  rw [if_pos hi] at hundo
  obtain ⟨hw, hsp⟩ := updateCoins_writes hv hs hout hlen (fun _ => hnew) hup
  exact ⟨by omega, hundo, hw, ⟨hlen, fun u hu => (nomatch hu)⟩, hsp.created, fun _ => hcb, fun u hu => (nomatch hu)⟩

/-! ## the block -/

def NewOutputs (env : Env H) (block : CBlock H) (m : CoinsMap H) : Prop :=
  ∀ tx ∈ block.vtx, ∀ o ∈ outPoints env tx, m o = none

structure BlockRecords (env : Env H) (nHeight : Nat) (m : CoinsMap H) (vtx : List (CTransaction H))
    (vtxundo : List (List Coin)) : Prop where
  coinbase : ∃ cb rest, vtx = cb :: rest ∧ Applied env nHeight m (cb, none) ∧
    RecordsAll env nHeight (applyTo m (txWrites env cb nHeight)) rest vtxundo

theorem BlockRecords.length {vtxundo : List (List Coin)} (h : BlockRecords env nHeight m vtx vtxundo) :
    vtxundo.length + 1 = vtx.length := by
  obtain ⟨cb, rest, rfl, -, hrec⟩ := h.coinbase
  rw [hrec.length]
  rfl

theorem zip_some_mem (h : (tx, u) ∈ l.zip us) : (tx, some u) ∈ l.zip (us.map some) := by
  rw [zip_map_right]
  exact mem_map.2 ⟨(tx, u), h, rfl⟩

theorem BlockRecords.applied (h : BlockRecords env nHeight m vtx us)
    (hheight : ∀ o c, Restores vtx us o c → c.nHeight ≠ 0) (hv : SameRecords vtx.tail vs us) :
    AppliedAll env nHeight m (withRecords vtx vs) := by
  obtain ⟨cb, rest, rfl, hcb, hrec⟩ := h.coinbase
  refine ⟨hcb, hrec.applied (fun tx u hmem i c hic hn => ?_) hv⟩
  exact hheight i.prevout c ⟨tx, u, mem_cons_of_mem _ (zip_some_mem hmem), i, hic, hn, rfl⟩

/-- the loop of `ConnectBlock` writes the coins of the block and records those it spends -/
theorem connectLoop_records {block : CBlock H} {v : CCoinsViewCache H}
    {c : ConnectLoop H} (hv : v.Coherent) (hrules : blockRules env params block true true = .ok ())
    (hnew : NewOutputs env block v.getCoin) (h : connectLoop env params ctx block v = .ok c) : c.view.Coherent ∧
      c.view.getCoin = applyTo v.getCoin (blockWrites env block.vtx ctx.pindex.nHeight) ∧
      BlockRecords env ctx.pindex.nHeight v.getCoin block.vtx c.vtxundo := by
  obtain ⟨⟨cb, rest, hvtx, hcb, hrest⟩, hct⟩ := bodyRules_ok (blockRules_ok.1 hrules).2.2.2
  have hno : v.NoShadow fun o => ∃ tx ∈ block.vtx, o ∈ outPoints env tx := hv.noShadow fun o ho => by
      obtain ⟨tx, htx, ho⟩ := ho
      exact hnew tx htx o ho
  unfold NewOutputs at hnew
  rw [connectLoop, hvtx] at h
  rw [hvtx] at hnew hct hno ⊢
  obtain ⟨a, ha, hl⟩ := run_cons_ok.1 h
  obtain ⟨hai, haundo, hwa, happ⟩ := connectCoinbase_applied rfl hv hno
    (fun o ho => ⟨cb, mem_cons_self, ho⟩) (hnew cb mem_cons_self)
    (vout_length_lt (hct cb mem_cons_self)) hcb ha
  obtain ⟨us, hus, hwr, hrec⟩ := connectTxs_records (by omega) hwa.coherent hwa.noShadow
    (fun tx htx o ho => ⟨tx, mem_cons_of_mem cb htx, ho⟩)
    (fun tx htx => ⟨_, _, _, hct tx (mem_cons_of_mem cb htx)⟩) hrest hl
  have hundo : c.vtxundo = us := by
    rw [hus, haundo]
    exact nil_append us
  rw [hwa.getCoin] at hrec
  rw [hundo]
  exact ⟨hwr.coherent, (hwa.append hwr).getCoin, cb, rest, rfl, happ, hrec⟩

end BitCash
