import Mathlib.Algebra.Order.BigOperators.Group.List
import BitCash.Validation.ConnectBlock

/-!
# Conversions and conservation in one transaction

An output states its amount twice: `nValueBitCash` in the currency of the inputs, which `CheckTxInputs` balances,
and `nValue` in its own currency, which becomes the coin.

* `Reached`: the state in which a transaction of an accepted block is checked
-/

namespace BitCash
open Checks List

variable {H : Type} [Inhabited H] [DecidableEq H] {env : Env H} {params : Params H} {o : CTxOut}

/-! ## positions in an accepted block -/

def Reached (env : Env H) (params : Params H) (s : ConnectState H) (block : CBlock H)
    (tx : CTransaction H) (c : ConnectLoop H) : Prop :=
  ∃ l m, block.vtx = l ++ tx :: m ∧
    run (connectTx env params s.context block.toCBlockHeader) ⟨0, s.view, 0, 0, [], true⟩ l = .ok c

theorem Reached.mem {s : ConnectState H} {block : CBlock H} {tx : CTransaction H}
    {c : ConnectLoop H} (h : Reached env params s block tx c) : tx ∈ block.vtx := by
  obtain ⟨l, m, hv, -⟩ := h
  simp [hv]

section Accepted
variable {block : CBlock H} {tip : CoinsMap H} {undoPos : Res Nat} {s t : ConnectState H}
  {tx : CTransaction H} {c : ConnectLoop H} {p0 p1 : Int}

theorem Accepts.required (h : Accepts env params block tip undoPos s t)
    (hp0 : block.getPriceinCurrency 0 = .ok p0)
    (hp1 : block.getPriceinCurrency 1 = .ok p1)
    (hmem : tx ∈ block.vtx) (hcb : tx.isCoinBase = false) (ho : o ∈ tx.vout) {a : Int}
    (ha : requiredAmount p0 p1 (inputCurrency (tipCoin tip) tx) o = some a) : o.nValue = a := by
  obtain ⟨d, -, -, hconv, -⟩ := h.inv
  simp only [checkConversions, hp0, hp1, ok_bind] at hconv
  have htx := each_ok.1 hconv tx hmem
  rw [checkTxConversions, hcb] at htx
  exact conversionRule_required (each_ok.1 htx o ho) ha

theorem Accepts.required_getD (h : Accepts env params block tip undoPos s t)
    (hp0 : block.getPriceinCurrency 0 = .ok p0)
    (hp1 : block.getPriceinCurrency 1 = .ok p1)
    (hmem : tx ∈ block.vtx) (hcb : tx.isCoinBase = false) (ho : o ∈ tx.vout) :
    (requiredAmount p0 p1 (inputCurrency (tipCoin tip) tx) o).getD o.nValue = o.nValue := by
  cases hq : requiredAmount p0 p1 (inputCurrency (tipCoin tip) tx) o with
  | none => rfl
  | some a => exact (h.required hp0 hp1 hmem hcb ho hq).symm

/-! ## judged by the coins really spent -/

/-- where the currency `c` of the spent coins asks for an amount, the currency `r` read from the tip
asks for the same one, or for none and the output has it anyway -/
def SameAmount (p0 p1 : Int) (c r : UInt8) (o : CTxOut) : Prop :=
  ∀ a, requiredAmount p0 p1 c o = some a → (requiredAmount p0 p1 r o).getD o.nValue = a

theorem sameAmount_refl (p0 p1 : Int) (c : UInt8) (o : CTxOut) : SameAmount p0 p1 c c o := by
  intro a ha
  rw [ha, Option.getD_some]

/-- in particular where the tip holds the first coin with the currency it has in the view -/
theorem sameAmount_of_firstCoin {i : CTxIn H} {l : List (CTxIn H)} (hi : tx.coinInputs = i :: l)
    (hcoin : (tipCoin tip i.prevout).spendCurrency = (c.view.accessCoin i.prevout).spendCurrency)
    (o : CTxOut) : SameAmount p0 p1 (inputCurrency c.view.accessCoin tx) (inputCurrency (tipCoin tip) tx) o := by
  simp only [inputCurrency, hi, hcoin]
  exact sameAmount_refl _ _ _ o

/-- **conversion is judged by the coins really spent** exactly when the currency read from the tip
asks for the same amounts as theirs; it does when the tip holds the first of them
(`sameAmount_of_firstCoin`) -/
theorem conversion_by_spent_coins_iff (h : Accepts env params block tip undoPos s t)
    (hp0 : block.getPriceinCurrency 0 = .ok p0)
    (hp1 : block.getPriceinCurrency 1 = .ok p1)
    (hr : Reached env params s block tx c) (hcb : tx.isCoinBase = false) : (∀ o ∈ tx.vout, ∀ a,
        requiredAmount p0 p1 (inputCurrency c.view.accessCoin tx) o = some a → o.nValue = a) ↔ ∀ o ∈ tx.vout,
        SameAmount p0 p1 (inputCurrency c.view.accessCoin tx) (inputCurrency (tipCoin tip) tx) o := by
  refine forall₂_congr fun o ho => ?_
  unfold SameAmount
  rw [h.required_getD hp0 hp1 hr.mem hcb ho]

end Accepted

def TenAccepts (block : CBlock Digest) : Prop :=
  ∃ t, Accepts symEnv symMain block tenTip (.ok 7) (tenState block) t

theorem tenAccepts_of_ok {block : CBlock Digest}
    (h : (connectBlock symEnv symMain block tenTip (.ok 7) false (tenState block)).1 = .ok ())
    (hg : block.getHash symEnv ≠ .atom 0) : TenAccepts block :=
  ⟨_, Prod.ext h rfl, hg⟩

def tenLoop (block : CBlock Digest) (l : List (CTransaction Digest)) : Res (ConnectLoop Digest) :=
  run (connectTx symEnv symMain (tenState block).context block.toCBlockHeader)
    ⟨0, (tenState block).view, 0, 0, [], true⟩ l

def buyDollars : CTransaction Digest := spendTen [.of 5 10 [] 1] (by decide)

def spendDollars : CTransaction Digest :=
  ⟨6, [.ofOutPoint ⟨buyDollars.getHash symEnv, 0⟩ []], [.of 2 4 [] 1], 0, by decide, by decide⟩

/-- **the currency of a coin made in the same block is not read**: `spendDollars` spends Dollars, is
judged as if it spent BitCash, and its Dollar output of two for four is accepted -/
theorem conversion_misjudged : TenAccepts (halfBlock [buyDollars, spendDollars]) ∧
      ∃ c, Reached symEnv symMain (tenState (halfBlock [buyDollars, spendDollars]))
          (halfBlock [buyDollars, spendDollars]) spendDollars c ∧
        inputCurrency c.view.accessCoin spendDollars = 1 ∧
        ¬ ∀ o ∈ spendDollars.vout, ∀ a, requiredAmount 500000000 500000000
          (inputCurrency c.view.accessCoin spendDollars) o = some a → o.nValue = a := by
  refine ⟨tenAccepts_of_ok (by decide) (by decide), ?_⟩
  obtain ⟨c, hc, hcur⟩ := ok_of_toOption_map (show (tenLoop (halfBlock [buyDollars, spendDollars])
        [symCoinbase [devOut 2150000000] (by decide), buyDollars]).toOption.map
          (fun c => inputCurrency c.view.accessCoin spendDollars) = some 1 by decide)
  refine ⟨c, ⟨_, [], rfl, hc⟩, hcur, fun hall => ?_⟩
  rw [hcur] at hall
  exact absurd (hall (.of 2 4 [] 1) (by decide) 4 (by decide)) (by decide)

theorem buyDollars_reached : TenAccepts (halfBlock [buyDollars]) ∧
      ∃ c, Reached symEnv symMain (tenState (halfBlock [buyDollars]))
          (halfBlock [buyDollars]) buyDollars c ∧
        inputCurrency c.view.accessCoin buyDollars = 0 ∧ spentTotal c.view buyDollars.vin = 10 := by
  refine ⟨tenAccepts_of_ok (by decide) (by decide), ?_⟩
  obtain ⟨c, hc, hf⟩ := ok_of_toOption_map (show (tenLoop (halfBlock [buyDollars])
        [symCoinbase [devOut 2150000000] (by decide)]).toOption.map
          (fun c => (inputCurrency c.view.accessCoin buyDollars, spentTotal c.view buyDollars.vin)) =
        some (0, 10) by decide)
  exact ⟨c, ⟨_, [], rfl, hc⟩, congrArg Prod.fst hf, congrArg Prod.snd hf⟩

/-- a coin of the tip is spent: its currency is read, and the conversion is right -/
theorem conversion_by_spent_coins_buy :
    ∃ c, Reached symEnv symMain (tenState (halfBlock [buyDollars]))
        (halfBlock [buyDollars]) buyDollars c ∧ ∀ o ∈ buyDollars.vout, ∀ a, requiredAmount 500000000 500000000
        (inputCurrency c.view.accessCoin buyDollars) o = some a → o.nValue = a := by
  obtain ⟨⟨t, hacc⟩, c, hr, hcur, -⟩ := buyDollars_reached
  refine ⟨c, hr, (conversion_by_spent_coins_iff hacc (by decide) (by decide) hr (by decide)).2 ?_⟩
  intro o _
  have htip : inputCurrency (tipCoin tenTip) buyDollars = 0 := by decide
  rw [hcur, htip]
  exact sameAmount_refl _ _ _ o

/-! ## what stays in the currency of the inputs -/

def totalIn (c : UInt8) (f : CTxOut → Int) (vout : List CTxOut) : Int :=
  ((vout.filter fun o => o.currency == c).map f).sum

def totalNotIn (c : UInt8) (f : CTxOut → Int) (vout : List CTxOut) : Int :=
  ((vout.filter fun o => !(o.currency == c)).map f).sum

theorem totalIn_add_totalNotIn (c : UInt8) (f : CTxOut → Int) (vout : List CTxOut) :
    totalIn c f vout + totalNotIn c f vout = (vout.map f).sum := by
  induction vout with
  | nil => rfl
  | cons o l ih =>
    unfold totalIn totalNotIn at ih ⊢
    cases h : o.currency == c
    · simp only [h, filter_cons, Bool.false_eq_true, if_false, Bool.not_false, if_true,
        map_cons, sum_cons]
      omega
    · simp only [h, filter_cons, if_true, Bool.not_true, Bool.false_eq_true, if_false,
        map_cons, sum_cons]
      omega

theorem totalIn_congr {c : UInt8} {f g : CTxOut → Int} {vout : List CTxOut}
    (h : ∀ o ∈ vout, o.currency = c → f o = g o) : totalIn c f vout = totalIn c g vout := by
  unfold totalIn
  refine congrArg sum (map_congr_left fun o ho => ?_)
  rw [mem_filter, beq_iff_eq] at ho
  exact h o ho.1 ho.2

theorem totalNotIn_nonneg {c : UInt8} {f : CTxOut → Int} {vout : List CTxOut}
    (h : ∀ o ∈ vout, o.currency ≠ c → 0 ≤ f o) : 0 ≤ totalNotIn c f vout := by
  refine sum_nonneg fun x hx => ?_
  obtain ⟨o, ho, rfl⟩ := mem_map.1 hx
  simp only [mem_filter, Bool.not_eq_true', beq_eq_false_iff_ne, ne_eq] at ho
  exact h o ho.1 ho.2

section Accepted
variable {block : CBlock H} {tip : CoinsMap H} {undoPos : Res Nat} {s t : ConnectState H}
  {tx : CTransaction H} {c : ConnectLoop H} {p0 p1 : Int}

/-- the balance check of an accepted block: what the outputs of a transaction count as in the currency
of its inputs is covered by the coins it spends -/
theorem Accepts.balanced (h : Accepts env params block tip undoPos s t)
    (hr : Reached env params s block tx c) (hcb : tx.isCoinBase = false) :
    (tx.vout.map (·.nValueBitCash)).sum ≤ spentTotal c.view tx.vin := by
  obtain ⟨l, m, hvtx, hl⟩ := hr
  obtain ⟨d, hd, -⟩ := h.inv
  rw [connectLoop, hvtx, run_append, hl, ok_bind] at hd
  obtain ⟨e, he, -⟩ := run_cons_ok.1 hd
  obtain ⟨txfee, hin, -⟩ := connectFee_ok hcb (connectTx_ok he).1
  obtain ⟨-, -, ⟨valueOut, hv, hle, -⟩, -⟩ := checkTxInputs_ok env hin
  obtain ⟨-, -, rfl⟩ := getValueOut_ok.1 hv
  rwa [hcb] at hle

/-- **conservation in one transaction**: the outputs that stay in the currency of the inputs are covered
by the spent coins, if the currency read from the tip is that of the coins spent in the view, and no
output in the other currency gives something back by a negative `nValueBitCash` -/
theorem kept_le_spent (h : Accepts env params block tip undoPos s t)
    (hp0 : block.getPriceinCurrency 0 = .ok p0)
    (hp1 : block.getPriceinCurrency 1 = .ok p1)
    (hr : Reached env params s block tx c) (hcb : tx.isCoinBase = false)
    (hcur : inputCurrency (tipCoin tip) tx = inputCurrency c.view.accessCoin tx)
    (hnn : ∀ o ∈ tx.vout, o.currency ≠ inputCurrency c.view.accessCoin tx → 0 ≤ o.nValueBitCash) :
    totalIn (inputCurrency c.view.accessCoin tx) (·.nValue) tx.vout ≤ spentTotal c.view tx.vin := by
  calc totalIn (inputCurrency c.view.accessCoin tx) (·.nValue) tx.vout
      = totalIn (inputCurrency c.view.accessCoin tx) (·.nValueBitCash) tx.vout :=
        -- the conversion rule ties the two amounts of an output that is not converted
        totalIn_congr fun o ho hoc =>
          h.required hp0 hp1 hr.mem hcb ho (requiredAmount_self (hoc.trans hcur.symm))
    _ ≤ (tx.vout.map (·.nValueBitCash)).sum := by
        rw [← totalIn_add_totalNotIn (inputCurrency c.view.accessCoin tx)]
        exact le_add_of_nonneg_right (totalNotIn_nonneg hnn)
    _ ≤ spentTotal c.view tx.vin := h.balanced hr hcb

end Accepted

def spendEleven : CTransaction Digest := spendTen [.of 11 11 [] 0, .of 0 (-1) [] 1] (by decide)

/-- **eleven out of ten**: a negative `nValueBitCash` that converts to zero pays for the rest -/
theorem kept_gt_spent : TenAccepts (halfBlock [spendEleven]) ∧
      ∃ c, Reached symEnv symMain (tenState (halfBlock [spendEleven]))
          (halfBlock [spendEleven]) spendEleven c ∧
        inputCurrency c.view.accessCoin spendEleven = 0 ∧ spentTotal c.view spendEleven.vin = 10 ∧
        totalIn 0 (·.nValue) spendEleven.vout = 11 := by
  refine ⟨tenAccepts_of_ok (by decide) (by decide), ?_⟩
  obtain ⟨c, hc, hf⟩ := ok_of_toOption_map (show (tenLoop (halfBlock [spendEleven])
        [symCoinbase [devOut 2150000000] (by decide)]).toOption.map
          (fun c => (inputCurrency c.view.accessCoin spendEleven, spentTotal c.view spendEleven.vin)) =
        some (0, 10) by decide)
  exact ⟨c, ⟨_, [], rfl, hc⟩, congrArg Prod.fst hf, congrArg Prod.snd hf, by decide⟩

/-- with no output that gives something back, the spent coins cover what stays -/
theorem kept_le_spent_buy : ∃ c, Reached symEnv symMain (tenState (halfBlock [buyDollars]))
        (halfBlock [buyDollars]) buyDollars c ∧
      totalIn (inputCurrency c.view.accessCoin buyDollars) (·.nValue) buyDollars.vout ≤
        spentTotal c.view buyDollars.vin := by
  obtain ⟨⟨t, hacc⟩, c, hr, hcur, -⟩ := buyDollars_reached
  have htip : inputCurrency (tipCoin tenTip) buyDollars = 0 := by decide
  have hnn : ∀ o ∈ buyDollars.vout, 0 ≤ o.nValueBitCash := by decide
  have hp0 : (halfBlock [buyDollars]).getPriceinCurrency 0 = .ok 500000000 := by
    decide
  have hp1 : (halfBlock [buyDollars]).getPriceinCurrency 1 = .ok 500000000 := by
    decide
  exact ⟨c, hr, kept_le_spent hacc hp0 hp1 hr (by decide) (htip.trans hcur.symm) fun o ho _ => hnn o ho⟩

end BitCash
