import BitCash.Serialize.Block
import BitCash.Validation.Handled

/-!
# The prices of a received block

Nothing looks at the price records of a block before `ProcessNewBlock` computes prices from them.
-/

namespace BitCash.Memory
open Wire Codec TwoWay Machine Checks Except BitVec UInt8

/-! ## three prices -/

def Close (a b : Int) : Prop := |a - b| < 2 ^ 63

instance (a b : Int) : Decidable (Close a b) := inferInstanceAs (Decidable (_ < _))

theorem absDiff_ok_iff {a b d : Int} : absDiff a b = .ok d ↔ Close a b ∧ d = |a - b| := by
  unfold absDiff Close
  have hfit : (fits64 (a - b) && fits64 (-(a - b))) = true ↔ |a - b| < 2 ^ 63 := by
    rw [Bool.and_eq_true, fits64_iff, fits64_iff, abs_lt]
    omega
  by_cases h : |a - b| < 2 ^ 63
  · rw [if_pos (hfit.2 h), ok.injEq]
    exact ⟨fun e => ⟨h, e.symm⟩, fun e => e.2.symm⟩
  · rw [if_neg (fun e => h (hfit.1 e))]
    exact ⟨(fun e => nomatch e), fun e => absurd e.1 h⟩

def threePrices (p1 p2 p3 : CPriceInfo) (currency : UInt8) : Res Int := do
  let i := priceIndex p1.priceCount currency
  let x1 ← p1.prices i
  let x2 ← p2.prices i
  let x3 ← p3.prices i
  let d1 ← absDiff x1 x2
  let d2 ← absDiff x2 x3
  let d3 ← absDiff x1 x3
  pure (closestPair x1 x2 x3 d1 d2 d3)

theorem threePrices_ok_iff {p1 p2 p3 : CPriceInfo} {currency : UInt8} {x : Int} :
    threePrices p1 p2 p3 currency = .ok x ↔ ∃ x1 x2 x3, p1.prices (priceIndex p1.priceCount currency) = .ok x1 ∧
      p2.prices (priceIndex p1.priceCount currency) = .ok x2 ∧
      p3.prices (priceIndex p1.priceCount currency) = .ok x3 ∧ (Close x1 x2 ∧ Close x2 x3 ∧ Close x1 x3) ∧
      x = closestPair x1 x2 x3 |x1 - x2| |x2 - x3| |x1 - x3| := by
  simp only [threePrices, bind_ok, absDiff_ok_iff, pure_ok]
  constructor
  · rintro ⟨x1, h1, x2, h2, x3, h3, d1, ⟨hc1, rfl⟩, d2, ⟨hc2, rfl⟩, d3, ⟨hc3, rfl⟩, h⟩
    exact ⟨x1, x2, x3, h1, h2, h3, ⟨hc1, hc2, hc3⟩, (ok.inj h).symm⟩
  · rintro ⟨x1, x2, x3, h1, h2, h3, ⟨hc1, hc2, hc3⟩, rfl⟩
    exact ⟨x1, h1, x2, h2, x3, h3, _, ⟨hc1, rfl⟩, _, ⟨hc2, rfl⟩, _, ⟨hc3, rfl⟩, rfl⟩

theorem exists_not_close (a : Int) : ∃ v : BitVec 64, ¬ Close a v.toInt := by
  unfold Close
  by_cases h : 0 ≤ a
  · refine ⟨intMin 64, ?_⟩
    rw [show (intMin 64).toInt = -9223372036854775808 from rfl, abs_lt]
    omega
  · refine ⟨intMax 64, ?_⟩
    rw [show (intMax 64).toInt = 9223372036854775807 from rfl, abs_lt]
    omega

/-! ## stored records -/

def PriceRecord.slot (r : PriceRecord) (i : Nat) : Int := (r.prices[i]?.map BitVec.toInt).getD 1

structure PriceRecord.In (r : PriceRecord) (unset : BitVec 64) (p : CPriceInfo) : Prop where
  count : p.priceCount = UInt8.ofNat r.prices.length
  first : p.prices 0 = .ok (r.slot 0)
  second : p.prices 1 = .ok (if r.prices.length = 2 then r.slot 1 else unset.toInt)

theorem fill_cases (r : PriceRecord) (unset : BitVec 64) :
    (2 < r.prices.length ∧ r.fill unset = .error (.fault .outOfBounds)) ∨
      r.prices.length ≤ 2 ∧ ∃ p, r.fill unset = .ok p ∧ r.In unset p := by
  obtain ⟨priceTime, prices⟩ := r
  match prices with
  | [] => exact .inr ⟨by simp, _, rfl, rfl, rfl, rfl⟩
  | [a] => exact .inr ⟨by simp, _, rfl, rfl, rfl, rfl⟩
  | [a, b] => exact .inr ⟨by simp, _, rfl, rfl, rfl, rfl⟩
  | a :: b :: c :: l => exact .inl ⟨by simp, rfl⟩

variable {r : PriceRecord}

theorem length_of_fill {unset : BitVec 64} {p : CPriceInfo}
    (h : r.fill unset = .ok p) : r.prices.length ≤ 2 ∧ r.In unset p := by
  rcases fill_cases r unset with ⟨-, he⟩ | ⟨hle, q, hq, hin⟩
  · rw [he] at h
    cases h
  · cases hq.symm.trans h
    exact ⟨hle, hin⟩

theorem exists_fill (h : r.prices.length ≤ 2) (unset : BitVec 64) : ∃ p, r.fill unset = .ok p := by
  rcases fill_cases r unset with ⟨hlt, -⟩ | ⟨-, p, hp, -⟩
  · omega
  · exact ⟨p, hp⟩

theorem priceIndex_of_le {n : Nat} (hn : n ≤ 2) : (n = 0 ∧ priceIndex (ofNat n) 0 = 255) ∨
      (n = 1 ∧ priceIndex (ofNat n) 0 = 0 ∧ priceIndex (ofNat n) 1 = 0) ∨
      (n = 2 ∧ priceIndex (ofNat n) 0 = 0 ∧ priceIndex (ofNat n) 1 = 1) := by
  have hcases : n = 0 ∨ n = 1 ∨ n = 2 := by omega
  rcases hcases with rfl | rfl | rfl
  · exact .inl ⟨rfl, by decide⟩
  · exact .inr (.inl ⟨rfl, by decide, by decide⟩)
  · exact .inr (.inr ⟨rfl, by decide, by decide⟩)

structure PriceFields.Usable (f : PriceFields PriceRecord) : Prop where
  inBounds : f.nPriceInfo.prices.length ≤ 2 ∧ f.nPriceInfo2.prices.length ≤ 2 ∧
    f.nPriceInfo3.prices.length ≤ 2
  priced : 1 ≤ f.nPriceInfo.prices.length
  second : f.nPriceInfo.prices.length = 2 →
    f.nPriceInfo2.prices.length = 2 ∧ f.nPriceInfo3.prices.length = 2
  close : ∀ i < f.nPriceInfo.prices.length, Close (f.nPriceInfo.slot i) (f.nPriceInfo2.slot i) ∧
    Close (f.nPriceInfo2.slot i) (f.nPriceInfo3.slot i) ∧
    Close (f.nPriceInfo.slot i) (f.nPriceInfo3.slot i)

def PriceFields.price (f : PriceFields PriceRecord) (i : Nat) : Int :=
  let x1 := f.nPriceInfo.slot i
  let x2 := f.nPriceInfo2.slot i
  let x3 := f.nPriceInfo3.slot i
  closestPair x1 x2 x3 |x1 - x2| |x2 - x3| |x1 - x3|

section Fields
variable {f : PriceFields PriceRecord} {unset : Nat → BitVec 64} {g : PriceFields CPriceInfo}

def PriceFields.inCurrency (g : PriceFields CPriceInfo) (currency : UInt8) : Res Int :=
  threePrices g.nPriceInfo g.nPriceInfo2 g.nPriceInfo3 currency

theorem fill_fields (h : f.fill unset = .ok g) :
    (f.nPriceInfo.prices.length ≤ 2 ∧ f.nPriceInfo.In (unset 0) g.nPriceInfo) ∧
      (f.nPriceInfo2.prices.length ≤ 2 ∧ f.nPriceInfo2.In (unset 1) g.nPriceInfo2) ∧
      f.nPriceInfo3.prices.length ≤ 2 ∧ f.nPriceInfo3.In (unset 2) g.nPriceInfo3 := by
  simp only [PriceFields.fill, bind_ok, pure_ok] at h
  obtain ⟨p1, h1, p2, h2, p3, h3, h⟩ := h
  cases h
  exact ⟨length_of_fill h1, length_of_fill h2, length_of_fill h3⟩

theorem exists_fields (h : f.nPriceInfo.prices.length ≤ 2 ∧ f.nPriceInfo2.prices.length ≤ 2 ∧
    f.nPriceInfo3.prices.length ≤ 2) (unset : Nat → BitVec 64) : ∃ g, f.fill unset = .ok g := by
  obtain ⟨p1, h1⟩ := exists_fill h.1 (unset 0)
  obtain ⟨p2, h2⟩ := exists_fill h.2.1 (unset 1)
  obtain ⟨p3, h3⟩ := exists_fill h.2.2 (unset 2)
  refine ⟨⟨p1, f.priceSig, p2, f.priceSig2, p3, f.priceSig3⟩, ?_⟩
  simp only [PriceFields.fill, h1, h2, h3, ok_bind, pure_ok]

theorem price_of_slot {c : UInt8} {i : Nat} {x : Int} (hi : priceIndex g.nPriceInfo.priceCount c = i)
    (h1 : g.nPriceInfo.prices i = .ok (f.nPriceInfo.slot i))
    (h2 : g.nPriceInfo2.prices i = .ok (f.nPriceInfo2.slot i))
    (h3 : g.nPriceInfo3.prices i = .ok (f.nPriceInfo3.slot i)) :
    g.inCurrency c = .ok x ↔ (Close (f.nPriceInfo.slot i) (f.nPriceInfo2.slot i) ∧
      Close (f.nPriceInfo2.slot i) (f.nPriceInfo3.slot i) ∧
      Close (f.nPriceInfo.slot i) (f.nPriceInfo3.slot i)) ∧ x = f.price i := by
  rw [PriceFields.inCurrency, threePrices_ok_iff, hi, h1, h2, h3]
  constructor
  · rintro ⟨x1, x2, x3, e1, e2, e3, hc, hx⟩
    cases e1
    cases e2
    cases e3
    exact ⟨hc, hx⟩
  · rintro ⟨hc, hx⟩
    exact ⟨_, _, _, rfl, rfl, rfl, hc, hx⟩

theorem PriceFields.Usable.inCurrency (h : f.Usable) (hg : f.fill unset = .ok g) : g.inCurrency 0 = .ok (f.price 0) ∧
      g.inCurrency 1 = .ok (f.price (f.nPriceInfo.prices.length - 1)) := by
  obtain ⟨⟨hl, h1⟩, ⟨-, h2⟩, -, h3⟩ := fill_fields hg
  have hprice0 := h.close 0 h.priced
  rcases priceIndex_of_le hl with ⟨hn, -⟩ | ⟨hn, hi0, hi1⟩ | ⟨hn, hi0, hi1⟩
  · have hp := h.priced
    omega
  · rw [← h1.count] at hi0 hi1
    refine ⟨(price_of_slot hi0 h1.first h2.first h3.first).2 ⟨hprice0, rfl⟩, ?_⟩
    rw [hn]
    exact (price_of_slot hi1 h1.first h2.first h3.first).2 ⟨hprice0, rfl⟩
  · rw [← h1.count] at hi0 hi1
    obtain ⟨hn2, hn3⟩ := h.second hn
    have hs1 := h1.second
    have hs2 := h2.second
    have hs3 := h3.second
    rw [if_pos hn] at hs1
    rw [if_pos hn2] at hs2
    rw [if_pos hn3] at hs3
    refine ⟨(price_of_slot hi0 h1.first h2.first h3.first).2 ⟨hprice0, rfl⟩, ?_⟩
    rw [hn]
    exact (price_of_slot hi1 hs1 hs2 hs3).2 ⟨h.close 1 (by omega), rfl⟩

theorem usable_of_determined (hs : ∀ unset, ∃ g, f.fill unset = .ok g)
    (hd : ∀ c, c = 0 ∨ c = 1 → ∃ x, ∀ unset g, f.fill unset = .ok g → g.inCurrency c = .ok x) : f.Usable := by
  obtain ⟨x0, hx0⟩ := hd 0 (.inl rfl)
  obtain ⟨x1, hx1⟩ := hd 1 (.inr rfl)
  -- the unset slots as they are needed
  have hslots : ∀ unset, ∃ g, f.fill unset = .ok g ∧ g.inCurrency 0 = .ok x0 ∧ g.inCurrency 1 = .ok x1 :=
    fun unset => (hs unset).imp fun g hg => ⟨hg, hx0 _ g hg, hx1 _ g hg⟩
  obtain ⟨g, hg, hg0, hg1⟩ := hslots default
  obtain ⟨⟨hl, h1⟩, ⟨hl2, h2⟩, hl3, h3⟩ := fill_fields hg
  rcases priceIndex_of_le hl with ⟨hn, hi⟩ | ⟨hn, hi0, -⟩ | ⟨hn, hi0, hi1⟩
  · -- no price: slot 255
    exfalso
    rw [← h1.count] at hi
    obtain ⟨x1, -, -, hp, -⟩ := threePrices_ok_iff.1 hg0
    rw [hi] at hp
    cases hp
  · rw [← h1.count] at hi0
    have hc := ((price_of_slot hi0 h1.first h2.first h3.first).1 hg0).1
    refine ⟨⟨hl, hl2, hl3⟩, by omega, fun h => by omega, fun i hlt => ?_⟩
    obtain rfl : i = 0 := by omega
    exact hc
  · have hsecond : f.nPriceInfo2.prices.length = 2 ∧ f.nPriceInfo3.prices.length = 2 := by
      -- an unset slot may hold a word too far away from the price in the first record
      obtain ⟨v, hv⟩ := exists_not_close (f.nPriceInfo.slot 1)
      obtain ⟨k, hk, -, hk1⟩ := hslots fun _ => v
      obtain ⟨⟨-, k1⟩, ⟨-, k2⟩, -, k3⟩ := fill_fields hk
      rw [← k1.count] at hi1
      obtain ⟨y1, y2, y3, e1, e2, e3, ⟨c12, c23, c13⟩, -⟩ := threePrices_ok_iff.1 hk1
      rw [hi1, k1.second, if_pos hn] at e1
      rw [hi1, k2.second] at e2
      rw [hi1, k3.second] at e3
      cases e1
      constructor
      · by_contra hne
        rw [if_neg hne] at e2
        cases e2
        exact hv c12
      · by_contra hne
        rw [if_neg hne] at e3
        cases e3
        exact hv c13
    have hs1 := h1.second
    have hs2 := h2.second
    have hs3 := h3.second
    rw [if_pos hn] at hs1
    rw [if_pos hsecond.1] at hs2
    rw [if_pos hsecond.2] at hs3
    rw [← h1.count] at hi0 hi1
    have hc0 := ((price_of_slot hi0 h1.first h2.first h3.first).1 hg0).1
    have hc1 := ((price_of_slot hi1 hs1 hs2 hs3).1 hg1).1
    refine ⟨⟨hl, hl2, hl3⟩, by omega, fun _ => hsecond, fun i hlt => ?_⟩
    have hcases : i = 0 ∨ i = 1 := by omega
    rcases hcases with rfl | rfl
    · exact hc0
    · exact hc1

end Fields

/-! ## blocks -/

def ParsedBlock.price0 (b : ParsedBlock) : Int := (b.header.prices.map (·.price 0)).getD 1

/-- a received block is handled: its price records are stored in their arrays, whatever the unset slots
hold; the two prices depend on the bytes alone; and the amounts are rewritten, or the routine returns -/
structure Handled (w : Nat → Unset) (tip : CoinsMap Uint256)
    (getTx : Uint256 → Option (CTransaction Uint256)) (s : Bytes) : Prop where
  stored : ∀ unset, ∃ p, decodeBlock unset w s = .ok p
  determined : ∀ c, c = 0 ∨ c = 1 → ∃ x, ∀ unset b t, decodeBlock unset w s = .ok (b, t) →
    b.getPriceinCurrency c = .ok x
  returns : ∀ unset b t, decodeBlock unset w s = .ok (b, t) → Returns (normaliseBlock tip getTx b)

variable {blk : CBlock Uint256}

section Blocks
variable {w : Nat → Unset} {s t : Bytes} {b : ParsedBlock} {unset : Nat → BitVec 64}

theorem decodeBlock_ok_iff (hb : parseBlock w s = .ok (b, t)) {t' : Bytes} :
    decodeBlock unset w s = .ok (blk, t') ↔ b.stored unset = .ok blk ∧ t' = t := by
  rw [decodeBlock_eq unset hb]
  cases b.stored unset with
  | error e => exact ⟨(fun h => nomatch h), (fun h => nomatch h.1)⟩
  | ok x =>
    show ok (x, t) = ok (blk, t') ↔ _
    rw [ok.injEq, Prod.mk.injEq, ok.injEq]
    exact and_congr_right fun _ => eq_comm

def ParsedBlock.records (b : ParsedBlock) : PriceFields PriceRecord :=
  b.header.prices.getD ⟨⟨0, [1]⟩, [], ⟨0, [1]⟩, [], ⟨0, [1]⟩, []⟩

theorem records_usable_iff : b.records.Usable ↔ ∀ f, b.header.prices = some f → f.Usable := by
  unfold ParsedBlock.records
  cases b.header.prices with
  | none =>
    refine iff_of_true ⟨by decide, by decide, by decide, ?_⟩ fun f hf => nomatch hf
    intro i hi
    obtain rfl : i = 0 := Nat.lt_one_iff.1 hi
    decide
  | some f => exact ⟨fun h g hg => Option.some.inj hg ▸ h, fun h => h f rfl⟩

theorem price0_records : b.price0 = b.records.price 0 := by
  unfold ParsedBlock.price0 ParsedBlock.records
  cases b.header.prices with
  | none => rfl
  | some f => rfl

theorem stored_ok (h : b.stored unset = .ok blk) : ∃ g, b.records.fill unset = .ok g ∧ blk.vtx = b.vtx ∧
      ∀ c, blk.getPriceinCurrency c = g.inCurrency c := by
  unfold ParsedBlock.stored at h
  unfold ParsedBlock.records
  cases hp : b.header.prices with
  | none =>
    rw [hp] at h
    cases h
    exact ⟨_, rfl, rfl, fun c => rfl⟩
  | some f =>
    rw [hp, fillPrices] at h
    cases hg : f.fill unset with
    | error e =>
      rw [hg] at h
      cases h
    | ok g =>
      rw [hg] at h
      cases h
      exact ⟨g, hg, rfl, fun c => rfl⟩

theorem stored_of_fill {g : PriceFields CPriceInfo} (hg : b.records.fill unset = .ok g) :
    ∃ blk, b.stored unset = .ok blk := by
  unfold ParsedBlock.records at hg
  unfold ParsedBlock.stored
  cases hp : b.header.prices with
  | none => exact ⟨_, rfl⟩
  | some f =>
    rw [hp, Option.getD_some] at hg
    rw [fillPrices, hg]
    exact ⟨_, rfl⟩

theorem normaliseBlock_returns_iff {tip : CoinsMap Uint256}
    {getTx : Uint256 → Option (CTransaction Uint256)} {p0 p1 : Int}
    (h0 : blk.getPriceinCurrency 0 = .ok p0) (h1 : blk.getPriceinCurrency 1 = .ok p1) :
    Returns (normaliseBlock tip getTx blk) ↔ AllRewritable tip getTx p0 blk.vtx := by
  rw [← @normaliseTxs_returns_iff _ _ _ tip getTx p0 p1 blk.vtx, normaliseBlock, h0, h1,
    ok_bind, ok_bind]
  cases collect (normaliseTx tip getTx p0 p1) blk.vtx with
  | ok m => exact Iff.rfl
  | error e => exact Iff.rfl

/-- **what is handled**: a byte string that has the form of a block is, exactly when its price records,
if it has any, are usable, and the transactions can be rewritten at the price they give -/
theorem handled_iff (hb : parseBlock w s = .ok (b, t)) (tip : CoinsMap Uint256)
    (getTx : Uint256 → Option (CTransaction Uint256)) :
    Handled w tip getTx s ↔ (∀ f, b.header.prices = some f → f.Usable) ∧ AllRewritable tip getTx b.price0 b.vtx := by
  rw [← records_usable_iff, price0_records]
  -- what is decoded is what is stored
  have hdecode : ∀ unset g, b.records.fill unset = .ok g → ∃ blk, decodeBlock unset w s = .ok (blk, t) := by
    intro unset g hg
    obtain ⟨blk, hblk⟩ := stored_of_fill hg
    exact ⟨blk, (decodeBlock_ok_iff hb).2 ⟨hblk, rfl⟩⟩
  have hstored : ∀ unset blk t', decodeBlock unset w s = .ok (blk, t') →
      ∃ g, b.records.fill unset = .ok g ∧ blk.vtx = b.vtx ∧
        ∀ c, blk.getPriceinCurrency c = g.inCurrency c :=
    fun unset blk t' h => stored_ok ((decodeBlock_ok_iff hb).1 h).1
  have hreturns : b.records.Usable → ∀ unset blk t', decodeBlock unset w s = .ok (blk, t') →
      (Returns (normaliseBlock tip getTx blk) ↔ AllRewritable tip getTx (b.records.price 0) b.vtx) := by
    intro husable unset blk t' h
    obtain ⟨g, hg, hvtx, hc⟩ := hstored unset blk t' h
    obtain ⟨h0, h1⟩ := husable.inCurrency hg
    rw [normaliseBlock_returns_iff ((hc 0).trans h0) ((hc 1).trans h1), hvtx]
  constructor
  · intro h
    have husable : b.records.Usable := by
      refine usable_of_determined (fun unset => ?_) fun c hc => ?_
      · obtain ⟨⟨blk, t'⟩, hblk⟩ := h.stored unset
        obtain ⟨g, hg, -⟩ := hstored unset blk t' hblk
        exact ⟨g, hg⟩
      · obtain ⟨x, hx⟩ := h.determined c hc
        refine ⟨x, fun unset g hg => ?_⟩
        obtain ⟨blk, hblk⟩ := hdecode unset g hg
        obtain ⟨g', hg', -, hprice⟩ := hstored unset blk t hblk
        cases hg.symm.trans hg'
        rw [← hprice c]
        exact hx unset blk t hblk
    obtain ⟨g, hg⟩ := exists_fields husable.inBounds default
    obtain ⟨blk, hblk⟩ := hdecode default g hg
    exact ⟨husable, (hreturns husable default blk t hblk).1 (h.returns default blk t hblk)⟩
  · rintro ⟨husable, hall⟩
    refine ⟨fun unset => ?_, fun c hc => ?_, fun unset blk t' h => ?_⟩
    · obtain ⟨g, hg⟩ := exists_fields husable.inBounds unset
      obtain ⟨blk, hblk⟩ := hdecode unset g hg
      exact ⟨_, hblk⟩
    · have hprice : ∀ unset blk t', decodeBlock unset w s = .ok (blk, t') →
          blk.getPriceinCurrency 0 = .ok (b.records.price 0) ∧
            blk.getPriceinCurrency 1 =
              .ok (b.records.price (b.records.nPriceInfo.prices.length - 1)) := by
        intro unset blk t' h
        obtain ⟨g, hg, -, hc'⟩ := hstored unset blk t' h
        obtain ⟨h0, h1⟩ := husable.inCurrency hg
        exact ⟨(hc' 0).trans h0, (hc' 1).trans h1⟩
      rcases hc with rfl | rfl
      · exact ⟨_, fun unset blk t' h => (hprice unset blk t' h).1⟩
      · exact ⟨_, fun unset blk t' h => (hprice unset blk t' h).2⟩
    · exact (hreturns husable unset blk t' h).2 hall

end Blocks

def PriceRecord.bytes (r : PriceRecord) : Bytes :=
  uint32.write r.priceTime ++ [UInt8.ofNat r.prices.length] ++ r.prices.flatMap int64.write

def pricedBytes (r1 r2 r3 : PriceRecord) : Bytes :=
  int32.write 12#32 ++ List.replicate 76 0 ++ r1.bytes ++ [0] ++ r2.bytes ++ [0] ++ r3.bytes ++ [0]

def agreedBytes (prices : List (BitVec 64)) : Bytes :=
  pricedBytes ⟨1600000000, prices⟩ ⟨1600000000, prices⟩ ⟨1600000000, prices⟩

def zeroUnset : Nat → Unset := fun _ =>
  ⟨fun _ => default, fun _ => default, fun _ => default, fun _ => default, fun _ => default⟩

def tenDollars : CoinsMap Uint256 := fun o => if o = ⟨default, 0⟩ then some ⟨10, 10, [], 1, 1, false⟩ else none

def buyTx : CMutableTransaction CPubKey :=
  ⟨[{ CTxIn.new (.new default) (.new default) with prevout := ⟨default, 0⟩ }],
    [{ CTxOut.new (.new default) default with nValue := 4, nValueBitCash := 4 }], 6, 0⟩

def thirdPrice : Bytes := agreedBytes [1, 1, 1] ++ [0]

def noPrice : Bytes := agreedBytes [] ++ [0]

def loneSecondPrice : Bytes := pricedBytes ⟨0, [5, 0]⟩ ⟨0, [5]⟩ ⟨0, [5]⟩ ++ [0]

def zeroPrice : Bytes := agreedBytes [0, 0] ++ [1] ++ buyTx.bytes SER_NETWORK true

/-- **malformed prices**: a third price is stored beyond the array; a record without prices is read
beyond it; the second price of the first record alone is compared with unset memory; and Dollars are
divided by a price of zero -/
theorem malformed_prices : (∀ s ∈ [thirdPrice, noPrice, loneSecondPrice, zeroPrice],
        (parseBlock zeroUnset s).map (fun _ => ()) = .ok () ∧ ¬ Handled zeroUnset tenDollars (fun _ => none) s) ∧
      decodeBlock default zeroUnset thirdPrice = .error (.fault .outOfBounds) ∧
      (decodeBlock default zeroUnset noPrice).map (fun p => p.1.getPriceinCurrency 0) =
        .ok (.error (.fault .outOfBounds)) ∧ (decodeBlock (fun _ => 8) zeroUnset loneSecondPrice).map
        (fun p => p.1.getPriceinCurrency 1) = .ok (.ok 8) ∧
      (decodeBlock (fun _ => 9) zeroUnset loneSecondPrice).map
        (fun p => p.1.getPriceinCurrency 1) = .ok (.ok 9) ∧
      (decodeBlock default zeroUnset zeroPrice).map
        (fun p => normaliseBlock tenDollars (fun _ => none) p.1) = .ok (.error (.fault .divisionByZero)) := by
  have hparse : ∀ s ∈ [thirdPrice, noPrice, loneSecondPrice, zeroPrice],
      (parseBlock zeroUnset s).map (fun _ => ()) = .ok () := by decide +kernel
  have hthird : decodeBlock default zeroUnset thirdPrice = .error (.fault .outOfBounds) := by
    decide +kernel
  have hnone : (decodeBlock default zeroUnset noPrice).map
      (fun p => p.1.getPriceinCurrency 0) = .ok (.error (.fault .outOfBounds)) := by
    decide
  have height : (decodeBlock (fun _ => 8) zeroUnset loneSecondPrice).map
      (fun p => p.1.getPriceinCurrency 1) = .ok (.ok 8) := by decide +kernel
  have hnine : (decodeBlock (fun _ => 9) zeroUnset loneSecondPrice).map
      (fun p => p.1.getPriceinCurrency 1) = .ok (.ok 9) := by decide +kernel
  have hzero : (decodeBlock default zeroUnset zeroPrice).map
      (fun p => normaliseBlock tenDollars (fun _ => none) p.1) =
        .ok (.error (.fault .divisionByZero)) := by decide +kernel
  refine ⟨fun s hs => ⟨hparse s hs, fun h => ?_⟩, hthird, hnone, height, hnine, hzero⟩
  simp only [List.mem_cons, List.not_mem_nil, or_false] at hs
  rcases hs with rfl | rfl | rfl | rfl
  · obtain ⟨p, hp⟩ := h.stored default
    rw [hthird] at hp
    cases hp
  · obtain ⟨x, hx⟩ := h.determined 0 (.inl rfl)
    obtain ⟨p, hp⟩ := h.stored default
    rw [hp] at hnone
    cases (hx default p.1 p.2 hp).symm.trans (Except.ok.inj hnone)
  · obtain ⟨x, hx⟩ := h.determined 1 (.inr rfl)
    obtain ⟨p, hp⟩ := h.stored fun _ => 8
    obtain ⟨q, hq⟩ := h.stored fun _ => 9
    rw [hp] at height
    rw [hq] at hnine
    have h8 := Except.ok.inj ((hx _ p.1 p.2 hp).symm.trans (Except.ok.inj height))
    have h9 := Except.ok.inj ((hx _ q.1 q.2 hq).symm.trans (Except.ok.inj hnine))
    omega
  · obtain ⟨p, hp⟩ := h.stored default
    rw [hp] at hzero
    have hret := h.returns default p.1 p.2 hp
    rw [show normaliseBlock tenDollars (fun _ => none) p.1 = _ from Except.ok.inj hzero] at hret
    cases hret

/-- the same transaction at the price of half a Dollar -/
theorem handled_halfDollar : Handled zeroUnset tenDollars (fun _ => none)
      (agreedBytes [500000000, 500000000] ++ [1] ++ buyTx.bytes SER_NETWORK true) := by
  obtain ⟨⟨b, t⟩, hb, hf⟩ := ok_of_toOption_map
    (show (parseBlock zeroUnset (agreedBytes [500000000, 500000000] ++ [1] ++
        buyTx.bytes SER_NETWORK true)).toOption.map
      (fun p => (p.1.header.prices, p.1.vtx.map fun tx => tx.firstCoin.map (·.prevout))) =
      some (some ⟨⟨1600000000, [500000000, 500000000]⟩, [], ⟨1600000000, [500000000, 500000000]⟩, [],
        ⟨1600000000, [500000000, 500000000]⟩, []⟩, [some ⟨default, 0⟩]) by decide +kernel)
  have hprices := congrArg Prod.fst hf
  have hvtx := congrArg Prod.snd hf
  simp only at hprices hvtx
  refine (handled_iff hb tenDollars fun _ => none).2 ⟨fun f hf => ?_, ?_⟩
  · cases hprices.symm.trans hf
    refine ⟨by decide, by decide, by decide, ?_⟩
    decide
  · intro p tx q hl _ _ i hi
    have hmem : tx.firstCoin.map (·.prevout) ∈ [some (⟨default, 0⟩ : COutPoint Uint256)] := by
      rw [← hvtx, hl]
      simp
    rw [List.mem_singleton, Option.mem_def.1 hi] at hmem
    have hprev : i.prevout = ⟨default, 0⟩ := Option.some.inj hmem
    have hprice : b.price0 ≠ 0 := by
      rw [ParsedBlock.price0, hprices]
      decide
    refine ⟨fun hspent => ?_, fun h0 => absurd h0 hprice⟩
    rw [hprev] at hspent
    exact absurd hspent (by decide)

end BitCash.Memory
