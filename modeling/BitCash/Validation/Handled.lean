import BitCash.Validation.Normalise

/-!
# When rewriting the amounts returns

`ProcessNewBlock` rewrites the amounts of a block before `CheckBlock` has looked at it.
-/

namespace BitCash
open Checks Machine List CTransaction

variable {H : Type} [Inhabited H] [DecidableEq H]

theorem returns_collect_iff {α β : Type} {f : α → Res β} {l : List α} : Returns (collect f l) ↔
      ∀ p a q, l = p ++ a :: q → (∀ b ∈ p, ∃ c, f b = .ok c) → Returns (f a) := by
  induction l with
  | nil =>
    refine ⟨fun _ p a q h => ?_, fun _ => trivial⟩
    simp at h
  | cons b l ih =>
    constructor
    · intro h p a q hl hp
      cases p with
      | nil =>
        cases hl
        cases hb : f b with
        | ok c => trivial
        | error e =>
          rw [collect, hb] at h
          exact h
      | cons d p =>
        rw [cons_append, cons.injEq] at hl
        obtain ⟨rfl, rfl⟩ := hl
        obtain ⟨c, hc⟩ := hp b mem_cons_self
        rw [collect, hc, ok_bind] at h
        have hrest : Returns (collect f (p ++ a :: q)) := by
          cases hcol : collect f (p ++ a :: q) with
          | ok m => trivial
          | error e =>
            rw [hcol] at h
            exact h
        exact ih.1 hrest p a q rfl fun d hd => hp d (mem_cons_of_mem b hd)
    · intro h
      rw [collect]
      refine (h [] b l rfl (forall_mem_nil _)).bind fun c hc => ?_
      refine Returns.bind (ih.2 fun p a q hl hp => ?_) fun _ _ => trivial
      refine h (b :: p) a q (by rw [hl]; rfl) fun d hd => ?_
      rcases mem_cons.1 hd with rfl | hd
      · exact ⟨c, hc⟩
      · exact hp d hd

/-! ## the outputs -/

/-- the first output in BitCash, or in Dollars with another amount, is in BitCash -/
def BuysFirst (vout : List CTxOut) : Prop :=
  (vout.find? fun o => o.currency == 0 || o.currency == 1 && o.nValue != o.nValueBitCash).any
    (·.currency == 0) = true

instance (vout : List CTxOut) : Decidable (BuysFirst vout) := inferInstanceAs (Decidable (_ = true))

section Outs
variable {p0 p1 : Int} {c : UInt8} {cb : Bool}

theorem wantedAmount_ok {o : CTxOut} (h : p0 = 0 → c = 1 → o.currency ≠ 0) :
    ∃ a, wantedAmount p0 p1 c cb o = .ok a := by
  unfold wantedAmount
  split
  · exact ⟨_, rfl⟩
  · split
    · exact ⟨_, divAmount_of_ne (by decide)⟩
    · split
      · next hc => exact ⟨_, divAmount_of_ne fun h0 => h h0 hc.1 hc.2⟩
      · exact ⟨_, rfl⟩

theorem normaliseOuts_ok (h : ¬ (p0 = 0 ∧ c = 1)) (l : List CTxOut) :
    ∃ m, normaliseOuts (wantedAmount p0 p1 c cb) l = .ok m := by
  induction l with
  | nil => exact ⟨[], rfl⟩
  | cons o l ih =>
    obtain ⟨a, ha⟩ := @wantedAmount_ok p0 p1 c cb o fun h0 h1 => absurd ⟨h0, h1⟩ h
    rw [normaliseOuts, ha, ok_bind]
    split
    · obtain ⟨m, hm⟩ := ih
      exact ⟨_, by rw [hm, ok_bind]⟩
    · exact ⟨_, rfl⟩

theorem normaliseOuts_zero (l : List CTxOut) :
    (BuysFirst l ∧ normaliseOuts (wantedAmount 0 p1 1 false) l = .error (.fault .divisionByZero)) ∨
      ¬ BuysFirst l ∧ ∃ m, normaliseOuts (wantedAmount 0 p1 1 false) l = .ok m := by
  induction l with
  | nil => exact .inr ⟨by decide, [], rfl⟩
  | cons o l ih =>
    have hskip : (o.currency == 0 || o.currency == 1 && o.nValue != o.nValueBitCash) = false →
        (BuysFirst (o :: l) ↔ BuysFirst l) := by
      intro hf
      unfold BuysFirst
      rw [find?_cons, hf]
    have hstop : (o.currency == 0 || o.currency == 1 && o.nValue != o.nValueBitCash) = true →
        (BuysFirst (o :: l) ↔ o.currency = 0) := by
      intro hf
      unfold BuysFirst
      rw [find?_cons, hf]
      exact beq_iff_eq
    -- an output that is kept, and one that is rewritten
    have hkeep : ∀ a, wantedAmount 0 p1 1 false o = .ok a → o.nValue = a →
        normaliseOuts (wantedAmount 0 p1 1 false) (o :: l) =
          normaliseOuts (wantedAmount 0 p1 1 false) l >>= fun m => .ok (o :: m) := by
      intro a ha he
      rw [normaliseOuts, ha, ok_bind, if_pos he]
    by_cases h0 : o.currency = 0
    · refine .inl ⟨(hstop (by rw [h0]; rfl)).2 h0, ?_⟩
      have hw : wantedAmount 0 p1 1 false o = .error (.fault .divisionByZero) := by
        unfold wantedAmount
        rw [if_neg (by rw [h0]; decide), if_neg (fun h => absurd h.1 (by decide)), if_pos ⟨rfl, h0⟩]
        rfl
      rw [normaliseOuts, hw]
      rfl
    · have hgo : ∀ a, wantedAmount 0 p1 1 false o = .ok a → o.nValue = a →
          (o.currency == 0 || o.currency == 1 && o.nValue != o.nValueBitCash) = false →
          (BuysFirst (o :: l) ∧ normaliseOuts (wantedAmount 0 p1 1 false) (o :: l) =
            .error (.fault .divisionByZero)) ∨ ¬ BuysFirst (o :: l) ∧
            ∃ m, normaliseOuts (wantedAmount 0 p1 1 false) (o :: l) = .ok m := by
        intro a ha he hf
        rw [hkeep a ha he, hskip hf]
        rcases ih with ⟨hb, hl⟩ | ⟨hb, m, hl⟩
        · exact .inl ⟨hb, by rw [hl]; rfl⟩
        · exact .inr ⟨hb, _, by rw [hl, ok_bind]⟩
      by_cases h1 : o.currency = 1
      · have hw : wantedAmount 0 p1 1 false o = .ok o.nValueBitCash := if_pos h1
        by_cases he : o.nValue = o.nValueBitCash
        · exact hgo _ hw he (by rw [h1, he]; simp)
        · refine .inr ⟨fun hb => ?_, _, by rw [normaliseOuts, hw, ok_bind, if_neg he]⟩
          exact h0 ((hstop (by rw [h1]; simp [he])).1 hb)
      · have hw : wantedAmount 0 p1 1 false o = .ok o.nValue := by
          unfold wantedAmount
          rw [if_neg h1, if_neg (fun h => absurd h.1 (by decide)), if_neg fun h => h0 h.2]
        exact hgo _ hw rfl (by simp [h0, h1])

end Outs

/-! ## the transactions -/

/-- the input whose currency counts: the first one that spends a coin -/
def CTransaction.firstCoin (tx : CTransaction H) : Option (CTxIn H) :=
  if tx.isCoinBase then none else tx.coinInputs.head?

section Txs
variable (tip : CoinsMap H) (getTx : H → Option (CTransaction H))

def coinCurrency (i : CTxIn H) : Res UInt8 :=
  if (tipCoin tip i.prevout).isSpent then
    match getTx i.prevout.hash with
    | none => .error (.systemError "Could not get input transaction")
    | some txfound =>
      match txfound.vout[i.prevout.n.toNat]? with
      | none => .error (.fault .outOfBounds)
      | some o => .ok o.currency
  else .ok (tipCoin tip i.prevout).spendCurrency

def Unresolved (i : CTxIn H) : Prop :=
  (tipCoin tip i.prevout).isSpent = true ∧ getTx i.prevout.hash = none

def LookupInBounds (i : CTxIn H) : Prop :=
  (tipCoin tip i.prevout).isSpent = true →
    ∀ t, getTx i.prevout.hash = some t → i.prevout.n.toNat < t.vout.length

def SpendsDollars (i : CTxIn H) : Prop :=
  if (tipCoin tip i.prevout).isSpent then ∃ t o, getTx i.prevout.hash = some t ∧
    t.vout[i.prevout.n.toNat]? = some o ∧ o.currency = 1
  else (tipCoin tip i.prevout).spendCurrency = 1

def Rewritable (p0 : Int) (tx : CTransaction H) : Prop :=
  ∀ i ∈ tx.firstCoin, LookupInBounds tip getTx i ∧
    (p0 = 0 → SpendsDollars tip getTx i → ¬ BuysFirst tx.vout)

variable {tip getTx}

theorem lookupCurrency_eq (tx : CTransaction H) : lookupCurrency tip getTx tx = match tx.firstCoin with
      | none => .ok 0
      | some i => coinCurrency tip getTx i := by
  unfold lookupCurrency firstCoin
  cases tx.isCoinBase with
  | true => rfl
  | false =>
    cases tx.coinInputs with
    | nil => rfl
    | cons i l => rfl

theorem coinCurrency_cases (i : CTxIn H) : (∃ c, coinCurrency tip getTx i = .ok c ∧ ¬ Unresolved tip getTx i ∧
        LookupInBounds tip getTx i ∧ (c = 1 ↔ SpendsDollars tip getTx i)) ∨
      (coinCurrency tip getTx i = .error (.systemError "Could not get input transaction") ∧
        Unresolved tip getTx i ∧ LookupInBounds tip getTx i ∧ ¬ SpendsDollars tip getTx i) ∨
      (coinCurrency tip getTx i = .error (.fault .outOfBounds) ∧ ¬ LookupInBounds tip getTx i) := by
  unfold coinCurrency Unresolved LookupInBounds SpendsDollars
  cases hs : (tipCoin tip i.prevout).isSpent with
  | false => simp
  | true =>
    cases ht : getTx i.prevout.hash with
    | none => simp
    | some t =>
      cases ho : t.vout[i.prevout.n.toNat]? with
      | none =>
        have hge := List.getElem?_eq_none_iff.1 ho
        simp [hge]
      | some o =>
        have hlt := (List.getElem?_eq_some_iff.1 ho).1
        simp [hlt]

theorem firstCoin_not_coinBase {tx : CTransaction H} {i : CTxIn H} (h : tx.firstCoin = some i) :
    tx.isCoinBase = false := by
  unfold firstCoin at h
  cases hcb : tx.isCoinBase with
  | false => rfl
  | true =>
    rw [hcb] at h
    cases h

variable {p0 p1 : Int}

theorem normaliseOuts_cases {c : UInt8} {cb : Bool} (hcb : c = 1 → cb = false) (l : List CTxOut) :
    ((p0 = 0 ∧ c = 1 ∧ BuysFirst l) ∧ normaliseOuts (wantedAmount p0 p1 c cb) l = .error (.fault .divisionByZero)) ∨
      ¬ (p0 = 0 ∧ c = 1 ∧ BuysFirst l) ∧ ∃ m, normaliseOuts (wantedAmount p0 p1 c cb) l = .ok m := by
  by_cases hz : p0 = 0 ∧ c = 1
  · obtain ⟨rfl, rfl⟩ := hz
    rw [hcb rfl]
    rcases @normaliseOuts_zero p1 l with ⟨hb, hl⟩ | ⟨hb, hl⟩
    · exact .inl ⟨⟨rfl, rfl, hb⟩, hl⟩
    · exact .inr ⟨fun h => hb h.2.2, hl⟩
  · exact .inr ⟨fun h => hz ⟨h.1, h.2.1⟩, normaliseOuts_ok hz l⟩

theorem normaliseTx_cases {tx : CTransaction H} (hv : 5 ≤ tx.nVersion) :
    ((∃ tx', normaliseTx tip getTx p0 p1 tx = .ok tx') ∧ Rewritable tip getTx p0 tx ∧
        ∀ i ∈ tx.firstCoin, ¬ Unresolved tip getTx i) ∨
      (normaliseTx tip getTx p0 p1 tx = .error (.systemError "Could not get input transaction") ∧
        Rewritable tip getTx p0 tx ∧ ∃ i ∈ tx.firstCoin, Unresolved tip getTx i) ∨
      ((∃ f, normaliseTx tip getTx p0 p1 tx = .error (.fault f)) ∧ ¬ Rewritable tip getTx p0 tx) := by
  unfold normaliseTx Rewritable
  rw [if_pos hv, lookupCurrency_eq]
  cases hi : tx.firstCoin with
  | none =>
    obtain ⟨m, hm⟩ := @normaliseOuts_ok p0 p1 0 tx.isCoinBase (fun h => absurd h.2 (by decide)) tx.vout
    refine .inl ⟨⟨tx.withVout m, ?_⟩, (fun i h => nomatch h), (fun i h => nomatch h)⟩
    show (normaliseOuts (wantedAmount p0 p1 0 tx.isCoinBase) tx.vout >>= _) = _
    rw [hm]
    rfl
  | some i =>
    simp only [Option.mem_some_iff, forall_eq', exists_eq_left']
    rcases @coinCurrency_cases _ _ _ tip getTx i with
      ⟨c, hc, hun, hin, hd⟩ | ⟨hc, hun, hin, hd⟩ | ⟨hc, hin⟩
    · rw [hc, ok_bind]
      rcases @normaliseOuts_cases p0 p1 c tx.isCoinBase (fun _ => firstCoin_not_coinBase hi) tx.vout with
        ⟨⟨h0, h1, hb⟩, hl⟩ | ⟨hno, m, hm⟩
      · refine .inr (.inr ⟨⟨.divisionByZero, by rw [hl]; rfl⟩, ?_⟩)
        exact fun h => h.2 h0 (hd.1 h1) hb
      · refine .inl ⟨⟨tx.withVout m, by rw [hm]; rfl⟩, ⟨hin, ?_⟩, hun⟩
        exact fun h0 hspend hb => hno ⟨h0, hd.2 hspend, hb⟩
    · rw [hc]
      exact .inr (.inl ⟨rfl, ⟨hin, fun _ h => absurd h hd⟩, hun⟩)
    · rw [hc]
      exact .inr (.inr ⟨⟨_, rfl⟩, fun h => hin h.1⟩)

variable (tip getTx p0) in
def AllRewritable (vtx : List (CTransaction H)) : Prop :=
  ∀ p tx q, vtx = p ++ tx :: q →
    (∀ t ∈ p, 5 ≤ t.nVersion → ∀ i ∈ t.firstCoin, ¬ Unresolved tip getTx i) →
    5 ≤ tx.nVersion → Rewritable tip getTx p0 tx

theorem normaliseTx_returns_iff (tx : CTransaction H) :
    Returns (normaliseTx tip getTx p0 p1 tx) ↔ (5 ≤ tx.nVersion → Rewritable tip getTx p0 tx) := by
  by_cases hv : 5 ≤ tx.nVersion
  · rcases @normaliseTx_cases _ _ _ tip getTx p0 p1 tx hv with
      ⟨⟨tx', h⟩, hr, -⟩ | ⟨h, hr, -⟩ | ⟨⟨f, h⟩, hr⟩
    · rw [h]
      exact iff_of_true trivial fun _ => hr
    · rw [h]
      exact iff_of_true rfl fun _ => hr
    · rw [h]
      exact iff_of_false (fun h => nomatch h) fun h => hr (h hv)
  · rw [normaliseTx, if_neg hv]
    exact iff_of_true trivial fun h => absurd h hv

theorem normaliseTx_ok_iff (tx : CTransaction H) :
    (∃ tx', normaliseTx tip getTx p0 p1 tx = .ok tx') ↔ (5 ≤ tx.nVersion →
      Rewritable tip getTx p0 tx ∧ ∀ i ∈ tx.firstCoin, ¬ Unresolved tip getTx i) := by
  by_cases hv : 5 ≤ tx.nVersion
  · rcases @normaliseTx_cases _ _ _ tip getTx p0 p1 tx hv with
      ⟨h, hr, hun⟩ | ⟨h, -, i, hi, hun⟩ | ⟨⟨f, h⟩, hr⟩
    · exact iff_of_true h fun _ => ⟨hr, hun⟩
    · rw [h]
      exact iff_of_false (fun ⟨_, h⟩ => nomatch h) fun hno => (hno hv).2 i hi hun
    · rw [h]
      exact iff_of_false (fun ⟨_, h⟩ => nomatch h) fun hno => hr (hno hv).1
  · rw [normaliseTx, if_neg hv]
    exact iff_of_true ⟨tx, rfl⟩ fun h => absurd h hv

theorem normaliseTxs_returns_iff (vtx : List (CTransaction H)) :
    Returns (collect (normaliseTx tip getTx p0 p1) vtx) ↔ AllRewritable tip getTx p0 vtx := by
  rw [returns_collect_iff]
  constructor
  · -- the transactions in front are rewritten one after the other
    intro h
    have hfront : ∀ p q, vtx = p ++ q → (∀ t ∈ p, 5 ≤ t.nVersion → ∀ i ∈ t.firstCoin, ¬ Unresolved tip getTx i) →
        ∀ t ∈ p, ∃ t', normaliseTx tip getTx p0 p1 t = .ok t' := by
      intro p
      induction p using reverseRecOn with
      | nil => exact fun q _ _ t ht => nomatch ht
      | append_singleton p t ih =>
        intro q hq hun
        rw [append_assoc] at hq
        have hp := ih _ hq fun t ht => hun t (by simp [ht])
        intro t' ht'
        rcases mem_append.1 ht' with ht' | ht'
        · exact hp t' ht'
        · obtain rfl := mem_singleton.1 ht'
          have hret := (normaliseTx_returns_iff t').1 (h p t' q hq hp)
          exact (normaliseTx_ok_iff t').2 fun hv => ⟨hret hv, hun t' (by simp) hv⟩
    intro p tx q hl hun
    exact (normaliseTx_returns_iff tx).1 (h p tx q hl (hfront p _ hl hun))
  · intro h p tx q hl hok
    refine (normaliseTx_returns_iff tx).2 (h p tx q hl fun t ht hv => ?_)
    exact ((normaliseTx_ok_iff t).1 (hok t ht) hv).2

end Txs

end BitCash
