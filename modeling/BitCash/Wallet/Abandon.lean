import Mathlib.Data.List.Perm.Subperm
import BitCash.Primitives.Transaction

/-!
# Abandoned transactions

`AbandonTransaction` goes through a work list: it marks a transaction, and stages the transactions of the wallet
that spend its outputs.
-/

set_option linter.unusedSectionVars false

namespace BitCash
open List COutPoint

variable {H : Type} [Inhabited H] [LinearOrder H]

structure CWalletTx (H : Type) [Inhabited H] [LinearOrder H] where
  tx : CTransaction H
  hashBlock : H
  nIndex : Int
  fInMempool : Bool

structure WalletChain (H : Type) where
  abandonHash : H
  blocksOnTop : H → Option Nat

variable (C : WalletChain H) {x a : H}

def CWalletTx.isAbandoned (wtx : CWalletTx H) : Bool := decide (wtx.hashBlock = C.abandonHash)

def CWalletTx.hashUnset (wtx : CWalletTx H) : Bool := decide (wtx.hashBlock = default) || wtx.isAbandoned C

def CWalletTx.getDepthInMainChain (wtx : CWalletTx H) : Int :=
  if wtx.hashUnset C then 0
  else
    match C.blocksOnTop wtx.hashBlock with
    | none => 0
    | some onTop => (if wtx.nIndex = -1 then -1 else 1) * (onTop + 1)

def CWalletTx.setAbandoned (wtx : CWalletTx H) : CWalletTx H :=
  { wtx with nIndex := -1, hashBlock := C.abandonHash }

def COutPoint.before (a b : COutPoint H) : Prop := a.hash < b.hash ∨ (a.hash = b.hash ∧ a.n < b.n)

instance (a b : COutPoint H) : Decidable (a.before b) := inferInstanceAs (Decidable (_ ∨ _))

def CWalletTx.Spends (wtx : CWalletTx H) (o : COutPoint H) : Prop :=
  wtx.tx.isCoinBase = false ∧ ∃ i ∈ wtx.tx.vin, i.isnickname = false ∧ i.prevout = o

structure SpendWallet (H : Type) [Inhabited H] [LinearOrder H] where
  mapWallet : H → Option (CWalletTx H)
  mapTxSpends : List (COutPoint H × H)
  ordered : mapTxSpends.Pairwise fun a b => ¬ b.1.before a.1
  spends_iff : ∀ o h, (o, h) ∈ mapTxSpends ↔ ∃ wtx, mapWallet h = some wtx ∧ wtx.Spends o

/-! ## the code -/

def SpendWallet.abandon (w : SpendWallet H) (h : H) : SpendWallet H where
  mapWallet k := if k = h then (w.mapWallet k).map (·.setAbandoned C) else w.mapWallet k
  mapTxSpends := w.mapTxSpends
  ordered := w.ordered
  spends_iff o k := by
    rw [w.spends_iff]
    split
    · rw [exists_congr fun wtx => and_congr_left' (Option.map_eq_some_iff)]
      constructor
      · rintro ⟨wtx, hwtx, hspends⟩
        exact ⟨wtx.setAbandoned C, ⟨wtx, hwtx, rfl⟩, hspends⟩
      · rintro ⟨_, ⟨wtx, hwtx, rfl⟩, hspends⟩
        exact ⟨wtx, hwtx, hspends⟩
    · rfl

def SpendWallet.spendsFrom (w : SpendWallet H) (hashTx now : H) : List H :=
  ((w.mapTxSpends.dropWhile fun s => decide (s.1.before ⟨hashTx, 0⟩)).takeWhile
    fun s => decide (s.1.hash = now)).map (·.2)

/-- `std::set::insert`, in the order of the set -/
def setInsert (a : H) : List H → List H
  | [] => [a]
  | b :: l => if a < b then a :: b :: l else if a = b then b :: l else b :: setInsert a l

def stage (todo done spends : List H) : List H :=
  spends.foldl (fun todo h => if h ∈ done then todo else setInsert h todo) todo

inductive Halt
  | assertion
  | rounds
  deriving DecidableEq

def abandonLoop (hashTx : H) : Nat → List H → List H → SpendWallet H → Except Halt (SpendWallet H)
  | _, [], _, w => .ok w
  | 0, _ :: _, _, _ => .error .rounds
  | rounds + 1, now :: todo, done, w =>
    match w.mapWallet now with
    | none => .error .assertion
    | some wtx =>
      let currentconfirm := wtx.getDepthInMainChain C
      -- "If the orig tx was not in block, none of its spends can be"
      if 0 < currentconfirm then .error .assertion
      else if currentconfirm = 0 ∧ wtx.isAbandoned C = false then
        if wtx.fInMempool then .error .assertion
        else abandonLoop hashTx rounds (stage todo (now :: done) (w.spendsFrom hashTx now)) (now :: done)
          (w.abandon C now)
      else abandonLoop hashTx rounds todo (now :: done) w

/-- `AbandonTransaction`; every transaction but the first is staged from the index -/
def abandonTransaction (w : SpendWallet H) (hashTx : H) : Except Halt (Bool × SpendWallet H) :=
  match w.mapWallet hashTx with
  | none => .error .assertion
  | some origtx =>
    if origtx.getDepthInMainChain C ≠ 0 ∨ origtx.fInMempool = true then .ok (false, w)
    else (abandonLoop C hashTx (w.mapTxSpends.length + 1) [hashTx] [] w).map fun w' => (true, w')

/-! ## sets and scans -/

theorem mem_setInsert {l : List H} : x ∈ setInsert a l ↔ x = a ∨ x ∈ l := by
  induction l with
  | nil => simp [setInsert]
  | cons b l ih =>
    unfold setInsert
    split
    · rw [mem_cons]
    · split
      · next h => rw [h, mem_cons, ← or_assoc, or_self]
      · rw [mem_cons, ih, mem_cons, or_left_comm]

theorem setInsert_sorted {l : List H} (h : l.Pairwise (· < ·)) : (setInsert a l).Pairwise (· < ·) := by
  induction l with
  | nil => exact pairwise_singleton _ _
  | cons b l ih =>
    obtain ⟨hb, hl⟩ := pairwise_cons.1 h
    unfold setInsert
    split
    · next hab =>
      refine pairwise_cons.2 ⟨?_, h⟩
      intro x hx
      rcases mem_cons.1 hx with rfl | hx
      · exact hab
      · exact hab.trans (hb x hx)
    · next hab =>
      split
      · exact h
      · next hne =>
        have hba : b < a := lt_of_le_of_ne (not_lt.1 hab) (Ne.symm hne)
        refine pairwise_cons.2 ⟨?_, ih hl⟩
        intro x hx
        rcases mem_setInsert.1 hx with rfl | hx
        · exact hba
        · exact hb x hx

theorem mem_stage {todo done spends : List H} : x ∈ stage todo done spends ↔ x ∈ todo ∨ (x ∈ spends ∧ x ∉ done) := by
  unfold stage
  induction spends generalizing todo with
  | nil => simp
  | cons h spends ih =>
    rw [foldl_cons, ih]
    by_cases hd : h ∈ done
    · rw [if_pos hd, mem_cons]
      constructor
      · rintro (hx | ⟨hx, hnot⟩)
        · exact .inl hx
        · exact .inr ⟨.inr hx, hnot⟩
      · rintro (hx | ⟨rfl | hx, hnot⟩)
        · exact .inl hx
        · exact absurd hd hnot
        · exact .inr ⟨hx, hnot⟩
    · rw [if_neg hd, mem_setInsert, mem_cons]
      constructor
      · rintro ((rfl | hx) | ⟨hx, hnot⟩)
        · exact .inr ⟨.inl rfl, hd⟩
        · exact .inl hx
        · exact .inr ⟨.inr hx, hnot⟩
      · rintro (hx | ⟨rfl | hx, hnot⟩)
        · exact .inl (.inr hx)
        · exact .inl (.inl rfl)
        · exact .inr ⟨hx, hnot⟩

theorem stage_sorted {todo done spends : List H} (h : todo.Pairwise (· < ·)) :
    (stage todo done spends).Pairwise (· < ·) := by
  unfold stage
  induction spends generalizing todo with
  | nil => exact h
  | cons a spends ih =>
    rw [foldl_cons]
    apply ih
    split
    · exact h
    · exact setInsert_sorted h

theorem COutPoint.hash_le {a b : COutPoint H} (h : ¬ b.before a) : a.hash ≤ b.hash := by
  by_contra hlt
  exact h (.inl (not_le.1 hlt))

theorem COutPoint.before_first {o : COutPoint H} {h : H} : o.before ⟨h, 0⟩ ↔ o.hash < h := by
  unfold before
  constructor
  · rintro (hlt | ⟨-, hn⟩)
    · exact hlt
    · exact absurd hn (by simp)
  · exact .inl

section Scan
variable {l : List (COutPoint H × H)} {root now : H} {s : COutPoint H × H}

theorem mem_takeWhile_hash (hl : l.Pairwise fun a b => ¬ b.1.before a.1) (hge : ∀ s ∈ l, root ≤ s.1.hash) :
    s ∈ l.takeWhile (fun s => decide (s.1.hash = root)) ↔ s ∈ l ∧ s.1.hash = root := by
  induction l with
  | nil => simp
  | cons t l ih =>
    obtain ⟨ht, hl⟩ := pairwise_cons.1 hl
    rw [takeWhile_cons]
    by_cases hr : t.1.hash = root
    · rw [if_pos (decide_eq_true hr), mem_cons, mem_cons, ih hl fun s hs => hge s (mem_cons_of_mem t hs)]
      constructor
      · rintro (rfl | ⟨hs, hh⟩)
        · exact ⟨.inl rfl, hr⟩
        · exact ⟨.inr hs, hh⟩
      · rintro ⟨rfl | hs, hh⟩
        · exact .inl rfl
        · exact .inr ⟨hs, hh⟩
    · rw [if_neg (by rw [decide_eq_true_eq]; exact hr)]
      have hlt : root < t.1.hash := lt_of_le_of_ne (hge t mem_cons_self) (Ne.symm hr)
      constructor
      · intro hs
        cases hs
      · rintro ⟨hs, hh⟩
        rcases mem_cons.1 hs with rfl | hs
        · exact absurd hh hr
        · have hle := hash_le (ht s hs)
          rw [hh] at hle
          exact absurd hle (not_le.2 hlt)

theorem mem_dropWhile_first (hl : l.Pairwise fun a b => ¬ b.1.before a.1) :
    s ∈ l.dropWhile (fun s => decide (s.1.before ⟨root, 0⟩)) ↔ s ∈ l ∧ root ≤ s.1.hash := by
  induction l with
  | nil => simp
  | cons t l ih =>
    obtain ⟨ht, hl⟩ := pairwise_cons.1 hl
    rw [dropWhile_cons]
    by_cases hb : t.1.before ⟨root, 0⟩
    · rw [if_pos (decide_eq_true hb), ih hl, mem_cons]
      constructor
      · rintro ⟨hs, hle⟩
        exact ⟨.inr hs, hle⟩
      · rintro ⟨rfl | hs, hle⟩
        · exact absurd hle (not_le.2 (before_first.1 hb))
        · exact ⟨hs, hle⟩
    · rw [if_neg (by rw [decide_eq_true_eq]; exact hb)]
      have hle : root ≤ t.1.hash := not_lt.1 fun hlt => hb (before_first.2 hlt)
      constructor
      · intro hs
        refine ⟨hs, ?_⟩
        rcases mem_cons.1 hs with rfl | hs
        · exact hle
        · exact hle.trans (hash_le (ht s hs))
      · exact fun hs => hs.1

end Scan

def SpendWallet.SpendsTx (w : SpendWallet H) (a h : H) : Prop := ∃ o, (o, h) ∈ w.mapTxSpends ∧ o.hash = a

theorem scan_root {w : SpendWallet H} {root h : H} : h ∈ w.spendsFrom root root ↔ w.SpendsTx root h := by
  have hsub : (w.mapTxSpends.dropWhile fun s => decide (s.1.before ⟨root, 0⟩)).Pairwise
      fun a b => ¬ b.1.before a.1 := w.ordered.sublist (dropWhile_sublist _)
  have hge : ∀ s ∈ w.mapTxSpends.dropWhile (fun s => decide (s.1.before ⟨root, 0⟩)), root ≤ s.1.hash :=
    fun s hs => ((mem_dropWhile_first w.ordered).1 hs).2
  unfold SpendWallet.spendsFrom SpendWallet.SpendsTx
  rw [mem_map]
  constructor
  · rintro ⟨⟨o, k⟩, hs, rfl⟩
    obtain ⟨hs, hh⟩ := (mem_takeWhile_hash hsub hge).1 hs
    exact ⟨o, ((mem_dropWhile_first w.ordered).1 hs).1, hh⟩
  · rintro ⟨o, ho, hh⟩
    refine ⟨(o, h), (mem_takeWhile_hash hsub hge).2 ⟨?_, hh⟩, rfl⟩
    exact (mem_dropWhile_first w.ordered).2 ⟨ho, hh.ge⟩

theorem scan_other {w : SpendWallet H} {root now h : H} (hne : now ≠ root) (hroot : w.SpendsTx root h) :
    w.spendsFrom root now = [] := by
  obtain ⟨o, ho, hh⟩ := hroot
  have hsub : (w.mapTxSpends.dropWhile fun s => decide (s.1.before ⟨root, 0⟩)).Pairwise
      fun a b => ¬ b.1.before a.1 := w.ordered.sublist (dropWhile_sublist _)
  have hin := (mem_dropWhile_first w.ordered).2 ⟨ho, hh.ge⟩
  have hge : ∀ s ∈ w.mapTxSpends.dropWhile (fun s => decide (s.1.before ⟨root, 0⟩)), root ≤ s.1.hash :=
    fun s hs => ((mem_dropWhile_first w.ordered).1 hs).2
  unfold SpendWallet.spendsFrom
  generalize w.mapTxSpends.dropWhile (fun s => decide (s.1.before ⟨root, 0⟩)) = l at hsub hin hge
  cases l with
  | nil => rfl
  | cons t l =>
    have hle : t.1.hash ≤ root := by
      rcases mem_cons.1 hin with heq | hin
      · rw [← heq]
        exact hh.le
      · have := hash_le ((pairwise_cons.1 hsub).1 (o, h) hin)
        rwa [hh] at this
    have hroot : t.1.hash = root := le_antisymm hle (hge t mem_cons_self)
    rw [takeWhile_cons, if_neg (by rw [decide_eq_true_eq, hroot]; exact Ne.symm hne), map_nil]

/-! ## the work list -/

def SpendWallet.Fresh (w : SpendWallet H) (h : H) : Prop :=
  ∃ wtx, w.mapWallet h = some wtx ∧ wtx.getDepthInMainChain C = 0 ∧ wtx.isAbandoned C = false

structure AbandonInv (w : SpendWallet H) (root : H) (todo done : List H) (cur : SpendWallet H) : Prop where
  sorted : todo.Pairwise (· < ·)
  apart : ∀ h ∈ todo, h ∉ done
  nodup : done.Nodup
  found : ∀ h, h ∈ todo ∨ h ∈ done → h = root ∨ (w.Fresh C root ∧ w.SpendsTx root h)
  start : root ∈ todo ∨ root ∈ done
  direct : root ∈ done → w.Fresh C root → ∀ h, w.SpendsTx root h → h ∈ todo ∨ h ∈ done
  index : cur.mapTxSpends = w.mapTxSpends
  marked : ∀ h ∈ done, w.Fresh C h → cur.mapWallet h = (w.mapWallet h).map (·.setAbandoned C)
  kept : ∀ h, ¬ (h ∈ done ∧ w.Fresh C h) → cur.mapWallet h = w.mapWallet h

variable {C} {w cur w' : SpendWallet H} {root now : H} {todo done : List H}

theorem AbandonInv.init (w : SpendWallet H) (root : H) : AbandonInv C w root [root] [] w where
  sorted := pairwise_singleton _ _
  apart _ _ := not_mem_nil
  nodup := nodup_nil
  found h hh := by
    rcases hh with hh | hh
    · exact .inl (mem_singleton.1 hh)
    · cases hh
  start := .inl mem_cons_self
  direct hroot := absurd hroot not_mem_nil
  index := rfl
  marked h hh := absurd hh not_mem_nil
  kept _ _ := rfl

variable (h : AbandonInv C w root (now :: todo) done cur)

include h in
theorem AbandonInv.now_eq : cur.mapWallet now = w.mapWallet now :=
  h.kept now fun hd => h.apart now mem_cons_self hd.1

include h in
theorem AbandonInv.mem_scan : x ∈ cur.spendsFrom root now ↔ now = root ∧ w.SpendsTx root x:= by
  have hscan : cur.spendsFrom root now = w.spendsFrom root now := by
    unfold SpendWallet.spendsFrom
    rw [h.index]
  rw [hscan]
  by_cases hroot : now = root
  · subst hroot
    rw [scan_root]
    exact (and_iff_right rfl).symm
  · rcases h.found now (.inl mem_cons_self) with heq | ⟨-, hspends⟩
    · exact absurd heq hroot
    · rw [scan_other hroot hspends]
      constructor
      · intro hx
        cases hx
      · exact fun hx => absurd hx.1 hroot

include h in
theorem AbandonInv.next {new : List H} {cur' : SpendWallet H}
    (hnew : ∀ x ∈ new, w.Fresh C root ∧ w.SpendsTx root x)
    (hall : now = root → w.Fresh C root → ∀ x, w.SpendsTx root x → x ∈ new)
    (hindex : cur'.mapTxSpends = w.mapTxSpends)
    (hmarked : ∀ x ∈ now :: done, w.Fresh C x → cur'.mapWallet x = (w.mapWallet x).map (·.setAbandoned C))
    (hkept : ∀ x, ¬ (x ∈ now :: done ∧ w.Fresh C x) → cur'.mapWallet x = w.mapWallet x) :
    AbandonInv C w root (stage todo (now :: done) new) (now :: done) cur' where
  sorted := stage_sorted (pairwise_cons.1 h.sorted).2
  apart x hx := by
    rcases mem_stage.1 hx with hold | ⟨-, hnew⟩
    · intro hd
      rcases mem_cons.1 hd with rfl | hd
      · exact lt_irrefl x ((pairwise_cons.1 h.sorted).1 x hold)
      · exact h.apart x (mem_cons_of_mem _ hold) hd
    · exact hnew
  nodup := nodup_cons.2 ⟨h.apart now mem_cons_self, h.nodup⟩
  found x hx := by
    rcases hx with hx | hx
    · rcases mem_stage.1 hx with hx | ⟨hx, -⟩
      · exact h.found x (.inl (mem_cons_of_mem _ hx))
      · exact .inr (hnew x hx)
    · rcases mem_cons.1 hx with rfl | hx
      · exact h.found x (.inl mem_cons_self)
      · exact h.found x (.inr hx)
  start := by
    rcases h.start with hr | hr
    · rcases mem_cons.1 hr with rfl | hr
      · exact .inr mem_cons_self
      · exact .inl (mem_stage.2 (.inl hr))
    · exact .inr (mem_cons_of_mem _ hr)
  direct hroot hfresh x hx := by
    by_cases hd : x ∈ now :: done
    · exact .inr hd
    · left
      rcases mem_cons.1 hroot with heq | hroot
      · exact mem_stage.2 (.inr ⟨hall heq.symm hfresh x hx, hd⟩)
      · rcases h.direct hroot hfresh x hx with hx | hx
        · rcases mem_cons.1 hx with rfl | hx
          · exact absurd mem_cons_self hd
          · exact mem_stage.2 (.inl hx)
        · exact absurd (mem_cons_of_mem _ hx) hd
  index := hindex
  marked := hmarked
  kept := hkept

section
variable (h : AbandonInv C w root (now :: todo) done cur)
include h

theorem AbandonInv.skip (hstale : ¬ w.Fresh C now) : AbandonInv C w root todo (now :: done) cur := by
  -- nothing is staged
  show AbandonInv C w root (stage todo (now :: done) []) (now :: done) cur
  refine h.next (fun x hx => absurd hx not_mem_nil) (fun heq hfresh => absurd (heq ▸ hfresh) hstale) h.index
    (fun x hx hfresh => ?_) fun x hx => ?_
  · rcases mem_cons.1 hx with rfl | hx
    · exact absurd hfresh hstale
    · exact h.marked x hx hfresh
  · exact h.kept x fun hd => hx ⟨mem_cons_of_mem _ hd.1, hd.2⟩

theorem AbandonInv.mark (hfresh : w.Fresh C now) :
    AbandonInv C w root (stage todo (now :: done) (cur.spendsFrom root now)) (now :: done) (cur.abandon C now) := by
  refine h.next (fun x hx => ?_) (fun heq _ x hx => h.mem_scan.2 ⟨heq, hx⟩) h.index (fun x hx hx' => ?_) fun x hx => ?_
  · obtain ⟨rfl, hspends⟩ := h.mem_scan.1 hx
    exact ⟨hfresh, hspends⟩
  · show (if x = now then (cur.mapWallet x).map (·.setAbandoned C) else cur.mapWallet x) = _
    rcases mem_cons.1 hx with rfl | hold
    · rw [if_pos rfl, h.now_eq]
    · have hne : x ≠ now := by
        rintro rfl
        exact h.apart x mem_cons_self hold
      rw [if_neg hne]
      exact h.marked x hold hx'
  · show (if x = now then (cur.mapWallet x).map (·.setAbandoned C) else cur.mapWallet x) = _
    have hne : x ≠ now := by
      rintro rfl
      exact hx ⟨mem_cons_self, hfresh⟩
    rw [if_neg hne]
    exact h.kept x fun hd => hx ⟨mem_cons_of_mem _ hd.1, hd.2⟩

theorem AbandonInv.length_le : done.length + 1 ≤ w.mapTxSpends.length + 1 := by
  have hnodup : (now :: done).Nodup := nodup_cons.2 ⟨h.apart now mem_cons_self, h.nodup⟩
  have hsub : now :: done ⊆ root :: w.mapTxSpends.map (·.2) := by
    intro x hx
    have hfound := h.found x (by
      rcases mem_cons.1 hx with rfl | hx
      · exact .inl mem_cons_self
      · exact .inr hx)
    rcases hfound with rfl | ⟨-, o, ho, -⟩
    · exact mem_cons_self
    · exact mem_cons_of_mem _ (mem_map.2 ⟨(o, x), ho, rfl⟩)
  have hle := (hnodup.subperm hsub).length_le
  rwa [length_cons, length_cons, length_map] at hle

end

theorem ends_assertion {Q : SpendWallet H → Prop} :
    (.error .assertion : Except Halt (SpendWallet H)) ≠ .error .rounds ∧
      ∀ w', (.error .assertion : Except Halt (SpendWallet H)) = .ok w' → Q w' := ⟨nofun, nofun⟩

theorem ends_ok (h : AbandonInv C w root [] done cur) : (.ok cur : Except Halt (SpendWallet H)) ≠ .error .rounds ∧
      ∀ w', (.ok cur : Except Halt (SpendWallet H)) = .ok w' → ∃ done', AbandonInv C w root [] done' w' := by
  constructor
  · intro hno
    cases hno
  · intro w' hw
    cases hw
    exact ⟨done, h⟩

theorem abandonLoop_spec {rounds : Nat} (h : AbandonInv C w root todo done cur)
    (hrounds : w.mapTxSpends.length + 1 ≤ rounds + done.length) :
    abandonLoop C root rounds todo done cur ≠ .error .rounds ∧
      ∀ w', abandonLoop C root rounds todo done cur = .ok w' → ∃ done', AbandonInv C w root [] done' w' := by
  induction rounds generalizing todo done cur with
  | zero =>
    cases todo with
    | nil =>
      unfold abandonLoop
      exact ends_ok h
    | cons now todo =>
      have := h.length_le
      omega
  | succ rounds ih =>
    cases todo with
    | nil =>
      unfold abandonLoop
      exact ends_ok h
    | cons now todo =>
      have hnext : w.mapTxSpends.length + 1 ≤ rounds + (now :: done).length := by
        rw [length_cons]
        omega
      unfold abandonLoop
      cases hwtx : cur.mapWallet now with
      | none => exact ends_assertion
      | some wtx =>
        have hold : w.mapWallet now = some wtx := h.now_eq.symm.trans hwtx
        dsimp only
        split
        · exact ends_assertion
        · split
          · next hfresh =>
            split
            · exact ends_assertion
            · exact ih (h.mark ⟨wtx, hold, hfresh⟩) hnext
          · next hstale =>
            refine ih (h.skip ?_) hnext
            rintro ⟨wtx', hwtx', hfresh⟩
            rw [hold] at hwtx'
            exact hstale (Option.some.inj hwtx' ▸ hfresh)

/-! ## descendants -/

theorem setAbandoned_isAbandoned (wtx : CWalletTx H) : (wtx.setAbandoned C).isAbandoned C := decide_eq_true rfl

variable (C) in
def SpendWallet.Abandoned (w : SpendWallet H) (h : H) : Prop :=
  ∃ wtx, w.mapWallet h = some wtx ∧ wtx.isAbandoned C = true

theorem abandoned_iff (h : AbandonInv C w root [] done w') (x : H) : w'.Abandoned C x ↔
      w.Abandoned C x ∨ (w.Fresh C x ∧ (x = root ∨ (w.Fresh C root ∧ w.SpendsTx root x))) := by
  have hdone : x ∈ done ↔ x = root ∨ (w.Fresh C root ∧ w.SpendsTx root x) := by
    have hroot : root ∈ done := h.start.resolve_left not_mem_nil
    constructor
    · exact fun hx => h.found x (.inr hx)
    · rintro (rfl | ⟨hfresh, hspends⟩)
      · exact hroot
      · exact (h.direct hroot hfresh x hspends).resolve_left not_mem_nil
  rw [← hdone]
  by_cases hx : x ∈ done ∧ w.Fresh C x
  · obtain ⟨wtx, hwtx, -⟩ := hx.2
    constructor
    · exact fun _ => .inr ⟨hx.2, hx.1⟩
    · intro _
      refine ⟨wtx.setAbandoned C, ?_, setAbandoned_isAbandoned wtx⟩
      rw [h.marked x hx.1 hx.2, hwtx, Option.map_some]
  · unfold SpendWallet.Abandoned
    rw [h.kept x hx]
    constructor
    · exact .inl
    · rintro (hold | ⟨hfresh, hmem⟩)
      · exact hold
      · exact absurd ⟨hmem, hfresh⟩ hx

def SpendWallet.Descends (w : SpendWallet H) (root x : H) : Prop := Relation.TransGen w.SpendsTx root x

variable (C) in
def SpendWallet.Unconfirmed (w : SpendWallet H) (h : H) : Prop :=
  ∃ wtx, w.mapWallet h = some wtx ∧ wtx.getDepthInMainChain C = 0

variable (C) in
def AbandonsDescendants (w w' : SpendWallet H) (root : H) : Prop :=
  ∀ x, w'.Abandoned C x ↔ w.Abandoned C x ∨ x = root ∨ (w.Descends root x ∧ w.Unconfirmed C x)

theorem fresh_iff : w.Fresh C x ↔ w.Unconfirmed C x ∧ ¬ w.Abandoned C x := by
  constructor
  · rintro ⟨wtx, hwtx, hdepth, hnot⟩
    refine ⟨⟨wtx, hwtx, hdepth⟩, ?_⟩
    rintro ⟨wtx', hwtx', hyes⟩
    rw [hwtx] at hwtx'
    rw [← Option.some.inj hwtx', hnot] at hyes
    cases hyes
  · rintro ⟨⟨wtx, hwtx, hdepth⟩, hnot⟩
    refine ⟨wtx, hwtx, hdepth, ?_⟩
    cases hab : wtx.isAbandoned C with
    | false => rfl
    | true => exact absurd ⟨wtx, hwtx, hab⟩ hnot

theorem AbandonInv.reaches_iff (h : AbandonInv C w root [] done w') (hroot : w.Unconfirmed C root) :
    AbandonsDescendants C w w' root ↔ ∀ x, w.Descends root x → w.Unconfirmed C x →
        w.Abandoned C x ∨ x = root ∨ (¬ w.Abandoned C root ∧ w.SpendsTx root x) := by
  have hfresh : w.Fresh C root ↔ ¬ w.Abandoned C root := fresh_iff.trans (and_iff_right hroot)
  unfold AbandonsDescendants
  constructor
  · intro hall x hdesc hunc
    have hx := (abandoned_iff h x).1 ((hall x).2 (.inr (.inr ⟨hdesc, hunc⟩)))
    rcases hx with hx | ⟨-, rfl | ⟨hf, hs⟩⟩
    · exact .inl hx
    · exact .inr (.inl rfl)
    · exact .inr (.inr ⟨hfresh.1 hf, hs⟩)
  · intro hcond x
    rw [abandoned_iff h x]
    by_cases hold : w.Abandoned C x
    · exact ⟨fun _ => .inl hold, fun _ => .inl hold⟩
    · constructor
      · rintro (hx | ⟨hx, rfl | ⟨-, hs⟩⟩)
        · exact .inl hx
        · exact .inr (.inl rfl)
        · exact .inr (.inr ⟨.single hs, (fresh_iff.1 hx).1⟩)
      · rintro (hx | rfl | ⟨hdesc, hunc⟩)
        · exact .inl hx
        · exact .inr ⟨fresh_iff.2 ⟨hroot, hold⟩, .inl rfl⟩
        · refine .inr ⟨fresh_iff.2 ⟨hunc, hold⟩, ?_⟩
          rcases hcond x hdesc hunc with hx | hx | ⟨hr, hs⟩
          · exact absurd hx hold
          · exact .inl hx
          · exact .inr ⟨hfresh.2 hr, hs⟩

/-- **when abandoning reaches all descendants.**  The rounds are always enough; and where the call returns
true, all descendants are marked exactly when each of them is marked already or spends the root itself. -/
theorem abandon_reaches_iff (C : WalletChain H) (w : SpendWallet H) (root : H) :
    abandonTransaction C w root ≠ .error .rounds ∧ ∀ w', abandonTransaction C w root = .ok (true, w') →
        (AbandonsDescendants C w w' root ↔ ∀ x, w.Descends root x → w.Unconfirmed C x →
            w.Abandoned C x ∨ x = root ∨ (¬ w.Abandoned C root ∧ w.SpendsTx root x)) := by
  have hrounds : w.mapTxSpends.length + 1 ≤ w.mapTxSpends.length + 1 + ([] : List H).length := le_rfl
  obtain ⟨henough, hdone⟩ := abandonLoop_spec (AbandonInv.init (C := C) w root) hrounds
  unfold abandonTransaction
  cases horig : w.mapWallet root with
  | none => exact ⟨nofun, nofun⟩
  | some origtx =>
    dsimp only
    split
    · exact ⟨nofun, nofun⟩
    · next hgo =>
      rw [not_or, not_not] at hgo
      cases hrun : abandonLoop C root (w.mapTxSpends.length + 1) [root] [] w with
      | error halt =>
        rw [hrun] at henough
        exact ⟨fun hno => henough (congrArg Except.error (Except.error.inj hno)), nofun⟩
      | ok w₁ =>
        refine ⟨nofun, fun w' hw => ?_⟩
        obtain rfl : w₁ = w' := (Prod.mk.inj (Except.ok.inj hw)).2
        obtain ⟨done, hinv⟩ := hdone w₁ hrun
        exact hinv.reaches_iff ⟨origtx, horig, hgo.1⟩

/-! ## a chain of payments -/

/-- a transaction that spends the first output of `prev` -/
def spendOf (prev : Nat) : CWalletTx Nat :=
  ⟨⟨1, [CTxIn.ofOutPoint ⟨prev, 0⟩ []], [], 0, rfl, rfl⟩, 0, 0, false⟩

theorem spendOf_spends {prev : Nat} {o : COutPoint Nat} : (spendOf prev).Spends o ↔ o = ⟨prev, 0⟩ := by
  have hcb : (spendOf prev).tx.isCoinBase = false := by
    show isCoinBaseVin [CTxIn.ofOutPoint (⟨prev, 0⟩ : COutPoint Nat) []] = false
    simp [isCoinBaseVin, CTxIn.ofOutPoint, isNull]
  unfold CWalletTx.Spends
  constructor
  · rintro ⟨-, i, hi, -, rfl⟩
    rw [mem_singleton.1 hi]
    rfl
  · rintro rfl
    exact ⟨hcb, _, mem_cons_self, rfl, rfl⟩

def chainWallet (n : Nat) : SpendWallet Nat where
  mapWallet k := if 10 ≤ k ∧ k ≤ 10 + n then some (spendOf (k - 1)) else none
  mapTxSpends := (List.range (n + 1)).map fun i => (⟨9 + i, 0⟩, 10 + i)
  ordered := by
    rw [List.pairwise_map]
    refine List.pairwise_lt_range.imp ?_
    rintro a b hab (hlt | ⟨-, hn⟩)
    · have : 9 + b < 9 + a := hlt
      omega
    · exact absurd (show (0 : UInt32) < 0 from hn) (by decide)
  spends_iff o h := by
    rw [List.mem_map]
    constructor
    · rintro ⟨i, hi, heq⟩
      obtain ⟨rfl, rfl⟩ := Prod.mk.inj heq
      have hlt := List.mem_range.1 hi
      refine ⟨spendOf (9 + i), ?_, spendOf_spends.2 rfl⟩
      rw [if_pos ⟨by omega, by omega⟩]
      congr 2
      omega
    · rintro ⟨wtx, hwtx, hspends⟩
      split at hwtx
      · next hh =>
        rw [← Option.some.inj hwtx, spendOf_spends] at hspends
        refine ⟨h - 10, List.mem_range.2 (by omega), ?_⟩
        rw [hspends]
        congr 2 <;> omega
      · cases hwtx

def noBlocks : WalletChain Nat := ⟨1, fun _ => none⟩

/-- **the payment of a payment stays**: 10 is abandoned with 11, which spends it; 12 spends 11 and is left -/
theorem abandon_misses_twelve : abandonTransaction noBlocks (chainWallet 2) 10 =
        .ok (true, ((chainWallet 2).abandon noBlocks 10).abandon noBlocks 11) ∧
      (chainWallet 2).Descends 10 12 ∧ (chainWallet 2).Unconfirmed noBlocks 12 ∧
      ¬ (((chainWallet 2).abandon noBlocks 10).abandon noBlocks 11).Abandoned noBlocks 12 := by
  have hspends : ∀ a, a = 10 ∨ a = 11 → (chainWallet 2).SpendsTx a (a + 1) := by
    rintro a (rfl | rfl)
    · exact ⟨⟨10, 0⟩, by decide, rfl⟩
    · exact ⟨⟨11, 0⟩, by decide, rfl⟩
  refine ⟨rfl, ?_, ⟨spendOf 11, rfl, rfl⟩, ?_⟩
  · exact .tail (.single (hspends 10 (.inl rfl))) (hspends 11 (.inr rfl))
  · rintro ⟨wtx, hwtx, hab⟩
    rw [← Option.some.inj (show some (spendOf 11) = some wtx from hwtx)] at hab
    exact absurd hab (by decide)

/-- a payment with one that spends it -/
theorem abandon_reaches_eleven : AbandonsDescendants noBlocks (chainWallet 1)
      (((chainWallet 1).abandon noBlocks 10).abandon noBlocks 11) 10 := by
  refine ((abandon_reaches_iff noBlocks (chainWallet 1) 10).2 _ rfl).2 ?_
  intro x hdesc _
  have hstep : ∀ a b, (chainWallet 1).SpendsTx a b → (a = 9 ∧ b = 10) ∨ (a = 10 ∧ b = 11) := by
    rintro a b ⟨o, ho, rfl⟩
    obtain ⟨i, hi, heq⟩ := List.mem_map.1 ho
    obtain ⟨rfl, rfl⟩ := Prod.mk.inj heq
    have := List.mem_range.1 hi
    show (9 + i = 9 ∧ 10 + i = 10) ∨ (9 + i = 10 ∧ 10 + i = 11)
    omega
  have hx : x = 11 := by
    have hlast : ∀ a, (chainWallet 1).Descends 10 a → a = 11 := by
      intro a ha
      induction ha with
      | single h =>
        have := hstep _ _ h
        omega
      | tail _ h ih =>
        have := hstep _ _ h
        omega
    exact hlast x hdesc
  subst hx
  refine .inr (.inr ⟨?_, ⟨⟨10, 0⟩, by decide, rfl⟩⟩)
  rintro ⟨wtx, hwtx, hab⟩
  rw [← Option.some.inj (show some (spendOf 9) = some wtx from hwtx)] at hab
  exact absurd hab (by decide)

end BitCash
