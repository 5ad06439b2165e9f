import Mathlib.Data.List.Sort
import Mathlib.Data.List.GetD
import BitCash.Primitives.Transaction

/-!
# Median time past and relative lock times

An entry of the block tree is the list of blocks from it back to the genesis block: `pprev` is the tail, the empty
list is the null pointer, and the height is one less than the length.
-/

namespace BitCash
open List Nat

variable {β : Type} (nTime : β → Nat) {p : List β}

/-- a block is the list of itself and its ancestors, the newest first -/
def getAncestor (pindex : List β) (height : Nat) : List β :=
  if pindex.length ≤ height then [] else pindex.drop (pindex.length - 1 - height)

def getMedianTimePast (pindex : List β) : Nat :=
  (((pindex.take 11).map nTime).insertionSort (· ≤ ·)).getD ((pindex.take 11).length / 2) 0

/-! ## the median does not decrease -/

theorem le_getElem_iff {l : List Nat} (h : l.Pairwise (· ≤ ·)) (m : Nat) {k : Nat} (hk : k < l.length) :
    m ≤ l[k] ↔ l.countP (· < m) ≤ k := by
  induction l generalizing k with
  | nil => cases hk
  | cons a l ih =>
    obtain ⟨ha, hl⟩ := pairwise_cons.1 h
    by_cases hm : a < m
    · rw [countP_cons_of_pos (by simpa using hm)]
      cases k with
      | zero => simpa using hm
      | succ k =>
        rw [succ_le_succ_iff, ← ih hl (lt_of_succ_lt_succ hk)]
        rfl
    · have hall : ∀ x ∈ a :: l, m ≤ x := by
        intro x hx
        rcases mem_cons.1 hx with rfl | hx
        · exact Nat.not_lt.1 hm
        · exact (Nat.not_lt.1 hm).trans (ha x hx)
      have hzero : (a :: l).countP (· < m) = 0 := countP_eq_zero.2 fun x hx => by simpa using hall x hx
      simp only [hzero, hall _ (getElem_mem hk), Nat.zero_le]

theorem le_getMedianTimePast_iff (hp : p ≠ []) (m : Nat) :
    m ≤ getMedianTimePast nTime p ↔ ((p.take 11).map nTime).countP (· < m) ≤ (p.take 11).length / 2 := by
  have hpos : 0 < (p.take 11).length := by
    rw [length_take]
    have := length_pos_iff.2 hp
    omega
  have hk : (p.take 11).length / 2 < (((p.take 11).map nTime).insertionSort (· ≤ ·)).length := by
    rw [length_insertionSort, length_map]
    omega
  rw [getMedianTimePast, getD_eq_getElem _ _ hk, le_getElem_iff (pairwise_insertionSort _ _),
    (perm_insertionSort _ _).countP_eq]

theorem getMedianTimePast_le {b : β} (hp : p ≠ []) (h : getMedianTimePast nTime p < nTime b) :
    getMedianTimePast nTime p ≤ getMedianTimePast nTime (b :: p) := by
  have hcount := (le_getMedianTimePast_iff nTime hp _).1 le_rfl
  rw [le_getMedianTimePast_iff nTime (cons_ne_nil b p), take_succ_cons, map_cons,
    countP_cons_of_neg (by simpa using h.le)]
  have hsub : ((p.take 10).map nTime).countP (· < getMedianTimePast nTime p) ≤
      ((p.take 11).map nTime).countP (· < getMedianTimePast nTime p) :=
    (((take_prefix_take_left (by omega)).sublist).map nTime).countP_le
  simp only [length_cons, length_take] at hcount ⊢
  omega

/-! ## relative lock times -/

def SEQUENCE_LOCKTIME_DISABLE_FLAG : UInt32 := 0x80000000
def SEQUENCE_LOCKTIME_TYPE_FLAG : UInt32 := 0x00400000
def SEQUENCE_LOCKTIME_MASK : UInt32 := 0x0000ffff
def LOCKTIME_VERIFY_SEQUENCE : UInt32 := 1

variable {H : Type}

/-- one input of `CalculateSequenceLocks`; the state is `nMinHeight` and `nMinTime`, and `none` is a null
pointer.  The source adds `int`s, which do not overflow for heights below `2 ^ 31 - 2 ^ 16` -/
def lockInput (block : List β) (lock : Int × Int) (txin : CTxIn H × Nat) : Option (Int × Int) :=
  if txin.1.nSequence &&& SEQUENCE_LOCKTIME_DISABLE_FLAG ≠ 0 then some lock
  else if txin.1.nSequence &&& SEQUENCE_LOCKTIME_TYPE_FLAG ≠ 0 then
    if getAncestor block (txin.2 - 1) = [] then none
    else some (lock.1, max lock.2 (getMedianTimePast nTime (getAncestor block (txin.2 - 1)) +
      ((txin.1.nSequence &&& SEQUENCE_LOCKTIME_MASK) <<< 9).toNat - 1))
  else some (max lock.1 (txin.2 + (txin.1.nSequence &&& SEQUENCE_LOCKTIME_MASK).toNat - 1), lock.2)

section
variable [Inhabited H] [DecidableEq H]

def calculateSequenceLocks (tx : CTransaction H) (flags : UInt32) (prevHeights : List Nat) (block : List β) :
    Option (Int × Int) :=
  if prevHeights.length ≠ tx.vin.length then none
  else if 2 ≤ tx.nVersion % 2 ^ 32 ∧ flags &&& LOCKTIME_VERIFY_SEQUENCE ≠ 0 then
    (tx.vin.zip prevHeights).foldlM (lockInput nTime block) (-1, -1)
  else some (-1, -1)

def evaluateSequenceLocks (block : List β) (lockPair : Int × Int) : Option Bool :=
  if block.tail = [] then none
  else some (!(decide ((block.length - 1 : Nat) ≤ lockPair.1) ||
    decide ((getMedianTimePast nTime block.tail : Int) ≤ lockPair.2)))

def sequenceLocks (tx : CTransaction H) (flags : UInt32) (prevHeights : List Nat) (block : List β) : Option Bool := do
  evaluateSequenceLocks nTime block (← calculateSequenceLocks nTime tx flags prevHeights block)

end

/-- the relative lock of an input, alone: the first height or median time at which it lets the input through -/
def Satisfied (block : List β) (txin : CTxIn H × Nat) : Prop :=
  txin.1.nSequence &&& SEQUENCE_LOCKTIME_DISABLE_FLAG = 0 →
    if txin.1.nSequence &&& SEQUENCE_LOCKTIME_TYPE_FLAG ≠ 0 then
      getMedianTimePast nTime (getAncestor block (txin.2 - 1)) + 512 * (txin.1.nSequence.toNat % 65536) ≤
        getMedianTimePast nTime block.tail
    else txin.2 + txin.1.nSequence.toNat % 65536 ≤ block.length - 1

theorem toNat_mask (s : UInt32) : (s &&& SEQUENCE_LOCKTIME_MASK).toNat = s.toNat % 65536 := by
  rw [UInt32.toNat_and, show SEQUENCE_LOCKTIME_MASK.toNat = 2 ^ 16 - 1 from rfl, and_two_pow_sub_one_eq_mod]

theorem toNat_units (s : UInt32) : ((s &&& SEQUENCE_LOCKTIME_MASK) <<< 9).toNat = 512 * (s.toNat % 65536) := by
  rw [UInt32.toNat_shiftLeft, toNat_mask, shiftLeft_eq, show 2 ^ (UInt32.toNat 9 % 32) = 512 from rfl]
  omega

theorem foldlM_lockInput {block : List β} (l : List (CTxIn H × Nat))
    (hl : ∀ i ∈ l, i.2 < block.length) (lock : Int × Int) :
    ∃ r, l.foldlM (lockInput nTime block) lock = some r ∧
      (r.1 < (block.length - 1 : Nat) ∧ r.2 < getMedianTimePast nTime block.tail ↔
        (lock.1 < (block.length - 1 : Nat) ∧ lock.2 < getMedianTimePast nTime block.tail) ∧
          ∀ i ∈ l, Satisfied nTime block i) := by
  induction l generalizing lock with
  | nil => exact ⟨lock, rfl, by simp⟩
  | cons i l ih =>
    have hone : ∃ r, lockInput nTime block lock i = some r ∧
        (r.1 < (block.length - 1 : Nat) ∧ r.2 < getMedianTimePast nTime block.tail ↔
          (lock.1 < (block.length - 1 : Nat) ∧ lock.2 < getMedianTimePast nTime block.tail) ∧
            Satisfied nTime block i) := by
      have hanc : getAncestor block (i.2 - 1) ≠ [] := by
        have := hl i mem_cons_self
        rw [getAncestor, if_neg (by omega), ne_eq, drop_eq_nil_iff]
        omega
      unfold lockInput Satisfied
      by_cases hd : i.1.nSequence &&& SEQUENCE_LOCKTIME_DISABLE_FLAG = 0
      · rw [if_neg (not_not.2 hd)]
        by_cases ht : i.1.nSequence &&& SEQUENCE_LOCKTIME_TYPE_FLAG = 0
        · rw [if_neg (not_not.2 ht), if_neg (not_not.2 ht), toNat_mask]
          refine ⟨_, rfl, ?_⟩
          simp only [hd, forall_const, max_lt_iff]
          omega
        · rw [if_pos ht, if_pos ht, if_neg hanc, toNat_units]
          refine ⟨_, rfl, ?_⟩
          simp only [hd, forall_const, max_lt_iff]
          omega
      · rw [if_pos hd]
        exact ⟨lock, rfl, by simp [hd]⟩
    obtain ⟨r, hr, hiff⟩ := hone
    obtain ⟨r', hr', hiff'⟩ := ih (fun j hj => hl j (mem_cons_of_mem _ hj)) r
    refine ⟨r', by rw [foldlM_cons, hr]; exact hr', ?_⟩
    rw [hiff', hiff, forall_mem_cons, and_assoc]

variable [Inhabited H] [DecidableEq H]

theorem sequenceLocks_iff {tx : CTransaction H} {flags : UInt32} {prevHeights : List Nat} {block : List β}
    (hversion : 2 ≤ tx.nVersion ∧ tx.nVersion < 2 ^ 31) (hflags : flags &&& LOCKTIME_VERIFY_SEQUENCE ≠ 0)
    (hlen : prevHeights.length = tx.vin.length) (hheight : ∀ h ∈ prevHeights, h < block.length - 1)
    (hparent : block.tail ≠ []) : ∃ r, sequenceLocks nTime tx flags prevHeights block = some r ∧
      (r = true ↔ ∀ i ∈ tx.vin.zip prevHeights, Satisfied nTime block i) := by
  have hbelow : ∀ i ∈ tx.vin.zip prevHeights, i.2 < block.length := by
    intro i hi
    have := hheight i.2 (of_mem_zip hi).2
    omega
  obtain ⟨r, hr, hiff⟩ := foldlM_lockInput nTime (tx.vin.zip prevHeights) hbelow (-1, -1)
  have hcalc : calculateSequenceLocks nTime tx flags prevHeights block = some r := by
    rw [calculateSequenceLocks, if_neg (not_not.2 hlen), if_pos ⟨by omega, hflags⟩, hr]
  refine ⟨_, by rw [sequenceLocks, hcalc]; exact if_neg hparent, ?_⟩
  have hstart : (-1 : Int) < (block.length - 1 : Nat) ∧ (-1 : Int) < getMedianTimePast nTime block.tail := by omega
  rw [← and_iff_right (b := ∀ i ∈ _, _) hstart, ← hiff]
  simp only [Bool.not_eq_true', Bool.or_eq_false_iff, decide_eq_false_iff_not, not_le]

def lockedTx : CTransaction Nat :=
  ⟨2, [{ CTxIn.ofOutPoint .null [] with nSequence := 0x00400001 },
    { CTxIn.ofOutPoint .null [] with nSequence := 1 }], [], 0, rfl, rfl⟩

/-- a time lock and a height lock -/
theorem sequenceLocks_lockedTx : ∃ r, sequenceLocks id lockedTx 1 [1, 0] [1000, 900, 0] = some r ∧
      (r = true ↔ ∀ i ∈ lockedTx.vin.zip [1, 0], Satisfied id [1000, 900, 0] i) :=
  sequenceLocks_iff id (by decide) (by decide) rfl (by decide) (by decide)

end BitCash
