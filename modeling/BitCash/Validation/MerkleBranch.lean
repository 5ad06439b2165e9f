import BitCash.Validation.MerkleRoot

/-!
# Merkle branches

`MerkleComputation` with a position collects, on its way up, the nodes beside those that depend on the leaf there.
-/

namespace Merkle

theorem length_iterate_pairUp {α : Type} (f : α → α → α) (l : List α) (h : Nat) :
    ((pairUp f)^[h] l).length = (l.length + 2 ^ h - 1) / 2 ^ h := by
  induction h with
  | zero => simp
  | succ h ih =>
    rw [Function.iterate_succ_apply', length_pairUp, ih, Nat.pow_succ, ← Nat.div_div_eq_div_mul]
    congr 1
    have hpos : 0 < 2 ^ h := Nat.two_pow_pos h
    rw [show l.length + 2 ^ h * 2 - 1 = l.length + 2 ^ h - 1 + 2 ^ h by omega, Nat.add_div_right _ hpos]

end Merkle

namespace BitCash
open List

variable {α : Type} (f : α → α → α)

def calcTreeWidth (nTransactions height : Nat) : Nat := (nTransactions + 2 ^ height - 1) / 2 ^ height

def calcHash (vTxid : List α) : Nat → Nat → Option α
  | 0, pos => vTxid[pos]?
  | height + 1, pos => do
    let left ← calcHash vTxid height (pos * 2)
    if pos * 2 + 1 < calcTreeWidth vTxid.length height then
      let right ← calcHash vTxid height (pos * 2 + 1)
      return f left right
    else return f left left

def nHeight (nTransactions : Nat) : Nat → Nat → Option Nat
  | 0, _ => none
  | d + 1, height => if 1 < calcTreeWidth nTransactions height then nHeight nTransactions d
      (height + 1) else some height

def branchStep (s : α × Nat) (it : α) : α × Nat := (if s.2 % 2 = 1 then f it s.1 else f s.1 it, s.2 / 2)

def computeMerkleRootFromBranch (leaf : α) (vMerkleBranch : List α) (nIndex : Nat) : α :=
  (vMerkleBranch.foldl (branchStep f) (leaf, nIndex)).1

def climbBranch (count : BitVec 32) (inner : Nat → α) (matchlevel : Option Nat) :
    Nat → Nat → α → Bool → List α → Option (Nat × α × Bool × List α)
  | 0, _, _, _, _ => none
  | d + 1, level, h, matchh, branch =>
    if bitClear count level then
      climbBranch count inner matchlevel d (level + 1) (f (inner level) h) (matchh || decide (matchlevel = some level))
        (if matchh then branch ++ [inner level] else if matchlevel = some level then branch ++ [h] else branch)
    else some (level, h, matchh, branch)

structure BranchState (α : Type) where
  count : BitVec 32
  inner : Nat → α
  matchlevel : Option Nat
  branch : List α

def addLeafBranch (branchpos : Nat) (s : BranchState α) (h : α) : Option (BranchState α) := do
  let (level, h, matchh, branch) ← climbBranch f (s.count + 1#32) s.inner s.matchlevel 32 0 h
    (s.count.toNat == branchpos) s.branch
  return ⟨s.count + 1#32, Function.update s.inner level h, if matchh then some level else s.matchlevel, branch⟩

def sweepBranch (inner : Nat → α) (matchlevel : Option Nat) :
    Nat → BitVec 32 → Nat → α → Bool → List α → Option (List α)
  | 0, _, _, _, _, _ => none
  | d + 1, count, level, h, matchh, branch =>
    if count = 1#32 <<< level then some branch
    else do
      let next := count + 1#32 <<< level
      let (top, h', matchh', branch') ← climbBranch f next inner matchlevel (31 - level) (level + 1) (f h h) matchh
        (if matchh then branch ++ [h] else branch)
      sweepBranch inner matchlevel d next top h' matchh' branch'

def computeMerkleBranch [Inhabited α] (leaves : List α) (position : Nat) : Option (List α) :=
  if leaves.length = 0 then some []
  else do
    let s ← leaves.foldlM (addLeafBranch f position) ⟨0#32, fun _ => default, none, []⟩
    let level ← lowestLevel s.count 32 0
    sweepBranch f s.inner s.matchlevel 32 s.count level (s.inner level) (s.matchlevel == some level) s.branch

/-! ## the tree, level by level -/

theorem calcHash_eq (vTxid : List α) (height pos : Nat) :
    calcHash f vTxid height pos = ((Merkle.pairUp f)^[height] vTxid)[pos]? := by
  induction height generalizing pos with
  | zero => rfl
  | succ height ih =>
    rw [Function.iterate_succ_apply', Merkle.getElem?_pairUp, calcHash, ih, ih, calcTreeWidth,
      ← Merkle.length_iterate_pairUp f, Nat.mul_comm pos 2]
    cases hl : ((Merkle.pairUp f)^[height] vTxid)[2 * pos]? with
    | none => rfl
    | some a =>
      by_cases hlt : 2 * pos + 1 < ((Merkle.pairUp f)^[height] vTxid).length
      · simp [hlt]
      · simp [hlt]

theorem nHeight_spec {n : Nat} (hn : n < 2 ^ 31) (d : Nat) {h : Nat} (hd : h + d = 32)
    (hh : ∀ k < h, 1 < calcTreeWidth n k) :
    ∃ top, nHeight n d h = some top ∧ calcTreeWidth n top ≤ 1 ∧ ∀ k < top, 1 < calcTreeWidth n k := by
  induction d generalizing h with
  | zero =>
    have h31 := hh 31 (by omega)
    unfold calcTreeWidth at h31
    omega
  | succ d ih =>
    unfold nHeight
    by_cases hw : 1 < calcTreeWidth n h
    · rw [if_pos hw]
      refine ih (by omega) fun k hk => ?_
      rcases Nat.lt_succ_iff_lt_or_eq.1 hk with hk | rfl
      · exact hh k hk
      · exact hw
    · rw [if_neg hw]
      exact ⟨h, rfl, Nat.not_lt.1 hw, hh⟩

/-- **the top of the tree is the root** -/
theorem calcHash_top [DecidableEq α] [Inhabited α] {vTxid : List α} (hne : vTxid ≠ []) {top : Nat}
    (hw : calcTreeWidth vTxid.length top ≤ 1) (hh : ∀ k < top, 1 < calcTreeWidth vTxid.length k) :
    (Merkle.pairUp f)^[top] vTxid = [(Merkle.computeRoot f vTxid).1] := by
  have hpos := length_pos_iff.2 hne
  have hlen : ((Merkle.pairUp f)^[top] vTxid).length = 1 := by
    rw [Merkle.length_iterate_pairUp]
    have : 0 < (vTxid.length + 2 ^ top - 1) / 2 ^ top := Nat.div_pos (by omega) (Nat.two_pow_pos top)
    unfold calcTreeWidth at hw
    omega
  obtain ⟨a, ha⟩ := length_eq_one_iff.1 hlen
  rw [← Merkle.computeRoot_iterate f (h := top), ha, Merkle.computeRoot_singleton]
  intro k hk
  rw [Merkle.length_iterate_pairUp]
  exact hh k hk

/-! ## nodes that carry their branch -/

def onBranch (x y : α × Option (List α)) : α × Option (List α) :=
  (f x.1 y.1, match y.2, x.2 with
    | some branch, _ => some (branch ++ [x.1])
    | none, some branch => some (branch ++ [y.1])
    | none, none => none)

structure OnPath (leaf : α) (p : Nat) (l : List (α × Option (List α))) (i : Nat) : Prop where
  node : ∃ x branch, l[i]? = some (x, some branch) ∧ branch.foldl (branchStep f) (leaf, p) = (x, i)
  others : ∀ j y, l[j]? = some y → j ≠ i → y.2 = none

variable {f}
  {level p i : Nat} {branch leaves : List α} {matchh : Bool}
  {st : List (Option (α × Option (List α)))} {h leaf : α} {l : List (α × Option (List α))} {s : BranchState α}

theorem OnPath.pairUp (h : OnPath f leaf p l i) : OnPath f leaf p (Merkle.pairUp (onBranch f) l) (i / 2) := by
  obtain ⟨x, branch, hx, hfold⟩ := h.node
  refine ⟨?_, ?_⟩
  · rw [Merkle.getElem?_pairUp]
    rcases Nat.mod_two_eq_zero_or_one i with hi | hi
    · have hi2 : 2 * (i / 2) = i := by omega
      rw [hi2, hx]
      cases hy : l[i + 1]? with
      | none =>
        refine ⟨f x x, branch ++ [x], rfl, ?_⟩
        rw [foldl_append, hfold, foldl_cons, branchStep, if_neg (by omega)]
        rfl
      | some y =>
        refine ⟨f x y.1, branch ++ [y.1], ?_, ?_⟩
        · rw [Option.map_some, Option.getD_some, onBranch, h.others _ y hy (by omega)]
        · rw [foldl_append, hfold, foldl_cons, branchStep, if_neg (by omega)]
          rfl
    · have hi2 : 2 * (i / 2) + 1 = i := by omega
      have hlt : 2 * (i / 2) < l.length := by
        have := (List.getElem?_eq_some_iff.1 hx).1
        omega
      have hy := getElem?_eq_getElem hlt
      rw [hi2, hx, hy]
      refine ⟨f l[2 * (i / 2)].1 x, branch ++ [l[2 * (i / 2)].1], ?_, ?_⟩
      · rw [Option.map_some, Option.getD_some, onBranch]
      · rw [foldl_append, hfold, foldl_cons, branchStep, if_pos hi]
        rfl
  · intro j y hy hj
    rw [Merkle.getElem?_pairUp, Option.map_eq_some_iff] at hy
    obtain ⟨a, ha, rfl⟩ := hy
    have ha2 := h.others _ a ha (by omega)
    cases hb : l[2 * j + 1]? with
    | none => rw [Option.getD_none, onBranch, ha2]
    | some b => rw [Option.getD_some, onBranch, ha2, h.others _ b hb (by omega)]

theorem map_fst_pairUp : ∀ l : List (α × Option (List α)),
    (Merkle.pairUp (onBranch f) l).map Prod.fst = Merkle.pairUp f (l.map Prod.fst)
  | [] => rfl
  | [_] => rfl
  | _ :: _ :: l => congrArg _ (map_fst_pairUp l)

theorem OnPath.root [DecidableEq α] [Inhabited α] (h : OnPath f leaf p l i) :
    ∃ branch, (Merkle.computeRoot (onBranch f) l).1 = ((Merkle.computeRoot f (l.map Prod.fst)).1, some branch) ∧
      computeMerkleRootFromBranch f leaf branch p = (Merkle.computeRoot f (l.map Prod.fst)).1 := by
  induction hn : l.length using Nat.strongRecOn generalizing l i with
  | ind n ih =>
    by_cases hl : 2 ≤ l.length
    · rw [Merkle.computeRoot_pairUp _ hl, Merkle.computeRoot_pairUp f (by rwa [length_map]), ← map_fst_pairUp]
      exact ih _ (hn ▸ Merkle.pairUp_length_lt _ hl) h.pairUp rfl
    · obtain ⟨x, branch, hx, hfold⟩ := h.node
      have hi := (List.getElem?_eq_some_iff.1 hx).1
      obtain ⟨a, rfl⟩ := length_eq_one_iff.1 (show l.length = 1 by omega)
      obtain rfl : i = 0 := Nat.lt_one_iff.1 hi
      obtain rfl : a = (x, some branch) := Option.some.inj hx
      exact ⟨branch, rfl, congrArg Prod.fst hfold⟩

/-! ## the collection follows the nodes -/

section Follows
variable {count : BitVec 32} {inner : Nat → α} {matchlevel : Option Nat} {branch₀ : List α}

def mark (matchh : Bool) (branch : List α) : Option (List α) := if matchh then some branch else none

def marked (inner : Nat → α) (matchlevel : Option Nat) (branch : List α) (level : Nat) : α × Option (List α) :=
  (inner level, mark (decide (matchlevel = some level)) branch)

def Passed (matchlevel : Option Nat) (branch₀ : List α) (level : Nat) (matchh : Bool) (branch : List α) : Prop :=
  if matchh then ∀ l, level ≤ l → matchlevel ≠ some l else branch = branch₀

theorem onBranch_marked (hp : Passed matchlevel branch₀ level matchh branch) :
    onBranch f (marked inner matchlevel branch₀ level) (h, mark matchh branch) =
      (f (inner level) h, mark (matchh || decide (matchlevel = some level))
        (if matchh then branch ++ [inner level] else if matchlevel = some level then branch ++ [h] else branch)) := by
  cases matchh with
  | true => rfl
  | false =>
    obtain rfl : branch = branch₀ := hp
    by_cases hl : matchlevel = some level
    · simp [onBranch, marked, mark, hl]
    · simp [onBranch, marked, mark, hl]

theorem Passed.step (hp : Passed matchlevel branch₀ level matchh branch) :
    Passed matchlevel branch₀ (level + 1) (matchh || decide (matchlevel = some level))
      (if matchh then branch ++ [inner level] else if matchlevel = some level then branch ++ [h] else branch) := by
  cases matchh with
  | true => exact fun l hl => hp l (by omega)
  | false =>
    by_cases hlevel : matchlevel = some level
    · simp only [hlevel, Passed, decide_true, Bool.or_true, if_true]
      intro l hl h
      have := Option.some.inj h
      omega
    · simpa [hlevel, Passed] using hp

variable [DecidableEq α]

theorem climbBranch_eq (d : Nat) {mutated mutated' : Bool}
    {k : Nat} {x : α × Option (List α)} (hp : Passed matchlevel branch₀ level matchh branch)
    (hclimb : climb (onBranch f) count (marked inner matchlevel branch₀) d level (h, mark matchh branch) mutated =
      some (k, x, mutated')) :
    ∃ matchh' branch', climbBranch f count inner matchlevel d level h matchh branch = some (k, x.1, matchh', branch') ∧
      x.2 = mark matchh' branch' ∧ Passed matchlevel branch₀ k matchh' branch' ∧ level ≤ k ∧
      (matchh' ↔ matchh ∨ ∃ l, level ≤ l ∧ l < k ∧ matchlevel = some l) := by
  induction d generalizing level h matchh branch mutated with
  | zero => cases hclimb
  | succ d ih =>
    unfold climb at hclimb
    unfold climbBranch
    by_cases hc : bitClear count level = true
    · rw [if_pos hc, onBranch_marked hp] at hclimb
      obtain ⟨matchh', branch', heq, hx, hp', hle, hiff⟩ := ih hp.step hclimb
      refine ⟨matchh', branch', by rw [if_pos hc, heq], hx, hp', by omega, ?_⟩
      rw [hiff, Bool.or_eq_true, decide_eq_true_eq, or_assoc]
      refine or_congr_right ⟨?_, ?_⟩
      · rintro (hl | ⟨l, hl, hlk, hml⟩)
        · exact ⟨level, le_rfl, hle, hl⟩
        · exact ⟨l, by omega, hlk, hml⟩
      · rintro ⟨l, hl, hlk, hml⟩
        rcases Nat.eq_or_lt_of_le hl with rfl | hl
        · exact .inl hml
        · exact .inr ⟨l, hl, hlk, hml⟩
    · rw [if_neg hc] at hclimb ⊢
      obtain ⟨rfl, rfl, -⟩ : level = k ∧ (h, mark matchh branch) = x ∧ mutated = mutated' := by simpa using hclimb
      refine ⟨matchh, branch, rfl, rfl, hp, le_rfl, Iff.symm (or_iff_left ?_)⟩
      rintro ⟨l, h1, h2, -⟩
      omega

theorem propagate_eq_climb {g : α → α → α} (d : Nat) (mutated : Bool) :
    propagate g count inner d level h = (climb g count inner d level h mutated).map fun r => (r.1, r.2.1) := by
  induction d generalizing level h mutated with
  | zero => rfl
  | succ d ih =>
    unfold propagate climb
    split
    · exact ih _
    · rfl

theorem sweepBranch_eq (d : Nat) {y : α × Option (List α)} (hp : Passed matchlevel branch₀ (level + 1) matchh branch)
    (hsweep : sweepUp (onBranch f) (marked inner matchlevel branch₀) d count level (h, mark matchh branch) = some y) :
    sweepBranch f inner matchlevel d count level h matchh branch = some (y.2.getD branch₀) := by
  induction d generalizing count level h matchh branch with
  | zero => cases hsweep
  | succ d ih =>
    unfold sweepUp at hsweep
    unfold sweepBranch
    by_cases hc : count = 1#32 <<< level
    · rw [if_pos hc] at hsweep ⊢
      obtain rfl := Option.some.inj hsweep
      cases matchh with
      | true => rfl
      | false => exact congrArg some hp
    · rw [if_neg hc] at hsweep ⊢
      have hself : onBranch f (h, mark matchh branch) (h, mark matchh branch) =
          (f h h, mark matchh (if matchh then branch ++ [h] else branch)) := by
        cases matchh <;> rfl
      have hp' : Passed matchlevel branch₀ (level + 1) matchh (if matchh then branch ++ [h] else branch) := by
        cases matchh with
        | true => exact hp
        | false => exact hp
      rw [hself] at hsweep
      obtain ⟨⟨k, x⟩, hprop, hrest⟩ := Option.bind_eq_some_iff.1 hsweep
      rw [propagate_eq_climb _ false, Option.map_eq_some_iff] at hprop
      obtain ⟨⟨k', x', mutated'⟩, hclimb, heq⟩ := hprop
      obtain ⟨rfl, rfl⟩ := Prod.mk.inj heq
      obtain ⟨matchh', branch', hbranch, hx, hpass, -, -⟩ := climbBranch_eq _ hp' hclimb
      show (climbBranch f _ inner matchlevel _ _ _ _ _).bind _ = _
      rw [hbranch]
      obtain ⟨x1, x2⟩ := x'
      subst hx
      refine ih ?_ hrest
      cases matchh' with
      | true => exact fun l hl => hpass l (by omega)
      | false => exact hpass

/-! ## the leaves -/

omit [DecidableEq α] in
theorem Holds.congr {inner' : Nat → α} : ∀ {st : List (Option α)} {level n : Nat}, Holds inner level n st →
    (∀ j, n / 2 ^ j % 2 = 1 → inner (level + j) = inner' (level + j)) → Holds inner' level n st
  | [], _, _, h, _ => h
  | _ :: _, level, n, h, heq => by
    refine ⟨?_, h.2.congr fun j hj => ?_⟩
    · by_cases hn : n % 2 = 1
      · have h0 := heq 0 (by rwa [Nat.pow_zero, Nat.div_one])
        rw [h.1, if_pos hn, if_pos hn]
        exact congrArg some h0
      · rw [h.1, if_neg hn, if_neg hn]
    · rw [Nat.add_assoc, Nat.add_comm 1 j]
      exact heq (j + 1) (by rwa [Nat.pow_succ', ← Nat.div_div_eq_div_mul])

theorem bits_of_stop {n k m : Nat} (h : n + 1 = 2 ^ k * (2 * m + 1)) :
    n / 2 ^ k % 2 = 0 ∧ (n + 1) / 2 ^ k % 2 = 1 ∧ (∀ l < k, (n + 1) / 2 ^ l % 2 = 0) ∧
      ∀ l, k < l → (n + 1) / 2 ^ l = n / 2 ^ l := by
  have hpos := Nat.two_pow_pos k
  have hn : n / 2 ^ k = 2 * m := by
    rw [show n = 2 ^ k * (2 * m) + (2 ^ k - 1) by rw [Nat.mul_succ] at h; omega, Nat.mul_add_div hpos,
      Nat.div_eq_of_lt (by omega), Nat.add_zero]
  have hn1 : (n + 1) / 2 ^ k = 2 * m + 1 := by rw [h, Nat.mul_div_cancel_left _ hpos]
  refine ⟨by omega, by omega, ?_, ?_⟩
  · intro l hl
    obtain ⟨j, rfl⟩ := Nat.exists_eq_add_of_lt hl
    rw [h, Nat.add_assoc, Nat.pow_add, Nat.mul_assoc, Nat.mul_div_cancel_left _ (Nat.two_pow_pos l), Nat.pow_succ',
      Nat.mul_assoc, Nat.mul_mod_right]
  · intro l hl
    obtain ⟨j, rfl⟩ := Nat.exists_eq_add_of_lt hl
    rw [Nat.add_assoc, Nat.pow_add, ← Nat.div_div_eq_div_mul, ← Nat.div_div_eq_div_mul, hn, hn1, Nat.pow_succ',
      ← Nat.div_div_eq_div_mul, ← Nat.div_div_eq_div_mul]
    congr 1
    omega

structure Tracks (p : Nat) (s : BranchState α) (st : List (Option (α × Option (List α)))) : Prop where
  holds : Holds (marked s.inner s.matchlevel s.branch) 0 s.count.toNat st
  used : ∀ l, s.matchlevel = some l → s.count.toNat / 2 ^ l % 2 = 1
  before : s.count.toNat ≤ p → s.matchlevel = none ∧ s.branch = []

variable [Inhabited α]

theorem addLeafBranch_eq (h : Tracks p s st) (hlt : s.count.toNat + 1 < 2 ^ 32) (a : α) :
    ∃ t, addLeafBranch f p s a = some t ∧ t.count.toNat = s.count.toNat + 1 ∧
      Tracks p t (Merkle.push (onBranch f) st (a, if s.count.toNat = p then some [] else none)).1 := by
  have hone : (s.count + 1#32).toNat = s.count.toNat + 1 := by
    rw [BitVec.toNat_add, BitVec.toNat_ofNat]
    omega
  have hpass : Passed s.matchlevel s.branch 0 (s.count.toNat == p) s.branch := by
    by_cases hp : s.count.toNat = p
    · simp [Passed, hp, (h.before hp.le).1]
    · simp [Passed, hp]
  have hleaf : (if s.count.toNat = p then some [] else none) = mark (s.count.toNat == p) s.branch := by
    by_cases hp : s.count.toNat = p
    · simp [mark, hp, (h.before hp.le).2]
    · simp [mark, hp]
  obtain ⟨k, x, hk, -, hnew⟩ := climb_eq (onBranch f) 32 (a, mark (s.count.toNat == p) s.branch) false (by omega)
    h.holds (show (s.count + 1#32).toNat / 2 ^ 0 = _ by rw [hone, Nat.pow_zero, Nat.div_one])
  obtain ⟨k', _, m, _, hprop, -, hcount, -⟩ := propagate_eq (onBranch f) 32
    (h := (a, mark (s.count.toNat == p) s.branch)) (by omega) h.holds
    (show (s.count + 1#32).toNat = 2 ^ 0 * _ by rw [hone, Nat.pow_zero, Nat.one_mul])
  rw [propagate_eq_climb _ false, hk] at hprop
  obtain rfl : k = k' := (Prod.mk.inj (Option.some.inj hprop)).1
  obtain ⟨matchh, branch, hclimb, hx, hp', -, hiff⟩ := climbBranch_eq 32 hpass hk
  obtain ⟨hbit, hbit', hlow, hhigh⟩ := bits_of_stop (hone ▸ hcount)
  refine ⟨⟨s.count + 1#32, Function.update s.inner k x.1, if matchh then some k else s.matchlevel, branch⟩, ?_, hone,
    ?_, ?_, ?_⟩
  · unfold addLeafBranch
    rw [hclimb]
    rfl
  · -- levels below the new one are free, and above it nothing has changed
    rw [hleaf]
    rw [← hone] at hnew
    refine hnew.congr fun l hl => ?_
    rw [hone] at hl
    rw [Nat.zero_add]
    cases matchh with
    | true =>
      by_cases hlk : l = k
      · simp [hlk, marked, ← hx]
      · have hkl : k ≤ l := Nat.not_lt.1 fun hlt => by rw [hlow l hlt] at hl; omega
        simp [marked, mark, hlk, hp' l hkl, Ne.symm hlk]
    | false =>
      obtain rfl : branch = s.branch := hp'
      by_cases hlk : l = k
      · have hfree : s.matchlevel ≠ some k := fun hml => by rw [h.used k hml] at hbit; omega
        rw [hlk, Function.update_self]
        refine Prod.ext (Function.update_self k x.1 s.inner).symm (hx.trans ?_)
        exact congrArg (mark · s.branch) (decide_eq_false hfree).symm
      · simp [marked, hlk]
  · intro l hl
    rw [hone]
    cases matchh with
    | true =>
      obtain rfl : k = l := Option.some.inj hl
      exact hbit'
    | false =>
      have huse := h.used l hl
      have hnot : ¬ l < k := fun hlt => Bool.false_ne_true (hiff.2 (.inr ⟨l, Nat.zero_le _, hlt, hl⟩))
      rcases Nat.eq_or_lt_of_le (Nat.not_lt.1 hnot) with rfl | hkl
      · omega
      · rw [hhigh l hkl, huse]
  · intro hle
    rw [hone] at hle
    obtain ⟨hnone, hnil⟩ := h.before (by omega)
    have hfalse : matchh = false := by
      rw [← Bool.not_eq_true, hiff, beq_iff_eq, hnone]
      rintro (he | ⟨l, -, -, hl⟩)
      · omega
      · cases hl
    subst hfalse
    exact ⟨hnone, hp'.trans hnil⟩

def leavesFrom (p i : Nat) (leaves : List α) : List (α × Option (List α)) :=
  (leaves.zipIdx i).map fun x => (x.1, if x.2 = p then some [] else none)

theorem addLeavesBranch_eq (leaves : List α) (b : Bool) (h : Tracks p s st)
    (hlt : s.count.toNat + leaves.length < 2 ^ 32) :
    ∃ t st' b', leaves.foldlM (addLeafBranch f p) s = some t ∧ t.count.toNat = s.count.toNat + leaves.length ∧
      (leavesFrom p s.count.toNat leaves).foldl (fun s h => ((Merkle.push (onBranch f) s.1 h).1,
        s.2 || (Merkle.push (onBranch f) s.1 h).2)) (st, b) = (st', b') ∧ Tracks p t st' := by
  induction leaves generalizing s st b with
  | nil => exact ⟨s, st, b, rfl, rfl, rfl, h⟩
  | cons a leaves ih =>
    rw [length_cons] at hlt ⊢
    obtain ⟨t, ht, hcount, htracks⟩ := addLeafBranch_eq (f := f) h (by omega) a
    obtain ⟨t', st', b', hfold, hcount', hst, htracks'⟩ := ih _ htracks (by omega)
    refine ⟨t', st', b', ?_, by omega, ?_, htracks'⟩
    · rw [foldlM_cons, ht]
      exact hfold
    · rw [hcount] at hst
      exact hst

theorem computeMerkleBranch_eq (hne : leaves ≠ []) (hlen : leaves.length < 2 ^ 31) (p : Nat) :
    ∃ branch, computeMerkleBranch f leaves p =
      some ((Merkle.computeRoot (onBranch f) (leavesFrom p 0 leaves)).1.2.getD branch) := by
  have hstart : Tracks p ⟨0#32, fun _ => (default : α), none, []⟩ [] := ⟨rfl, nofun, fun _ => ⟨rfl, rfl⟩⟩
  obtain ⟨t, st, b, hfold, hcount, hst, htracks⟩ := addLeavesBranch_eq (f := f) leaves false hstart
    (by show 0 + _ < _; omega)
  replace hcount : t.count.toNat = leaves.length := hcount.trans (Nat.zero_add _)
  have hpos := length_pos_iff.2 hne
  obtain ⟨n, hn⟩ := Nat.exists_eq_succ_of_ne_zero (Nat.pos_iff_ne_zero.1 hpos)
  have hholds := htracks.holds
  rw [hcount, hn] at hholds
  obtain ⟨k, m, st', hk, hc, hst', hfin⟩ := lowestLevel_eq (onBranch f) 32 (by omega) hholds
    (show t.count.toNat = 2 ^ 0 * _ by rw [hcount, hn, Nat.pow_zero, Nat.one_mul])
  have hsweep := sweepUp_eq (onBranch f) 32 (h := marked t.inner t.matchlevel t.branch k) (by omega) (by omega) hc hst'
  have hpass : Passed t.matchlevel t.branch (k + 1) (decide (t.matchlevel = some k)) t.branch := by
    by_cases hml : t.matchlevel = some k
    · simp only [Passed, hml, decide_true, if_true]
      intro l hl h
      have := Option.some.inj h
      omega
    · simp [Passed, hml]
  refine ⟨t.branch, ?_⟩
  rw [computeMerkleBranch, if_neg (by omega), hfold]
  show (lowestLevel t.count 32 0).bind _ = _
  rw [hk]
  show sweepBranch f t.inner t.matchlevel 32 t.count k (t.inner k) (t.matchlevel == some k) t.branch = _
  rw [show (t.matchlevel == some k) = decide (t.matchlevel = some k) from (Bool.beq_eq_decide_eq _ _),
    sweepBranch_eq 32 hpass hsweep, ← hfin]
  unfold Merkle.computeRoot Merkle.process
  rw [show (leavesFrom p 0 leaves).foldl _ ([], false) = (st, b) from hst]

omit [DecidableEq α] [Inhabited α] in
theorem onPath_leaves (hp : p < leaves.length) : OnPath f leaves[p] p (leavesFrom p 0 leaves) p := by
  have hget : ∀ j, (leavesFrom p 0 leaves)[j]? = leaves[j]?.map fun a => (a, if j = p then some [] else none) := by
    intro j
    rw [leavesFrom, getElem?_map, getElem?_zipIdx, Option.map_map, Nat.zero_add]
    rfl
  refine ⟨⟨leaves[p], [], ?_, rfl⟩, ?_⟩
  · rw [hget, getElem?_eq_getElem hp, Option.map_some, if_pos rfl]
  · intro j y hy hj
    rw [hget, Option.map_eq_some_iff] at hy
    obtain ⟨a, -, rfl⟩ := hy
    exact if_neg hj

end Follows

/-- **the merkle computations agree**: the root that is computed in constant space, the recursion over the tree, and
the root recomputed from the branch of any leaf -/
theorem merkle_computations_agree [DecidableEq α] [Inhabited α] (f : α → α → α) {leaves : List α} (hne : leaves ≠ [])
    (hlen : leaves.length < 2 ^ 31) : ∃ root mutated top, computeMerkleRoot f leaves = some (root, mutated) ∧
      nHeight leaves.length 32 0 = some top ∧ calcHash f leaves top 0 = some root ∧
      ∀ p (hp : p < leaves.length), ∃ branch, computeMerkleBranch f leaves p = some branch ∧
        computeMerkleRootFromBranch f leaves[p] branch p = root := by
  obtain ⟨top, htop, hw, hh⟩ := nHeight_spec hlen 32 (h := 0) rfl nofun
  refine ⟨_, _, top, computeMerkleRoot_eq f hlen, htop, ?_, ?_⟩
  · rw [calcHash_eq, calcHash_top f hne hw hh]
    rfl
  · intro p hp
    obtain ⟨branch, hroot, hfrom⟩ := (onPath_leaves (f := f) hp).root
    obtain ⟨branch', hbranch⟩ := computeMerkleBranch_eq (f := f) hne hlen p
    have hfst : (leavesFrom p 0 leaves).map Prod.fst = leaves := by
      rw [leavesFrom, map_map]
      exact zipIdx_map_fst 0 leaves
    rw [hfst] at hroot hfrom
    exact ⟨branch, by rw [hbranch, hroot]; rfl, hfrom⟩

theorem merkle_computations_agree_three :
    ∃ root mutated top, computeMerkleRoot symEnv.hashPair ([1, 2, 3].map symLeaf) = some (root, mutated) ∧
      nHeight 3 32 0 = some top ∧ calcHash symEnv.hashPair ([1, 2, 3].map symLeaf) top 0 = some root ∧
      ∀ p (hp : p < ([1, 2, 3].map symLeaf).length), ∃ branch,
        computeMerkleBranch symEnv.hashPair ([1, 2, 3].map symLeaf) p = some branch ∧
        computeMerkleRootFromBranch symEnv.hashPair ([1, 2, 3].map symLeaf)[p] branch p = root :=
  merkle_computations_agree symEnv.hashPair (by simp) (by simp)

end BitCash
