import Mathlib.Data.List.Induction
import Mathlib.Data.List.Nodup
import Mathlib.Logic.Function.Iterate

/-!
# Merkle roots with a duplicated last node

A tree over a list of leaves, level by level: neighbours are hashed in pairs, and the last node of an odd level is
hashed with itself (`pairUp`).
-/

set_option linter.unusedSectionVars false

namespace Merkle
open List Function Option

variable {α : Type} {l : List α} {st : List (Option α)}

/-! ## the computation -/

section Compute
variable [DecidableEq α] (f : α → α → α)

/-- add a leaf to the counter; entry number `l` is a subtree of `2 ^ l` leaves -/
def push : List (Option α) → α → List (Option α) × Bool
  | [], h => ([some h], false)
  | none :: l, h => (some h :: l, false)
  | some a :: l, h => (none :: (push l (f a h)).1, decide (a = h) || (push l (f a h)).2)

/-- add all leaves, from the left -/
def process (leaves : List α) : List (Option α) × Bool :=
  leaves.foldl (fun s h => ((push f s.1 h).1, s.2 || (push f s.1 h).2)) ([], false)

/-- hash the last subtree upwards: with itself where its level has no neighbour for it, with the
entry of the counter where there is one; `carry` says that `h` enters the level of the first entry -/
def sweep : Bool → α → List (Option α) → α
  | _, h, [] => h
  | true, h, some a :: l => sweep true (f a h) l
  | true, h, none :: l => sweep false h l
  | false, h, x :: l =>
    if (x :: l).all Option.isNone then h
    else match x with
      | some a => sweep true (f a (f h h)) l
      | none => sweep false (f h h) l

/-- start the sweep at the lowest entry -/
def finish [Inhabited α] : List (Option α) → α
  | [] => default
  | none :: l => finish l
  | some h :: l => sweep f false h l

/-- the root of a list of leaves, and whether two equal siblings were seen -/
def computeRoot [Inhabited α] (leaves : List α) : α × Bool :=
  (finish f (process f leaves).1, (process f leaves).2)

end Compute

/-! ## levels -/

section Levels
variable (f : α → α → α)

/-- the hashes of the neighbours of a level, without the last node of an odd one -/
def pairs : List α → List α
  | a :: b :: l => f a b :: pairs l
  | _ => []

/-- the last node of an odd level -/
def leftover : List α → Option α
  | _ :: _ :: l => leftover l
  | [a] => some a
  | [] => none

/-- the next level -/
def pairUp : List α → List α
  | a :: b :: l => f a b :: pairUp l
  | [a] => [f a a]
  | [] => []

/-- no two neighbours that are hashed together are equal -/
def NoTwins : List α → Prop
  | a :: b :: l => a ≠ b ∧ NoTwins l
  | _ => True

/-- the same, decided -/
def twins [DecidableEq α] : List α → Bool
  | a :: b :: l => decide (a = b) || twins l
  | _ => false

theorem noTwins_of_twins [DecidableEq α] : ∀ {l : List α}, twins l = false → NoTwins l
  | [], _ => trivial
  | [_], _ => trivial
  | a :: b :: l, h => by
    simp only [twins, Bool.or_eq_false_iff, decide_eq_false_iff_not] at h
    exact ⟨h.1, noTwins_of_twins h.2⟩

theorem snoc_of_leftover_none [DecidableEq α] (h : α) : ∀ {l : List α}, leftover l = none →
    leftover (l ++ [h]) = some h ∧ pairs f (l ++ [h]) = pairs f l ∧ twins (l ++ [h]) = twins l
  | [], _ => ⟨rfl, rfl, rfl⟩
  | a :: b :: l, hl => by
    obtain ⟨h1, h2, h3⟩ := snoc_of_leftover_none h (l := l) hl
    simp [leftover, pairs, twins, h1, h2, h3]

theorem snoc_of_leftover_some [DecidableEq α] {a : α} (h : α) : ∀ {l : List α},
    leftover l = some a → leftover (l ++ [h]) = none ∧ pairs f (l ++ [h]) = pairs f l ++ [f a h] ∧
      twins (l ++ [h]) = (twins l || decide (a = h))
  | [b], hl => by
    cases hl
    simp [leftover, pairs, twins]
  | b :: c :: l, hl => by
    obtain ⟨h1, h2, h3⟩ := snoc_of_leftover_some h (l := l) hl
    simp [leftover, pairs, twins, h1, h2, h3, Bool.or_assoc]

theorem pairUp_eq : ∀ l : List α, pairUp f l = pairs f l ++ ((leftover l).map fun a => f a a).toList
  | [] => rfl
  | [_] => rfl
  | a :: b :: l => by simp [pairUp, pairs, leftover, pairUp_eq l]

theorem pairUp_length_lt : ∀ {l : List α}, 2 ≤ l.length → (pairUp f l).length < l.length
  | [_, _], _ => by simp [pairUp]
  | [_, _, _], _ => by simp [pairUp]
  | a :: b :: c :: d :: l, _ => by
    have := pairUp_length_lt (l := c :: d :: l) (by simp)
    simp only [pairUp, length_cons] at this ⊢
    omega

theorem pairUp_ne_nil : ∀ {l : List α}, l ≠ [] → pairUp f l ≠ []
  | [_], _ => by simp [pairUp]
  | _ :: _ :: _, _ => by simp [pairUp]

theorem mem_pairUp {x : α} : ∀ {l : List α}, x ∈ pairUp f l → ∃ a b, x = f a b
  | [a], h => ⟨a, a, by simpa [pairUp] using h⟩
  | a :: b :: l, h => by
    rcases mem_cons.1 h with rfl | h
    · exact ⟨a, b, rfl⟩
    · exact mem_pairUp h

theorem getElem?_pairUp : ∀ (l : List α) (j : Nat),
    (pairUp f l)[j]? = l[2 * j]?.map fun a => f a (l[2 * j + 1]?.getD a)
  | [], _ => rfl
  | [_], 0 => rfl
  | [_], _ + 1 => rfl
  | _ :: _ :: _, 0 => rfl
  | _ :: _ :: l, j + 1 => getElem?_pairUp l j

theorem length_pairUp : ∀ l : List α, (pairUp f l).length = (l.length + 1) / 2
  | [] => by simp [pairUp]
  | [_] => by simp [pairUp]
  | a :: b :: l => by
    rw [pairUp, length_cons, length_pairUp l, length_cons, length_cons]
    omega

/-- the hash of a pair determines the pair -/
def PairInj : Prop := ∀ ⦃a b c d : α⦄, f a b = f c d → a = c ∧ b = d

theorem nodup_pairUp (hf : PairInj f) (hl : l.Nodup) : (pairUp f l).Nodup := by
  rw [nodup_iff_getElem?_ne_getElem?] at hl ⊢
  intro i j hij hj heq
  rw [length_pairUp] at hj
  have hi := getElem?_eq_getElem (show 2 * i < l.length by omega)
  have hj := getElem?_eq_getElem (show 2 * j < l.length by omega)
  rw [getElem?_pairUp, getElem?_pairUp, hi, hj] at heq
  refine hl (2 * i) (2 * j) (by omega) (by omega) ?_
  rw [hi, hj, (hf (some.inj heq)).1]

theorem nodup_iterate_pairUp (hf : PairInj f) (hl : l.Nodup) (h : Nat) : ((pairUp f)^[h] l).Nodup := by
  induction h with
  | zero => exact hl
  | succ h ih =>
    rw [iterate_succ_apply']
    exact nodup_pairUp f hf ih

/-- **a level is determined by the next one** when neither has twins -/
theorem pairUp_inj (hf : PairInj f) : ∀ {l m : List α}, NoTwins l → NoTwins m → pairUp f l = pairUp f m → l = m
  | [], [], _, _, _ => rfl
  | [], [_], _, _, h => by simp [pairUp] at h
  | [], _ :: _ :: _, _, _, h => by simp [pairUp] at h
  | [_], [], _, _, h => by simp [pairUp] at h
  | _ :: _ :: _, [], _, _, h => by simp [pairUp] at h
  | [a], [c], _, _, h => by
    simp only [pairUp, cons.injEq, and_true] at h
    rw [(hf h).1]
  | [a], c :: d :: m, _, hm, h => by
    simp only [pairUp, cons.injEq] at h
    exact absurd ((hf h.1).1.symm.trans (hf h.1).2) hm.1
  | a :: b :: l, [c], hl, _, h => by
    simp only [pairUp, cons.injEq] at h
    exact absurd ((hf h.1).1.trans (hf h.1).2.symm) hl.1
  | a :: b :: l, c :: d :: m, hl, hm, h => by
    simp only [pairUp, cons.injEq] at h
    rw [(hf h.1).1, (hf h.1).2, pairUp_inj hf hl.2 hm.2 h.2]

end Levels

/-! ## the computation follows the levels -/

section Follows
variable [DecidableEq α] (f : α → α → α)

theorem process_snoc (l : List α) (h : α) : process f (l ++ [h]) = ((push f (process f l).1 h).1,
      (process f l).2 || (push f (process f l).1 h).2) := by
  simp [process, foldl_append]

/-- **the counter of a list** is its last odd node and the counter of its pairs, and the flag sees
the twins of the list and those among its pairs -/
theorem process_level (l : List α) : l ≠ [] → (process f l).1 = leftover l :: (process f (pairs f l)).1 ∧
      (process f l).2 = (twins l || (process f (pairs f l)).2) := by
  induction l using reverseRecOn with
  | nil => exact fun h => absurd rfl h
  | append_singleton l h ih =>
    intro _
    rw [process_snoc]
    by_cases hl : l = []
    · subst hl
      exact ⟨rfl, rfl⟩
    · obtain ⟨ih1, ih2⟩ := ih hl
      rw [ih1, ih2]
      cases ho : leftover l with
      | none =>
        obtain ⟨h1, h2, h3⟩ := snoc_of_leftover_none f h ho
        rw [h1, h2, h3]
        simp [push]
      | some a =>
        obtain ⟨h1, h2, h3⟩ := snoc_of_leftover_some f h ho
        rw [h1, h2, h3, process_snoc]
        refine ⟨rfl, ?_⟩
        cases twins l <;> cases (process f (pairs f l)).2 <;> simp [push]

theorem process_not_all_none (hl : l ≠ []) : (process f l).1.all isNone = false := by
  induction hn : l.length using Nat.strongRecOn generalizing l with
  | ind n ih =>
    rw [(process_level f l hl).1]
    match l, hl with
    | [a], _ => rfl
    | a :: b :: m, _ =>
      have hlen : (pairs f (a :: b :: m)).length < n := by
        have h1 := pairUp_length_lt f (l := a :: b :: m) (by simp)
        rw [pairUp_eq, length_append] at h1
        omega
      have := ih _ hlen (l := pairs f (a :: b :: m)) (by simp [pairs]) rfl
      simp [this]

variable [Inhabited α]

theorem sweep_true (h : α) (st : List (Option α)) : sweep f true h st = finish f (push f st h).1 := by
  induction st generalizing h with
  | nil => rfl
  | cons x l ih =>
    cases x with
    | none => rfl
    | some a => exact ih (f a h)

theorem sweep_false {h : α} (hst : st.all isNone = false) : sweep f false h st = sweep f true (f h h) st:= by
  cases st with
  | nil => cases hst
  | cons x l =>
    have hne : ¬ (x :: l).all isNone := by simp [hst]
    cases x with
    | none => exact if_neg hne
    | some a => exact if_neg hne

theorem sweep_false_of_all_none {h : α} (hst : st.all isNone) : sweep f false h st = h:= by
  cases st with
  | nil => rfl
  | cons x l =>
    cases x with
    | none => exact if_pos hst
    | some a => cases hst

/-- **the root of a list is the root of its next level** -/
theorem computeRoot_pairUp (hl : 2 ≤ l.length) : (computeRoot f l).1 = (computeRoot f (pairUp f l)).1:= by
  have hne : l ≠ [] := by rintro rfl; simp at hl
  have hpairs : pairs f l ≠ [] := by
    match l, hl with
    | _ :: _ :: _, _ => simp [pairs]
  simp only [computeRoot]
  rw [(process_level f l hne).1, pairUp_eq]
  cases leftover l with
  | none => simp [finish]
  | some a =>
    have hall := process_not_all_none f hpairs
    simp only [finish, map_some, toList_some]
    rw [sweep_false f hall, sweep_true, process_snoc]

theorem computeRoot_iterate {h : Nat} (hl : ∀ k < h, 2 ≤ ((pairUp f)^[k] l).length) :
    (computeRoot f ((pairUp f)^[h] l)).1 = (computeRoot f l).1 := by
  induction h with
  | zero => rfl
  | succ h ih =>
    rw [iterate_succ_apply', ← computeRoot_pairUp f (hl h (by omega))]
    exact ih fun k hk => hl k (by omega)

theorem computeRoot_singleton (a : α) : computeRoot f [a] = (a, false) := rfl

end Follows

/-! ## the root determines the leaves -/

section Injective
variable [DecidableEq α] (f : α → α → α)

/-- a level of the computation of a list without twins: nodes that were pushed, and perhaps one that
comes from hashing a last node with itself; that one is not among the others -/
structure Clean (l : List α) : Prop where
  intro ::
  split : ∃ (m : List α) (p : Option α), l = m ++ p.toList ∧ (process f m).2 = false ∧
    ∀ x ∈ p, x ∉ m

theorem clean_of_process (h : (process f l).2 = false) : Clean f l := ⟨l, none, by simp, h, by simp⟩

theorem noTwins_snoc {m : List α} {x : α} (hm : NoTwins m) (hx : x ∉ m) : NoTwins (m ++ [x]) := by
  match m, hm, hx with
  | [], _, _ => trivial
  | [a], _, hx => exact ⟨fun h => hx (by simp [h]), trivial⟩
  | a :: b :: l, hm, hx =>
    exact ⟨hm.1, noTwins_snoc hm.2 fun h => hx (by simp [h])⟩

theorem process_twins {m : List α} (h : (process f m).2 = false) : NoTwins m ∧ (process f (pairs f m)).2 = false := by
  by_cases hm : m = []
  · subst hm
    exact ⟨trivial, rfl⟩
  · rw [(process_level f m hm).2, Bool.or_eq_false_iff] at h
    exact ⟨noTwins_of_twins h.1, h.2⟩

theorem Clean.noTwins (h : Clean f l) : NoTwins l := by
  obtain ⟨m, p, rfl, hm, hp⟩ := h.split
  cases p with
  | none => simpa using (process_twins f hm).1
  | some x => exact noTwins_snoc (process_twins f hm).1 (hp x rfl)

theorem mem_pairs {x : α} : ∀ {m : List α}, NoTwins m → x ∈ pairs f m → ∃ a b, x = f a b ∧ a ∈ m ∧ b ∈ m ∧ a ≠ b
  | a :: b :: l, hm, h => by
    rcases mem_cons.1 h with rfl | h
    · exact ⟨a, b, rfl, by simp, by simp, hm.1⟩
    · obtain ⟨c, d, hx, hc, hd, hne⟩ := mem_pairs hm.2 h
      exact ⟨c, d, hx, by simp [hc], by simp [hd], hne⟩

variable {f} (hf : PairInj f)
include hf

/-- **the next level of a clean level is clean**: a node hashed with itself, or with one that was,
is not the hash of two different nodes of the level below -/
theorem Clean.pairUp (h : Clean f l) : Clean f (pairUp f l) := by
  obtain ⟨m, p, rfl, hm, hp⟩ := h.split
  obtain ⟨hnt, hpm⟩ := process_twins f hm
  have hself : ∀ a : α, f a a ∉ pairs f m := by
    intro a ha
    obtain ⟨c, d, hx, -, -, hne⟩ := mem_pairs f hnt ha
    exact hne ((hf hx).1.symm.trans (hf hx).2)
  cases p with
  | none =>
    rw [toList_none, append_nil, pairUp_eq]
    exact ⟨pairs f m, _, rfl, hpm, fun x hx => by
      obtain ⟨a, -, rfl⟩ := map_eq_some_iff.1 hx
      exact hself a⟩
  | some x =>
    have hx := hp x rfl
    rw [toList_some, pairUp_eq]
    cases ho : leftover m with
    | none =>
      obtain ⟨h1, h2, -⟩ := snoc_of_leftover_none f x ho
      rw [h1, h2]
      exact ⟨pairs f m, some (f x x), rfl, hpm, fun y hy => by cases hy; exact hself x⟩
    | some a =>
      obtain ⟨h1, h2, -⟩ := snoc_of_leftover_some f x ho
      rw [h1, h2]
      refine ⟨pairs f m, some (f a x), by simp, hpm, fun y hy hmem => ?_⟩
      cases hy
      obtain ⟨c, d, he, -, hd, -⟩ := mem_pairs f hnt hmem
      exact hx ((hf he).2 ▸ hd)

theorem Clean.iterate (h : Clean f l) (n : Nat) : Clean f ((Merkle.pairUp f)^[n] l) := by
  induction n with
  | zero => exact h
  | succ n ih =>
    rw [iterate_succ_apply']
    exact ih.pairUp hf

variable [Inhabited α]

theorem level_of_root_eq {m : List α} (hl : Clean f l) (hm : Clean f m) (hl0 : l ≠ []) (hm0 : m ≠ [])
    (h : (computeRoot f l).1 = (computeRoot f m).1) :
      ∃ n, l = (Merkle.pairUp f)^[n] m ∨ m = (Merkle.pairUp f)^[n] l:= by
  -- go up one level in every list that has more than its root left
  induction hn : l.length + m.length using Nat.strongRecOn generalizing l m with
  | ind k ih =>
    match l, m, hl0, hm0 with
    | [a], [b], _, _ =>
      exact ⟨0, .inl (by simpa [computeRoot_singleton] using h)⟩
    | [a], b :: c :: m, _, _ =>
      have hlt := pairUp_length_lt f (l := b :: c :: m) (by simp)
      rw [computeRoot_pairUp f (l := b :: c :: m) (by simp)] at h
      obtain ⟨n, h' | h'⟩ := ih _ (by simp only [length_cons] at hn hlt ⊢; omega) hl (hm.pairUp hf)
        (by simp) (pairUp_ne_nil f (by simp)) h rfl
      · exact ⟨n + 1, .inl (by rw [h', iterate_succ_apply])⟩
      · cases n with
        | zero => exact ⟨1, .inl h'.symm⟩
        | succ n =>
          rw [iterate_succ_apply'] at h'
          exact ⟨n, .inr (pairUp_inj f hf (hm.noTwins f) ((hl.iterate hf n).noTwins f) h')⟩
    | a :: b :: l, [c], _, _ =>
      have hlt := pairUp_length_lt f (l := a :: b :: l) (by simp)
      rw [computeRoot_pairUp f (l := a :: b :: l) (by simp)] at h
      obtain ⟨n, h' | h'⟩ := ih _ (by simp only [length_cons] at hn hlt ⊢; omega) (hl.pairUp hf) hm
        (pairUp_ne_nil f (by simp)) (by simp) h rfl
      · cases n with
        | zero => exact ⟨1, .inr h'.symm⟩
        | succ n =>
          rw [iterate_succ_apply'] at h'
          exact ⟨n, .inl (pairUp_inj f hf (hl.noTwins f) ((hm.iterate hf n).noTwins f) h')⟩
      · exact ⟨n + 1, .inr (by rw [h', iterate_succ_apply])⟩
    | a :: b :: l, c :: d :: m, _, _ =>
      have hlt := pairUp_length_lt f (l := a :: b :: l) (by simp)
      have hlt' := pairUp_length_lt f (l := c :: d :: m) (by simp)
      rw [computeRoot_pairUp f (l := a :: b :: l) (by simp), computeRoot_pairUp f (l := c :: d :: m) (by simp)] at h
      obtain ⟨n, h' | h'⟩ := ih _ (by simp only [length_cons] at hn hlt hlt' ⊢; omega)
        (hl.pairUp hf) (hm.pairUp hf) (pairUp_ne_nil f (by simp)) (pairUp_ne_nil f (by simp)) h rfl
      · rw [← iterate_succ_apply, iterate_succ_apply'] at h'
        exact ⟨n, .inl (pairUp_inj f hf (hl.noTwins f) ((hm.iterate hf n).noTwins f) h')⟩
      · rw [← iterate_succ_apply, iterate_succ_apply'] at h'
        exact ⟨n, .inr (pairUp_inj f hf (hm.noTwins f) ((hl.iterate hf n).noTwins f) h')⟩

theorem iterate_eq_zero {m : List α} (hleaf : ∀ x ∈ l, ∀ a b, x ≠ f a b) (hl0 : l ≠ []) {n : Nat}
    (h : l = (Merkle.pairUp f)^[n] m) : l = m := by
  cases n with
  | zero => exact h
  | succ n =>
    obtain ⟨x, hx⟩ := exists_mem_of_ne_nil l hl0
    rw [iterate_succ_apply'] at h
    obtain ⟨a, b, hab⟩ := mem_pairUp f (h ▸ hx)
    exact absurd hab (hleaf x hx a b)

/-- **the root determines the leaves** -/
theorem computeRoot_inj {m : List α} (hl0 : l ≠ []) (hm0 : m ≠ [])
    (hl : ∀ x ∈ l, ∀ a b, x ≠ f a b) (hm : ∀ x ∈ m, ∀ a b, x ≠ f a b)
    (hlm : (computeRoot f l).2 = false) (hmm : (computeRoot f m).2 = false)
    (h : (computeRoot f l).1 = (computeRoot f m).1) : l = m := by
  obtain ⟨n, h' | h'⟩ := level_of_root_eq hf (clean_of_process f hlm) (clean_of_process f hmm) hl0 hm0 h
  · exact iterate_eq_zero hf hl hl0 h'
  · exact (iterate_eq_zero hf hm hm0 h').symm

end Injective

end Merkle
