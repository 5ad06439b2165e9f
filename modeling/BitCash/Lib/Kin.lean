import Mathlib.Algebra.BigOperators.Group.Finset.Piecewise
import Mathlib.Tactic.Abel

/-!
# Sums over what stands above and below

`R x y` says that `x` is a parent of `y`.
-/

set_option linter.unusedSectionVars false

namespace Kin

open Relation Finset Function

variable {α M : Type} [DecidableEq α] [AddCommGroup M] {V S : Finset α} {R R' : α → α → Prop} {w w' A A' : α → M}

open Classical in
/-- the members from which `x` can be reached -/
noncomputable def above (V : Finset α) (R : α → α → Prop) (x : α) : Finset α := V.filter fun y => TransGen R y x

open Classical in
/-- the members that can be reached from `x` -/
noncomputable def below (V : Finset α) (R : α → α → Prop) (x : α) : Finset α := V.filter fun y => TransGen R x y

@[simp] theorem mem_above {x y : α} : y ∈ above V R x ↔ y ∈ V ∧ TransGen R y x := by
  simp [above]

@[simp] theorem mem_below {x y : α} : y ∈ below V R x ↔ y ∈ V ∧ TransGen R x y := by
  simp [below]

/-- `A` is the sum over a member and what is above it -/
def ExactAbove (V : Finset α) (R : α → α → Prop) (w A : α → M) : Prop :=
  ∀ x ∈ V, A x = w x + ∑ y ∈ above V R x, w y

/-- `A` is the sum over a member and what is below it -/
def ExactBelow (V : Finset α) (R : α → α → Prop) (w A : α → M) : Prop :=
  ∀ x ∈ V, A x = w x + ∑ y ∈ below V R x, w y

theorem above_swap (x : α) : above V (swap R) x = below V R x := by
  ext y
  rw [mem_above, mem_below]
  exact and_congr_right fun _ => transGen_swap

theorem below_swap (x : α) : below V (swap R) x = above V R x := by
  ext y
  rw [mem_above, mem_below]
  exact and_congr_right fun _ => transGen_swap

theorem exactAbove_swap : ExactAbove V (swap R) w A ↔ ExactBelow V R w A := by
  unfold ExactAbove ExactBelow
  simp only [above_swap]

theorem exactBelow_swap : ExactBelow V (swap R) w A ↔ ExactAbove V R w A := by
  unfold ExactAbove ExactBelow
  simp only [below_swap]

theorem ExactAbove.congr (hA : ExactAbove V R w A) (hw : ∀ x ∈ V, w' x = w x) (hA' : ∀ x ∈ V, A' x = A x) :
    ExactAbove V R w' A' := by
  intro x hx
  rw [hA' x hx, hw x hx, hA x hx, sum_congr rfl fun y hy => hw y (mem_above.1 hy).1]

theorem ExactBelow.congr (hA : ExactBelow V R w A) (hw : ∀ x ∈ V, w' x = w x) (hA' : ∀ x ∈ V, A' x = A x) :
    ExactBelow V R w' A' :=
  exactAbove_swap.1 ((exactAbove_swap.2 hA).congr hw hA')

/-! ## a new member -/

/-- `n` is new, and has the parents `P` and no children -/
structure AddsBottom (V : Finset α) (R R' : α → α → Prop) (n : α) (P : α → Prop) : Prop where
  new : n ∉ V
  support : ∀ x y, R x y → x ∈ V ∧ y ∈ V
  parents : ∀ x, R' x n ↔ P x ∧ x ∈ V
  others : ∀ x y, y ≠ n → (R' x y ↔ R x y)

section
variable {n x : α} {P : α → Prop}

theorem AddsBottom.transGen_others (h : AddsBottom V R R' n P) {y : α} (hy : y ≠ n) :
    TransGen R' x y ↔ TransGen R x y := by
  have hstep : ∀ a b, b ≠ n → R' a b → a ≠ n := by
    intro a b hb hab ha
    exact h.new (ha ▸ (h.support a b ((h.others a b hb).1 hab)).1)
  constructor
  · intro hxy
    induction hxy with
    | single hab => exact .single ((h.others _ _ hy).1 hab)
    | tail _ hbc ih => exact .tail (ih (hstep _ _ hy hbc)) ((h.others _ _ hy).1 hbc)
  · intro hxy
    refine TransGen.mono (fun a b hab => ?_) _ _ hxy
    have hb : b ≠ n := fun hb => h.new (hb ▸ (h.support a b hab).2)
    exact (h.others a b hb).2 hab

theorem AddsBottom.transGen_new (h : AddsBottom V R R' n P) : TransGen R' x n ↔ ∃ p ∈ V, P p ∧ ReflTransGen R x p := by
  constructor
  · intro hxn
    obtain ⟨p, hxp, hpn⟩ := TransGen.tail'_iff.1 hxn
    obtain ⟨hP, hpV⟩ := (h.parents p).1 hpn
    refine ⟨p, hpV, hP, ?_⟩
    rcases reflTransGen_iff_eq_or_transGen.1 hxp with rfl | hxp
    · exact .refl
    · have hpn' : p ≠ n := fun hp => h.new (hp ▸ hpV)
      exact ((h.transGen_others hpn').1 hxp).to_reflTransGen
  · rintro ⟨p, hpV, hP, hxp⟩
    have hpn : R' p n := (h.parents p).2 ⟨hP, hpV⟩
    rcases reflTransGen_iff_eq_or_transGen.1 hxp with rfl | hxp
    · exact .single hpn
    · have hpn' : p ≠ n := fun hp => h.new (hp ▸ hpV)
      exact .tail ((h.transGen_others hpn').2 hxp) hpn

theorem ExactAbove.addBottom (hA : ExactAbove V R w A) (h : AddsBottom V R R' n P)
    (hS : ∀ y, y ∈ S ↔ ∃ p ∈ V, P p ∧ ReflTransGen R y p) (hw : ∀ x ∈ V, w' x = w x)
    (hnew : A' n = w' n + ∑ y ∈ S, w y) (hold : ∀ x ∈ V, A' x = A x) : ExactAbove (insert n V) R' w' A' := by
  have hSV : ∀ y ∈ S, y ∈ V := by
    intro y hy
    obtain ⟨p, hp, -, hyp⟩ := (hS y).1 hy
    rcases ReflTransGen.cases_head hyp with rfl | ⟨z, hyz, -⟩
    · exact hp
    · exact (h.support y z hyz).1
  intro x hx
  rcases mem_insert.1 hx with rfl | hxV
  · have habove : above (insert x V) R' x = S := by
      ext y
      rw [mem_above, h.transGen_new, ← hS]
      exact ⟨fun hy => hy.2, fun hy => ⟨mem_insert_of_mem (hSV y hy), hy⟩⟩
    rw [habove, hnew, sum_congr rfl fun y hy => (hw y (hSV y hy)).symm]
  · have hxn : x ≠ n := fun hx => h.new (hx ▸ hxV)
    have habove : above (insert n V) R' x = above V R x := by
      ext y
      rw [mem_above, mem_above, h.transGen_others hxn]
      refine ⟨fun ⟨_, hyx⟩ => ⟨?_, hyx⟩, fun ⟨hy, hyx⟩ => ⟨mem_insert_of_mem hy, hyx⟩⟩
      obtain ⟨z, hyz, -⟩ := TransGen.head'_iff.1 hyx
      exact (h.support y z hyz).1
    rw [habove, hold x hxV, hA x hxV, hw x hxV, sum_congr rfl fun y hy => (hw y (mem_above.1 hy).1).symm]

theorem AddsBottom.below_new (h : AddsBottom V R R' n P) : below (insert n V) R' n = ∅ := by
  refine eq_empty_of_forall_notMem fun y hy => ?_
  obtain ⟨z, hnz, -⟩ := TransGen.head'_iff.1 (mem_below.1 hy).2
  by_cases hz : z = n
  · subst hz
    exact h.new ((h.parents z).1 hnz).2
  · exact h.new (h.support n z ((h.others n z hz).1 hnz)).1

theorem AddsBottom.below_old (h : AddsBottom V R R' n P) (hS : ∀ y, y ∈ S ↔ ∃ p ∈ V, P p ∧ ReflTransGen R y p) :
    below (insert n V) R' x = if x ∈ S then insert n (below V R x) else below V R x := by
  have hold : ∀ y, y ≠ n → (y ∈ below (insert n V) R' x ↔ y ∈ below V R x) := by
    intro y hy
    rw [mem_below, mem_below, h.transGen_others hy, mem_insert, or_iff_right hy]
  have hnew : n ∈ below (insert n V) R' x ↔ x ∈ S := by
    rw [mem_below, h.transGen_new, ← hS]
    exact and_iff_right (mem_insert_self n V)
  have hnot : n ∉ below V R x := fun hn => h.new (mem_below.1 hn).1
  ext y
  by_cases hy : y = n
  · rw [hy, hnew]
    split
    · next hx => exact iff_of_true hx (mem_insert_self n _)
    · next hx => exact iff_of_false hx hnot
  · rw [hold y hy]
    split
    · rw [mem_insert, or_iff_right hy]
    · rfl

theorem ExactBelow.addBottom (hA : ExactBelow V R w A) (h : AddsBottom V R R' n P)
    (hS : ∀ y, y ∈ S ↔ ∃ p ∈ V, P p ∧ ReflTransGen R y p) (hw : ∀ x ∈ V, w' x = w x)
    (hnew : A' n = w' n) (hold : ∀ x ∈ V, A' x = A x + if x ∈ S then w' n else 0) :
      ExactBelow (insert n V) R' w' A' := by
  intro x hx
  rcases mem_insert.1 hx with rfl | hxV
  · rw [h.below_new, sum_empty, add_zero, hnew]
  · have hnot : n ∉ below V R x := fun hn => h.new (mem_below.1 hn).1
    have hsum : ∑ y ∈ below V R x, w' y = ∑ y ∈ below V R x, w y :=
      sum_congr rfl fun y hy => hw y (mem_below.1 hy).1
    rw [hold x hxV, hA x hxV, hw x hxV, h.below_old hS]
    split
    · rw [sum_insert hnot, hsum]
      abel
    · rw [hsum, add_zero]

end

/-! ## members that go -/

/-- the members of `G` go with their links; with a member its children go -/
structure Drops (R R' : α → α → Prop) (G : Finset α) : Prop where
  closed : ∀ x y, R x y → x ∈ G → y ∈ G
  links : ∀ x y, R' x y ↔ R x y ∧ x ∉ G ∧ y ∉ G

section
variable {G : Finset α}

theorem Drops.transGen (h : Drops R R' G) {x y : α} (hy : y ∉ G) : TransGen R' x y ↔ TransGen R x y ∧ x ∉ G := by
  constructor
  · intro hxy
    refine ⟨TransGen.mono (fun a b hab => ((h.links a b).1 hab).1) _ _ hxy, ?_⟩
    obtain ⟨z, hxz, -⟩ := TransGen.head'_iff.1 hxy
    exact ((h.links x z).1 hxz).2.1
  · rintro ⟨hxy, -⟩
    induction hxy with
    | single hab => exact .single ((h.links _ _).2 ⟨hab, fun hx => hy (h.closed _ _ hab hx), hy⟩)
    | tail _ hbc ih =>
      have hb := fun hb => hy (h.closed _ _ hbc hb)
      exact .tail (ih hb) ((h.links _ _).2 ⟨hbc, hb, hy⟩)

theorem Drops.not_above (h : Drops R R' G) {x y : α} (hy : y ∉ G) (hxy : TransGen R x y) : x ∉ G := by
  intro hx
  induction hxy with
  | single hab => exact hy (h.closed _ _ hab hx)
  | tail _ hbc ih => exact ih fun hb => hy (h.closed _ _ hbc hb)

theorem ExactAbove.restrict (hA : ExactAbove V R w A) (h : Drops R R' G) : ExactAbove (V \ G) R' w A := by
  intro x hx
  obtain ⟨hxV, hxG⟩ := mem_sdiff.1 hx
  have habove : above (V \ G) R' x = above V R x := by
    ext y
    rw [mem_above, mem_above, h.transGen hxG, mem_sdiff]
    exact ⟨fun hy => ⟨hy.1.1, hy.2.1⟩, fun hy => ⟨⟨hy.1, h.not_above hxG hy.2⟩, hy.2, h.not_above hxG hy.2⟩⟩
  rw [habove]
  exact hA x hxV

theorem ExactBelow.subtract (hA : ExactBelow V R w A) (h : Drops R R' G)
    (hloss : ∀ x ∈ V, x ∉ G → A' x = A x - ∑ y ∈ below V R x ∩ G, w y) : ExactBelow (V \ G) R' w A' := by
  intro x hx
  obtain ⟨hxV, hxG⟩ := mem_sdiff.1 hx
  have hbelow : below (V \ G) R' x = below V R x \ G := by
    ext y
    rw [mem_sdiff, mem_below, mem_below, mem_sdiff]
    constructor
    · rintro ⟨⟨hy, hyG⟩, hxy⟩
      exact ⟨⟨hy, ((h.transGen hyG).1 hxy).1⟩, hyG⟩
    · rintro ⟨⟨hy, hxy⟩, hyG⟩
      exact ⟨⟨hy, hyG⟩, (h.transGen hyG).2 ⟨hxy, hxG⟩⟩
  rw [hbelow, hloss x hxV hxG, hA x hxV, ← sum_inter_add_sum_sdiff (below V R x) G w]
  abel

theorem sum_losses {l : List α} (hl : l.Nodup) {s : Finset α} {q : α → Prop} [DecidablePred q]
    (hq : ∀ y ∈ l, q y ↔ y ∈ s) : (l.map fun y => if q y then -w y else 0).sum = -∑ y ∈ s ∩ l.toFinset, w y := by
  rw [← List.sum_toFinset _ hl, ← sum_filter, sum_neg_distrib]
  congr 2
  ext y
  rw [mem_filter, mem_inter, List.mem_toFinset, and_comm]
  exact ⟨fun h => ⟨(hq y h.2).1 h.1, h.2⟩, fun h => ⟨(hq y h.2).2 h.1, h.2⟩⟩

theorem Drops.swap (hclosed : ∀ x y, R x y → y ∈ G → x ∈ G) (hlinks : ∀ x y, R' x y ↔ R x y ∧ x ∉ G ∧ y ∉ G) :
    Drops (swap R) (swap R') G :=
  ⟨fun x y hxy hx => hclosed y x hxy hx, fun x y => (hlinks y x).trans (and_congr_right fun _ => and_comm)⟩

end

/-! ## a weight that changes -/

theorem ExactAbove.reweigh (hA : ExactAbove V R w A) (hacyclic : ∀ x, ¬TransGen R x x) {n : α} {d : M}
    (hn : w' n = w n + d) (hw : ∀ x, x ≠ n → w' x = w x) (hself : A' n = A n + d)
    (hgain : ∀ x, x ≠ n → A' x = A x + if n ∈ above V R x then d else 0) : ExactAbove V R w' A' := by
  have hsum : ∀ s : Finset α, ∑ y ∈ s, w' y = ∑ y ∈ s, w y + if n ∈ s then d else 0 := by
    intro s
    by_cases hs : n ∈ s
    · rw [if_pos hs, ← add_sum_erase s w' hs, ← add_sum_erase s w hs, hn,
        sum_congr rfl fun y hy => hw y (ne_of_mem_erase hy)]
      abel
    · rw [if_neg hs, add_zero]
      exact sum_congr rfl fun y hy => hw y fun hyn => hs (hyn ▸ hy)
  intro x hx
  rw [hsum]
  by_cases hxn : x = n
  · subst hxn
    have hnot : x ∉ above V R x := fun hno => hacyclic x (mem_above.1 hno).2
    rw [hself, hA x hx, hn, if_neg hnot]
    abel
  · rw [hgain x hxn, hA x hx, hw x hxn]
    abel

/-! ## two parts -/

/-- the old links stay within the part `T` and within the rest; the new ones lead from `T` to the rest -/
structure Joins (R R' : α → α → Prop) (T : α → Prop) : Prop where
  old : ∀ x y, R x y → R' x y
  apart : ∀ x y, R x y → (T x ↔ T y)
  new : ∀ x y, R' x y → R x y ∨ T x ∧ ¬T y

section
variable {T : α → Prop}

theorem Joins.swap (h : Joins R R' T) : Joins (swap R) (swap R') fun x => ¬T x :=
  ⟨fun x y hxy => h.old y x hxy, fun x y hxy => not_congr (h.apart y x hxy).symm,
    fun x y hxy => (h.new y x hxy).imp_right fun hyx => ⟨hyx.2, not_not.2 hyx.1⟩⟩

theorem Joins.transGen_top (h : Joins R R' T) {x y : α} (hy : T y) : TransGen R' x y ↔ TransGen R x y := by
  refine ⟨fun hxy => ?_, TransGen.mono h.old x y⟩
  have hstep : ∀ a b, T b → R' a b → R a b := fun a b hb hab => (h.new a b hab).resolve_right fun hno => hno.2 hb
  induction hxy with
  | single hab => exact .single (hstep _ _ hy hab)
  | tail _ hbc ih =>
    have hlast := hstep _ _ hy hbc
    exact .tail (ih ((h.apart _ _ hlast).2 hy)) hlast

theorem Joins.transGen_rest (h : Joins R R' T) {x y : α} (hx : ¬T x) : TransGen R' x y ↔ TransGen R x y :=
  transGen_swap.symm.trans ((h.swap.transGen_top hx).trans transGen_swap)

theorem Joins.transGen_apart (h : Joins R R' T) {x y : α} (hxy : TransGen R x y) : T x ↔ T y := by
  induction hxy with
  | single hab => exact h.apart _ _ hab
  | tail _ hbc ih => exact ih.trans (h.apart _ _ hbc)

theorem ExactAbove.join (hA : ExactAbove V R w A) (h : Joins R R' T) [DecidablePred T]
    (htop : ∀ x ∈ V, T x → A' x = A x)
    (hrest : ∀ x ∈ V, ¬T x → A' x = A x + ∑ y ∈ (above V R' x).filter T, w y) : ExactAbove V R' w A' := by
  intro x hx
  by_cases hxT : T x
  · have habove : above V R' x = above V R x := by
      ext y
      rw [mem_above, mem_above, h.transGen_top hxT]
    rw [htop x hx hxT, habove]
    exact hA x hx
  · have habove : (above V R' x).filter (fun y => ¬T y) = above V R x := by
      ext y
      rw [mem_filter, mem_above, mem_above]
      constructor
      · rintro ⟨⟨hy, hyx⟩, hyT⟩
        exact ⟨hy, (h.transGen_rest hyT).1 hyx⟩
      · rintro ⟨hy, hyx⟩
        have hyT : ¬T y := fun hyT => hxT ((h.transGen_apart hyx).1 hyT)
        exact ⟨⟨hy, (h.transGen_rest hyT).2 hyx⟩, hyT⟩
    rw [hrest x hx hxT, hA x hx, ← habove, ← sum_filter_add_sum_filter_not (above V R' x) T w]
    abel

theorem ExactBelow.join (hA : ExactBelow V R w A) (h : Joins R R' T) [DecidablePred T]
    (hrest : ∀ x ∈ V, ¬T x → A' x = A x)
    (htop : ∀ x ∈ V, T x → A' x = A x + ∑ y ∈ (below V R' x).filter (fun y => ¬T y), w y) : ExactBelow V R' w A' := by
  refine exactAbove_swap.1 ((exactAbove_swap.2 hA).join h.swap hrest fun x hx hxT => ?_)
  rw [above_swap]
  exact htop x hx (not_not.1 hxT)

end

/-! ## what is left of a member and what is above it -/

/-- a member with what is above it, outside of `B` -/
noncomputable def remaining (V : Finset α) (R : α → α → Prop) (B : Finset α) (x : α) : Finset α :=
  insert x (above V R x) \ B

section
variable {B : Finset α} {x y : α}

theorem mem_remaining : y ∈ remaining V R B x ↔ (y = x ∨ y ∈ V ∧ TransGen R y x) ∧ y ∉ B := by
  rw [remaining, mem_sdiff, mem_insert, mem_above]

theorem remaining_insert : remaining V R (insert y B) x = (remaining V R B x).erase y := sdiff_insert ..

theorem ExactAbove.sum_remaining (hA : ExactAbove V R w A) (hacyclic : ¬TransGen R x x) (hx : x ∈ V) :
    A x = ∑ y ∈ remaining V R ∅ x, w y := by
  have hnot : x ∉ above V R x := fun hno => hacyclic (mem_above.1 hno).2
  rw [remaining, sdiff_empty, sum_insert hnot, hA x hx]

theorem card_remaining_lt (hacyclic : ¬TransGen R x x) (hyV : y ∈ V) (hyx : TransGen R y x) :
    (remaining V R ∅ y).card < (remaining V R ∅ x).card := by
  refine card_lt_card (ssubset_iff_of_subset ?_ |>.2 ⟨x, ?_, ?_⟩)
  · intro z hz
    obtain ⟨hz, hzB⟩ := mem_remaining.1 hz
    rcases hz with rfl | ⟨hzV, hzy⟩
    · exact mem_remaining.2 ⟨.inr ⟨hyV, hyx⟩, hzB⟩
    · exact mem_remaining.2 ⟨.inr ⟨hzV, hzy.trans hyx⟩, hzB⟩
  · exact mem_remaining.2 ⟨.inl rfl, notMem_empty x⟩
  · intro hx
    rcases (mem_remaining.1 hx).1 with rfl | ⟨-, hxy⟩
    · exact hacyclic hyx
    · exact hacyclic (hxy.trans hyx)

end

end Kin
