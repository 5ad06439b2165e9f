import Mathlib.Algebra.BigOperators.Group.List.Basic
import Mathlib.Data.List.Perm.Subperm
import Mathlib.Tactic.Ring

/-!
# Subsets of a list, and the search through them

A subset of a list is given by flags, one for each place.
-/

namespace Subset
open List

variable {α : Type} {l c : List α} {f : α → Int} {p q s v : List Bool} {x : α} {i n : Nat}

/-- the elements at the places that are set -/
def pick : List α → List Bool → List α
  | x :: l, true :: s => x :: pick l s
  | _ :: l, false :: s => pick l s
  | _, _ => []

@[simp] theorem pick_nil_left (s : List Bool) : pick ([] : List α) s = [] := by
  cases s <;> rfl

@[simp] theorem pick_nil_right (l : List α) : pick l [] = [] := by
  cases l <;> rfl

theorem pick_cons (x : α) (l : List α) (b : Bool) (s : List Bool) :
    pick (x :: l) (b :: s) = (if b then [x] else []) ++ pick l s := by
  cases b <;> rfl

theorem pick_sublist (l : List α) (s : List Bool) : (pick l s).Sublist l := by
  induction l generalizing s with
  | nil => rw [pick_nil_left]
  | cons x l ih =>
    rcases s with _ | ⟨_ | _, s⟩
    · exact nil_sublist _
    · exact (ih s).cons x
    · exact (ih s).cons_cons x

theorem exists_pick (h : c.Sublist l) : ∃ s, s.length = l.length ∧ pick l s = c := by
  induction h with
  | slnil => exact ⟨[], rfl, rfl⟩
  | cons x _ ih =>
    obtain ⟨s, hlen, hs⟩ := ih
    exact ⟨false :: s, by simp [hlen], hs⟩
  | cons_cons x _ ih =>
    obtain ⟨s, hlen, hs⟩ := ih
    exact ⟨true :: s, by simp [hlen], by rw [pick_cons, hs]; rfl⟩

theorem pick_replicate_true (l : List α) : pick l (replicate l.length true) = l := by
  induction l with
  | nil => rfl
  | cons x l ih =>
    rw [length_cons, replicate_succ, pick_cons, ih]
    rfl

theorem pick_replicate_false (l : List α) (n : Nat) : pick l (replicate n false) = [] := by
  induction l generalizing n with
  | nil => rw [pick_nil_left]
  | cons x l ih =>
    cases n with
    | zero => rfl
    | succ n => rw [replicate_succ, pick_cons, ih]; rfl

theorem pick_append (l : List α) (p q : List Bool) : pick l (p ++ q) = pick l p ++ pick (l.drop p.length) q := by
  induction p generalizing l with
  | nil => rw [pick_nil_right]; rfl
  | cons b p ih =>
    cases l with
    | nil => rw [pick_nil_left, pick_nil_left, drop_nil, pick_nil_left]; rfl
    | cons x l =>
      rw [cons_append, pick_cons, pick_cons, ih, append_assoc]
      rfl

theorem drop_of_getElem (h : l[i]? = some x) : l.drop i = x :: l.drop (i + 1) := by
  obtain ⟨hi, rfl⟩ := List.getElem?_eq_some_iff.1 h
  exact drop_eq_getElem_cons hi

theorem pick_snoc (b : Bool) (h : l[p.length]? = some x) : pick l (p ++ [b]) = pick l p ++ if b then [x] else [] := by
  rw [pick_append, drop_of_getElem h, pick_cons, pick_nil_right, append_nil]

theorem pick_append_false (l : List α) (p : List Bool) (n : Nat) :
    pick l (p ++ replicate n false) = pick l p := by
  rw [pick_append, pick_replicate_false, append_nil]

/-! ## sums -/

/-- the sum of a measure -/
def total (f : α → Int) (l : List α) : Int := (l.map f).sum

@[simp] theorem total_nil : total f [] = 0 := rfl

@[simp] theorem total_cons (x : α) : total f (x :: l) = f x + total f l := by
  simp [total]

@[simp] theorem total_append (l₁ l₂ : List α) : total f (l₁ ++ l₂) = total f l₁ + total f l₂ := by
  simp [total]

theorem total_perm {l₁ l₂ : List α} (h : l₁.Perm l₂) : total f l₁ = total f l₂ := (h.map f).sum_eq

theorem total_nonneg (h : ∀ x ∈ l, 0 ≤ f x) : 0 ≤ total f l := by
  induction l with
  | nil => exact le_rfl
  | cons x l ih =>
    rw [total_cons]
    exact Int.add_nonneg (h x mem_cons_self) (ih fun y hy => h y (mem_cons_of_mem x hy))

theorem total_le_of_sublist (hc : c.Sublist l) (h : ∀ x ∈ l, 0 ≤ f x) : total f c ≤ total f l := by
  induction hc with
  | slnil => exact le_rfl
  | cons x _ ih =>
    have hx := h x mem_cons_self
    have hrest := ih fun y hy => h y (mem_cons_of_mem x hy)
    rw [total_cons]
    omega
  | cons_cons x _ ih =>
    have hrest := ih fun y hy => h y (mem_cons_of_mem x hy)
    rw [total_cons, total_cons]
    omega

theorem total_le_total {g : α → Int} (h : ∀ x ∈ l, f x ≤ g x) : total f l ≤ total g l := by
  induction l with
  | nil => exact Int.le_refl 0
  | cons x l ih =>
    have hhead := h x mem_cons_self
    have htail := ih fun y hy => h y (mem_cons_of_mem x hy)
    rw [total_cons, total_cons]
    omega

theorem total_set (hx : l[i]? = some x) (y : α) : total f (l.set i y) = total f l + (f y - f x) := by
  induction l generalizing i with
  | nil => cases hx
  | cons z l ih =>
    cases i with
    | zero =>
      obtain rfl : z = x := by simpa using hx
      rw [set_cons_zero, total_cons, total_cons]
      omega
    | succ i =>
      rw [set_cons_succ, total_cons, total_cons, ih (by simpa using hx)]
      omega

theorem total_pick_set (hx : l[i]? = some x) (hs : s[i]? = some false) :
    total f (pick l (s.set i true)) = total f (pick l s) + f x := by
  induction l generalizing i s with
  | nil => cases hx
  | cons y l ih =>
    cases s with
    | nil => cases hs
    | cons b s =>
      cases i with
      | zero =>
        cases hx
        cases hs
        rw [set_cons_zero, pick_cons, pick_cons, total_append, total_append]
        simp only [Bool.false_eq_true, if_true, if_false, total_cons, total_nil]
        ring
      | succ i =>
        rw [set_cons_succ, pick_cons, pick_cons, total_append, total_append,
          ih (by simpa using hx) (by simpa using hs)]
        ring

theorem total_pick_swap {y : α} (hx : l[p.length]? = some x) (hy : l[p.length + 1]? = some y)
    (hxy : f x = f y) (q : List Bool) :
    total f (pick l (p ++ true :: false :: q)) = total f (pick l (p ++ false :: true :: q)) := by
  have hdrop : l.drop p.length = x :: y :: l.drop (p.length + 2) := by
    rw [drop_of_getElem hx, drop_of_getElem hy]
  rw [pick_append, pick_append, hdrop, total_append, total_append]
  simp only [pick_cons, Bool.false_eq_true, if_true, if_false, nil_append, singleton_append, total_cons, hxy]

/-! ## a search through the flags -/

/-- the flags `v` lie in front of a search that stands at `s`: below `s`, or where `s` has a flag set that the
search has still to clear -/
def Ahead (s v : List Bool) : Prop :=
  s <+: v ∨ ∃ p, p ++ [true] <+: s ∧ p ++ [false] <+: v

theorem Ahead.start (v : List Bool) : Ahead [] v := .inl nil_prefix

theorem not_prefix_flip {b : Bool} (h : p ++ [b] <+: v) : ¬ p ++ [!b] <+: v := by
  obtain ⟨r, rfl⟩ := h
  rintro ⟨r', h⟩
  rw [append_assoc, append_assoc, append_cancel_left_eq] at h
  exact absurd (cons.inj h).1 (by cases b <;> decide)

theorem prefix_snoc (h : s <+: v) (hlen : s.length < v.length) : s ++ [true] <+: v ∨ s ++ [false] <+: v := by
  obtain ⟨r, rfl⟩ := h
  rcases r with _ | ⟨_ | _, r⟩
  · simp at hlen
  · exact .inr ⟨r, by simp⟩
  · exact .inl ⟨r, by simp⟩

theorem Ahead.take (h : Ahead s v) (hlen : s.length < v.length) : Ahead (s ++ [true]) v := by
  rcases h with h | ⟨p, hp, hv⟩
  · rcases prefix_snoc h hlen with h | h
    · exact .inl h
    · exact .inr ⟨s, prefix_rfl, h⟩
  · exact .inr ⟨p, hp.trans (prefix_append s _), hv⟩

theorem Ahead.skip (h : Ahead s v) (hlen : s.length < v.length) (hno : ¬ s ++ [true] <+: v) :
    Ahead (s ++ [false]) v := by
  rcases h with h | ⟨p, hp, hv⟩
  · exact .inl ((prefix_snoc h hlen).resolve_left hno)
  · exact .inr ⟨p, hp.trans (prefix_append s _), hv⟩

theorem prefix_of_snoc_false (h : p ++ [true] <+: q ++ [false]) : p ++ [true] <+: q := by
  rcases prefix_concat_iff.1 h with h | h
  · exact absurd (append_inj_right' h rfl) (by decide)
  · exact h

theorem prefix_of_falses (h : p ++ [true] <+: q ++ replicate n false) : p ++ [true] <+: q := by
  induction n with
  | zero => rwa [replicate_zero, append_nil] at h
  | succ n ih =>
    rw [replicate_succ', ← append_assoc] at h
    exact ih (prefix_of_snoc_false h)

theorem Ahead.retreat (h : Ahead (q ++ [true] ++ replicate n false) v)
    (hno : ¬ q ++ [true] ++ replicate n false <+: v) : Ahead (q ++ [false]) v := by
  obtain ⟨p, hp, hv⟩ := h.resolve_left hno
  rcases prefix_concat_iff.1 (prefix_of_falses hp) with heq | hq
  · rw [append_left_injective _ heq] at hv
    exact .inl hv
  · exact .inr ⟨p, hq.trans (prefix_append q _), hv⟩

theorem Ahead.finish (h : Ahead (replicate n false) v) (hno : ¬ replicate n false <+: v) : False := by
  obtain ⟨p, hp, -⟩ := h.resolve_left hno
  have hnil : p ++ [true] <+: [] := prefix_of_falses (by simpa using hp)
  exact absurd (prefix_nil.1 hnil) (by simp)

theorem not_ahead_of_set (h : p ++ [true] <+: v) : ¬ Ahead (p ++ [false]) v := by
  rintro (hp | ⟨q, hq, hv⟩)
  · exact not_prefix_flip h hp
  · have hpv : p <+: v := (prefix_append p _).trans h
    exact not_prefix_flip hv ((prefix_of_snoc_false hq).trans hpv)

end Subset
