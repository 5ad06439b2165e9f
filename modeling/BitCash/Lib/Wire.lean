import Mathlib.Data.List.Basic

/-!
# Bytes on the wire
-/

namespace Wire
open List

variable {α β : Type} {l : List α}

/-- a number in a fixed number of bytes, lowest first -/
def le : Nat → Nat → List UInt8
  | 0, _ => []
  | n + 1, x => UInt8.ofNat (x % 256) :: le n (x / 256)

@[simp] theorem length_le (n x : Nat) : (le n x).length = n := by
  induction n generalizing x with
  | zero => rfl
  | succ n ih => rw [le, length_cons, ih]

theorem flatMap_inj {f g : α → List β}
    (hlen : ∀ a ∈ l, (f a).length = (g a).length) (h : l.flatMap f = l.flatMap g) : ∀ a ∈ l, f a = g a := by
  induction l with
  | nil => exact fun a ha => (nomatch ha)
  | cons b l ih =>
    rw [flatMap_cons, flatMap_cons] at h
    obtain ⟨hb, hl⟩ := append_inj h (hlen b mem_cons_self)
    intro a ha
    rcases mem_cons.1 ha with rfl | ha
    · exact hb
    · exact ih (fun a ha => hlen a (mem_cons_of_mem b ha)) hl a ha

theorem flatMap_congr_iff {f g : α → List β} (hlen : ∀ a ∈ l, (f a).length = (g a).length) :
    l.flatMap f = l.flatMap g ↔ ∀ a ∈ l, f a = g a := by
  constructor
  · exact flatMap_inj hlen
  · intro h
    rw [flatMap, flatMap, map_congr_left h]

theorem flatMap_shorter {f g : α → List β} {l : List α} (h : ∀ a ∈ l, (f a).length < (g a).length) :
    (l.flatMap f).length + l.length ≤ (l.flatMap g).length := by
  induction l with
  | nil => exact Nat.le_refl 0
  | cons a l ih =>
    have ha := h a mem_cons_self
    have hl := ih fun b hb => h b (mem_cons_of_mem a hb)
    simp only [flatMap_cons, length_append, length_cons]
    omega

/-- **unique parsing**: a part whose bytes all have a property, followed by one that starts with a byte
without it -/
theorem append_inj_of_all {p : α → Bool} {l' m m' : List α} (hl : l.all p)
    (hl' : l'.all p) (hm : m.head?.all fun a => !p a) (hm' : m'.head?.all fun a => !p a)
    (h : l ++ m = l' ++ m') : l = l' ∧ m = m' := by
  have hstop : ∀ x : List α, (x.head?.all fun a => !p a) = true → x.takeWhile p = [] := by
    intro x hx
    cases x with
    | nil => rfl
    | cons a x =>
      have ha : p a = false := by simpa using hx
      exact takeWhile_cons_of_neg (by simp [ha])
  have htake : ∀ x y : List α, x.all p = true → (y.head?.all fun a => !p a) = true → (x ++ y).takeWhile p = x := by
    intro x y hx hy
    rw [takeWhile_append_of_pos (all_eq_true.1 hx), hstop y hy, append_nil]
  have heq : l = l' := by
    rw [← htake l m hl hm, h, htake l' m' hl' hm']
  subst heq
  exact ⟨rfl, append_cancel_left h⟩

end Wire
