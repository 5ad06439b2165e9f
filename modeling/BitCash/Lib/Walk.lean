import Mathlib.Data.List.Perm.Basic

/-!
# Walks along a list of links

`reached links start` is the work list walk: a member of the stage is taken out and marked as seen, and what it is
linked to is staged, until the stage is empty.
-/

namespace Walk
open List

variable {α : Type} [DecidableEq α] {links : List (α × α)} {start stage seen : List α} {a b : α}

/-- where the links of `a` lead -/
def targets (links : List (α × α)) (a : α) : List α := (links.filter fun p => p.1 = a).map (·.2)

/-- the rounds of the walk -/
def walk (links : List (α × α)) : Nat → List α → List α → List α
  | 0, _, seen => seen
  | _ + 1, [], seen => seen
  | n + 1, a :: stage, seen =>
    if a ∈ seen then walk links n stage seen
    else walk links n (targets links a ++ stage) (a :: seen)

def reached (links : List (α × α)) (start : List α) : List α :=
  walk links (start.length + links.length) start []

@[simp] theorem mem_targets : b ∈ targets links a ↔ (a, b) ∈ links := by
  simp [targets]

/-- the links that may still be staged -/
def unseen (links : List (α × α)) (seen : List α) : List (α × α) := links.filter fun p => p.1 ∉ seen

theorem unseen_cons (h : a ∉ seen) :
    (unseen links seen).length = (targets links a).length + (unseen links (a :: seen)).length := by
  have hsplit := (unseen links seen).length_eq_length_filter_add fun p => p.1 = a
  have hfrom : (unseen links seen).filter (fun p => p.1 = a) = links.filter fun p => p.1 = a := by
    rw [unseen, filter_filter]
    refine filter_congr fun p _ => ?_
    by_cases hp : p.1 = a <;> simp [hp, h]
  have hrest : (unseen links seen).filter (fun p => !decide (p.1 = a)) = unseen links (a :: seen) := by
    rw [unseen, unseen, filter_filter]
    refine filter_congr fun p _ => ?_
    by_cases hp : p.1 = a <;> simp [hp]
  rw [hsplit, hfrom, hrest, targets, length_map]

theorem walk_sound {Q : α → Prop} (hQ : ∀ a b, (a, b) ∈ links → Q a → Q b) (n : Nat)
    (hstage : ∀ a ∈ stage, Q a) (hseen : ∀ a ∈ seen, Q a) : ∀ a ∈ walk links n stage seen, Q a := by
  induction n generalizing stage seen with
  | zero => exact hseen
  | succ n ih =>
    cases stage with
    | nil => exact hseen
    | cons x stage =>
      have hx : Q x := hstage x mem_cons_self
      have hrest : ∀ a ∈ stage, Q a := fun a ha => hstage a (mem_cons_of_mem x ha)
      unfold walk
      split
      · exact ih hrest hseen
      · refine ih ?_ (forall_mem_cons.2 ⟨hx, hseen⟩)
        intro a ha
        rcases mem_append.1 ha with ha | ha
        · exact hQ x a (mem_targets.1 ha) hx
        · exact hrest a ha

theorem walk_closed (n : Nat) (hn : stage.length + (unseen links seen).length ≤ n)
    (hopen : ∀ a ∈ seen, ∀ b, (a, b) ∈ links → b ∈ seen ∨ b ∈ stage) :
    (∀ a ∈ stage, a ∈ walk links n stage seen) ∧ (∀ a ∈ seen, a ∈ walk links n stage seen) ∧
      ∀ a ∈ walk links n stage seen, ∀ b, (a, b) ∈ links → b ∈ walk links n stage seen := by
  induction n generalizing stage seen with
  | zero =>
    have hnil : stage = [] := length_eq_zero_iff.1 (by omega)
    subst hnil
    refine ⟨fun a ha => absurd ha not_mem_nil, fun a ha => ha, fun a ha b hb => ?_⟩
    exact (hopen a ha b hb).resolve_right not_mem_nil
  | succ n ih =>
    cases stage with
    | nil =>
      refine ⟨fun a ha => absurd ha not_mem_nil, fun a ha => ha, fun a ha b hb => ?_⟩
      exact (hopen a ha b hb).resolve_right not_mem_nil
    | cons x stage =>
      rw [length_cons] at hn
      unfold walk
      by_cases hx : x ∈ seen
      · rw [if_pos hx]
        obtain ⟨h1, h2, h3⟩ := @ih stage seen (by omega) (fun a ha b hb => by
          rcases hopen a ha b hb with h | h
          · exact .inl h
          · rcases mem_cons.1 h with rfl | h
            · exact .inl hx
            · exact .inr h)
        exact ⟨forall_mem_cons.2 ⟨h2 x hx, h1⟩, h2, h3⟩
      · rw [if_neg hx]
        rw [unseen_cons hx] at hn
        obtain ⟨h1, h2, h3⟩ := @ih (targets links x ++ stage) (x :: seen)
          (by rw [length_append]; omega) (fun a ha b hb => by
          rcases mem_cons.1 ha with rfl | ha
          · exact .inr (mem_append_left _ (mem_targets.2 hb))
          · rcases hopen a ha b hb with h | h
            · exact .inl (mem_cons_of_mem _ h)
            · rcases mem_cons.1 h with rfl | h
              · exact .inl mem_cons_self
              · exact .inr (mem_append_right _ h))
        refine ⟨forall_mem_cons.2 ⟨h2 x mem_cons_self, fun a ha => ?_⟩, fun a ha => ?_, h3⟩
        · exact h1 a (mem_append_right _ ha)
        · exact h2 a (mem_cons_of_mem _ ha)

/-- **the walk finds what can be reached** -/
theorem mem_reached : b ∈ reached links start ↔
      ∃ a ∈ start, Relation.ReflTransGen (fun x y => (x, y) ∈ links) a b := by
  have hcount : start.length + (unseen links []).length ≤ start.length + links.length :=
    Nat.add_le_add_left (length_filter_le _ _) _
  obtain ⟨hstart, -, hclosed⟩ := @walk_closed _ _ links start [] _ hcount (fun a ha => absurd ha not_mem_nil)
  constructor
  · refine walk_sound (Q := fun y => ∃ a ∈ start, Relation.ReflTransGen _ a y) ?_ _ ?_ ?_ b
    · exact fun x y hxy ⟨a, ha, hx⟩ => ⟨a, ha, hx.tail hxy⟩
    · exact fun a ha => ⟨a, ha, .refl⟩
    · exact fun a ha => absurd ha not_mem_nil
  · rintro ⟨a, ha, hab⟩
    induction hab with
    | refl => exact hstart a ha
    | tail _ hstep ih => exact hclosed _ ih _ hstep

theorem walk_nodup (n : Nat) (h : seen.Nodup) : (walk links n stage seen).Nodup := by
  induction n generalizing stage seen with
  | zero => exact h
  | succ n ih =>
    cases stage with
    | nil => exact h
    | cons x stage =>
      unfold walk
      split
      · exact ih h
      · next hx => exact ih (nodup_cons.2 ⟨hx, h⟩)

theorem reached_nodup : (reached links start).Nodup := walk_nodup _ nodup_nil

theorem start_reached (h : a ∈ start) : a ∈ reached links start := mem_reached.2 ⟨a, h, .refl⟩

end Walk
