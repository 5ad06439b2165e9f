import Mathlib.Algebra.BigOperators.Group.Finset.Basic
import Mathlib.Algebra.Order.BigOperators.Group.Finset
import Mathlib.Data.Fintype.BigOperators
import Mathlib.Tactic.Abel

/-!
# The check queue

`CCheckQueue` of `checkqueue.h` as a transition system: a step is one critical section of a thread, the execution of
one check, or a call of `Add` by the master, which is the thread `none`.
-/

namespace BitCash.CheckQueue
open Function Finset Fintype Prod

inductive Thread (C : Type) where
  | outside
  | waiting
  | working (vChecks : List C) (nNow : Nat) (fOk : Bool)

namespace Thread
variable {C : Type}

def nNow : Thread C → Nat
  | working _ nNow _ => nNow
  | _ => 0

def fOk : Thread C → Bool
  | working _ _ fOk => fOk
  | _ => true

def pending : Thread C → Multiset C
  | working vChecks _ _ => vChecks
  | _ => 0

end Thread

structure State (C W : Type) where
  queue : List C
  nIdle : Nat
  nTotal : Nat
  fAllOk : Bool
  nTodo : Nat -- an `unsigned int`: fewer than `2 ^ 32` checks wait at a time
  threads : Option W → Thread C
  added : Multiset C
  executed : Multiset C
  skipped : Multiset C

inductive Event (C W : Type) where
  | add (vChecks : List C)
  | lock (t : Option W)
  | exec (t : Option W)

variable {C W : Type} [DecidableEq W] (check : C → Bool) (nBatchSize : Nat)

def State.start (C W : Type) : State C W := ⟨[], 0, 0, true, 0, fun _ => .outside, 0, 0, 0⟩

def State.setThread (s : State C W) (t : Option W) (x : Thread C) : State C W :=
  { s with threads := Function.update s.threads t x }

def batchSize (s : State C W) : Nat := max 1 (min nBatchSize (s.queue.length / (s.nTotal + s.nIdle + 1)))

/-- the rest of a critical section, behind the clean-up; a value is what `Wait` returns -/
def loop (t : Option W) (s : State C W) : State C W × Option Bool :=
  if s.queue = [] then
    if t = none ∧ s.nTodo = 0 then
      ({ s.setThread t .outside with nTotal := s.nTotal - 1, fAllOk := true, added := 0, executed := 0, skipped := 0 },
        some s.fAllOk)
    else ({ s.setThread t .waiting with nIdle := s.nIdle + 1 }, none)
  else ({ s.setThread t (.working (s.queue.reverse.take (batchSize nBatchSize s))
    (batchSize nBatchSize s) s.fAllOk) with
      queue := s.queue.take (s.queue.length - batchSize nBatchSize s) }, none)

def add (vChecks : List C) (s : State C W) : Option (State C W) :=
  match s.threads none with
  | .outside => some { s with
      queue := s.queue ++ vChecks, nTodo := s.nTodo + vChecks.length, added := s.added + vChecks }
  | _ => none

/-- a thread takes the lock, and accounts for its last batch -/
def cleanUp (t : Option W) (s : State C W) : Option (State C W) :=
  match s.threads t with
  | .outside => some { s with nTotal := s.nTotal + 1 }
  | .waiting => some { s with nIdle := s.nIdle - 1 }
  | .working [] nNow fOk => some { s.setThread t .outside with fAllOk := s.fAllOk && fOk, nTodo := s.nTodo - nNow }
  | .working (_ :: _) _ _ => none

def exec (t : Option W) (s : State C W) : Option (State C W) :=
  match s.threads t with
  | .working (c :: vChecks) nNow true =>
    some { s.setThread t (.working vChecks nNow (check c)) with executed := c ::ₘ s.executed }
  | .working (c :: vChecks) nNow false =>
    some { s.setThread t (.working vChecks nNow false) with skipped := c ::ₘ s.skipped }
  | _ => none

def step (s : State C W) : Event C W → Option (State C W × Option Bool)
  | .add vChecks => (add vChecks s).map (·, none)
  | .lock t => (cleanUp t s).map (loop nBatchSize t)
  | .exec t => (exec check t s).map (·, none)

inductive Reachable : State C W → Prop where
  | start : Reachable (State.start C W)
  | next {s s' : State C W} {e : Event C W} {r : Option Bool} (h : Reachable s)
      (hs : step check nBatchSize s e = some (s', r)) : Reachable s'

/-! ## the invariant -/

def Thread.Idle (x : Thread C) : Prop := x.nNow = 0 ∧ x.pending = 0 ∧ x.fOk = true

def Failed (check : C → Bool) (s : State C W) : Prop := ∃ c ∈ s.executed, check c = false

structure Inv [Fintype W] (check : C → Bool) (s : State C W) : Prop where
  todo : s.nTodo = s.queue.length + ∑ t, (s.threads t).nNow
  checks : s.added = s.queue + ∑ t, (s.threads t).pending + (s.executed + s.skipped)
  idle : ∀ t, (s.threads t).nNow = 0 → (s.threads t).Idle
  failed : (s.fAllOk = false ∨ ∃ t, (s.threads t).fOk = false) ↔ Failed check s
  skip : s.skipped ≠ 0 → Failed check s

section
variable [Fintype W] {check} {s s' : State C W} {t : Option W} {x : Thread C}

theorem sum_update {M : Type} [AddCommMonoid M] (g : Thread C → M) (th : Option W → Thread C) :
    ∑ u, g (update th t x u) + g (th t) = ∑ u, g (th u) + g x := by
  have hrest : ∑ u ∈ {t}ᶜ, g (update th t x u) = ∑ u ∈ {t}ᶜ, g (th u) := by
    refine sum_congr rfl fun u hu => ?_
    rw [mem_compl, mem_singleton] at hu
    rw [update_of_ne hu]
  rw [sum_eq_add_sum_compl t, sum_eq_add_sum_compl t (fun u => g (th u)), hrest, update_self]
  abel

omit [Fintype W] in
theorem exists_split (th : Option W → Thread C) (t : Option W) :
    (∃ u, (th u).fOk = false) ↔ (th t).fOk = false ∨ ∃ u, u ≠ t ∧ (th u).fOk = false := by
  constructor
  · rintro ⟨u, hu⟩
    by_cases hut : u = t
    · exact .inl (hut ▸ hu)
    · exact .inr ⟨u, hut, hu⟩
  · rintro (ht | ⟨u, -, hu⟩)
    · exact ⟨t, ht⟩
    · exact ⟨u, hu⟩

/-- **one thread moves**: what the other threads do is in the sums, and in `O` -/
theorem Inv.move (h : Inv check s) (hthreads : s'.threads = update s.threads t x)
    (htodo : s'.nTodo + (s.queue.length + (s.threads t).nNow) = s.nTodo + (s'.queue.length + x.nNow))
    (hchecks : s'.added + (s.queue + (s.threads t).pending + (s.executed + s.skipped)) =
      s.added + (s'.queue + x.pending + (s'.executed + s'.skipped)))
    (hidle : x.nNow = 0 → x.Idle)
    (hfailed : ∀ O : Prop, ((s.fAllOk = false ∨ (s.threads t).fOk = false ∨ O) ↔ Failed check s) →
      ((s'.fAllOk = false ∨ x.fOk = false ∨ O) ↔ Failed check s'))
    (hskip : s'.skipped ≠ 0 → Failed check s') : Inv check s' := by
  refine ⟨?_, ?_, ?_, ?_, hskip⟩
  · have hsum := sum_update (t := t) (x := x) Thread.nNow s.threads
    have := h.todo
    rw [hthreads]
    omega
  · have hsum := sum_update (t := t) (x := x) Thread.pending s.threads
    rw [h.checks] at hchecks
    refine add_right_cancel (hchecks.trans ?_)
    rw [hthreads, show (s'.queue : Multiset C) + ∑ u, (update s.threads t x u).pending +
        (s'.executed + s'.skipped) + (s.queue + (s.threads t).pending + (s.executed + s.skipped)) =
      ∑ u, (update s.threads t x u).pending + (s.threads t).pending +
        (s'.queue + (s'.executed + s'.skipped) + s.queue + (s.executed + s.skipped)) by abel, hsum]
    abel
  · intro u hu
    rw [hthreads] at hu ⊢
    by_cases hut : u = t
    · subst hut
      rw [update_self] at hu ⊢
      exact hidle hu
    · rw [update_of_ne hut] at hu ⊢
      exact h.idle u hu
  · have hold := h.failed
    rw [exists_split _ t] at hold
    rw [exists_split _ t, hthreads, update_self, ← hfailed _ hold]
    refine or_congr_right (or_congr_right (exists_congr fun u => and_congr_right fun hut => ?_))
    rw [update_of_ne hut]

omit [DecidableEq W] in
theorem Inv.of_idle (hq : s.queue = []) (h0 : s.nTodo = 0) (hidle : ∀ u, (s.threads u).Idle) (hok : s.fAllOk = true)
    (hadded : s.added = 0) (hexecuted : s.executed = 0) (hskipped : s.skipped = 0) : Inv check s := by
  refine ⟨?_, ?_, fun u _ => hidle u, ?_, fun h => absurd hskipped h⟩
  · rw [hq, h0, sum_eq_zero fun u _ => (hidle u).1]
    rfl
  · rw [hq, hadded, hexecuted, hskipped, sum_eq_zero fun u _ => (hidle u).2.1]
    rfl
  · simp [Failed, hok, hexecuted, (hidle _).2.2]

omit [DecidableEq W] in
theorem Inv.idle_of_todo (h : Inv check s) (h0 : s.nTodo = 0) (u : Option W) : (s.threads u).Idle := by
  have hsum : ∑ u, (s.threads u).nNow = 0 := by
    have := h.todo
    omega
  exact h.idle u (sum_eq_zero_iff.1 hsum u (mem_univ u))

omit [DecidableEq W] [Fintype W] in
theorem batchSize_le (h : s.queue ≠ []) : 1 ≤ batchSize nBatchSize s ∧ batchSize nBatchSize s ≤ s.queue.length := by
  have hpos := List.length_pos_iff.2 h
  have hdiv := Nat.div_le_self s.queue.length (s.nTotal + s.nIdle + 1)
  unfold batchSize
  omega

theorem Inv.loop (h : Inv check s) (ht : (s.threads t).nNow = 0) : Inv check (loop nBatchSize t s).1 := by
  obtain ⟨-, hpend, hok⟩ := h.idle t ht
  unfold CheckQueue.loop
  by_cases hq : s.queue = []
  · rw [if_pos hq]
    by_cases hret : t = none ∧ s.nTodo = 0
    · rw [if_pos hret]
      refine .of_idle hq hret.2 (fun u => ?_) rfl rfl rfl rfl
      show Thread.Idle (update s.threads t _ u)
      by_cases hut : u = t
      · rw [hut, update_self]
        exact ⟨rfl, rfl, rfl⟩
      · rw [update_of_ne hut]
        exact h.idle_of_todo hret.2 u
    · rw [if_neg hret]
      refine h.move rfl (by rw [ht]; rfl) (by rw [hpend]; rfl) (fun _ => ⟨rfl, rfl, rfl⟩) (fun O hO => ?_) h.skip
      rw [hok] at hO
      exact hO
  · rw [if_neg hq]
    obtain ⟨h1, hle⟩ := batchSize_le nBatchSize hq
    generalize batchSize nBatchSize s = k at h1 hle
    refine h.move rfl ?_ ?_ ?_ ?_ h.skip
    · show s.nTodo + _ = s.nTodo + ((s.queue.take (s.queue.length - k)).length + k)
      rw [ht, List.length_take]
      omega
    · show s.added + _ = s.added + ((s.queue.take (s.queue.length - k) : Multiset C) +
      (s.queue.reverse.take k : Multiset C) + _)
      rw [hpend, List.take_reverse, Multiset.coe_reverse, Multiset.coe_add, List.take_append_drop, add_zero]
      rfl
    · intro (hk : k = 0)
      omega
    · intro O hO
      rw [hok] at hO
      show (s.fAllOk = false ∨ s.fAllOk = false ∨ O) ↔ Failed check s
      rw [← hO]
      simp

theorem Inv.add (h : Inv check s) {vChecks : List C} (hs : add vChecks s = some s') : Inv check s' := by
  unfold CheckQueue.add at hs
  split at hs
  · next hout =>
    obtain rfl := Option.some.inj hs
    refine h.move (t := none) (x := .outside) ?_ ?_ ?_ (fun _ => ⟨rfl, rfl, rfl⟩) ?_ h.skip
    · rw [← hout, update_eq_self]
    · rw [hout, List.length_append]
      show s.nTodo + vChecks.length + (s.queue.length + 0) = s.nTodo + (s.queue.length + vChecks.length + 0)
      omega
    · rw [hout, ← Multiset.coe_add]
      show s.added + vChecks + (s.queue + 0 + _) = s.added + (s.queue + vChecks + 0 + _)
      abel
    · intro O hO
      rw [hout] at hO
      exact hO
  · cases hs

theorem Inv.cleanUp (h : Inv check s) (hs : cleanUp t s = some s') : Inv check s' ∧ (s'.threads t).nNow = 0 ∧
    s'.added = s.added ∧ s'.executed = s.executed ∧ s'.skipped = s.skipped := by
  unfold CheckQueue.cleanUp at hs
  split at hs
  · next hout =>
    obtain rfl := Option.some.inj hs
    exact ⟨⟨h.todo, h.checks, h.idle, h.failed, h.skip⟩, congrArg Thread.nNow hout, rfl, rfl, rfl⟩
  · next hwait =>
    obtain rfl := Option.some.inj hs
    exact ⟨⟨h.todo, h.checks, h.idle, h.failed, h.skip⟩, congrArg Thread.nNow hwait, rfl, rfl, rfl⟩
  · next nNow fOk hwork =>
    obtain rfl := Option.some.inj hs
    refine ⟨h.move (t := t) rfl ?_ ?_ (fun _ => ⟨rfl, rfl, rfl⟩) ?_ h.skip,
      congrArg Thread.nNow (update_self t _ s.threads),
      rfl, rfl, rfl⟩
    · have hle : (s.threads t).nNow ≤ ∑ u, (s.threads u).nNow :=
        single_le_sum (f := fun u => (s.threads u).nNow) (fun _ _ => Nat.zero_le _) (mem_univ t)
      have := h.todo
      rw [hwork] at hle ⊢
      show s.nTodo - nNow + (s.queue.length + nNow) = s.nTodo + (s.queue.length + 0)
      replace hle : nNow ≤ _ := hle
      omega
    · rw [hwork]
      rfl
    · intro O hO
      rw [hwork] at hO
      show ((s.fAllOk && fOk) = false ∨ true = false ∨ O) ↔ Failed check s
      rw [← hO, Bool.and_eq_false_iff]
      show (_ ∨ fOk = false) ∨ _ ↔ _ ∨ fOk = false ∨ O
      simp [or_assoc]
  · cases hs

theorem Inv.exec (h : Inv check s) (hs : exec check t s = some s') : Inv check s' := by
  have hbusy : ∀ {c : C} {vChecks : List C} {nNow : Nat} {fOk : Bool}, s.threads t = .working (c :: vChecks) nNow fOk →
      nNow ≠ 0 := by
    intro c vChecks nNow fOk hwork h0
    have hpend := (h.idle t (by rw [hwork]; exact h0)).2.1
    rw [hwork] at hpend
    simp [Thread.pending] at hpend
  unfold CheckQueue.exec at hs
  split at hs
  · next c vChecks nNow hwork =>
    obtain rfl := Option.some.inj hs
    have hfailed : (∃ d ∈ c ::ₘ s.executed, check d = false) ↔ check c = false ∨ Failed check s := by
      simp [Failed]
    refine h.move (t := t) rfl (by rw [hwork]; rfl) ?_ (fun h0 => absurd h0 (hbusy hwork)) ?_ ?_
    · rw [hwork]
      show s.added + (s.queue + ((c :: vChecks : List C) : Multiset C) + _) =
        s.added + (s.queue + vChecks + (c ::ₘ _ + _))
      rw [← Multiset.cons_coe, ← Multiset.singleton_add, ← Multiset.singleton_add]
      abel
    · intro O hO
      rw [hwork] at hO
      refine Iff.trans ?_ hfailed.symm
      rw [← hO]
      show s.fAllOk = false ∨ check c = false ∨ O ↔ check c = false ∨ s.fAllOk = false ∨ true = false ∨ O
      simp [or_left_comm]
    · exact fun hne => hfailed.2 (.inr (h.skip hne))
  · next c vChecks nNow hwork =>
    obtain rfl := Option.some.inj hs
    refine h.move (t := t) rfl (by rw [hwork]; rfl) ?_ (fun h0 => absurd h0 (hbusy hwork)) ?_ ?_
    · rw [hwork]
      show s.added + (s.queue + ((c :: vChecks : List C) : Multiset C) + _) =
        s.added + (s.queue + vChecks + (s.executed + c ::ₘ s.skipped))
      rw [← Multiset.cons_coe, ← Multiset.singleton_add, ← Multiset.singleton_add]
      abel
    · intro O hO
      rw [hwork] at hO
      exact hO
    · exact fun _ => h.failed.1 (.inr ⟨t, by rw [hwork]; rfl⟩)
  · cases hs

theorem Reachable.inv (h : Reachable check nBatchSize s) : Inv check s := by
  induction h with
  | start => exact .of_idle rfl rfl (fun _ => ⟨rfl, rfl, rfl⟩) rfl rfl rfl rfl
  | @next s s' e r _ hs ih =>
    cases e with
    | add vChecks =>
      obtain ⟨u, hu, heq⟩ := Option.map_eq_some_iff.1 hs
      exact (mk.inj heq).1 ▸ ih.add hu
    | lock t =>
      obtain ⟨u, hu, heq⟩ := Option.map_eq_some_iff.1 hs
      obtain ⟨hinv, h0, -⟩ := ih.cleanUp hu
      have hloop := hinv.loop nBatchSize h0
      rwa [heq] at hloop
    | exec t =>
      obtain ⟨u, hu, heq⟩ := Option.map_eq_some_iff.1 hs
      exact (mk.inj heq).1 ▸ ih.exec hu

omit [Fintype W] in
theorem loop_returns {fRet : Bool} (h : loop nBatchSize t s = (s', some fRet)) :
    s.queue = [] ∧ s.nTodo = 0 ∧ fRet = s.fAllOk ∧ s'.queue = [] ∧ s'.nTodo = 0 ∧
      s'.fAllOk = true ∧ s'.added = 0 := by
  unfold CheckQueue.loop at h
  split at h
  · next hq =>
    split at h
    · next hret =>
      obtain ⟨rfl, hr⟩ := mk.inj h
      exact ⟨hq, hret.2, (Option.some.inj hr).symm, hq, hret.2, rfl, rfl⟩
    · cases (mk.inj h).2
  · cases (mk.inj h).2

end

/-- **`Wait` returns the conjunction of the checks** that were added since its last return, none is lost, and nothing is
left for the next call -/
theorem wait_returns [Fintype W] {s s' : State C W} {e : Event C W} {fRet : Bool} (h : Reachable check nBatchSize s)
    (hs : step check nBatchSize s e = some (s', some fRet)) :
    (fRet = true ↔ ∀ c ∈ s.added, check c = true) ∧ s.added = s.executed + s.skipped ∧
      (s.skipped ≠ 0 → ∃ c ∈ s.executed, check c = false) ∧
      s'.nTodo = 0 ∧ s'.queue = [] ∧ s'.fAllOk = true ∧ s'.added = 0 := by
  cases e with
  | add vChecks =>
    obtain ⟨u, -, heq⟩ := Option.map_eq_some_iff.1 hs
    cases (Prod.mk.inj heq).2
  | exec t =>
    obtain ⟨u, -, heq⟩ := Option.map_eq_some_iff.1 hs
    cases (Prod.mk.inj heq).2
  | lock t =>
    obtain ⟨u, hu, heq⟩ := Option.map_eq_some_iff.1 hs
    obtain ⟨hinv, -, hadded, hexecuted, hskipped⟩ := h.inv.cleanUp hu
    obtain ⟨hq, h0, rfl, hq', h0', hok', hadded'⟩ := loop_returns nBatchSize heq
    have hidle := hinv.idle_of_todo h0
    have hall : s.added = s.executed + s.skipped := by
      rw [← hadded, ← hexecuted, ← hskipped, hinv.checks, hq, Finset.sum_eq_zero fun v _ => (hidle v).2.1]
      simp
    have hskip : s.skipped ≠ 0 → ∃ c ∈ s.executed, check c = false := by
      rw [← hskipped, ← hexecuted]
      exact hinv.skip
    have hfail : u.fAllOk = false ↔ ∃ c ∈ s.executed, check c = false := by
      rw [← hexecuted]
      show _ ↔ Failed check u
      rw [← hinv.failed, or_iff_left]
      rintro ⟨v, hv⟩
      rw [(hidle v).2.2] at hv
      cases hv
    refine ⟨?_, hall, hskip, h0', hq', hok', hadded'⟩
    constructor
    · intro htrue c hc
      have hno : ¬ ∃ c ∈ s.executed, check c = false := by
        rw [← hfail, htrue]
        decide
      have hnone : s.skipped = 0 := by
        by_contra hne
        exact hno (hskip hne)
      rw [hall, hnone, add_zero] at hc
      by_contra hf
      exact hno ⟨c, hc, Bool.eq_false_of_not_eq_true hf⟩
    · intro htrue
      by_contra hf
      obtain ⟨c, hc, hcf⟩ := hfail.1 (Bool.eq_false_of_not_eq_true hf)
      rw [htrue c (hall ▸ Multiset.mem_add.2 (.inl hc))] at hcf
      cases hcf

/-- a worker takes the check that fails, and the master the other one -/
theorem wait_returns_false : ∃ s s' : State Bool (Fin 1), Reachable id 128 s ∧
    step id 128 s (.lock none) = some (s', some false) ∧ (false = true ↔ ∀ c ∈ s.added, id c = true) := by
  have h0 : Reachable id 128 (State.start Bool (Fin 1)) := .start
  have h1 := h0.next (e := .add [true, false]) rfl
  have h2 := h1.next (e := .lock (some 0)) rfl
  have h3 := h2.next (e := .lock none) rfl
  have h4 := h3.next (e := .exec none) rfl
  have h5 := h4.next (e := .exec (some 0)) rfl
  have h6 := h5.next (e := .lock (some 0)) rfl
  exact ⟨_, _, h6, rfl, (wait_returns id 128 h6 (e := .lock none) rfl).1⟩

end BitCash.CheckQueue
