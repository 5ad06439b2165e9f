import BitCash.Consensus.MedianTime

/-!
# Deployment states

`AbstractThresholdConditionChecker::GetStateFor` of `versionbits.cpp`.
-/

namespace BitCash
open List Function Nat Option

inductive ThresholdState where
  | DEFINED
  | STARTED
  | LOCKED_IN
  | ACTIVE
  | FAILED
  deriving DecidableEq, Repr

structure ThresholdChecker (β : Type) where
  nTime : β → Nat
  nPeriod : Nat
  nThreshold : Nat
  nTimeStart : Int
  nTimeTimeout : Int
  condition : List β → Bool
  period_pos : 0 < nPeriod

def ALWAYS_ACTIVE : Int := -1

namespace ThresholdChecker

variable {β : Type} (c : ThresholdChecker β)

def stateNext (pindexPrev : List β) : ThresholdState → ThresholdState
  | .DEFINED =>
    if c.nTimeTimeout ≤ getMedianTimePast c.nTime pindexPrev then .FAILED
    else if c.nTimeStart ≤ getMedianTimePast c.nTime pindexPrev then .STARTED
    else .DEFINED
  | .STARTED =>
    if c.nTimeTimeout ≤ getMedianTimePast c.nTime pindexPrev then .FAILED
    else if c.nThreshold ≤ (List.range c.nPeriod).countP fun i => c.condition (pindexPrev.drop i) then .LOCKED_IN
    else .STARTED
  | .LOCKED_IN => .ACTIVE
  | .FAILED => .FAILED
  | .ACTIVE => .ACTIVE

abbrev Cache (β : Type) := List β → Option ThresholdState

def stateAfter : Nat → List β → ThresholdState
  | 0, _ => .DEFINED
  | k + 1, p => c.stateNext p (stateAfter k (p.drop c.nPeriod))

def state (pindexPrev : List β) : ThresholdState :=
  if c.nTimeStart = ALWAYS_ACTIVE then .ACTIVE
  else c.stateAfter (pindexPrev.length / c.nPeriod) (pindexPrev.drop (pindexPrev.length % c.nPeriod))

section
variable [DecidableEq β]

def walkBack (cache : Cache β) : Nat → List β → List (List β) → Option (Cache β × List β × List (List β))
  | 0, _, _ => none
  | n + 1, p, vToCompute =>
    if (cache p).isSome then some (cache, p, vToCompute)
    else if p = [] then some (Function.update cache [] (some .DEFINED), [], vToCompute)
    else if getMedianTimePast c.nTime p < c.nTimeStart then
      some (Function.update cache p (some .DEFINED), p, vToCompute)
    else walkBack cache n (p.drop c.nPeriod) (p :: vToCompute)

def walkForward : List (List β) → Cache β × ThresholdState → Cache β × ThresholdState
  | [], r => r
  | p :: vToCompute, r =>
    walkForward vToCompute (Function.update r.1 p (some (c.stateNext p r.2)), c.stateNext p r.2)

/-- back to a cached block, and forward from it again -/
def getStateFor (cache : Cache β) (pindexPrev : List β) : Option (ThresholdState × Cache β) :=
  if c.nTimeStart = ALWAYS_ACTIVE then some (.ACTIVE, cache)
  else do
    let (cache, p, vToCompute) ← c.walkBack cache (pindexPrev.length + 1)
      (pindexPrev.drop (pindexPrev.length % c.nPeriod)) []
    let state ← cache p
    let r := c.walkForward vToCompute (cache, state)
    some (r.2, r.1)

inductive CacheOf (T : List β → Prop) : Cache β → Prop where
  | empty : CacheOf T fun _ => none
  | query {cache cache' : Cache β} {p : List β} {s : ThresholdState} (h : CacheOf T cache) (hp : T p)
      (hq : c.getStateFor cache p = some (s, cache')) : CacheOf T cache'

end

def ValidTimes : List β → Prop
  | [] => True
  | b :: p => ValidTimes p ∧ (p ≠ [] → getMedianTimePast c.nTime p < c.nTime b)

variable {c} {k : Nat}

theorem ValidTimes.drop {p : List β} (h : c.ValidTimes p) (k : Nat) : c.ValidTimes (p.drop k) := by
  induction k generalizing p with
  | zero => exact h
  | succ k ih =>
    cases p with
    | nil => exact h
    | cons b p => exact ih h.1

theorem ValidTimes.median_le {p : List β} (h : c.ValidTimes p) (hk : p.drop k ≠ []) :
    getMedianTimePast c.nTime (p.drop k) ≤ getMedianTimePast c.nTime p := by
  induction p generalizing k with
  | nil => exact absurd drop_nil hk
  | cons b p ih =>
    cases k with
    | zero => exact le_rfl
    | succ k =>
      have hp : p ≠ [] := by
        rintro rfl
        exact hk drop_nil
      exact (ih h.1 hk).trans (getMedianTimePast_le c.nTime hp (h.2 hp))

theorem stateAfter_early (hle : c.nTimeStart ≤ c.nTimeTimeout) {p : List β} (h : c.ValidTimes p)
    (hearly : getMedianTimePast c.nTime p < c.nTimeStart) (hlen : p.length = k * c.nPeriod) :
    c.stateAfter k p = .DEFINED := by
  induction k generalizing p with
  | zero => rfl
  | succ k ih =>
    have hdrop : (p.drop c.nPeriod).length = k * c.nPeriod := by
      rw [length_drop, hlen, succ_mul, Nat.add_sub_cancel]
    have hrest : c.stateAfter k (p.drop c.nPeriod) = .DEFINED := by
      cases k with
      | zero => rfl
      | succ k =>
        have hne : p.drop c.nPeriod ≠ [] := by
          rw [← length_pos_iff, hdrop]
          exact Nat.mul_pos k.succ_pos c.period_pos
        have := h.median_le hne
        exact ih (h.drop _) (by omega) hdrop
    rw [stateAfter, hrest, stateNext, if_neg (by omega), if_neg (by omega)]

/-! ## the cache -/

def Aligned (c : ThresholdChecker β) (p : List β) : Prop := p.length % c.nPeriod = 0

def stateAt (c : ThresholdChecker β) (p : List β) : ThresholdState := c.stateAfter (p.length / c.nPeriod) p

def SoundCache (c : ThresholdChecker β) (cache : Cache β) : Prop := ∀ p s, cache p = some s → s = c.stateAt p

theorem Aligned.length {p : List β} (h : c.Aligned p) : p.length = p.length / c.nPeriod * c.nPeriod :=
  (Nat.div_mul_cancel (dvd_of_mod_eq_zero h)).symm

theorem Aligned.drop {p : List β} (h : c.Aligned p) (hp : p ≠ []) :
    c.Aligned (p.drop c.nPeriod) ∧ c.stateAt p = c.stateNext p (c.stateAt (p.drop c.nPeriod)) ∧
      (p.drop c.nPeriod).length < p.length := by
  have hpos := length_pos_iff.2 hp
  have hle : c.nPeriod ≤ p.length := le_of_dvd hpos (dvd_of_mod_eq_zero h)
  have hdiv : p.length / c.nPeriod = (p.drop c.nPeriod).length / c.nPeriod + 1 := by
    rw [length_drop, div_eq_sub_div c.period_pos hle]
  refine ⟨?_, ?_, ?_⟩
  · rw [Aligned, length_drop, ← mod_eq_sub_mod hle]
    exact h
  · rw [stateAt, hdiv]
    rfl
  · rw [length_drop]
    have := c.period_pos
    omega

def Steps (c : ThresholdChecker β) : List (List β) → List β → Prop
  | [], _ => True
  | q :: l, p => q.drop c.nPeriod = p ∧ q ≠ [] ∧ c.Aligned q ∧ Steps c l q

variable [DecidableEq β] {cache : Cache β} {s : ThresholdState} {l : List (List β)}

theorem SoundCache.update (h : c.SoundCache cache) (p : List β) :
    c.SoundCache (update cache p (some (c.stateAt p))) := by
  intro q s hq
  by_cases hqp : q = p
  · rw [hqp, update_self] at hq
    rw [hqp, some.inj hq]
  · rw [update_of_ne hqp] at hq
    exact h q s hq

theorem walkForward_spec {p : List β} (hl : c.Steps l p) (h : c.SoundCache cache) :
    (c.walkForward l (cache, c.stateAt p)).2 = c.stateAt ((p :: l).getLast (cons_ne_nil _ _)) ∧
      c.SoundCache (c.walkForward l (cache, c.stateAt p)).1 := by
  induction l generalizing p cache with
  | nil => exact ⟨rfl, h⟩
  | cons q l ih =>
    obtain ⟨rfl, hne, hal, hl⟩ := hl
    rw [walkForward, ← (hal.drop hne).2.1, getLast_cons (cons_ne_nil _ _)]
    exact ih hl (h.update q)

section
variable (hle : c.nTimeStart ≤ c.nTimeTimeout)
include hle

theorem walkBack_spec (h : c.SoundCache cache) {n : Nat} {p : List β} (hn : p.length < n) (hp : c.ValidTimes p)
    (hal : c.Aligned p) (hl : c.Steps l p) :
    ∃ cache' q l', c.walkBack cache n p l = some (cache', q, l') ∧ c.SoundCache cache' ∧
      cache' q = some (c.stateAt q) ∧ c.Steps l' q ∧
      (q :: l').getLast (cons_ne_nil _ _) = (p :: l).getLast (cons_ne_nil _ _) := by
  induction n generalizing p l with
  | zero => cases hn
  | succ n ih =>
    have hend : ∀ q, c.stateAt q = .DEFINED → ∃ cache' q' l',
        some (update cache q (some .DEFINED), q, l) = some (cache', q', l') ∧ c.SoundCache cache' ∧
          cache' q' = some (c.stateAt q') ∧ q' = q ∧ l' = l := by
      intro q hq
      refine ⟨_, _, _, rfl, hq ▸ h.update q, ?_, rfl, rfl⟩
      rw [update_self, hq]
    unfold walkBack
    by_cases hc : (cache p).isSome = true
    · obtain ⟨s, hs⟩ := isSome_iff_exists.1 hc
      rw [if_pos hc]
      exact ⟨cache, p, l, rfl, h, by rw [hs, h p s hs], hl, rfl⟩
    · rw [if_neg hc]
      by_cases hnil : p = []
      · subst hnil
        obtain ⟨cache', q', l', heq, hs, hq, rfl, rfl⟩ := hend [] (by rw [stateAt, length_nil, Nat.zero_div]; rfl)
        rw [if_pos rfl]
        exact ⟨cache', _, _, heq, hs, hq, hl, rfl⟩
      · rw [if_neg hnil]
        by_cases hearly : (getMedianTimePast c.nTime p : Int) < c.nTimeStart
        · obtain ⟨cache', q', l', heq, hs, hq, rfl, rfl⟩ := hend p (stateAfter_early hle hp hearly hal.length)
          rw [if_pos hearly]
          exact ⟨cache', _, _, heq, hs, hq, hl, rfl⟩
        · obtain ⟨hal', -, hlt⟩ := hal.drop hnil
          rw [if_neg hearly]
          exact ih (by omega) (hp.drop _) hal' ⟨rfl, hnil, hal, hl⟩

theorem getStateFor_spec (h : c.SoundCache cache) {p : List β}
    (hp : c.ValidTimes p) : ∃ cache', c.getStateFor cache p = some (c.state p, cache') ∧ c.SoundCache cache' := by
  unfold getStateFor state
  by_cases ha : c.nTimeStart = ALWAYS_ACTIVE
  · rw [if_pos ha, if_pos ha]
    exact ⟨cache, rfl, h⟩
  · rw [if_neg ha, if_neg ha]
    have hlen : (p.drop (p.length % c.nPeriod)).length = p.length / c.nPeriod * c.nPeriod := by
      rw [length_drop]
      have := mod_add_div' p.length c.nPeriod
      omega
    have hal : c.Aligned (p.drop (p.length % c.nPeriod)) := by rw [Aligned, hlen, mul_mod_left]
    obtain ⟨cache', q, l, hwalk, hs, hq, hl, hlast⟩ := walkBack_spec hle h (n := p.length + 1) (l := [])
      (by rw [length_drop]; omega) (hp.drop _) hal trivial
    obtain ⟨hstate, hs'⟩ := walkForward_spec hl hs
    refine ⟨(c.walkForward l (cache', c.stateAt q)).1, ?_, hs'⟩
    rw [hwalk]
    show (cache' q >>= fun s => some _) = _
    rw [hq]
    show some _ = _
    rw [hstate, hlast, getLast_singleton, stateAt, hlen, Nat.mul_div_cancel _ c.period_pos]

theorem CacheOf.sound {T : List β → Prop} (hT : ∀ p, T p → c.ValidTimes p)
    (h : c.CacheOf T cache) : c.SoundCache cache := by
  induction h with
  | empty => exact fun p s hs => nomatch hs
  | query h hp hq ih =>
    obtain ⟨cache', heq, hs⟩ := getStateFor_spec hle ih (hT _ hp)
    rw [hq] at heq
    rwa [(Prod.mk.inj (some.inj heq)).2]

end

/-! ## along the chain -/

omit [DecidableEq β] in
theorem stateAfter_terminal (hs : s = .ACTIVE ∨ s = .FAILED) (m : Nat) {p : List β}
    (h : c.stateAfter k (p.drop (m * c.nPeriod)) = s) : c.stateAfter (k + m) p = s := by
  induction m generalizing p with
  | zero => simpa using h
  | succ m ih =>
    rw [succ_mul, Nat.add_comm, ← drop_drop] at h
    rw [← Nat.add_assoc, stateAfter, ih h]
    rcases hs with rfl | rfl <;> rfl

omit [DecidableEq β] in
theorem state_terminal (hs : s = .ACTIVE ∨ s = .FAILED) {p : List β} {j : Nat}
    (h : c.state (p.drop j) = s) : c.state p = s := by
  obtain ⟨i, hi, hij⟩ : ∃ i ≤ p.length, p.drop j = p.drop i := by
    by_cases hj : j ≤ p.length
    · exact ⟨j, hj, rfl⟩
    · exact ⟨p.length, le_rfl, by rw [drop_length, drop_eq_nil_of_le (by omega)]⟩
  rw [hij] at h
  unfold state at h ⊢
  by_cases ha : c.nTimeStart = ALWAYS_ACTIVE
  · rwa [if_pos ha] at h ⊢
  · rw [if_neg ha, drop_drop, length_drop] at h
    rw [if_neg ha]
    obtain ⟨m, hm⟩ := Nat.exists_eq_add_of_le (Nat.div_le_div_right (sub_le p.length i) : _ ≤ p.length / c.nPeriod)
    rw [hm]
    refine stateAfter_terminal hs m ?_
    have h1 := mod_add_div' p.length c.nPeriod
    have h2 := mod_add_div' (p.length - i) c.nPeriod
    rw [hm, Nat.add_mul] at h1
    rwa [drop_drop, show p.length % c.nPeriod + m * c.nPeriod = i + (p.length - i) % c.nPeriod by omega]

/-- **the cache does not matter**, and the state is one for a whole period and final once active or
failed -/
theorem getStateFor_eq (c : ThresholdChecker β) (hle : c.nTimeStart ≤ c.nTimeTimeout) {T : List β → Prop}
    (hT : ∀ p, T p → c.ValidTimes p) :
    (∀ cache p, c.CacheOf T cache → T p → ∃ cache', c.getStateFor cache p = some (c.state p, cache')) ∧
      (∀ p j, j ≤ p.length → (p.drop j).length / c.nPeriod = p.length / c.nPeriod → c.state (p.drop j) = c.state p) ∧
      (∀ p j s, s = .ACTIVE ∨ s = .FAILED → c.state (p.drop j) = s → c.state p = s) ∧
      ∀ p j, T p → p.drop j ≠ [] → getMedianTimePast c.nTime (p.drop j) ≤ getMedianTimePast c.nTime p := by
  refine ⟨fun cache p h hp => ?_, fun p j hj hper => ?_, fun p j s hs => state_terminal hs,
    fun p j hp => (hT p hp).median_le⟩
  · obtain ⟨cache', heq, -⟩ := getStateFor_spec hle (h.sound hle hT) (hT p hp)
    exact ⟨cache', heq⟩
  · unfold state
    have h1 := Nat.mod_add_div' p.length c.nPeriod
    have h2 := Nat.mod_add_div' (p.drop j).length c.nPeriod
    rw [hper] at h2 ⊢
    rw [length_drop] at h2 ⊢
    rw [drop_drop, show j + (p.length - j) % c.nPeriod = p.length % c.nPeriod by omega]

def signalled : ThresholdChecker Nat := ⟨id, 2, 2, 2, 100, fun _ => true, by decide⟩

theorem getStateFor_signalled :
    (∃ cache', signalled.getStateFor (fun _ => none) [7, 6, 5, 4, 3, 2, 1] = some (.ACTIVE, cache')) ∧
      signalled.state [5, 4, 3, 2, 1] = .LOCKED_IN := by
  have hcons : ∀ {b p}, signalled.ValidTimes p → getMedianTimePast id p < b → signalled.ValidTimes (b :: p) :=
    fun hp hb => ⟨hp, fun _ => hb⟩
  have hvalid : signalled.ValidTimes [7, 6, 5, 4, 3, 2, 1] := by
    repeat refine hcons ?_ (by decide)
    trivial
  have hstate : signalled.state [7, 6, 5, 4, 3, 2, 1] = .ACTIVE := by decide
  rw [← hstate]
  exact ⟨(getStateFor_eq signalled (by decide) (T := (· = [7, 6, 5, 4, 3, 2, 1])) (fun p hp => hp ▸ hvalid)).1 _ _
    .empty rfl, by decide⟩

end ThresholdChecker

end BitCash
