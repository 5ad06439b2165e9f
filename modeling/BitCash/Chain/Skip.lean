import Mathlib.Data.Nat.Init
import Mathlib.Logic.Function.Basic

/-!
# Skip pointers

`CBlockIndex::GetAncestor` and `BuildSkip`. An entry is a name, and `index` gives its links. A failed assertion is
`none`, and `some none` is the null pointer.
-/

namespace BitCash.Skip
open Function

structure Links (I : Type) where
  pprev : Option I
  pskip : Option I
  nHeight : Nat

def invertLowestOne (n : Nat) : Nat := n &&& (n - 1)

def getSkipHeight (height : Nat) : Nat :=
  if height < 2 then 0
  else if height &&& 1 ≠ 0 then invertLowestOne (invertLowestOne (height - 1)) + 1
  else invertLowestOne height

theorem invertLowestOne_le (n : Nat) : invertLowestOne n ≤ n - 1 := Nat.and_le_right

variable {height : Nat}

theorem getSkipHeight_lt (h : 0 < height) : getSkipHeight height < height := by
  unfold getSkipHeight
  split
  · exact h
  · split
    · have h1 := invertLowestOne_le (height - 1)
      have h2 := invertLowestOne_le (invertLowestOne (height - 1))
      omega
    · have := invertLowestOne_le height
      omega

/-- whether the skip pointer at `heightWalk` is a good step -/
def skips (height heightWalk : Nat) : Bool :=
  let heightSkip := getSkipHeight heightWalk
  let heightSkipPrev := getSkipHeight (heightWalk - 1)
  decide (heightSkip = height ∨ height < heightSkip ∧
    ¬((heightSkipPrev : Int) < (heightSkip : Int) - 2 ∧ height ≤ heightSkipPrev))

variable {I : Type}

def walk (index : I → Links I) (height : Nat) (pindexWalk : I) (heightWalk : Nat) : Option I :=
  if height < heightWalk then
    match (index pindexWalk).pskip, skips height heightWalk with
    | some pskip, true => walk index height pskip (getSkipHeight heightWalk)
    | _, _ =>
      match (index pindexWalk).pprev with
      | none => none
      | some pprev => walk index height pprev (heightWalk - 1)
  else some pindexWalk
termination_by heightWalk
decreasing_by
  · exact getSkipHeight_lt (by omega)
  · omega

def getAncestor (index : I → Links I) (this : I) (height : Int) : Option (Option I) :=
  if (index this).nHeight < height ∨ height < 0 then some none
  else (walk index height.toNat this (index this).nHeight).map some

def buildSkip [DecidableEq I] (index : I → Links I) (this : I) : Option (I → Links I) :=
  match (index this).pprev with
  | none => some index
  | some pprev => do
    let pskip ← getAncestor index pprev (getSkipHeight (index this).nHeight)
    some (Function.update index this { index this with pskip })

/-! ## ancestors -/

/-- `pprev`, followed `k` times -/
def back (index : I → Links I) : Nat → I → Option I
  | 0, i => some i
  | k + 1, i => (index i).pprev.bind (back index k)

structure Tree (index : I → Links I) : Prop where
  root : ∀ i, (index i).pprev = none → (index i).nHeight = 0
  next : ∀ i p, (index i).pprev = some p → (index i).nHeight = (index p).nHeight + 1

/-- a skip pointer is null, or the ancestor at the skip height -/
def Skips (index : I → Links I) : Prop :=
  ∀ i j, (index i).pskip = some j → back index ((index i).nHeight - getSkipHeight (index i).nHeight) i = some j

variable {index : I → Links I} {i : I}

theorem back_add (k l : Nat) (i : I) : back index (k + l) i = (back index k i).bind (back index l) := by
  induction k generalizing i with
  | zero => rw [Nat.zero_add]; rfl
  | succ k ih =>
    rw [Nat.succ_add, back, back]
    cases (index i).pprev with
    | none => rfl
    | some p => exact ih p

theorem Tree.nHeight_back (h : Tree index) {k : Nat} {j : I} (hb : back index k i = some j) :
    (index i).nHeight = (index j).nHeight + k := by
  induction k generalizing i with
  | zero =>
    cases hb
    rfl
  | succ k ih =>
    obtain ⟨p, hp, hb⟩ := Option.bind_eq_some_iff.1 hb
    rw [h.next i p hp, ih hb, Nat.add_assoc]

theorem Tree.walk_eq (h : Tree index) (hs : Skips index) (n : Nat) (hn : (index i).nHeight = n) (hi : height ≤ n) :
    ∃ j, walk index height i n = some j ∧ back index (n - height) i = some j := by
  induction n using Nat.strong_induction_on generalizing i with
  | _ n ih =>
    unfold walk
    split
    · next hlt =>
      split
      · next j hj hskip =>
        have hback := hs i j hj
        rw [hn] at hback
        have hj' := h.nHeight_back hback
        have hsl := getSkipHeight_lt (show 0 < n by omega)
        have hle : height ≤ getSkipHeight n := by
          have hcond := of_decide_eq_true hskip
          omega
        obtain ⟨a, hwalk, ha⟩ := ih _ hsl (i := j) (by omega) hle
        refine ⟨a, hwalk, ?_⟩
        rw [show n - height = (n - getSkipHeight n) + (getSkipHeight n - height) by omega, back_add, hback]
        exact ha
      · cases hp : (index i).pprev with
        | none =>
          have := h.root i hp
          omega
        | some p =>
          have hp' := h.next i p hp
          obtain ⟨a, hwalk, ha⟩ := ih (n - 1) (by omega) (i := p) (by omega) (by omega)
          refine ⟨a, hwalk, ?_⟩
          rw [show n - height = (n - 1 - height) + 1 by omega, back, hp]
          exact ha
    · next hge =>
      refine ⟨i, rfl, ?_⟩
      rw [show n - height = 0 by omega]
      rfl

theorem Tree.getAncestor_eq (h : Tree index) (hs : Skips index) (hi : height ≤ (index i).nHeight) :
    ∃ j, getAncestor index i height = some (some j) ∧ back index ((index i).nHeight - height) i = some j := by
  obtain ⟨j, hwalk, hb⟩ := h.walk_eq hs _ rfl hi
  refine ⟨j, ?_, hb⟩
  rw [getAncestor, if_neg (by omega), Int.toNat_natCast, hwalk]
  rfl

/-! ## building the pointers -/

/-- the same tree, with other skip pointers -/
def SameTree (index built : I → Links I) : Prop :=
  ∀ i, (built i).pprev = (index i).pprev ∧ (built i).nHeight = (index i).nHeight

variable {built : I → Links I}

theorem SameTree.back (h : SameTree index built) (k : Nat) (i : I) : back built k i = back index k i := by
  induction k generalizing i with
  | zero => rfl
  | succ k ih =>
    rw [Skip.back, Skip.back, (h i).1]
    exact congrArg _ (funext ih)

theorem SameTree.tree (h : SameTree index built) (ht : Tree index) : Tree built := by
  refine ⟨fun i hi => ?_, fun i p hp => ?_⟩
  · rw [(h i).2]
    exact ht.root i ((h i).1 ▸ hi)
  · rw [(h i).2, (h p).2]
    exact ht.next i p ((h i).1 ▸ hp)

theorem Tree.buildSkip [DecidableEq I] (h : Tree index) (hs : Skips index) (i : I) :
    ∃ built, buildSkip index i = some built ∧ SameTree index built ∧ Skips built := by
  unfold Skip.buildSkip
  cases hp : (index i).pprev with
  | none => exact ⟨index, rfl, fun _ => ⟨rfl, rfl⟩, hs⟩
  | some p =>
    have hheight := h.next i p hp
    have hlt : getSkipHeight (index i).nHeight < (index i).nHeight := getSkipHeight_lt (by omega)
    have hle : getSkipHeight (index i).nHeight ≤ (index p).nHeight := by omega
    obtain ⟨j, hj, hb⟩ := h.getAncestor_eq hs hle
    have hsame : SameTree index (update index i { index i with pskip := some j }) := by
      intro k
      by_cases hk : k = i
      · subst hk
        simp
      · simp [hk]
    refine ⟨_, by dsimp only; rw [hj]; rfl, hsame, fun k a hk => ?_⟩
    rw [hsame.back, (hsame k).2]
    by_cases hki : k = i
    · subst hki
      rw [update_self] at hk
      cases hk
      rw [show (index k).nHeight - getSkipHeight (index k).nHeight =
        ((index p).nHeight - getSkipHeight (index k).nHeight) + 1 by omega, back, hp]
      exact hb
    · rw [update_of_ne hki] at hk
      exact hs k a hk

/-- **skip pointers find true ancestors**: wherever `BuildSkip` ran, and where it did not -/
theorem getAncestor_back [DecidableEq I] (h : Tree index) (order : List I) :
    ∃ built, order.foldlM buildSkip (fun i => { index i with pskip := none }) = some built ∧
      ∀ i (height : Nat), height ≤ (index i).nHeight → ∃ j, getAncestor built i height = some (some j) ∧
        back index ((index i).nHeight - height) i = some j := by
  have hrun : ∀ start, SameTree index start → Skips start →
      ∃ built, order.foldlM buildSkip start = some built ∧ SameTree index built ∧ Skips built := by
    induction order with
    | nil => exact fun start hsame hs => ⟨start, rfl, hsame, hs⟩
    | cons i order ih =>
      intro start hsame hs
      obtain ⟨next, hnext, hsame', hs'⟩ := (hsame.tree h).buildSkip hs i
      obtain ⟨built, hbuilt, hb⟩ := ih next
        (fun k => ⟨(hsame' k).1.trans (hsame k).1, (hsame' k).2.trans (hsame k).2⟩) hs'
      exact ⟨built, by rw [List.foldlM_cons, hnext]; exact hbuilt, hb⟩
  obtain ⟨built, hbuilt, hsame, hs⟩ := hrun (fun i => { index i with pskip := none })
    (fun _ => ⟨rfl, rfl⟩) fun _ _ hj => nomatch hj
  refine ⟨built, hbuilt, fun i height hi => ?_⟩
  rw [← (hsame i).2] at hi ⊢
  obtain ⟨j, hj, hb⟩ := (hsame.tree h).getAncestor_eq hs hi
  exact ⟨j, hj, hsame.back _ i ▸ hb⟩

theorem getAncestor_back_five : Tree (fun i : Nat => ⟨if i = 0 then none else some (i - 1), none, i⟩) ∧
      ∃ built j, [0, 1, 2, 3, 4, 5].foldlM buildSkip
        (fun i : Nat => ⟨if i = 0 then none else some (i - 1), none, i⟩) = some built ∧
        getAncestor built 5 1 = some (some j) := by
  have h : Tree (fun i : Nat => ⟨if i = 0 then none else some (i - 1), none, i⟩) := by
    refine ⟨fun i hi => ?_, fun i p hp => ?_⟩
    · by_contra hne
      rw [if_neg hne] at hi
      cases hi
    · dsimp only at hp ⊢
      split at hp
      · cases hp
      · cases hp
        omega
  obtain ⟨built, hbuilt, hfind⟩ := getAncestor_back h [0, 1, 2, 3, 4, 5]
  obtain ⟨j, hj, -⟩ := hfind 5 1 (by decide)
  exact ⟨h, built, j, hbuilt, hj⟩

end BitCash.Skip
