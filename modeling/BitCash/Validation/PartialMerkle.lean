import BitCash.Validation.MerkleBranch

/-!
# Partial merkle trees

`CPartialMerkleTree` of `merkleblock.cpp`: a depth-first list of flags, and the hashes of the subtrees below which
nothing was matched.
-/

variable {pos height top : Nat}

namespace BitCash
open List Merkle Function Nat

variable {α : Type} (f : α → α → α)

def MIN_TRANSACTION_WEIGHT : Nat := WITNESS_SCALE_FACTOR * 60

structure CPartialMerkleTree (α : Type) where
  nTransactions : Nat
  vBits : List Bool
  vHash : List α
  fBad : Bool

def matchedAt (nTransactions : Nat) (vMatch : List Bool) (p : Nat) : Bool :=
  decide (p < nTransactions) && vMatch.getD p false

def parentOfMatch (nTransactions : Nat) (vMatch : List Bool) (height pos : Nat) : Bool :=
  (List.range' (pos * 2 ^ height) (2 ^ height)).any (matchedAt nTransactions vMatch)

def traverseAndBuild (vTxid : List α) (vMatch : List Bool) : Nat → Nat → Option (List Bool × List α)
  | 0, pos => do
    let hash ← calcHash f vTxid 0 pos
    return ([parentOfMatch vTxid.length vMatch 0 pos], [hash])
  | height + 1, pos =>
    if parentOfMatch vTxid.length vMatch (height + 1) pos then do
      let left ← traverseAndBuild vTxid vMatch height (pos * 2)
      let right ← if pos * 2 + 1 < calcTreeWidth vTxid.length height then
          traverseAndBuild vTxid vMatch height (pos * 2 + 1)
        else some ([], [])
      return (true :: (left.1 ++ right.1), left.2 ++ right.2)
    else do
      let hash ← calcHash f vTxid (height + 1) pos
      return ([false], [hash])

def CPartialMerkleTree.build (vTxid : List α) (vMatch : List Bool) : Option (CPartialMerkleTree α) := do
  let height ← BitCash.nHeight vTxid.length 32 0
  let (vBits, vHash) ← traverseAndBuild f vTxid vMatch height 0
  return ⟨vTxid.length, vBits, vHash, false⟩

structure ExtractState (α : Type) where
  bits : List Bool
  hashes : List α
  fBad : Bool
  vMatch : List α
  vnIndex : List Nat

section
variable [Inhabited α]

def ExtractState.bad (s : ExtractState α) : α × ExtractState α := (default, { s with fBad := true })

def ExtractState.useHash (matched : Bool) (pos : Nat) (s : ExtractState α) : α × ExtractState α :=
  match s.hashes with
  | [] => s.bad
  | hash :: hashes => (hash, if matched then
      { s with hashes := hashes, vMatch := s.vMatch ++ [hash], vnIndex := s.vnIndex ++ [pos] }
    else { s with hashes := hashes })

variable [DecidableEq α]

def traverseAndExtract (nTransactions : Nat) : Nat → Nat → ExtractState α → α × ExtractState α
  | 0, pos, s =>
    match s.bits with
    | [] => s.bad
    | fParentOfMatch :: bits => { s with bits := bits }.useHash fParentOfMatch pos
  | height + 1, pos, s =>
    match s.bits with
    | [] => s.bad
    | false :: bits => { s with bits := bits }.useHash false pos
    | true :: bits =>
      let (left, s) := traverseAndExtract nTransactions height (pos * 2) { s with bits := bits }
      if pos * 2 + 1 < calcTreeWidth nTransactions height then
        let (right, s) := traverseAndExtract nTransactions height (pos * 2 + 1) s
        (f left right, if right = left then { s with fBad := true } else s)
      else (f left left, s)

theorem traverseAndExtract_true (n height pos : Nat) (bits : List Bool) (hashes : List α) (fBad : Bool)
    (vMatch : List α) (vnIndex : List Nat) :
    traverseAndExtract f n (height + 1) pos ⟨true :: bits, hashes, fBad, vMatch, vnIndex⟩ =
      let l := traverseAndExtract f n height (pos * 2) ⟨bits, hashes, fBad, vMatch, vnIndex⟩
      if pos * 2 + 1 < calcTreeWidth n height then
        let r := traverseAndExtract f n height (pos * 2 + 1) l.2
        (f l.1 r.1, if r.1 = l.1 then { r.2 with fBad := true } else r.2)
      else (f l.1 l.1, l.2) := rfl

/-- the root or the null hash, and what is in `vMatch` and `vnIndex` afterwards: a failure does not clear them -/
def extractMatches (t : CPartialMerkleTree α) : Option (α × List α × List Nat) :=
  if t.nTransactions = 0 then some (default, [], [])
  else if MAX_BLOCK_WEIGHT / MIN_TRANSACTION_WEIGHT < t.nTransactions then some (default, [], [])
  else if t.nTransactions < t.vHash.length then some (default, [], [])
  else if t.vBits.length < t.vHash.length then some (default, [], [])
  else do
    let height ← nHeight t.nTransactions 32 0
    let (root, s) := traverseAndExtract f t.nTransactions height 0 ⟨t.vBits, t.vHash, t.fBad, [], []⟩
    if s.fBad then some (default, s.vMatch, s.vnIndex)
    else if (t.vBits.length - s.bits.length + 7) / 8 ≠ (t.vBits.length + 7) / 8 then some (default, s.vMatch, s.vnIndex)
    else if s.hashes ≠ [] then some (default, s.vMatch, s.vnIndex)
    else some (root, s.vMatch, s.vnIndex)

end

/-! ## what is extracted is in the list -/

section Sound
variable [Inhabited α] {f} {vTxid : List α} {s : ExtractState α}

def Genuine (vTxid : List α) (s : ExtractState α) : Prop :=
  List.Forall₂ (fun x i => vTxid[i]? = some x) s.vMatch s.vnIndex

theorem Genuine.useHash (h : Genuine vTxid s) {matched : Bool}
    (hv : matched → vTxid[pos]? = some (s.useHash matched pos).1) : Genuine vTxid (s.useHash matched pos).2 := by
  unfold ExtractState.useHash at hv ⊢
  cases hs : s.hashes with
  | nil => exact h
  | cons hash hashes =>
    rw [hs] at hv
    cases matched with
    | false => exact h
    | true => exact rel_append h (.cons (hv rfl) .nil)

theorem traverseAndExtract_genuine [DecidableEq α] (hf : Merkle.PairInj f) (height : Nat)
    (hv : ((pairUp f)^[height] vTxid)[pos]? = some (traverseAndExtract f vTxid.length height pos s).1)
    (h : Genuine vTxid s) : Genuine vTxid (traverseAndExtract f vTxid.length height pos s).2 := by
  induction height generalizing pos s with
  | zero =>
    unfold traverseAndExtract at hv ⊢
    cases hb : s.bits with
    | nil => exact h
    | cons b bits =>
      rw [hb] at hv
      exact Genuine.useHash (s := { s with bits := bits }) h fun _ => hv
  | succ height ih =>
    unfold traverseAndExtract at hv ⊢
    cases hb : s.bits with
    | nil => exact h
    | cons b bits =>
      cases b with
      | false => exact Genuine.useHash (s := { s with bits := bits }) h nofun
      | true =>
        rw [hb, iterate_succ_apply', getElem?_pairUp, Option.map_eq_some_iff] at hv
        obtain ⟨a, ha, hv⟩ := hv
        rw [Nat.mul_comm] at ha
        dsimp only at hv ⊢
        by_cases hlt : pos * 2 + 1 < calcTreeWidth vTxid.length height
        · rw [if_pos hlt] at hv ⊢
          obtain ⟨hleft, hright⟩ := hf hv
          have hb' : ((pairUp f)^[height] vTxid)[pos * 2 + 1]? =
              some (traverseAndExtract f vTxid.length height (pos * 2 + 1)
                (traverseAndExtract f vTxid.length height (pos * 2) { s with bits := bits }).2).1 := by
            rw [calcTreeWidth, ← length_iterate_pairUp f] at hlt
            rw [← hright, Nat.mul_comm 2 pos, getElem?_eq_getElem hlt, Option.getD_some]
          have hend := ih hb' (ih (hleft ▸ ha) h)
          split
          · exact hend
          · exact hend
        · rw [if_neg hlt] at hv ⊢
          exact ih ((hf hv).1 ▸ ha) h

end Sound

/-! ## what was matched is extracted -/

section Complete
variable [Inhabited α] {f} {vTxid : List α} {vMatch : List Bool}

def matchedIn (vTxid : List α) (vMatch : List Bool) (height pos : Nat) : List Nat :=
  (List.range' (pos * 2 ^ height) (2 ^ height)).filter (matchedAt vTxid.length vMatch)

omit [Inhabited α] in
theorem matchedIn_succ (height pos : Nat) : matchedIn vTxid vMatch (height + 1) pos =
    matchedIn vTxid vMatch height (pos * 2) ++ matchedIn vTxid vMatch height (pos * 2 + 1) := by
  rw [matchedIn, matchedIn, matchedIn, ← filter_append]
  congr 1
  rw [succ_mul, range'_append_1, ← Nat.two_mul, Nat.pow_succ', Nat.mul_assoc]

omit [Inhabited α] in
theorem matchedIn_beyond (h : calcTreeWidth vTxid.length height ≤ pos) : matchedIn vTxid vMatch height pos = [] := by
  have hpos := Nat.two_pow_pos height
  have hle : vTxid.length ≤ pos * 2 ^ height := by
    have := (Nat.div_lt_iff_lt_mul hpos).1 (lt_succ_of_le h)
    rw [succ_mul] at this
    omega
  rw [matchedIn, filter_eq_nil_iff]
  intro p hp
  have := (mem_range'_1.1 hp).1
  simp [matchedAt]
  omega

omit [Inhabited α] in
theorem matchedIn_of_parent (h : parentOfMatch vTxid.length vMatch height pos = false) :
    matchedIn vTxid vMatch height pos = [] := by
  rw [parentOfMatch, any_eq_false] at h
  exact filter_eq_nil_iff.2 h

/-- what the traversal below a node reads, and what it leaves -/
structure Extracts [DecidableEq α] (f : α → α → α) (vTxid : List α) (vMatch : List Bool) (height pos : Nat)
    (bits : List Bool) (hashes : List α) : Prop where
  few : hashes.length ≤ vTxid.length - pos * 2 ^ height
  small : hashes.length ≤ 2 ^ height
  flagged : hashes.length ≤ bits.length
  reads : ∀ rb rh fBad vm vi, ∃ v, ((Merkle.pairUp f)^[height] vTxid)[pos]? = some v ∧
    traverseAndExtract f vTxid.length height pos ⟨bits ++ rb, hashes ++ rh, fBad, vm, vi⟩ =
      (v, ⟨rb, rh, fBad, vm ++ (matchedIn vTxid vMatch height pos).map (vTxid.getD · default),
        vi ++ matchedIn vTxid vMatch height pos⟩)

omit [Inhabited α] in
theorem first_lt (h : pos < calcTreeWidth vTxid.length height) : pos * 2 ^ height < vTxid.length := by
  have hpow := Nat.two_pow_pos height
  have := (Nat.le_div_iff_mul_le hpow).1 (succ_le_of_lt h)
  rw [succ_mul] at this
  omega

variable (f) in
omit [Inhabited α] in
theorem node_of_lt (h : pos < calcTreeWidth vTxid.length height) :
    ∃ v, ((pairUp f)^[height] vTxid)[pos]? = some v ∧ calcHash f vTxid height pos = some v := by
  rw [calcTreeWidth, ← length_iterate_pairUp f] at h
  exact ⟨_, getElem?_eq_getElem h, by rw [calcHash_eq, getElem?_eq_getElem h]⟩

variable [DecidableEq α]

theorem extracts_node {v : α} (hpos : pos < calcTreeWidth vTxid.length height)
    (hv : ((pairUp f)^[height] vTxid)[pos]? = some v)
    (h : height = 0 ∨ parentOfMatch vTxid.length vMatch height pos = false) :
    Extracts f vTxid vMatch height pos [parentOfMatch vTxid.length vMatch height pos] [v] := by
  have hfew := first_lt hpos
  refine ⟨by rw [length_singleton]; omega, Nat.one_le_two_pow, le_rfl, fun _ _ _ _ _ => ⟨v, hv, ?_⟩⟩
  cases hb : parentOfMatch vTxid.length vMatch height pos with
  | false =>
    rw [matchedIn_of_parent hb, map_nil, append_nil, append_nil]
    cases height with
    | zero => rfl
    | succ height => rfl
  | true =>
    obtain rfl : height = 0 := h.resolve_right (by rw [hb]; decide)
    have hv' : vTxid[pos]? = some v := hv
    have hm : matchedIn vTxid vMatch 0 pos = [pos] := by
      rw [parentOfMatch, Nat.pow_zero, Nat.mul_one] at hb
      rw [matchedIn, Nat.pow_zero, Nat.mul_one]
      simpa using hb
    rw [hm, map_singleton, getD_eq_getElem?_getD, hv']
    rfl

theorem Extracts.join (hf : Merkle.PairInj f) (hnd : vTxid.Nodup) {bl br : List Bool}
    {hl hr : List α} (hleft : Extracts f vTxid vMatch height (pos * 2) bl hl)
    (hright : if pos * 2 + 1 < calcTreeWidth vTxid.length height then
      Extracts f vTxid vMatch height (pos * 2 + 1) br hr else br = [] ∧ hr = []) :
    Extracts f vTxid vMatch (height + 1) pos (true :: (bl ++ br)) (hl ++ hr) := by
  have hpow : pos * 2 ^ (height + 1) = pos * 2 * 2 ^ height := by rw [Nat.pow_succ', Nat.mul_assoc]
  have hnext : (pos * 2 + 1) * 2 ^ height = pos * 2 * 2 ^ height + 2 ^ height := succ_mul _ _
  have htwo : 2 ^ (height + 1) = 2 ^ height + 2 ^ height := by rw [Nat.pow_succ, Nat.mul_two]
  have h1 := hleft.few
  have h2 := hleft.small
  have h3 := hleft.flagged
  by_cases hlt : pos * 2 + 1 < calcTreeWidth vTxid.length height
  · rw [if_pos hlt] at hright
    have h4 := hright.few
    have h5 := hright.small
    have h6 := hright.flagged
    refine ⟨?_, ?_, ?_, fun rb rh fBad vm vi => ?_⟩
    · rw [length_append, hpow]
      rw [hnext] at h4
      omega
    · rw [length_append]
      omega
    · rw [length_append, length_cons, length_append]
      omega
    · obtain ⟨a, ha, hreadl⟩ := hleft.reads (br ++ rb) (hr ++ rh) fBad vm vi
      obtain ⟨b, hb, hreadr⟩ := hright.reads rb rh fBad
        (vm ++ (matchedIn vTxid vMatch height (pos * 2)).map (vTxid.getD · default))
        (vi ++ matchedIn vTxid vMatch height (pos * 2))
      have hne : b ≠ a := by
        have hnodup := nodup_iff_getElem?_ne_getElem?.1 (nodup_iterate_pairUp f hf hnd height)
        have := hnodup (pos * 2) (pos * 2 + 1) (by omega) (List.getElem?_eq_some_iff.1 hb).1
        rw [ha, hb] at this
        exact fun h => this (congrArg some h.symm)
      refine ⟨f a b, ?_, ?_⟩
      · rw [iterate_succ_apply', getElem?_pairUp, Nat.mul_comm 2 pos, ha, hb]
        rfl
      · rw [cons_append, append_assoc, append_assoc, traverseAndExtract_true, hreadl, matchedIn_succ]
        dsimp only
        rw [if_pos hlt, hreadr, if_neg hne, map_append, append_assoc, append_assoc]
  · rw [if_neg hlt] at hright
    obtain ⟨rfl, rfl⟩ := hright
    refine ⟨?_, ?_, ?_, fun rb rh fBad vm vi => ?_⟩
    · rw [append_nil]
      omega
    · rw [append_nil]
      omega
    · rw [append_nil, append_nil, length_cons]
      omega
    · obtain ⟨a, ha, hreadl⟩ := hleft.reads rb rh fBad vm vi
      have hnone : ((pairUp f)^[height] vTxid)[pos * 2 + 1]? = none := by
        rw [getElem?_eq_none_iff, length_iterate_pairUp]
        exact Nat.not_lt.1 hlt
      refine ⟨f a a, ?_, ?_⟩
      · rw [iterate_succ_apply', getElem?_pairUp, Nat.mul_comm 2 pos, ha, hnone]
        rfl
      · rw [append_nil, append_nil, cons_append, traverseAndExtract_true, hreadl, matchedIn_succ,
          matchedIn_beyond (Nat.not_lt.1 hlt), append_nil]
        dsimp only
        rw [if_neg hlt]

theorem traverseAndBuild_extracts (hf : Merkle.PairInj f) (hnd : vTxid.Nodup) (height : Nat)
    (hpos : pos < calcTreeWidth vTxid.length height) :
    ∃ bits hashes, traverseAndBuild f vTxid vMatch height pos = some (bits, hashes) ∧
      Extracts f vTxid vMatch height pos bits hashes := by
  induction height generalizing pos with
  | zero =>
    obtain ⟨v, hv, hhash⟩ := node_of_lt f hpos
    exact ⟨_, _, by rw [traverseAndBuild, hhash]; rfl, extracts_node hpos hv (.inl rfl)⟩
  | succ height ih =>
    unfold traverseAndBuild
    cases hb : parentOfMatch vTxid.length vMatch (height + 1) pos with
    | false =>
      obtain ⟨v, hv, hhash⟩ := node_of_lt f hpos
      exact ⟨_, _, by rw [hhash]; rfl, hb ▸ extracts_node hpos hv (.inr hb)⟩
    | true =>
      have hwidth : calcTreeWidth vTxid.length (height + 1) = (calcTreeWidth vTxid.length height + 1) / 2 := by
        rw [calcTreeWidth, calcTreeWidth, ← length_iterate_pairUp f, ← length_iterate_pairUp f,
          iterate_succ_apply', length_pairUp]
      obtain ⟨bl, hl, heql, hleft⟩ := ih (show pos * 2 < calcTreeWidth vTxid.length height by omega)
      rw [if_pos rfl, heql]
      by_cases hlt : pos * 2 + 1 < calcTreeWidth vTxid.length height
      · obtain ⟨br, hr, heqr, hright⟩ := ih hlt
        exact ⟨true :: (bl ++ br), hl ++ hr, by simp [hlt, heqr], hleft.join hf hnd (by rw [if_pos hlt]; exact hright)⟩
      · exact ⟨true :: (bl ++ []), hl ++ [], by simp [hlt], hleft.join hf hnd (by rw [if_neg hlt]; exact ⟨rfl, rfl⟩)⟩

omit [Inhabited α] [DecidableEq α] in
theorem matchedIn_top (hw : calcTreeWidth vTxid.length top ≤ 1) :
    matchedIn vTxid vMatch top 0 = (range vTxid.length).filter (vMatch.getD · false) := by
  have hpow := Nat.two_pow_pos top
  have hle : vTxid.length ≤ 2 ^ top := by
    have := (Nat.div_lt_iff_lt_mul hpow).1 (lt_succ_of_le hw)
    omega
  obtain ⟨k, hk⟩ := Nat.exists_eq_add_of_le hle
  rw [matchedIn, Nat.zero_mul, hk, ← range'_append_1, filter_append, range_eq_range']
  have hrest : (range' (0 + vTxid.length) k).filter (matchedAt vTxid.length vMatch) = [] := by
    rw [filter_eq_nil_iff]
    intro p hp
    have := (mem_range'_1.1 hp).1
    simp [matchedAt]
    omega
  rw [hrest, append_nil]
  refine filter_congr fun p hp => ?_
  have := (mem_range'_1.1 hp).2
  simp [matchedAt]
  omega

theorem extractMatches_build (hf : Merkle.PairInj f) (hnd : vTxid.Nodup) (hne : vTxid ≠ [])
    (hmax : vTxid.length ≤ MAX_BLOCK_WEIGHT / MIN_TRANSACTION_WEIGHT)
    (htop : nHeight vTxid.length 32 0 = some top) (hw : calcTreeWidth vTxid.length top ≤ 1)
    (hroot : (pairUp f)^[top] vTxid = [(computeRoot f vTxid).1]) :
    ∃ t, CPartialMerkleTree.build f vTxid vMatch = some t ∧ extractMatches f t = some ((computeRoot f vTxid).1,
      ((range vTxid.length).filter (vMatch.getD · false)).map (vTxid.getD · default),
      (range vTxid.length).filter (vMatch.getD · false)) := by
  have hpos : 0 < calcTreeWidth vTxid.length top := by
    rw [calcTreeWidth, ← length_iterate_pairUp f, hroot]
    exact Nat.one_pos
  obtain ⟨bits, hashes, hbuild, hext⟩ : ∃ bits hashes, traverseAndBuild f vTxid vMatch top 0 = some (bits, hashes) ∧
    Extracts f vTxid vMatch top 0 bits hashes := traverseAndBuild_extracts hf hnd top hpos
  refine ⟨⟨vTxid.length, bits, hashes, false⟩, by rw [CPartialMerkleTree.build, htop]; simp [hbuild], ?_⟩
  obtain ⟨v, hv, hread⟩ := hext.reads [] [] false [] []
  rw [hroot] at hv
  obtain rfl : (computeRoot f vTxid).1 = v := Option.some.inj hv
  rw [append_nil, append_nil, nil_append, nil_append, matchedIn_top hw] at hread
  have hfew := hext.few
  rw [Nat.zero_mul, Nat.sub_zero] at hfew
  rw [extractMatches, if_neg (length_pos_iff.2 hne).ne', if_neg (Nat.not_lt.2 hmax), if_neg (Nat.not_lt.2 hfew),
    if_neg (Nat.not_lt.2 hext.flagged), htop]
  show (if (traverseAndExtract f _ top 0 _).2.fBad = true then _ else _) = _
  rw [hread]
  simp

end Complete

theorem extractMatches_genuine [Inhabited α] [DecidableEq α] {f : α → α → α} {vTxid : List α}
    (hf : Merkle.PairInj f) (htop : nHeight vTxid.length 32 0 = some top) {root : α}
    (hroot : (pairUp f)^[top] vTxid = [root]) (hnull : root ≠ default) {t : CPartialMerkleTree α}
    (hn : t.nTransactions = vTxid.length) {vMatch : List α} {vnIndex : List Nat}
    (h : extractMatches f t = some (root, vMatch, vnIndex)) :
    List.Forall₂ (fun x i => vTxid[i]? = some x) vMatch vnIndex := by
  have hfail : ∀ {x : List α × List Nat}, some (default, x) = some (root, vMatch, vnIndex) → False :=
    fun hx => hnull (Prod.mk.inj (Option.some.inj hx)).1.symm
  unfold extractMatches at h
  rw [hn, htop] at h
  obtain ⟨s, hs⟩ : ∃ s, s = traverseAndExtract f vTxid.length top 0 ⟨t.vBits, t.vHash, t.fBad, [], []⟩ := ⟨_, rfl⟩
  simp only [Option.bind_eq_bind, Option.bind_some, ← hs] at h
  split_ifs at h
  all_goals first | exact (hfail h).elim | skip
  obtain ⟨hr, hm, hi⟩ : s.1 = root ∧ s.2.vMatch = vMatch ∧ s.2.vnIndex = vnIndex := by simpa using h
  rw [← hm, ← hi, hs]
  refine traverseAndExtract_genuine hf top ?_ .nil
  rw [hroot, ← hs, hr]
  rfl

/-- **partial merkle proofs** are complete, and sound for a root that is not the null hash, which `ExtractMatches` also
returns when it fails -/
theorem partial_merkle_proofs [Inhabited α] [DecidableEq α] {f : α → α → α} (hf : Merkle.PairInj f) {vTxid : List α}
    (hnd : vTxid.Nodup) (hne : vTxid ≠ []) (hmax : vTxid.length ≤ MAX_BLOCK_WEIGHT / MIN_TRANSACTION_WEIGHT) :
    ∃ root mutated, computeMerkleRoot f vTxid = some (root, mutated) ∧
      (∀ vMatch, ∃ t, CPartialMerkleTree.build f vTxid vMatch = some t ∧ extractMatches f t = some (root,
        ((List.range vTxid.length).filter (vMatch.getD · false)).map (vTxid.getD · default),
        (List.range vTxid.length).filter (vMatch.getD · false))) ∧
      (root ≠ default → ∀ t vMatch vnIndex, t.nTransactions = vTxid.length →
        extractMatches f t = some (root, vMatch, vnIndex) →
        List.Forall₂ (fun x i => vTxid[i]? = some x) vMatch vnIndex) := by
  have hlen : vTxid.length < 2 ^ 31 := hmax.trans_lt (by decide)
  obtain ⟨top, htop, hw, hh⟩ := nHeight_spec hlen 32 (h := 0) rfl nofun
  have hroot := calcHash_top f hne hw hh
  refine ⟨_, _, computeMerkleRoot_eq f hlen, fun vMatch => ?_, fun hnull t vMatch vnIndex hn h => ?_⟩
  · exact extractMatches_build hf hnd hne hmax htop hw hroot
  · exact extractMatches_genuine hf htop hroot hnull hn h

theorem partial_merkle_proofs_three :
    ∃ root mutated, computeMerkleRoot symEnv.hashPair ([1, 2, 3].map symLeaf) = some (root, mutated) ∧
      ∃ t, CPartialMerkleTree.build symEnv.hashPair ([1, 2, 3].map symLeaf) [false, false, true] = some t ∧
        extractMatches symEnv.hashPair t = some (root, [symLeaf 3], [2]) := by
  obtain ⟨root, mutated, hroot, hbuild, -⟩ := partial_merkle_proofs symEnv_injective.pair
    (show ([1, 2, 3].map symLeaf).Nodup by decide) (by decide) (by decide)
  exact ⟨root, mutated, hroot, hbuild [false, false, true]⟩

/-- a null hash in the list, and a flag too many: the failure returns the root, and leaves the leaf that was read -/
theorem partial_merkle_null :
    Merkle.PairInj symEnv.hashPair ∧ computeMerkleRoot symEnv.hashPair [default] = some (default, false) ∧
      extractMatches symEnv.hashPair ⟨1, true :: List.replicate 8 false, [symLeaf 1], false⟩ =
        some (default, [symLeaf 1], [0]) ∧
      ([default] : List Digest)[0]? ≠ some (symLeaf 1) :=
  ⟨symEnv_injective.pair, by decide⟩

end BitCash
