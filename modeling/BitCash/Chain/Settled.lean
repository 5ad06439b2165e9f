import BitCash.Chain.Activate

/-!
# Runs of `ActivateBestChain`

Whatever `ActivateBestChain` does, it keeps the block files, the data of every index entry and its place in the
order of the candidates; a mark is never taken away, and candidates only leave (`Frame`).
-/

set_option linter.unusedSectionVars false

namespace BitCash
open Checks Related List Best CBlockIndex

variable {H : Type} [Inhabited H] [DecidableEq H] {env : Env H} {cenv : ChainEnv H}
  {params : Params H} {s t u : Node H} {h : H}

/-! ## what is kept -/

structure Kept (p q : CBlockIndex H) : Prop where
  hash : q.hash = p.hash
  nChainWork : q.nChainWork = p.nChainWork
  nSequenceId : q.nSequenceId = p.nSequenceId
  haveData : q.nStatus.haveData = p.nStatus.haveData
  nDataPos : q.nDataPos = p.nDataPos
  failed : p.nStatus.failed = true → q.nStatus.failed = true

theorem Kept.refl (p : CBlockIndex H) : Kept p p := ⟨rfl, rfl, rfl, rfl, rfl, id⟩

theorem Kept.trans (p q r : CBlockIndex H) (h : Kept p q) (h' : Kept q r) : Kept p r :=
  ⟨h'.hash.trans h.hash, h'.nChainWork.trans h.nChainWork, h'.nSequenceId.trans h.nSequenceId,
    h'.haveData.trans h.haveData, h'.nDataPos.trans h.nDataPos, fun hf => h'.failed (h.failed hf)⟩

theorem CBlockIndex.failChild_kept (p : CBlockIndex H) : Kept p p.failChild :=
  ⟨rfl, rfl, rfl, rfl, rfl, fun _ => Bool.or_true _⟩

theorem CBlockIndex.failValid_kept (p : CBlockIndex H) : Kept p p.failValid :=
  ⟨rfl, rfl, rfl, rfl, rfl, fun _ => Bool.true_or _⟩

theorem CBlockIndex.raiseValidity_kept (p : CBlockIndex H) (n : Nat) : Kept p (p.raiseValidity n) := by
  unfold raiseValidity
  repeat' split
  · exact Kept.refl p
  · exact ⟨rfl, rfl, rfl, rfl, rfl, id⟩
  · exact Kept.refl p

theorem scriptsValid_kept (p : CBlockIndex H) : Kept p (scriptsValid p) := by
  unfold scriptsValid
  split
  · exact Kept.refl p
  · exact p.raiseValidity_kept _

theorem writeUndoDataForBlock_kept {undoPos : Res Nat} {p q : CBlockIndex H}
    (h : writeUndoDataForBlock undoPos p = .ok q) : Kept p q := by
  unfold writeUndoDataForBlock at h
  split at h
  · cases h
    exact Kept.refl p
  · obtain ⟨pos, -, h⟩ := bind_ok.1 h
    cases h
    exact ⟨rfl, rfl, rfl, rfl, rfl, id⟩

structure Frame (s t : Node H) : Prop where
  index : ∀ h, Option.Rel Kept (s.mapBlockIndex h) (t.mapBlockIndex h)
  blockFiles : t.blockFiles = s.blockFiles
  candidates : ∃ f, t.setBlockIndexCandidates = s.setBlockIndexCandidates.filter f
  active : ∀ h ∈ t.chainActive, h ∈ s.chainActive ∨ (s.mapBlockIndex h).isSome = true

namespace Frame

theorem of_index (hi : ∀ h, Option.Rel Kept (s.mapBlockIndex h) (t.mapBlockIndex h))
    (hb : t.blockFiles = s.blockFiles) (hc : t.setBlockIndexCandidates = s.setBlockIndexCandidates)
    (ha : t.chainActive = s.chainActive) : Frame s t :=
  ⟨hi, hb, ⟨fun _ => true, by rw [hc, filter_true]⟩, fun h hh => .inl (ha ▸ hh)⟩

theorem refl (s : Node H) : Frame s s := of_index (fun _ => rel_refl Kept.refl _) rfl rfl rfl

theorem trans (h : Frame s t) (h' : Frame t u) : Frame s u := by
  refine ⟨fun x => rel_trans Kept.trans (h.index x) (h'.index x), h'.blockFiles.trans h.blockFiles,
    ?_, fun x hx => ?_⟩
  · obtain ⟨f, hf⟩ := h.candidates
    obtain ⟨g, hg⟩ := h'.candidates
    exact ⟨fun x => g x && f x, by rw [hg, hf, filter_filter]⟩
  · rcases h'.active x hx with hx | hx
    · exact h.active x hx
    · exact .inr ((rel_isSome (h.index x)).trans hx)

theorem setIndex {p q : CBlockIndex H} (hp : s.mapBlockIndex h = some p)
    (hpq : Kept p q) : Frame s (s.setIndex h q) := by
  refine of_index (fun x => ?_) rfl rfl rfl
  show Option.Rel Kept (s.mapBlockIndex x) (if x = h then some q else s.mapBlockIndex x)
  split
  · rename_i hx
    rw [hx, hp]
    exact .some hpq
  · exact rel_refl Kept.refl _

theorem modifyIndex {f : CBlockIndex H → CBlockIndex H} (hf : ∀ p, Kept p (f p)) (s : Node H) (h : H) :
    Frame s (s.modifyIndex h f) := by
  refine of_index (fun x => ?_) rfl rfl rfl
  show Option.Rel Kept (s.mapBlockIndex x) (if x = h then (s.mapBlockIndex x).map f else s.mapBlockIndex x)
  split
  · cases s.mapBlockIndex x with
    | none => exact .none
    | some p => exact .some (hf p)
  · exact rel_refl Kept.refl _

theorem eraseCandidate (s : Node H) (h : H) : Frame s (s.eraseCandidate h) :=
  ⟨fun _ => rel_refl Kept.refl _, rfl, ⟨_, rfl⟩, fun _ hx => .inl hx⟩

theorem updateMempool (s : Node H) (pool : List (CTransaction H)) (add : Bool) :
    Frame s (s.updateMempool cenv pool add) :=
  of_index (fun _ => rel_refl Kept.refl _) rfl rfl rfl

theorem invalidBlockFound (s : Node H) (h : H) (e : Stop) : Frame s (s.invalidBlockFound h e) := by
  unfold Node.invalidBlockFound
  split
  · refine trans (modifyIndex failValid_kept s h) (trans ?_ (eraseCandidate _ h))
    exact of_index (fun _ => rel_refl Kept.refl _) rfl rfl rfl
  · exact refl s

end Frame

/-! ## disconnecting and connecting -/

variable {r : Res (List (CTransaction H))}

theorem disconnectTip_frame (h : disconnectTip env cenv s = (r, t)) :
    Frame s t ∧ t.setBlockIndexCandidates = s.setBlockIndexCandidates := by
  have ht : t = (disconnectTip env cenv s).2 := by rw [h]
  rw [ht]
  unfold disconnectTip
  have hsame : ∀ u : Node H, u.mapBlockIndex = s.mapBlockIndex → u.blockFiles = s.blockFiles →
      u.setBlockIndexCandidates = s.setBlockIndexCandidates → u.chainActive = s.chainActive →
      Frame s u ∧ u.setBlockIndexCandidates = s.setBlockIndexCandidates := by
    intro u hi hb hc ha
    exact ⟨.of_index (fun _ => hi ▸ rel_refl Kept.refl _) hb hc ha, hc⟩
  repeat' split
  all_goals first
    | exact hsame _ rfl rfl rfl rfl
    | exact ⟨⟨fun _ => rel_refl Kept.refl _, rfl, ⟨fun _ => true, (filter_true _).symm⟩,
        fun _ hx => .inl (dropLast_subset _ hx)⟩, rfl⟩

theorem connectBlock_kept (env : Env H) (params : Params H) (block : CBlock H) (tip : CoinsMap H)
    (undoPos : Res Nat) (fJustCheck : Bool) (c : ConnectState H) :
    Kept c.pindex (connectBlock env params block tip undoPos fJustCheck c).2.pindex := by
  unfold connectBlock
  cases connectChecks env params ⟨c.pindex, c.nicks, fJustCheck⟩ block c.view with
  | error e => exact Kept.refl _
  | ok r =>
    cases r with
    | genesis => cases fJustCheck <;> exact Kept.refl _
    | connected l =>
      cases fJustCheck with
      | true => exact Kept.refl _
      | false =>
        cases hw : writeUndoDataForBlock undoPos c.pindex with
        | error e => exact Kept.refl _
        | ok p =>
          have hkept : Kept c.pindex (scriptsValid p) :=
            Kept.trans _ _ _ (writeUndoDataForBlock_kept hw) (scriptsValid_kept p)
          dsimp only
          cases checkConversions tip block <;> exact hkept

theorem Node.written_frame (env : Env H) (params : Params H) {p : CBlockIndex H}
    (hp : s.mapBlockIndex h = some p) (block : CBlock H) {c : ConnectState H} (hc : Kept p c.pindex) :
    Frame s (s.written env params h p block c) :=
  (Frame.setIndex hp hc).trans (.of_index (fun _ => rel_refl Kept.refl _) rfl rfl rfl)

variable {pblock : Option (CBlock H)} {p : CBlockIndex H}

theorem connectTip_frame (hp : s.mapBlockIndex h = some p) (hc : connectTip env cenv params s h p pblock = (r, t)) :
    Frame s t ∧ ∀ vtx, r = .ok vtx → t.setBlockIndexCandidates = s.setBlockIndexCandidates := by
  unfold connectTip at hc
  split at hc
  · cases hc
    exact ⟨.refl s, fun _ e => nomatch e⟩
  · split at hc
    · cases hc
      exact ⟨.refl s, fun _ e => nomatch e⟩
    · rename_i block hblock
      have hkept := connectBlock_kept env params block s.pcoinsTip (s.undoPos cenv) false (s.connectState p)
      cases hb : connectBlock env params block s.pcoinsTip (s.undoPos cenv) false (s.connectState p) with
      | mk rb c =>
        rw [hb] at hc hkept
        have hw := Node.written_frame env params hp block hkept
        cases rb with
        | error e =>
          cases hc
          exact ⟨hw.trans (.invalidBlockFound _ h e), fun _ e => nomatch e⟩
        | ok _ =>
          dsimp only at hc
          split at hc
          · cases hc
            exact ⟨hw.trans (.of_index (fun _ => rel_refl Kept.refl _) rfl rfl rfl), fun _ e => nomatch e⟩
          · cases hc
            refine ⟨hw.trans ⟨fun _ => rel_refl Kept.refl _, rfl,
              ⟨fun _ => true, (filter_true _).symm⟩, fun x hx => ?_⟩, fun _ _ => rfl⟩
            rcases mem_append.1 hx with hx | hx
            · exact .inl hx
            · -- the new tip has the entry that was just written
              rw [mem_singleton.1 hx]
              exact .inr (congrArg Option.isSome (if_pos rfl))

variable {n : Nat} {pool : List (CTransaction H)} {m x : H} {known : Option H}

theorem disconnectTo_frame {fork : Option H} (h : disconnectTo env cenv fork n pool s = (r, t)) :
    Frame s t ∧ t.setBlockIndexCandidates = s.setBlockIndexCandidates := by
  induction n generalizing pool s with
  | zero =>
    cases h
    exact ⟨.refl _, rfl⟩
  | succ n ih =>
    rw [disconnectTo] at h
    split at h
    · cases h
      exact ⟨.refl _, rfl⟩
    · cases hd : disconnectTip env cenv s with
      | mk rd u =>
        obtain ⟨hf, hc⟩ := disconnectTip_frame hd
        rw [hd] at h
        cases rd with
        | error e =>
          cases h
          exact ⟨hf.trans (.updateMempool u _ _), hc⟩
        | ok vtx =>
          obtain ⟨hf', hc'⟩ := ih h
          exact ⟨hf.trans hf', hc'.trans hc⟩

/-! ## the best candidate -/

theorem workLess_iff {a b : CBlockIndex H} :
    workLess cenv a b ↔ a.nChainWork < b.nChainWork ∨ (a.nChainWork = b.nChainWork ∧
      (b.nSequenceId < a.nSequenceId ∨ (a.nSequenceId = b.nSequenceId ∧
        cenv.address b.hash < cenv.address a.hash))) := by
  unfold workLess
  split
  · rename_i hw
    split
    · rename_i hs
      simp [hw, hs]
    · rename_i hs
      simp [hw, hs]
  · rename_i hw
    simp [hw]

theorem workLess_weak : Best.Weak (workLess (H := H) cenv) := by
  refine ⟨fun a b hab => ?_, fun a b c hab hbc => ?_⟩
  · rw [workLess_iff] at hab
    rw [← Bool.not_eq_true, workLess_iff]
    omega
  · rw [← Bool.not_eq_true, workLess_iff] at hab hbc ⊢
    omega

theorem workLess_kept {p' q q' : CBlockIndex H} (hp : Kept p p') (hq : Kept q q') :
    workLess cenv p q = workLess cenv p' q' := by
  unfold workLess
  rw [hp.nChainWork, hq.nChainWork, hp.nSequenceId, hq.nSequenceId, hp.hash, hq.hash]

theorem Frame.bestCandidate (h : Frame s t)
    (hbest : s.bestCandidate cenv = some (m, p)) (hm : m ∈ t.setBlockIndexCandidates) :
    ∃ q, t.bestCandidate cenv = some (m, q) := by
  obtain ⟨f, hf⟩ := h.candidates
  rw [hf] at hm
  have hfilter := best_filter workLess_weak hbest (mem_filter.1 hm).2
  have hrel : Option.Rel (fun a b : H × CBlockIndex H => a.1 = b.1 ∧ Kept a.2 b.2)
      (best (workLess cenv) s.mapBlockIndex (s.setBlockIndexCandidates.filter f))
      (best (workLess cenv) t.mapBlockIndex (s.setBlockIndexCandidates.filter f)) :=
    best_rel (fun _ _ _ _ => workLess_kept) fun x _ => h.index x
  obtain ⟨⟨m', q⟩, hq, rfl, -⟩ := rel_some hrel hfilter
  exact ⟨q, by rw [Node.bestCandidate, hf, hq]⟩

theorem Frame.mem_candidates (h : Frame s t) (hx : x ∈ t.setBlockIndexCandidates) : x ∈ s.setBlockIndexCandidates := by
  obtain ⟨f, hf⟩ := h.candidates
  rw [hf] at hx
  exact (mem_filter.1 hx).1

theorem Node.dropBlock_frame (s : Node H) (fFailedChain : Bool) (h : H) : Frame s (s.dropBlock fFailedChain h) := by
  cases fFailedChain with
  | true => exact .modifyIndex failChild_kept s h
  | false => exact .of_index (fun _ => rel_refl Kept.refl _) rfl rfl rfl

theorem Node.dropChain_frame (fFailedChain : Bool) (test : H) (n : Nat) (h : H) (s : Node H) :
    Frame s (dropChain fFailedChain test n h s) := by
  induction n generalizing h s with
  | zero => exact .refl s
  | succ n ih =>
    rw [dropChain]
    split
    · exact .eraseCandidate s h
    · have hdrop : Frame s ((s.dropBlock fFailedChain h).eraseCandidate h) :=
        (s.dropBlock_frame fFailedChain h).trans (.eraseCandidate _ h)
      split
      · exact hdrop
      · exact hdrop.trans (ih _ _)

theorem Node.not_mem_eraseCandidate (s : Node H) (h : H) : h ∉ (s.eraseCandidate h).setBlockIndexCandidates := by
  simp [Node.eraseCandidate]

theorem Node.not_mem_dropChain (fFailedChain : Bool) (test : H) (n : Nat) (h : H) (s : Node H) :
    h ∉ (dropChain fFailedChain test (n + 1) h s).setBlockIndexCandidates := by
  rw [dropChain]
  split
  · exact s.not_mem_eraseCandidate h
  · split
    · exact Node.not_mem_eraseCandidate _ h
    · exact fun hmem => Node.not_mem_eraseCandidate _ h ((dropChain_frame _ _ _ _ _).mem_candidates hmem)

theorem Frame.length_lt (h : Frame s t) (hx : x ∈ s.setBlockIndexCandidates)
    (hnot : x ∉ t.setBlockIndexCandidates) : t.setBlockIndexCandidates.length < s.setBlockIndexCandidates.length := by
  obtain ⟨f, hf⟩ := h.candidates
  rw [hf] at hnot ⊢
  refine length_filter_lt_length_iff_exists.2 ⟨x, hx, fun hfx => hnot ?_⟩
  exact mem_filter.2 ⟨hx, hfx⟩

/-- **the search ends at the best candidate**, or with none left -/
theorem findMostWork_spec {r : Option H} (h : findMostWork cenv n s = (t, r))
    (hn : s.setBlockIndexCandidates.length < n) : Frame s t ∧ r = (t.bestCandidate cenv).map (·.1) := by
  induction n generalizing s with
  | zero => omega
  | succ n ih =>
    rw [findMostWork] at h
    cases hbest : s.bestCandidate cenv with
    | none =>
      rw [hbest] at h
      cases h
      exact ⟨.refl _, by rw [hbest]; rfl⟩
    | some b =>
      obtain ⟨m, p⟩ := b
      rw [hbest] at h
      dsimp only at h
      cases hu : s.firstUnusable (p.nHeight + 1) m with
      | none =>
        rw [hu] at h
        cases h
        exact ⟨.refl _, by rw [hbest]; rfl⟩
      | some bad =>
        obtain ⟨test, q⟩ := bad
        rw [hu] at h
        have hdrop := Node.dropChain_frame q.nStatus.failed test (p.nHeight + 1) m s
        have hlt := hdrop.length_lt (best_mem hbest) (Node.not_mem_dropChain _ _ _ _ _)
        obtain ⟨hf, hr⟩ := ih h (by omega)
        exact ⟨hdrop.trans hf, hr⟩

theorem pruneBlockIndexCandidates_frame (h : pruneBlockIndexCandidates cenv s = .ok t) :
    Frame s t ∧ ∀ m p, s.bestCandidate cenv = some (m, p) → ∃ q, t.bestCandidate cenv = some (m, q) := by
  simp only [pruneBlockIndexCandidates, bind_ok, need_ok, exists_const, pure_ok] at h
  obtain ⟨hleft, ht⟩ := h
  cases ht
  have hframe : Frame s { s with setBlockIndexCandidates :=
      s.setBlockIndexCandidates.filter fun h => !s.worse cenv h } :=
    ⟨fun _ => rel_refl Kept.refl _, rfl, ⟨_, rfl⟩, fun _ hx => .inl hx⟩
  refine ⟨hframe, fun m p hbest => hframe.bestCandidate hbest ?_⟩
  refine mem_filter.2 ⟨best_mem hbest, ?_⟩
  obtain ⟨y, hymem, hykeep⟩ : ∃ y ∈ s.setBlockIndexCandidates, s.worse cenv y = false := by
    simpa using hleft
  have hkey : s.mapBlockIndex m = some p := best_key hbest
  cases hyk : s.mapBlockIndex y with
  | none => simp [Node.worse, hyk] at hykeep
  | some q =>
    -- nothing is better than the best candidate, so it is no worse than `y`
    have hmax := best_max workLess_weak hbest hymem hyk
    cases htip : s.tip with
    | none => simp [Node.worse, hkey, htip]
    | some tip =>
      have hq : workLess cenv q tip = false := by simpa [Node.worse, hyk, htip] using hykeep
      simpa [Node.worse, hkey, htip] using workLess_weak.trans _ _ _ hmax hq

/-! ## whole runs -/

theorem connectTip_prune_frame {vtx : List (CTransaction H)} (hx : s.mapBlockIndex x = some p)
    (hc : connectTip env cenv params s x p pblock = (.ok vtx, t)) (hp : pruneBlockIndexCandidates cenv t = .ok u) :
    Frame s u ∧ ∀ b q, s.bestCandidate cenv = some (b, q) → ∃ q', u.bestCandidate cenv = some (b, q') := by
  obtain ⟨hf, hcand⟩ := connectTip_frame hx hc
  obtain ⟨hf', hkeep⟩ := pruneBlockIndexCandidates_frame hp
  refine ⟨hf.trans hf', fun b q hb => ?_⟩
  have hmem : b ∈ t.setBlockIndexCandidates := by
    rw [hcand vtx rfl]
    exact best_mem hb
  obtain ⟨q', hq'⟩ := hf.bestCandidate hb hmem
  exact hkeep b q' hq'

theorem connectPath_frame {oldTip : Option (CBlockIndex H)} {path : List H} {r : Res (Bool × List (CTransaction H))}
    (h : connectPath env cenv params m pblock oldTip path pool s = (r, t)) :
    Frame s t ∧ ∀ pool' b p, r = .ok (false, pool') → s.bestCandidate cenv = some (b, p) →
      ∃ q, t.bestCandidate cenv = some (b, q) := by
  induction path generalizing pool s with
  | nil =>
    cases h
    exact ⟨.refl _, fun _ _ p _ hb => ⟨p, hb⟩⟩
  | cons x path ih =>
    rw [connectPath] at h
    cases hx : s.mapBlockIndex x with
    | none =>
      rw [hx] at h
      cases h
      exact ⟨.refl _, fun _ _ _ e => nomatch e⟩
    | some p =>
      rw [hx] at h
      dsimp only at h
      cases hc : connectTip env cenv params s x p (if x = m then pblock else none) with
      | mk rc u =>
        have hf := (connectTip_frame hx hc).1
        rw [hc] at h
        cases rc with
        | error e =>
          dsimp only at h
          split at h
          · cases h
            exact ⟨hf, fun _ _ _ e => nomatch e⟩
          · cases h
            exact ⟨hf.trans (.updateMempool u _ _), fun _ _ _ e => nomatch e⟩
        | ok vtx =>
          dsimp only at h
          cases hp : pruneBlockIndexCandidates cenv u with
          | error e =>
            rw [hp] at h
            cases h
            exact ⟨hf, fun _ _ _ e => nomatch e⟩
          | ok v =>
            obtain ⟨hfv, hbest⟩ := connectTip_prune_frame hx hc hp
            rw [hp] at h
            dsimp only at h
            split at h
            · cases h
              exact ⟨hfv, fun _ b q _ hb => hbest b q hb⟩
            · obtain ⟨hf', hrest⟩ := ih h
              refine ⟨hfv.trans hf', fun pool' b q hr hb => ?_⟩
              obtain ⟨q', hq'⟩ := hbest b q hb
              exact hrest pool' b q' hr hq'

theorem activateBestChainStep_frame {r : Res Bool} (h : activateBestChainStep env cenv params s m pblock = (r, t)) :
    Frame s t ∧ ∀ b p, r = .ok false → s.bestCandidate cenv = some (b, p) →
      ∃ q, t.bestCandidate cenv = some (b, q) := by
  unfold activateBestChainStep at h
  cases hm : s.mapBlockIndex m with
  | none =>
    rw [hm] at h
    cases h
    exact ⟨.refl _, fun _ _ e => nomatch e⟩
  | some p =>
    rw [hm] at h
    dsimp only at h
    cases hd : disconnectTo env cenv (s.findFork (p.nHeight + 1) m) s.chainActive.length [] s with
    | mk rd u =>
      obtain ⟨hf, hcand⟩ := disconnectTo_frame hd
      rw [hd] at h
      cases rd with
      | error e =>
        cases h
        exact ⟨hf, fun _ _ e => nomatch e⟩
      | ok pool =>
        dsimp only at h
        cases hc : connectPath env cenv params m pblock s.tip
            (u.pathFrom (s.findFork (p.nHeight + 1) m) (p.nHeight + 1) m []) pool u with
        | mk rc v =>
          obtain ⟨hf', hrest⟩ := connectPath_frame hc
          rw [hc] at h
          cases rc with
          | error e =>
            cases h
            exact ⟨hf.trans hf', fun _ _ e => nomatch e⟩
          | ok b =>
            obtain ⟨invalid, pool'⟩ := b
            cases h
            have hpool : Frame v (if u.chainActive.length = s.chainActive.length then v
                else v.updateMempool cenv pool' true) := by
              split
              · exact .refl v
              · exact .updateMempool v _ _
            refine ⟨(hf.trans hf').trans hpool, fun b q hr hb => ?_⟩
            cases hr
            obtain ⟨q', hq'⟩ := hf.bestCandidate hb (by rw [hcand]; exact best_mem hb)
            obtain ⟨q'', hq''⟩ := hrest pool' b q' rfl hq'
            refine hpool.bestCandidate hq'' ?_
            split <;> exact best_mem hq''

theorem chooseMostWork_spec {r : Option H} (h : chooseMostWork cenv known s = (t, r))
    (hknown : ∀ m, known = some m → (s.bestCandidate cenv).map (·.1) = some m) :
    Frame s t ∧ r = (t.bestCandidate cenv).map (·.1) := by
  cases known with
  | none => exact findMostWork_spec h (Nat.lt_succ_self _)
  | some m =>
    cases h
    exact ⟨.refl _, (hknown m rfl).symm⟩

/-- **one round of `ActivateBestChain`**: there is no candidate, the best one is the tip, the step to it
fails, it ends there, or another round follows.  An invalid block on the way clears the choice. -/
inductive Round (env : Env H) (cenv : ChainEnv H) (params : Params H) (pblock : Option (CBlock H))
    (known : Option H) (s : Node H) : Prop
  | nothing (u : Node H) (hchoose : chooseMostWork cenv known s = (u, none))
      (h : ∀ n, activateBestChain env cenv params pblock (n + 1) known s = some (.ok (), u))
  | atTip (u : Node H) (m : H) (hchoose : chooseMostWork cenv known s = (u, some m))
      (htip : u.chainActive.getLast? = some m)
      (h : ∀ n, activateBestChain env cenv params pblock (n + 1) known s = some (.ok (), u))
  | failed (u v : Node H) (m : H) (e : Stop) (hchoose : chooseMostWork cenv known s = (u, some m))
      (hstep : activateBestChainStep env cenv params u m
        (pblock.filter fun b => decide (b.getHash env = m)) = (.error e, v))
      (h : ∀ n, activateBestChain env cenv params pblock (n + 1) known s = some (.error e, v))
  | ended (u v : Node H) (m : H) (invalid : Bool) (hchoose : chooseMostWork cenv known s = (u, some m))
      (hstep : activateBestChainStep env cenv params u m
        (pblock.filter fun b => decide (b.getHash env = m)) = (.ok invalid, v))
      (htip : v.chainActive.getLast? = if invalid then none else some m)
      (h : ∀ n, activateBestChain env cenv params pblock (n + 1) known s =
        some (if cenv.flushStateToDisk then .ok () else .error (.systemError "out of disk space"), v))
  | next (u v : Node H) (m : H) (invalid : Bool) (hchoose : chooseMostWork cenv known s = (u, some m))
      (hstep : activateBestChainStep env cenv params u m
        (pblock.filter fun b => decide (b.getHash env = m)) = (.ok invalid, v))
      (h : ∀ n, activateBestChain env cenv params pblock (n + 1) known s =
        activateBestChain env cenv params pblock n (if invalid then none else some m) v)

theorem activateBestChain_round (env : Env H) (cenv : ChainEnv H) (params : Params H)
    (pblock : Option (CBlock H)) (known : Option H) (s : Node H) : Round env cenv params pblock known s := by
  cases hchoose : chooseMostWork cenv known s with
  | mk u r =>
    cases r with
    | none => exact .nothing u hchoose fun n => by rw [activateBestChain, hchoose]
    | some m =>
      by_cases htip : u.chainActive.getLast? = some m
      · refine .atTip u m hchoose htip fun n => ?_
        rw [activateBestChain, hchoose]
        exact if_pos htip
      · cases hstep : activateBestChainStep env cenv params u m
            (pblock.filter fun b => decide (b.getHash env = m)) with
        | mk rs v =>
          cases rs with
          | error e =>
            refine .failed u v m e hchoose hstep fun n => ?_
            rw [activateBestChain, hchoose]
            dsimp only
            rw [if_neg htip, hstep]
          | ok invalid =>
            by_cases hend : v.chainActive.getLast? = if invalid then none else some m
            · refine .ended u v m invalid hchoose hstep hend fun n => ?_
              rw [activateBestChain, hchoose]
              dsimp only
              rw [if_neg htip, hstep]
              exact if_pos hend
            · refine .next u v m invalid hchoose hstep fun n => ?_
              rw [activateBestChain, hchoose]
              dsimp only
              rw [if_neg htip, hstep]
              exact if_neg hend

theorem choice_after_step {invalid : Bool}
    (hstep : activateBestChainStep env cenv params s m pblock = (.ok invalid, t))
    (hbest : some m = (s.bestCandidate cenv).map (·.1)) :
    ∀ x, (if invalid then none else some m) = some x → (t.bestCandidate cenv).map (·.1) = some x := by
  intro x hx
  cases invalid with
  | true => cases hx
  | false =>
    cases hx
    obtain ⟨⟨m', p⟩, hb, rfl⟩ := Option.map_eq_some_iff.1 hbest.symm
    obtain ⟨q, hq⟩ := (activateBestChainStep_frame hstep).2 m' p rfl hb
    rw [hq]
    rfl

theorem activateBestChain_spec {r : Res Unit} (h : activateBestChain env cenv params pblock n known s = some (r, t))
    (hknown : ∀ m, known = some m → (s.bestCandidate cenv).map (·.1) = some m) :
    Frame s t ∧ (r = .ok () → t.chainActive ≠ [] →
      ∀ b, t.bestCandidate cenv = some b → t.chainActive.getLast? = some b.1) := by
  induction n generalizing known s with
  | zero => cases h
  | succ n ih =>
    cases activateBestChain_round env cenv params pblock known s with
    | nothing u hchoose hround =>
      obtain ⟨hf, hbest⟩ := chooseMostWork_spec hchoose hknown
      rw [hround] at h
      cases h
      refine ⟨hf, fun _ _ b hb => ?_⟩
      rw [hb] at hbest
      cases hbest
    | atTip u m hchoose htip hround =>
      obtain ⟨hf, hbest⟩ := chooseMostWork_spec hchoose hknown
      rw [hround] at h
      cases h
      refine ⟨hf, fun _ _ b hb => ?_⟩
      rw [hb] at hbest
      rw [htip, hbest]
      rfl
    | failed u v m e hchoose hstep hround =>
      obtain ⟨hf, -⟩ := chooseMostWork_spec hchoose hknown
      rw [hround] at h
      cases h
      exact ⟨hf.trans (activateBestChainStep_frame hstep).1, fun e => nomatch e⟩
    | ended u v m invalid hchoose hstep htip hround =>
      obtain ⟨hf, hbest⟩ := chooseMostWork_spec hchoose hknown
      rw [hround] at h
      cases h
      refine ⟨hf.trans (activateBestChainStep_frame hstep).1, fun _ hne b hb => ?_⟩
      cases invalid with
      | true => exact absurd (getLast?_eq_none_iff.1 htip) hne
      | false =>
        have hm := choice_after_step hstep hbest m rfl
        rw [hb] at hm
        rw [htip]
        exact hm.symm
    | next u v m invalid hchoose hstep hround =>
      obtain ⟨hf, hbest⟩ := chooseMostWork_spec hchoose hknown
      rw [hround] at h
      obtain ⟨hf', hend⟩ := ih h (choice_after_step hstep hbest)
      exact ⟨(hf.trans (activateBestChainStep_frame hstep).1).trans hf', hend⟩

/-! ## settled nodes -/

structure Node.Known (s : Node H) : Prop where
  active : ∀ h ∈ s.chainActive, (s.mapBlockIndex h).isSome = true
  candidates : ∀ h ∈ s.setBlockIndexCandidates, (s.mapBlockIndex h).isSome = true

structure Settled (cenv : ChainEnv H) (s : Node H) : Prop extends s.Known where
  best : ∀ b, s.bestCandidate cenv = some b → s.chainActive.getLast? = some b.1

theorem Frame.keepsKnown (hf : Frame s t) (hs : s.Known) : t.Known := by
  have hknown : ∀ x, (s.mapBlockIndex x).isSome = true → (t.mapBlockIndex x).isSome = true :=
    fun x hx => (rel_isSome (hf.index x)).symm.trans hx
  refine ⟨fun x hx => ?_, fun x hx => hknown x (hs.candidates x (hf.mem_candidates hx))⟩
  rcases hf.active x hx with hx | hx
  · exact hknown x (hs.active x hx)
  · exact hknown x hx

theorem activateBestChain_ends (h : activateBestChain env cenv params pblock n none s = some (.ok (), t))
    (hs : s.Known) (hne : t.chainActive ≠ []) : Settled cenv t := by
  obtain ⟨hf, hend⟩ := activateBestChain_spec h fun _ e => nomatch e
  exact ⟨hf.keepsKnown hs, hend rfl hne⟩

end BitCash
