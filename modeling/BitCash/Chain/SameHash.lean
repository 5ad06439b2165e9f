import BitCash.Chain.Settled

/-!
# Two blocks with one hash

`Lasts` is what `ProcessNewBlock` never takes back, whatever the block: a mark, and the data stored for a hash.

* `Processed`: a call, whatever it answers
* `Connected`: what a second block with the same hash may find taken
-/

set_option linter.unusedSectionVars false

namespace BitCash
open Checks Related List Node CBlockIndex Option

variable {H : Type} [Inhabited H] [DecidableEq H] {env : Env H} {cenv : ChainEnv H}
  {params : Params H} {s t u : Node H}
  {block : CBlock H} {r : Res Unit} {w : Verdict} {e : Stop} {q : CBlockIndex H}

/-! ## marks and data last -/

structure Lasting (p q : CBlockIndex H) : Prop where
  failed : p.nStatus.failed = true → q.nStatus.failed = true
  data : p.nStatus.haveData = true → q.nStatus.haveData = true ∧ q.nDataPos = p.nDataPos

theorem Lasting.refl (p : CBlockIndex H) : Lasting p p := ⟨id, fun h => ⟨h, rfl⟩⟩

theorem Lasting.trans {p r : CBlockIndex H} (h : Lasting p q) (h' : Lasting q r) : Lasting p r := by
  refine ⟨fun hf => h'.failed (h.failed hf), fun hd => ?_⟩
  obtain ⟨hq, hpos⟩ := h.data hd
  obtain ⟨hr, hpos'⟩ := h'.data hq
  exact ⟨hr, hpos'.trans hpos⟩

theorem Kept.lasting {p : CBlockIndex H} (h : Kept p q) : Lasting p q :=
  ⟨h.failed, fun hd => ⟨h.haveData.trans hd, h.nDataPos⟩⟩

structure Lasts (s t : Node H) : Prop where
  index : ∀ h p, s.mapBlockIndex h = some p → ∃ q, t.mapBlockIndex h = some q ∧ Lasting p q
  blockFiles : s.blockFiles <+: t.blockFiles

namespace Lasts

theorem of_index (hi : t.mapBlockIndex = s.mapBlockIndex) (hb : s.blockFiles <+: t.blockFiles) : Lasts s t :=
  ⟨fun _ p hp => ⟨p, by rw [hi, hp], .refl p⟩, hb⟩

theorem refl (s : Node H) : Lasts s s := of_index rfl prefix_rfl

theorem trans (h : Lasts s t) (h' : Lasts t u) : Lasts s u := by
  refine ⟨fun x p hp => ?_, h.blockFiles.trans h'.blockFiles⟩
  obtain ⟨q, hq, hpq⟩ := h.index x p hp
  obtain ⟨r, hr, hqr⟩ := h'.index x q hq
  exact ⟨r, hr, hpq.trans hqr⟩

theorem setIndex {h : H} (hq : ∀ p, s.mapBlockIndex h = some p → Lasting p q) : Lasts s (s.setIndex h q) := by
  refine ⟨fun x p hp => ?_, prefix_rfl⟩
  by_cases hx : x = h
  · subst hx
    exact ⟨q, if_pos rfl, hq p hp⟩
  · exact ⟨p, (if_neg hx).trans hp, .refl p⟩

theorem isSome (h : Lasts s t) {x : H} (hx : (s.mapBlockIndex x).isSome) : (t.mapBlockIndex x).isSome := by
  obtain ⟨p, hp⟩ := isSome_iff_exists.1 hx
  obtain ⟨q, hq, -⟩ := h.index x p hp
  rw [hq]
  rfl

end Lasts

theorem Frame.lasts (h : Frame s t) : Lasts s t := by
  refine ⟨fun x p hp => ?_, h.blockFiles ▸ prefix_rfl⟩
  obtain ⟨q, hq, hpq⟩ := rel_some (h.index x) hp
  exact ⟨q, hq, hpq.lasting⟩

/-! ## arriving -/

theorem Node.Known.lasts (hk : s.Known) (h : Lasts s t) (ha : t.chainActive = s.chainActive)
    (hc : ∀ x ∈ t.setBlockIndexCandidates, x ∈ s.setBlockIndexCandidates ∨ (t.mapBlockIndex x).isSome) : t.Known := by
  refine ⟨fun x hx => h.isSome (hk.active x (ha ▸ hx)), fun x hx => ?_⟩
  rcases hc x hx with hx | hx
  · exact h.isSome (hk.candidates x hx)
  · exact hx

namespace Node

theorem link_lasts (cenv : ChainEnv H) {h : H} {p : CBlockIndex H} (hp : s.mapBlockIndex h = some p) :
    Lasts s (s.link cenv h p) ∧ (s.Known → (s.link cenv h p).Known) := by
  have hset : Lasts s (s.setIndex h (s.linked p)) := by
    refine .setIndex fun q hq => ?_
    rw [hp] at hq
    cases hq
    exact ⟨id, fun hd => ⟨hd, rfl⟩⟩
  have hentry : ((s.setIndex h (s.linked p)).mapBlockIndex h).isSome = true := congrArg isSome (if_pos rfl)
  have hcand : ∀ u : Node H, u.mapBlockIndex = (s.setIndex h (s.linked p)).mapBlockIndex →
      u.blockFiles = s.blockFiles → u.chainActive = s.chainActive →
      (∀ x ∈ u.setBlockIndexCandidates, x ∈ s.setBlockIndexCandidates ∨ x = h) →
      Lasts s u ∧ (s.Known → u.Known) := by
    intro u hi hb ha hc
    have hlast : Lasts s u := hset.trans (.of_index hi (hb ▸ prefix_rfl))
    refine ⟨hlast, fun hk => hk.lasts hlast ha fun x hx => (hc x hx).imp_right ?_⟩
    rintro rfl
    rw [hi]
    exact hentry
  unfold link addCandidate
  split
  · exact hcand _ rfl rfl rfl fun x hx =>
      (mem_append.1 hx).imp_right mem_singleton.1
  · exact hcand _ rfl rfl rfl fun x hx => .inl hx

theorem linkQueue_lasts (n : Nat) (queue : List H) (s : Node H) :
    Lasts s (linkQueue cenv n queue s) ∧ (s.Known → (linkQueue cenv n queue s).Known) := by
  induction n generalizing queue s with
  | zero => exact ⟨.refl s, id⟩
  | succ n ih =>
    cases queue with
    | nil => exact ⟨.refl s, id⟩
    | cons h queue =>
      rw [linkQueue]
      cases hp : s.mapBlockIndex h with
      | none => exact ih queue s
      | some p =>
        obtain ⟨hl, hk⟩ := link_lasts cenv hp
        obtain ⟨hl', hk'⟩ := ih (queue ++ (s.mapBlocksUnlinked.filter fun e =>
          decide (e.1 = h)).map (·.2)) (s.link cenv h p)
        exact ⟨hl.trans hl', fun hs => hk' (hk hs)⟩

theorem linkOrWait_lasts (cenv : ChainEnv H) (s : Node H) (h : H) (p : CBlockIndex H) :
    Lasts s (s.linkOrWait cenv h p) ∧ (s.Known → (s.linkOrWait cenv h p).Known) := by
  unfold linkOrWait
  split
  · exact linkQueue_lasts _ _ s
  · split
    · exact linkQueue_lasts _ _ s
    · split
      · exact ⟨.of_index rfl prefix_rfl, fun hk => ⟨hk.active, hk.candidates⟩⟩
      · exact ⟨.refl s, id⟩

end Node

def Node.HasData (s : Node H) (h : H) (c : CBlock H) : Prop :=
  ∃ p, s.mapBlockIndex h = some p ∧ p.nStatus.haveData = true ∧ s.blockFiles[p.nDataPos]? = some c

theorem Node.HasData.lasts {h : H} {c : CBlock H} (hc : s.HasData h c) (hst : Lasts s t) : t.HasData h c := by
  obtain ⟨p, hp, hd, hfile⟩ := hc
  obtain ⟨q, hq, hpq⟩ := hst.index h p hp
  obtain ⟨hdq, hpos⟩ := hpq.data hd
  obtain ⟨more, hfiles⟩ := hst.blockFiles
  obtain ⟨hlt, -⟩ := List.getElem?_eq_some_iff.1 hfile
  exact ⟨q, hq, hdq, by rw [hpos, ← hfiles, getElem?_append_left hlt, hfile]⟩

theorem Node.store_lasts (cenv : ChainEnv H) {h : H} {p : CBlockIndex H} (b : CBlock H)
    (hp : s.mapBlockIndex h = some p) (hd : p.nStatus.haveData = false) :
    Lasts s (s.store cenv h p b) ∧ (s.Known → (s.store cenv h p b).Known) ∧
      (s.store cenv h p b).HasData h { b with fChecked := false } := by
  let s₁ : Node H := { s with blockFiles := s.blockFiles ++ [{ b with fChecked := false }] }
  let s₂ : Node H := s₁.setIndex h (received p b.vtx.length s.blockFiles.length)
  have hstatus : (received p b.vtx.length s.blockFiles.length).nStatus.failed = p.nStatus.failed ∧
      (received p b.vtx.length s.blockFiles.length).nStatus.haveData = true ∧
      (received p b.vtx.length s.blockFiles.length).nDataPos = s.blockFiles.length := by
    unfold received raiseValidity
    repeat' split
    all_goals exact ⟨rfl, rfl, rfl⟩
  have h₁ : Lasts s s₁ := .of_index rfl (prefix_append _ _)
  have h₂ : Lasts s₁ s₂ := by
    refine .setIndex fun q hq => ?_
    have hqp : q = p := some.inj (hq.symm.trans hp)
    subst hqp
    exact ⟨fun hf => hstatus.1.trans hf, fun hdq => absurd hdq (by rw [hd]; simp)⟩
  obtain ⟨hl, hk⟩ := linkOrWait_lasts cenv s₂ h p
  refine ⟨(h₁.trans h₂).trans hl, fun hs => hk (hs.lasts (h₁.trans h₂) rfl fun x hx => .inl hx), ?_⟩
  have hdata : s₂.HasData h { b with fChecked := false } := by
    refine ⟨_, if_pos rfl, hstatus.2.1, ?_⟩
    rw [hstatus.2.2]
    exact getElem?_concat_length
  exact hdata.lasts hl

theorem markChildren_frame (failed : H) (n : Nat) (h : H) (s : Node H) : Frame s (markChildren failed n h s) := by
  induction n generalizing h s with
  | zero => exact .refl s
  | succ n ih =>
    have hmark : Frame s (s.modifyIndex h failChild) := .modifyIndex failChild_kept s h
    rw [markChildren]
    split
    · exact .refl s
    · split
      · exact hmark
      · exact hmark.trans (ih _ _)

theorem acceptBlockHeader_lasts {header : CBlockHeader H} {r : Res (CBlockIndex H)}
    (h : acceptBlockHeader env cenv params s header = (r, t)) : Lasts s t ∧ (s.Known → t.Known) := by
  have hsame : Lasts s s ∧ (s.Known → s.Known) := ⟨.refl s, id⟩
  have hnew : ∀ {p : CBlockIndex H}, s.mapBlockIndex (header.getHash env) = none →
      Lasts s (s.setIndex (header.getHash env) p) ∧ (s.Known → (s.setIndex (header.getHash env) p).Known) := by
    intro p hnone
    have hl : Lasts s (s.setIndex (header.getHash env) p) := by
      refine .setIndex fun q hq => ?_
      rw [hnone] at hq
      cases hq
    exact ⟨hl, fun hs => hs.lasts hl rfl fun x hx => .inl hx⟩
  cases r with
  | ok p =>
    rcases acceptBlockHeader_ok h with ⟨-, rfl, -⟩ | ⟨hnone, -, rfl, -⟩
    · exact hsame
    · exact hnew hnone
  | error e =>
    have ht : t = (acceptBlockHeader env cenv params s header).2 := by rw [h]
    rw [ht]
    unfold acceptBlockHeader addHeader addToBlockIndex
    repeat' split
    all_goals first
      | exact hsame
      | exact ⟨(markChildren_frame _ _ _ _).lasts, (markChildren_frame _ _ _ _).keepsKnown⟩
      | exact hnew ‹_›

theorem acceptBlockHeader_entry {header : CBlockHeader H} {p : CBlockIndex H}
    (h : acceptBlockHeader env cenv params s header = (.ok p, t)) :
    t.mapBlockIndex (header.getHash env) = some p := by
  rcases acceptBlockHeader_ok h with ⟨hp, rfl, -⟩ | ⟨-, -, rfl, -⟩
  · exact hp
  · exact if_pos rfl

theorem arrive_unprepared {f v : Bool} (h : prepare env params s block v = .error e) :
    arrive env cenv params s block f v = (.error e, s) := by
  rw [arrive, h]

theorem arrive_refused {b : CBlock H} {f v : Bool} (h : prepare env params s block v = .ok b)
    (hh : acceptBlockHeader env cenv params s b.toCBlockHeader = (.error e, t)) :
    arrive env cenv params s block f v = (.error e, t) := by
  rw [arrive, h]
  dsimp only
  rw [acceptBlock, hh]

theorem arrive_judged {b : CBlock H} {f v : Bool} {p : CBlockIndex H} (h : prepare env params s block v = .ok b)
    (hh : acceptBlockHeader env cenv params s b.toCBlockHeader = (.ok p, t))
    (hw : verdict env cenv params t p b f = w) (hc : carryOut cenv t (b.getHash env) p b w = (r, u)) :
    arrive env cenv params s block f v = (r.map fun _ => b, u) := by
  rw [arrive, h]
  dsimp only
  rw [acceptBlock, hh]
  dsimp only
  rw [hw, hc]
  cases r <;> rfl

theorem verdict_stored {p : CBlockIndex H} {b : CBlock H} {f : Bool} :
    verdict env cenv params s p b f = .stored ↔ p.nStatus.haveData = false ∧
      unwanted cenv s p f = false ∧ storeRules env cenv params s p b = .ok () ∧ cenv.saveBlockToDisk := by
  unfold verdict
  cases p.nStatus.haveData with
  | true => simp
  | false =>
    cases unwanted cenv s p f with
    | true => simp
    | false =>
      cases storeRules env cenv params s p b with
      | error e => simp
      | ok _ => cases cenv.saveBlockToDisk <;> simp

theorem carryOut_lasts {h : H} {p : CBlockIndex H} {b : CBlock H}
    (hp : s.mapBlockIndex h = some p) (hd : w = .stored → p.nStatus.haveData = false)
    (hc : carryOut cenv s h p b w = (r, t)) : Lasts s t ∧ (s.Known → t.Known) := by
  cases w with
  | known => cases hc; exact ⟨.refl _, id⟩
  | unwanted => cases hc; exact ⟨.refl _, id⟩
  | unsaved => cases hc; exact ⟨.refl _, id⟩
  | rejected e =>
    cases hc
    unfold rejectBlock
    split
    · have hl : Lasts s (s.setIndex h p.failValid) := (Frame.setIndex hp p.failValid_kept).lasts
      exact ⟨hl, fun hs => hs.lasts hl rfl fun x hx => .inl hx⟩
    · exact ⟨.refl _, id⟩
  | stored =>
    cases hc
    obtain ⟨hl, hk, -⟩ := store_lasts cenv b hp (hd rfl)
    exact ⟨hl, hk⟩

theorem arrive_lasts {f v : Bool} {r : Res (CBlock H)} (h : arrive env cenv params s block f v = (r, t)) :
    Lasts s t ∧ (s.Known → t.Known) := by
  cases hp : prepare env params s block v with
  | error e =>
    rw [arrive_unprepared hp] at h
    cases h
    exact ⟨.refl _, id⟩
  | ok b =>
    cases hh : acceptBlockHeader env cenv params s b.toCBlockHeader with
    | mk rh u =>
      obtain ⟨hu, hku⟩ := acceptBlockHeader_lasts hh
      cases rh with
      | error e =>
        rw [arrive_refused hp hh] at h
        cases h
        exact ⟨hu, hku⟩
      | ok p =>
        cases hc : carryOut cenv u (b.getHash env) p b (verdict env cenv params u p b f) with
        | mk rc w =>
          rw [arrive_judged hp hh rfl hc] at h
          cases h
          obtain ⟨hw, hkw⟩ := carryOut_lasts (acceptBlockHeader_entry hh) (fun hw => (verdict_stored.1 hw).1) hc
          exact ⟨hu.trans hw, fun hs => hkw (hku hs)⟩

theorem processNewBlock_lasts {n : Nat} {f v : Bool}
    (h : processNewBlock env cenv params n s block f v = some (r, t)) : Lasts s t ∧ (s.Known → t.Known) := by
  unfold processNewBlock at h
  cases ha : arrive env cenv params s block f v with
  | mk ra u =>
    obtain ⟨hu, hku⟩ := arrive_lasts ha
    rw [ha] at h
    cases ra with
    | error e =>
      cases h
      exact ⟨hu, hku⟩
    | ok b =>
      have hf := (activateBestChain_spec h fun _ e => nomatch e).1
      exact ⟨hu.trans hf.lasts, fun hs => hf.keepsKnown (hku hs)⟩

/-- some call of `ProcessNewBlock` -/
def Processed (env : Env H) (cenv : ChainEnv H) (params : Params H) (s t : Node H) : Prop :=
  ∃ n block f v r, processNewBlock env cenv params n s block f v = some (r, t)

theorem processed_lasts (h : Relation.ReflTransGen (Processed env cenv params) s t) : Lasts s t := by
  induction h with
  | refl => exact .refl s
  | tail _ hstep ih =>
    obtain ⟨n, block, f, v, r, hstep⟩ := hstep
    exact ih.trans (processNewBlock_lasts hstep).1

theorem processNewBlock_ok {n : Nat} {f v : Bool}
    (h : processNewBlock env cenv params n s block f v = some (.ok (), t)) :
    ∃ b w, arrive env cenv params s block f v = (.ok b, w) ∧
      activateBestChain env cenv params (some b) n none w = some (.ok (), t) := by
  unfold processNewBlock at h
  cases ha : arrive env cenv params s block f v with
  | mk r w =>
    rw [ha] at h
    cases r with
    | error e => cases h
    | ok b => exact ⟨b, w, rfl, h⟩

/-- **the tip is the best candidate** whenever `ProcessNewBlock` succeeds, whatever calls came before -/
theorem settled_of_run {n : Nat} {f v : Bool} (hs : s.Known) (h : Relation.ReflTransGen (Processed env cenv params) s t)
    (hlast : processNewBlock env cenv params n t block f v = some (.ok (), u)) (hne : u.chainActive ≠ []) :
    Settled cenv u := by
  have ht : t.Known := by
    clear hlast
    induction h with
    | refl => exact hs
    | tail _ hstep ih =>
      obtain ⟨n, block, f, v, r, hstep⟩ := hstep
      exact (processNewBlock_lasts hstep).2 ih
  obtain ⟨b, w, harr, hact⟩ := processNewBlock_ok hlast
  exact activateBestChain_ends hact ((arrive_lasts harr).2 ht) hne

/-! ## a second block with the same hash -/

/-- the block is in the active chain, unmarked, and stored under its hash; the check flag is no part of
what is stored -/
structure Connected (s : Node H) (h : H) (b : CBlock H) : Prop where
  active : h ∈ s.chainActive
  unmarked : ∀ p, s.mapBlockIndex h = some p → p.nStatus.failed = false
  data : s.HasData h { b with fChecked := false }

instance (s : Node H) (h : H) (b : CBlock H) : Decidable (Connected s h b) :=
  decidable_of_iff (h ∈ s.chainActive ∧ ∃ p ∈ s.mapBlockIndex h, p.nStatus.failed = false ∧
      p.nStatus.haveData = true ∧ s.blockFiles[p.nDataPos]? = some { b with fChecked := false })
    ⟨fun ⟨ha, p, hp, hf, hd⟩ => ⟨ha, fun q hq => by rw [hp] at hq; cases hq; exact hf, p, hp, hd⟩,
      fun h => by
        obtain ⟨p, hp, hd⟩ := h.data
        exact ⟨h.active, p, hp, h.unmarked p hp, hd⟩⟩

/-- a block whose prices or price signatures fail `CheckBlock` leaves no trace, sampled or not -/
theorem processNewBlock_refused (hflag : block.fChecked = false)
    (hbad : priceRules env params block.toCBlockHeader ≠ .ok ()) (n : Nat) (f v : Bool) :
    ∃ e, processNewBlock env cenv params n s block f v = some (.error e, s) := by
  cases hp : prepare env params s block v with
  | error e => exact ⟨e, by rw [processNewBlock, arrive_unprepared hp]⟩
  | ok b =>
    obtain ⟨nb, hnb, ⟨hc, -⟩ | ⟨-, hr, -⟩⟩ := prepare_ok hp
    · rw [hflag] at hc
      cases hc
    · obtain ⟨-, -, hprice, -⟩ := blockRules_ok.1 hr
      rw [(normaliseBlock_revalues hnb).1] at hprice
      exact absurd hprice hbad

theorem symNode_settled (tip : CoinsMap Digest) : Settled symChain (symNode tip) := by
  refine ⟨⟨?_, ?_⟩, fun b hb => ?_⟩
  · show ∀ h ∈ [Digest.atom 0, .atom 1], ((symNode fun _ => none).mapBlockIndex h).isSome = true
    decide
  · show ∀ h ∈ [Digest.atom 1], ((symNode fun _ => none).mapBlockIndex h).isSome = true
    decide
  · have hbest : (symNode tip).bestCandidate symChain =
        some (.atom 1, connectedIndex (.atom 1) (some (.atom 0)) 1) := rfl
    rw [hbest] at hb
    cases hb
    rfl

def splitFilled : CTransaction Digest := spendTen [.of 4 4 [] 0, .of 6 6 [] 0] (by decide)

def processSymbolic (s : Node Digest) (block : CBlock Digest) : Option (Res Unit × Node Digest) :=
  processNewBlock symEnv symChain symMain 2 s block true true

def unsignedBlock : CBlock Digest := { halfBlock [splitFilled] with priceSig := [] }

theorem unsigned_refused : priceRules symEnv symMain unsignedBlock.toCBlockHeader ≠ .ok () := by
  decide

theorem processed_unsigned : Processed symEnv symChain symMain (symNode tenTip)
    (symNode tenTip) := by
  obtain ⟨e, he⟩ := processNewBlock_refused rfl unsigned_refused 1 true true
  exact ⟨1, _, true, true, .error e, he⟩

/-- a block that is refused, one that is stored and then marked, and a good one on the same parent -/
theorem splitTen_then_empty : ∃ s₁ s₂,
    Relation.ReflTransGen (Processed symEnv symChain symMain) (symNode tenTip) s₁ ∧
      (s₁.mapBlockIndex ((halfBlock [splitTen]).getHash symEnv)).any (·.nStatus.failed) = true ∧
      processSymbolic s₁ (halfBlock []) = some (.ok (), s₂) ∧
      (halfBlock []).getHash symEnv ∈ s₂.chainActive := by
  have hrun : ∃ r₁ ∈ processSymbolic (symNode tenTip) (halfBlock [splitTen]),
      (r₁.2.mapBlockIndex ((halfBlock [splitTen]).getHash symEnv)).any (·.nStatus.failed) = true ∧
      ∃ r₂ ∈ processSymbolic r₁.2 (halfBlock []), r₂.1 = .ok () ∧
        (halfBlock []).getHash symEnv ∈ r₂.2.chainActive := by
    decide
  obtain ⟨⟨r, s₁⟩, h₁, hmark, ⟨_, s₂⟩, h₂, rfl, hactive⟩ := hrun
  exact ⟨s₁, s₂, (Relation.ReflTransGen.single processed_unsigned).tail ⟨2, _, true, true, r, h₁⟩, hmark, h₂,
    hactive⟩

theorem processed_lasts_split : ∃ s₁ s₂, Lasts s₁ s₂ ∧ Lasts (symNode tenTip) s₂ ∧
    (s₁.mapBlockIndex ((halfBlock [splitTen]).getHash symEnv)).any (·.nStatus.failed) = true ∧
    (halfBlock []).getHash symEnv ∈ s₂.chainActive := by
  obtain ⟨s₁, s₂, hrun, hmark, h₂, hactive⟩ := splitTen_then_empty
  have hlast : Processed symEnv symChain symMain s₁ s₂ := ⟨2, _, true, true, _, h₂⟩
  exact ⟨s₁, s₂, processed_lasts (.single hlast), processed_lasts (hrun.tail hlast), hmark, hactive⟩

theorem settled_of_run_split : ∃ t, Settled symChain t ∧ (halfBlock []).getHash symEnv ∈ t.chainActive := by
  obtain ⟨s₁, s₂, hrun, -, h₂, hactive⟩ := splitTen_then_empty
  exact ⟨s₂, settled_of_run (symNode_settled tenTip).toKnown hrun h₂ (ne_nil_of_mem hactive), hactive⟩

theorem connected_splitFilled :
    ∃ t, processSymbolic (symNode tenTip) (halfBlock [splitFilled]) = some (.ok (), t) ∧
      Connected t ((halfBlock [splitFilled]).getHash symEnv)
        { halfBlock [splitFilled] with fChecked := true } := by
  have hrun : ∃ r ∈ processSymbolic (symNode tenTip) (halfBlock [splitFilled]),
      r.1 = .ok () ∧ Connected r.2 ((halfBlock [splitFilled]).getHash symEnv)
        { halfBlock [splitFilled] with fChecked := true } := by
    decide
  obtain ⟨⟨r, t⟩, hr, rfl, hc⟩ := hrun
  exact ⟨t, hr, hc⟩

end BitCash
