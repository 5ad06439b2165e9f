import BitCash.Mempool.Statistics

/-!
# The repair after a reorganisation

A transaction that comes back from a disconnected block may have children in the pool that `addUnchecked` does not
link.
-/

set_option linter.unusedSectionVars false

namespace BitCash
open Kin Relation Walk Tracked List Function Pi

variable {H : Type} [Inhabited H] [DecidableEq H] {all stage l : List H} {x y cit b c : H}

/-! ## the walk with the cache -/

section
variable {children cached : H → List H} {X : H → Prop}

structure CacheOk (children cached : H → List H) (X : H → Prop) : Prop where
  key : ∀ c, cached c ≠ [] → X c
  exact : ∀ c, cached c ≠ [] → ∀ y, y ∈ cached c ↔ TransGen (fun a b => b ∈ children a) c y ∧ ¬X y
  nodup : ∀ c, (cached c).Nodup

structure Visited (cached : H → List H) (l : List H) (s t : List H × List H) : Prop where
  stage_old : s.1 ⊆ t.1
  stage_new : ∀ x ∈ t.1, x ∈ s.1 ∨ x ∈ l ∧ x ∉ s.2
  stage_nodup : s.1.Nodup → t.1.Nodup
  all_old : s.2 ⊆ t.2
  all_new : ∀ x ∈ t.2, x ∈ s.2 ∨ ∃ c ∈ l, x ∈ cached c
  all_nodup : s.2.Nodup → t.2.Nodup
  cached_all : ∀ c ∈ l, cached c ⊆ t.2
  staged : ∀ c ∈ l, cached c = [] → c ∈ t.1 ∨ c ∈ t.2

theorem visitChild_visited (hn : ∀ c, (cached c).Nodup) (s : List H × List H) (c : H) :
    Visited cached [c] s (visitChild cached s c) := by
  unfold visitChild
  split
  · next hc =>
    refine ⟨List.Subset.refl _, fun x hx => .inl hx, id, subset_append_left _ _, ?_, ?_, ?_, ?_⟩
    · intro x hx
      rcases mem_append.1 hx with hx | hx
      · exact .inl hx
      · exact .inr ⟨c, mem_singleton_self c, (mem_filter.1 hx).1⟩
    · intro hs
      refine hs.append ((hn c).filter _) fun x hx hx' => ?_
      exact of_decide_eq_true (mem_filter.1 hx').2 hx
    · intro d hd x hx
      rw [mem_singleton.1 hd] at hx
      by_cases hxs : x ∈ s.2
      · exact mem_append_left _ hxs
      · exact mem_append_right _ (mem_filter.2 ⟨hx, decide_eq_true hxs⟩)
    · intro d hd hnone
      exact absurd (mem_singleton.1 hd ▸ hnone) hc
  · next hc =>
    have hnone : cached c = [] := not_not.1 hc
    have hsub : ∀ d ∈ [c], cached d ⊆ s.2 := by
      intro d hd
      rw [mem_singleton.1 hd, hnone]
      exact nil_subset _
    split
    · next hall =>
      refine ⟨List.Subset.refl _, fun x hx => .inl hx, id, List.Subset.refl _, fun x hx => .inl hx, id, hsub, ?_⟩
      exact fun d hd _ => .inr (mem_singleton.1 hd ▸ hall)
    · next hall =>
      split
      · next hst =>
        refine ⟨List.Subset.refl _, fun x hx => .inl hx, id, List.Subset.refl _, fun x hx => .inl hx, id, hsub, ?_⟩
        exact fun d hd _ => .inl (mem_singleton.1 hd ▸ hst)
      · next hst =>
        refine ⟨subset_append_left _ _, ?_, ?_, List.Subset.refl _, fun x hx => .inl hx, id, hsub, ?_⟩
        · intro x hx
          rcases mem_append.1 hx with hx | hx
          · exact .inl hx
          · exact .inr ⟨hx, mem_singleton.1 hx ▸ hall⟩
        · exact fun hs => hs.append (nodup_singleton c) fun x hx hxc => hst (mem_singleton.1 hxc ▸ hx)
        · exact fun d hd _ => .inl (mem_append_right _ hd)

theorem Visited.trans {l' : List H} {s t u : List H × List H} (h : Visited cached l s t) (h' : Visited cached l' t u) :
    Visited cached (l ++ l') s u := by
  refine ⟨List.Subset.trans h.stage_old h'.stage_old, ?_, fun hs => h'.stage_nodup (h.stage_nodup hs),
    List.Subset.trans h.all_old h'.all_old, ?_, fun hs => h'.all_nodup (h.all_nodup hs), ?_, ?_⟩
  · intro x hx
    rcases h'.stage_new x hx with hx | ⟨hx, hno⟩
    · exact (h.stage_new x hx).imp_right fun hx => ⟨mem_append_left _ hx.1, hx.2⟩
    · exact .inr ⟨mem_append_right _ hx, fun hs => hno (h.all_old hs)⟩
  · intro x hx
    rcases h'.all_new x hx with hx | ⟨c, hc, hx⟩
    · exact (h.all_new x hx).imp_right fun ⟨c, hc, hx⟩ => ⟨c, mem_append_left _ hc, hx⟩
    · exact .inr ⟨c, mem_append_right _ hc, hx⟩
  · intro c hc
    rcases mem_append.1 hc with hc | hc
    · exact List.Subset.trans (h.cached_all c hc) h'.all_old
    · exact h'.cached_all c hc
  · intro c hc hnone
    rcases mem_append.1 hc with hc | hc
    · exact (h.staged c hc hnone).imp (fun hx => h'.stage_old hx) fun hx => h'.all_old hx
    · exact h'.staged c hc hnone

theorem foldl_visitChild (hn : ∀ c, (cached c).Nodup) (l : List H) (s : List H × List H) :
    Visited cached l s (l.foldl (visitChild cached) s) := by
  induction l generalizing s with
  | nil =>
    exact ⟨List.Subset.refl _, fun x hx => .inl hx, id, List.Subset.refl _, fun x hx => .inl hx, id,
      fun c hc => absurd hc not_mem_nil, fun c hc => absurd hc not_mem_nil⟩
  | cons c l ih => exact (visitChild_visited hn s c).trans (ih _)

def stageRound (children cached : H → List H) (cit : H) (stage all : List H) : List H × List H :=
  (children cit).foldl (visitChild cached) (stage, if cit ∈ all then all else all ++ [cit])

theorem mem_withEntry : x ∈ (if cit ∈ all then all else all ++ [cit]) ↔ x ∈ all ∨ x = cit := by
  split
  · next hc => exact ⟨.inl, fun hx => hx.elim id fun hx => hx ▸ hc⟩
  · rw [mem_append, mem_singleton]

theorem stageDescendants_sound (hc : CacheOk children cached X) {Q : H → Prop} (hQ : ∀ a b, b ∈ children a → Q a → Q b)
    (fuel : Nat) (hstage : ∀ x ∈ stage, Q x) (hall : ∀ x ∈ all, Q x) :
    ∀ x ∈ stageDescendants children cached fuel stage all, Q x := by
  have hpath : ∀ a b, TransGen (fun a b => b ∈ children a) a b → Q a → Q b := by
    intro a b hab ha
    induction hab with
    | single hab => exact hQ _ _ hab ha
    | tail _ hbc ih => exact hQ _ _ hbc ih
  induction fuel generalizing stage all with
  | zero => exact hall
  | succ fuel ih =>
    cases stage with
    | nil => exact hall
    | cons cit stage =>
      have hv : Visited cached (children cit) _ (stageRound children cached cit stage all) :=
        foldl_visitChild hc.nodup (children cit) _
      have hcit : Q cit := hstage cit mem_cons_self
      refine ih (fun x hx => ?_) fun x hx => ?_
      · rcases hv.stage_new x hx with hx | ⟨hx, -⟩
        · exact hstage x (mem_cons_of_mem _ hx)
        · exact hQ cit x hx hcit
      · rcases hv.all_new x hx with hx | ⟨c, hcc, hx⟩
        · rcases mem_withEntry.1 hx with hx | rfl
          · exact hall x hx
          · exact hcit
        · exact hpath c x ((hc.exact c (ne_nil_of_mem hx) x).1 hx).1 (hQ cit c hcc hcit)

theorem stageDescendants_nodup (hn : ∀ c, (cached c).Nodup) (fuel : Nat) (hall : all.Nodup) :
    (stageDescendants children cached fuel stage all).Nodup := by
  induction fuel generalizing stage all with
  | zero => exact hall
  | succ fuel ih =>
    cases stage with
    | nil => exact hall
    | cons cit stage =>
      refine ih ((foldl_visitChild hn (children cit) _).all_nodup ?_)
      dsimp only
      split
      · exact hall
      · next hno => exact hall.append (nodup_singleton cit) fun x hx hxc => hno (mem_singleton.1 hxc ▸ hx)

def Full (children : H → List H) (X : H → Prop) (all : List H) (a : H) : Prop :=
  ∀ z, ¬X z → ReflTransGen (fun a b => b ∈ children a) a z → z ∈ all

def Noted (children : H → List H) (X : H → Prop) (stage all : List H) (b : H) : Prop :=
  b ∈ all ∨ b ∈ stage ∨ Full children X all b

def StageInv (children : H → List H) (X : H → Prop) (stage all : List H) : Prop :=
  ∀ a ∈ all, Full children X all a ∨ ∀ b ∈ children a, Noted children X stage all b

theorem Full.mono {all' : List H} {a : H} (h : Full children X all a) (hsub : all ⊆ all') : Full children X all' a :=
  fun z hz haz => hsub (h z hz haz)

section
variable (hc : CacheOk children cached X)
include hc

theorem CacheOk.full (hne : cached c ≠ []) (hsub : cached c ⊆ all) : Full children X all c := by
  intro z hz hcz
  rcases reflTransGen_iff_eq_or_transGen.1 hcz with rfl | hcz
  · exact absurd (hc.key z hne) hz
  · exact hsub ((hc.exact c hne z).2 ⟨hcz, hz⟩)

theorem CacheOk.full_of_mem (hx : x ∈ cached c) (hsub : cached c ⊆ all) : Full children X all x := by
  intro z hz hxz
  have hne := ne_nil_of_mem hx
  exact hsub ((hc.exact c hne z).2 ⟨((hc.exact c hne x).1 hx).1.trans_left hxz, hz⟩)

theorem Noted.round (h : Noted children X (cit :: stage) all b) :
    Noted children X (stageRound children cached cit stage all).1 (stageRound children cached cit stage all).2 b := by
  have hv : Visited cached (children cit) _ (stageRound children cached cit stage all) :=
    foldl_visitChild hc.nodup (children cit) _
  rcases h with hb | hb | hb
  · exact .inl (hv.all_old (mem_withEntry.2 (.inl hb)))
  · rcases mem_cons.1 hb with rfl | hb
    · exact .inl (hv.all_old (mem_withEntry.2 (.inr rfl)))
    · exact .inr (.inl (hv.stage_old hb))
  · exact .inr (.inr (hb.mono fun x hx => hv.all_old (mem_withEntry.2 (.inl hx))))

theorem StageInv.round (h : StageInv children X (cit :: stage) all) :
    StageInv children X (stageRound children cached cit stage all).1 (stageRound children cached cit stage all).2 := by
  have hv : Visited cached (children cit) _ (stageRound children cached cit stage all) :=
    foldl_visitChild hc.nodup (children cit) _
  intro a ha
  rcases hv.all_new a ha with ha | ⟨c, hcc, ha⟩
  · rcases mem_withEntry.1 ha with ha | rfl
    · rcases h a ha with hfull | hnoted
      · exact .inl (hfull.mono fun x hx => hv.all_old (mem_withEntry.2 (.inl hx)))
      · exact .inr fun b hb => (hnoted b hb).round hc
    · refine .inr fun b hb => ?_
      by_cases hne : cached b = []
      · rcases hv.staged b hb hne with hst | hall
        · exact .inr (.inl hst)
        · exact .inl hall
      · exact .inr (.inr (hc.full hne (hv.cached_all b hb)))
  · exact .inl (hc.full_of_mem ha (hv.cached_all c hcc))

end

theorem StageInv.full (h : StageInv children X [] all) (hb : Noted children X [] all b) : Full children X all b := by
  intro z hz hbz
  induction hbz using ReflTransGen.head_induction_on with
  | refl =>
    rcases hb with hb | hb | hb
    · exact hb
    · exact absurd hb not_mem_nil
    · exact hb z hz .refl
  | head hbc hcz ih =>
    rcases hb with hb | hb | hb
    · rcases h _ hb with hfull | hnoted
      · exact hfull z hz (hcz.head hbc)
      · exact ih (hnoted _ hbc)
    · exact absurd hb not_mem_nil
    · exact hb z hz (hcz.head hbc)

theorem stageDescendants_full (hc : CacheOk children cached X) {U : Finset H} (hU : ∀ a b, b ∈ children a → b ∈ U)
    (fuel : Nat) {rest : Finset H} (hfuel : rest.card ≤ fuel)
    (hrest : ∀ x ∈ U, x ∉ rest → x ∈ all) (hstage : ∀ x ∈ stage, x ∈ rest) (hnodup : stage.Nodup)
    (hinv : StageInv children X stage all) (hb : Noted children X stage all b) :
    Full children X (stageDescendants children cached fuel stage all) b := by
  induction fuel generalizing stage all rest with
  | zero =>
    have hempty : rest = ∅ := Finset.card_eq_zero.1 (Nat.le_zero.1 hfuel)
    have hnil : stage = [] := eq_nil_iff_forall_not_mem.2 fun x hx => Finset.notMem_empty x (hempty ▸ hstage x hx)
    subst hnil
    exact hinv.full hb
  | succ fuel ih =>
    cases stage with
    | nil => exact hinv.full hb
    | cons cit stage =>
      have hv : Visited cached (children cit) _ (stageRound children cached cit stage all) :=
        foldl_visitChild hc.nodup (children cit) _
      obtain ⟨hcit, hnodup⟩ := nodup_cons.1 hnodup
      have hmem : cit ∈ rest := hstage cit mem_cons_self
      refine @ih _ _ (rest.erase cit) ?_ ?_ ?_ (hv.stage_nodup hnodup) (hinv.round hc) (hb.round hc)
      · rw [Finset.card_erase_of_mem hmem]
        omega
      · intro x hxU hx
        refine hv.all_old (mem_withEntry.2 ?_)
        by_cases hxc : x = cit
        · exact .inr hxc
        · exact .inl (hrest x hxU fun hno => hx (Finset.mem_erase.2 ⟨hxc, hno⟩))
      · intro x hx
        rcases hv.stage_new x hx with hx | ⟨hx, hno⟩
        · exact Finset.mem_erase.2 ⟨fun hxc => hcit (hxc ▸ hx), hstage x (mem_cons_of_mem _ hx)⟩
        · refine Finset.mem_erase.2 ⟨fun hxc => hno (mem_withEntry.2 (.inr hxc)), ?_⟩
          by_contra hxr
          exact hno (mem_withEntry.2 (.inl (hrest x (hU cit x hx) hxr)))

theorem stageDescendants_exact (hc : CacheOk children cached X) {U : List H} (hU : ∀ a b, b ∈ children a → b ∈ U)
    {u : H} (hn : (children u).Nodup) (hy : ¬X y) :
    y ∈ stageDescendants children cached U.length (children u) [] ↔ TransGen (fun a b => b ∈ children a) u y := by
  constructor
  · refine stageDescendants_sound hc (fun a b hab ha => ha.tail hab) _ (fun x hx => .single hx) ?_ y
    exact fun x hx => absurd hx not_mem_nil
  · intro huy
    obtain ⟨b, hub, hby⟩ := TransGen.head'_iff.1 huy
    refine stageDescendants_full hc (U := U.toFinset) (fun a b hab => mem_toFinset.2 (hU a b hab)) U.length
      (toFinset_card_le U) (fun x hx hno => absurd hx hno) ?_ hn ?_ (.inr (.inl hub)) y hy hby
    · exact fun x hx => mem_toFinset.2 (hU u x hx)
    · exact fun a ha => absurd ha not_mem_nil

end

/-! ## links -/

section
variable {T : TrackEnv H} {pool : Tracked H} {R F : H → H → Prop} {v done : List H}

theorem mem_foldl_changeSet {s : List H} : x ∈ l.foldl (fun s c => changeSet true c s) s ↔ x ∈ s ∨ x ∈ l := by
  induction l generalizing s with
  | nil => simp
  | cons c l ih => rw [foldl_cons, ih, mem_changeSet_true, mem_cons, or_assoc]

theorem foldl_changeSet_nodup {s : List H} (h : s.Nodup) : (l.foldl (fun s c => changeSet true c s) s).Nodup := by
  induction l generalizing s with
  | nil => exact h
  | cons c l ih => exact ih (changeSet_nodup h)

theorem foldl_link (it : H) (l : List H) :
    l.foldl (fun (pool : Tracked H) child => (pool.updateChild true child it).updateParent true it child) pool =
      (pool.mapChildren fun p s => if p = it then l.foldl (fun s c => changeSet true c s) s else s).mapParents
        fun c s => if c ∈ l then changeSet true it s else s := by
  induction l generalizing pool with
  | nil => simp [mapChildren, mapParents]
  | cons x l ih =>
    rw [foldl_cons, ih, updateChild_eq, updateParent_eq, mapChildren_mapParents, mapChildren_mapChildren,
      mapParents_mapParents]
    refine congrArg₂ (fun f g => (pool.mapChildren f).mapParents g) (funext₂ fun p s => ?_)
      (funext₂ fun c s => changeSet_loop)
    by_cases hp : p = it
    · simp [hp]
    · simp [hp]

/-- the stored links `R`, all links `F`, and the transactions `v` that came back, the oldest first: the links from
those to others are not stored -/
structure Reorganised (T : TrackEnv H) (pool : Tracked H) (R F : H → H → Prop) (v : List H) : Prop where
  tallied : Tallied T pool R
  nodup : v.Nodup
  support : ∀ p c, F p c → p ∈ pool.ids T ∧ c ∈ pool.ids T
  links : ∀ p c, R p c ↔ F p c ∧ (p ∈ v → c ∈ v)
  parents : ∀ p c, F p c → c ∈ v → p ∈ v
  order : v.Pairwise fun a b => ¬F b a
  next : ∀ p ∈ v, p ∈ pool.ids T → ∀ c, c ∈ pool.nextChildren p ↔ F p c

def Relinked (R F : H → H → Prop) (v done : List H) (p c : H) : Prop := R p c ∨ p ∈ done ∧ F p c ∧ c ∉ v

section
variable (h : Reorganised T pool R F v)
include h

theorem Reorganised.joins : Joins R F (· ∈ v) := by
  refine ⟨fun x y hxy => ((h.links x y).1 hxy).1, fun x y hxy => ?_, fun x y hxy => ?_⟩
  · obtain ⟨hF, hv⟩ := (h.links x y).1 hxy
    exact ⟨hv, h.parents x y hF⟩
  · by_cases hy : y ∈ v
    · exact .inl ((h.links x y).2 ⟨hxy, fun _ => hy⟩)
    · by_cases hx : x ∈ v
      · exact .inr ⟨hx, hy⟩
      · exact .inl ((h.links x y).2 ⟨hxy, fun hno => absurd hno hx⟩)

theorem Reorganised.relinked_all (p c : H) : Relinked R F v v p c ↔ F p c := by
  constructor
  · rintro (hR | ⟨-, hF, -⟩)
    · exact h.joins.old p c hR
    · exact hF
  · intro hF
    exact (h.joins.new p c hF).imp_right fun hout => ⟨hout.1, hF, hout.2⟩

theorem Reorganised.after (hsuf : done <:+ v) (hx : x ∈ done) (hF : F x y) (hy : y ∈ v) : y ∈ done := by
  obtain ⟨todo, htodo⟩ := hsuf
  have horder := h.order
  rw [← htodo] at horder hy
  rcases mem_append.1 hy with hy | hy
  · exact absurd hF ((pairwise_append.1 horder).2.2 y hy x hx)
  · exact hy

theorem Reorganised.transGen_relinked (hsuf : done <:+ v) (hx : x ∈ done) :
    TransGen (Relinked R F v done) x y ↔ TransGen F x y := by
  constructor
  · refine TransGen.mono (fun a b hab => ?_) _ _
    rcases hab with hR | ⟨-, hF, -⟩
    · exact h.joins.old a b hR
    · exact hF
  · intro hxy
    -- the path stays within what is done and what did not come back
    have hstep : ∀ a b, (a ∈ done ∨ a ∉ v) → F a b → Relinked R F v done a b ∧ (b ∈ done ∨ b ∉ v) := by
      intro a b ha hab
      by_cases hb : b ∈ v
      · have hav : a ∈ v := h.parents a b hab hb
        have had : a ∈ done := ha.resolve_right fun hno => hno hav
        exact ⟨.inl ((h.links a b).2 ⟨hab, fun _ => hb⟩), .inl (h.after hsuf had hab hb)⟩
      · refine ⟨?_, .inr hb⟩
        rcases ha with ha | ha
        · exact .inr ⟨ha, hab, hb⟩
        · exact .inl ((h.links a b).2 ⟨hab, fun hav => absurd hav ha⟩)
    have hpath : TransGen (Relinked R F v done) x y ∧ (y ∈ done ∨ y ∉ v) := by
      induction hxy with
      | single hab =>
        obtain ⟨hrel, hb⟩ := hstep _ _ (.inl hx) hab
        exact ⟨.single hrel, hb⟩
      | tail _ hbc ih =>
        obtain ⟨hrel, hc⟩ := hstep _ _ ih.2 hbc
        exact ⟨.tail ih.1 hrel, hc⟩
    exact hpath.1

end

def counted (T : TrackEnv H) (v : List H) (pool : Tracked H) (cached : H → List H) (u : H) : List H :=
  (stageDescendants pool.children cached (pool.ids T).length (pool.children u) []).filter (· ∉ v)

theorem updateForDescendants_eq {cached : H → List H} (hn : ∀ c, (cached c).Nodup) (u : H) :
    updateForDescendants T v pool cached u =
      (pool.gain (single u ((counted T v pool cached u).map (pool.ownBelow T)).sum)
        (fun x => if x ∈ counted T v pool cached u then pool.ownAbove T u else 0),
        update cached u (counted T v pool cached u)) := by
  have hnodup : (counted T v pool cached u).Nodup := (stageDescendants_nodup hn _ nodup_nil).filter _
  show (modifyDescendants (((counted T v pool cached u).map (ownBelow T
    ((counted T v pool cached u).foldl (modifyAncestors (pool.ownAbove T u)) pool))).sum)
    ((counted T v pool cached u).foldl (modifyAncestors (pool.ownAbove T u)) pool) u, _) = _
  rw [foldl_modifyAncestors hnodup, modifyDescendants_eq, gain_gain, zero_add, add_zero]
  rfl

/-- what holds after the transactions `done`, the last ones of `v`: the links are relinked, the statistics have what
came with them, and the cache knows the descendants that did not come back -/
structure Repaired (T : TrackEnv H) (pool : Tracked H) (R F : H → H → Prop) (v done : List H)
    (s : Tracked H × (H → List H)) : Prop where
  mapTx : s.1.mapTx = pool.mapTx
  mapNextTx : s.1.mapNextTx = pool.mapNextTx
  mapDeltas : s.1.mapDeltas = pool.mapDeltas
  feeDelta : ∀ x, (s.1.state x).feeDelta = (pool.state x).feeDelta
  mem_parents : ∀ p c, p ∈ s.1.parents c ↔ Relinked R F v done p c
  mem_children : ∀ p c, c ∈ s.1.children p ↔ Relinked R F v done p c
  children_nodup : ∀ p, (s.1.children p).Nodup
  ancestors : ∀ x, (s.1.state x).ancestors = (pool.state x).ancestors +
    if x ∈ v then 0 else ∑ u ∈ Kin.above (pool.ids T).toFinset F x ∩ done.toFinset, pool.ownAbove T u
  descendants : ∀ x, (s.1.state x).descendants = (pool.state x).descendants +
    if x ∈ done then ∑ y ∈ (Kin.below (pool.ids T).toFinset F x).filter (· ∉ v), pool.ownBelow T y else 0
  cache_nodup : ∀ c, (s.2 c).Nodup
  cache : ∀ c y, y ∈ s.2 c ↔ c ∈ done ∧ TransGen F c y ∧ y ∉ v

section
variable (h : Reorganised T pool R F v)
include h

theorem Reorganised.repaired_nil : Repaired T pool R F v [] (pool, fun _ => []) := by
  have hnone : ∀ p c, Relinked R F v [] p c ↔ R p c := fun p c => or_iff_left fun hno => absurd hno.1 not_mem_nil
  refine ⟨rfl, rfl, rfl, fun _ => rfl, fun p c => ?_, fun p c => ?_, h.tallied.children_nodup, fun x => ?_, fun x => ?_,
    fun _ => nodup_nil, fun c y => ?_⟩
  · rw [hnone, h.tallied.mem_parents]
  · rw [hnone, h.tallied.mem_children]
  · simp
  · simp
  · simp

theorem Reorganised.transGen_ids (hxy : TransGen F x y) : x ∈ pool.ids T ∧ y ∈ pool.ids T:= by
  obtain ⟨z, hxz, -⟩ := TransGen.head'_iff.1 hxy
  obtain ⟨u, -, huy⟩ := TransGen.tail'_iff.1 hxy
  exact ⟨(h.support x z hxz).1, (h.support u y huy).2⟩

theorem Reorganised.repaired_absent {u : H} {s : Tracked H × (H → List H)}
    (hu : u ∉ pool.ids T) (hdone : u ∉ done) (hs : Repaired T pool R F v done s) :
    Repaired T pool R F v (u :: done) s := by
  have hno : ∀ c, ¬F u c := fun c hF => hu (h.support u c hF).1
  have hlinks : ∀ p c, Relinked R F v (u :: done) p c ↔ Relinked R F v done p c := by
    intro p c
    refine or_congr_right ?_
    constructor
    · rintro ⟨hp, hF⟩
      rcases mem_cons.1 hp with rfl | hp
      · exact absurd hF.1 (hno c)
      · exact ⟨hp, hF⟩
    · rintro ⟨hp, hF⟩
      exact ⟨mem_cons_of_mem _ hp, hF⟩
  refine ⟨hs.mapTx, hs.mapNextTx, hs.mapDeltas, hs.feeDelta, fun p c => ?_, fun p c => ?_, hs.children_nodup,
    fun x => ?_, fun x => ?_, hs.cache_nodup, fun c y => ?_⟩
  · rw [hlinks, hs.mem_parents]
  · rw [hlinks, hs.mem_children]
  · have hset : above (pool.ids T).toFinset F x ∩ (u :: done).toFinset =
        above (pool.ids T).toFinset F x ∩ done.toFinset := by
      rw [toFinset_cons]
      refine Finset.inter_insert_of_notMem fun hmem => ?_
      exact hu (mem_toFinset.1 (mem_above.1 hmem).1)
    rw [hs.ancestors, hset]
  · rw [hs.descendants]
    by_cases hx : x = u
    · subst hx
      have hempty : below (pool.ids T).toFinset F x = ∅ :=
        Finset.eq_empty_of_forall_notMem fun y hy => hu (h.transGen_ids (mem_below.1 hy).2).1
      rw [if_neg hdone, if_pos mem_cons_self, hempty, Finset.filter_empty, Finset.sum_empty]
    · simp only [mem_cons, hx, false_or]
  · rw [hs.cache]
    constructor
    · rintro ⟨hc, hrest⟩
      exact ⟨mem_cons_of_mem _ hc, hrest⟩
    · rintro ⟨hc, hF, hy⟩
      rcases mem_cons.1 hc with rfl | hc
      · exact absurd (h.transGen_ids hF).1 hu
      · exact ⟨hc, hF, hy⟩

end

theorem linkChildren_eq (v : List H) (it : H) : linkChildren v pool it = (pool.mapChildren fun p s => if p = it then
        ((pool.nextChildren it).filter fun child => decide (child ∉ v)).foldl (fun s c => changeSet true c s) s
        else s).mapParents
        fun c s => if c ∈ (pool.nextChildren it).filter fun child =>
          decide (child ∉ v) then changeSet true it s else s :=
  foldl_link it _

theorem relinked_cons {u p : H} : Relinked R F v (u :: done) p c ↔ Relinked R F v done p c ∨ p = u ∧ F u c ∧ c ∉ v := by
  unfold Relinked
  rw [mem_cons]
  constructor
  · rintro (hR | ⟨rfl | hp, hF⟩)
    · exact .inl (.inl hR)
    · exact .inr ⟨rfl, hF⟩
    · exact .inl (.inr ⟨hp, hF⟩)
  · rintro ((hR | ⟨hp, hF⟩) | ⟨rfl, hF⟩)
    · exact .inl hR
    · exact .inr ⟨.inr hp, hF⟩
    · exact .inr ⟨.inl rfl, hF⟩

section
variable {u : H} {s : Tracked H × (H → List H)} (h : Reorganised T pool R F v) (hsuf : u :: done <:+ v)
  (hu : u ∈ pool.ids T) (hs : Repaired T pool R F v done s)
include h hsuf hu hs

theorem Reorganised.mem_linked (c : H) :
    c ∈ (s.1.nextChildren u).filter (fun child => decide (child ∉ v)) ↔ F u c ∧ c ∉ v := by
  have huv : u ∈ v := hsuf.subset mem_cons_self
  have hnext : s.1.nextChildren u = pool.nextChildren u := by
    unfold nextChildren
    rw [hs.mapNextTx]
  rw [mem_filter, decide_eq_true_eq, hnext, h.next u huv hu]

theorem Reorganised.mem_children_linked (p c : H) :
    c ∈ (linkChildren v s.1 u).children p ↔ Relinked R F v (u :: done) p c := by
  rw [linkChildren_eq, relinked_cons]
  show c ∈ (if p = u then _ else s.1.children p) ↔ _
  split
  · next hp =>
    rw [mem_foldl_changeSet, hs.mem_children, h.mem_linked hsuf hu hs, and_iff_right hp]
  · next hp => rw [hs.mem_children, or_iff_left fun hno => hp hno.1]

theorem Reorganised.mem_parents_linked (p c : H) :
    p ∈ (linkChildren v s.1 u).parents c ↔ Relinked R F v (u :: done) p c := by
  rw [linkChildren_eq, relinked_cons]
  show p ∈ (if _ then changeSet true u (s.1.parents c) else s.1.parents c) ↔ _
  split
  · next hc =>
    rw [mem_changeSet_true, hs.mem_parents, and_iff_left ((h.mem_linked hsuf hu hs c).1 hc)]
  · next hc =>
    rw [hs.mem_parents, or_iff_left fun hno => hc ((h.mem_linked hsuf hu hs c).2 hno.2)]

theorem Reorganised.children_linked_nodup (p : H) : ((linkChildren v s.1 u).children p).Nodup := by
  rw [linkChildren_eq]
  show (if p = u then _ else s.1.children p).Nodup
  split
  · exact foldl_changeSet_nodup (hs.children_nodup p)
  · exact hs.children_nodup p

theorem Reorganised.cacheOk_linked : CacheOk (linkChildren v s.1 u).children s.2 (· ∈ v) := by
  have hin : ∀ c, s.2 c ≠ [] → c ∈ done := by
    intro c hne
    obtain ⟨y, hy⟩ := exists_mem_of_ne_nil _ hne
    exact ((hs.cache c y).1 hy).1
  refine ⟨fun c hne => hsuf.subset (mem_cons_of_mem _ (hin c hne)), fun c hne y => ?_, hs.cache_nodup⟩
  have hc := hin c hne
  simp only [h.mem_children_linked hsuf hu hs]
  rw [hs.cache, h.transGen_relinked hsuf (mem_cons_of_mem _ hc), and_iff_right hc]

theorem Reorganised.mem_counted (y : H) : y ∈ counted T v (linkChildren v s.1 u) s.2 u ↔ TransGen F u y ∧ y ∉ v := by
  have hids : (linkChildren v s.1 u).ids T = pool.ids T := by
    rw [linkChildren_eq]
    show s.1.mapTx.map _ = _
    rw [hs.mapTx]
    rfl
  have hU : ∀ a b, b ∈ (linkChildren v s.1 u).children a → b ∈ (linkChildren v s.1 u).ids T := by
    intro a b hab
    rw [hids]
    rcases (h.mem_children_linked hsuf hu hs a b).1 hab with hR | ⟨-, hF, -⟩
    · exact (h.tallied.support a b hR).2
    · exact (h.support a b hF).2
  rw [counted, mem_filter, decide_eq_true_eq]
  refine and_congr_left fun hy => ?_
  rw [stageDescendants_exact (h.cacheOk_linked hsuf hu hs) hU (h.children_linked_nodup hsuf hu hs u) hy]
  simp only [h.mem_children_linked hsuf hu hs]
  exact h.transGen_relinked hsuf mem_cons_self

theorem Reorganised.own_linked (x : H) : (linkChildren v s.1 u).ownAbove T x = pool.ownAbove T x ∧
      (linkChildren v s.1 u).ownBelow T x = pool.ownBelow T x := by
  have hfind : (linkChildren v s.1 u).find T x = pool.find T x := by
    rw [linkChildren_eq]
    show s.1.mapTx.find? _ = _
    rw [hs.mapTx]
    rfl
  have hdelta : ((linkChildren v s.1 u).state x).feeDelta = (pool.state x).feeDelta := by
    rw [linkChildren_eq]
    exact hs.feeDelta x
  exact ⟨ownAbove_congr hfind hdelta, ownBelow_congr hfind hdelta⟩

theorem Reorganised.ancestors_gain (hdone : u ∉ done) (x : H) :
    ((if x ∈ v then 0 else ∑ y ∈ above (pool.ids T).toFinset F x ∩ done.toFinset, pool.ownAbove T y) +
      if x ∈ counted T v (linkChildren v s.1 u) s.2 u then pool.ownAbove T u else 0) =
    if x ∈ v then 0 else ∑ y ∈ above (pool.ids T).toFinset F x ∩ (u :: done).toFinset, pool.ownAbove T y := by
  have hcount := h.mem_counted hsuf hu hs x
  by_cases hx : x ∈ v
  · rw [if_pos hx, if_pos hx, if_neg fun hno => (hcount.1 hno).2 hx, add_zero]
  · rw [if_neg hx, if_neg hx, toFinset_cons]
    by_cases hux : TransGen F u x
    · have hmem : u ∈ above (pool.ids T).toFinset F x := mem_above.2 ⟨mem_toFinset.2 hu, hux⟩
      have hnew : u ∉ above (pool.ids T).toFinset F x ∩ done.toFinset :=
        fun hno => hdone (mem_toFinset.1 (Finset.mem_inter.1 hno).2)
      rw [if_pos (hcount.2 ⟨hux, hx⟩), Finset.inter_insert_of_mem hmem, Finset.sum_insert hnew, add_comm]
    · have hmem : u ∉ above (pool.ids T).toFinset F x := fun hno => hux (mem_above.1 hno).2
      rw [if_neg fun hno => hux (hcount.1 hno).1, Finset.inter_insert_of_notMem hmem, add_zero]

theorem Reorganised.descendants_gain : ((counted T v (linkChildren v s.1 u) s.2 u).map (pool.ownBelow T)).sum =
      ∑ y ∈ (below (pool.ids T).toFinset F u).filter (· ∉ v), pool.ownBelow T y := by
  have hnodup : (counted T v (linkChildren v s.1 u) s.2 u).Nodup :=
    (stageDescendants_nodup hs.cache_nodup _ nodup_nil).filter _
  rw [← sum_toFinset _ hnodup]
  refine Finset.sum_congr ?_ fun _ _ => rfl
  ext y
  rw [mem_toFinset, h.mem_counted hsuf hu hs, Finset.mem_filter, mem_below, mem_toFinset]
  exact and_congr_left fun _ => ⟨fun huy => ⟨(h.transGen_ids huy).2, huy⟩, fun huy => huy.2⟩

theorem Reorganised.repaired_present (hdone : u ∉ done) :
    Repaired T pool R F v (u :: done) (updateForDescendants T v (linkChildren v s.1 u) s.2 u) := by
  have hgainD := h.descendants_gain hsuf hu hs
  have hgainA := h.ancestors_gain hsuf hu hs hdone
  have hown := h.own_linked hsuf hu hs
  have hchildren := h.mem_children_linked hsuf hu hs
  have hparents := h.mem_parents_linked hsuf hu hs
  have hnodup := h.children_linked_nodup hsuf hu hs
  have hcount := h.mem_counted hsuf hu hs
  have hcounted : (counted T v (linkChildren v s.1 u) s.2 u).Nodup :=
    (stageDescendants_nodup hs.cache_nodup _ nodup_nil).filter _
  have hstate : (linkChildren v s.1 u).state = s.1.state := by rw [linkChildren_eq]; rfl
  rw [updateForDescendants_eq hs.cache_nodup, funext fun x => (hown x).2, (hown u).1, hgainD]
  refine ⟨?_, ?_, ?_, ?_, hparents, hchildren, hnodup, fun x => ?_, fun x => ?_, fun c => ?_, fun c y => ?_⟩
  · rw [linkChildren_eq]
    exact hs.mapTx
  · rw [linkChildren_eq]
    exact hs.mapNextTx
  · rw [linkChildren_eq]
    exact hs.mapDeltas
  · intro x
    show ((linkChildren v s.1 u).state x).feeDelta = _
    rw [hstate]
    exact hs.feeDelta x
  · show ((linkChildren v s.1 u).state x).ancestors + _ = _
    rw [hstate, hs.ancestors, add_assoc, hgainA]
  · show ((linkChildren v s.1 u).state x).descendants + (single u _ : H → DescendantState) x = _
    rw [hstate, hs.descendants, add_assoc]
    by_cases hx : x = u
    · subst hx
      rw [single_eq_same, if_neg hdone, if_pos mem_cons_self, zero_add]
    · rw [single_eq_of_ne hx, add_zero]
      simp only [mem_cons, hx, false_or]
  · show (update s.2 u _ c).Nodup
    by_cases hc : c = u
    · rw [hc, update_self]
      exact hcounted
    · rw [update_of_ne hc]
      exact hs.cache_nodup c
  · show y ∈ update s.2 u _ c ↔ _
    by_cases hc : c = u
    · rw [hc, update_self, hcount]
      exact (and_iff_right mem_cons_self).symm
    · rw [update_of_ne hc, hs.cache, mem_cons, or_iff_right hc]

end

theorem Reorganised.repaired (h : Reorganised T pool R F v) (hsuf : done <:+ v) :
    Repaired T pool R F v done (done.foldr (fun hash s => updateTransaction T v s hash) (pool, fun _ => [])) := by
  induction done with
  | nil => exact h.repaired_nil
  | cons u done ih =>
    have hs := ih ((suffix_cons u done).trans hsuf)
    have hdone : u ∉ done := (nodup_cons.1 (hsuf.sublist.nodup h.nodup)).1
    rw [foldr_cons]
    obtain ⟨s, hfold⟩ : ∃ s, done.foldr (fun hash s => updateTransaction T v s hash) (pool, fun _ => []) = s := ⟨_, rfl⟩
    rw [hfold] at hs ⊢
    have hids : s.1.ids T = pool.ids T := by
      unfold ids
      rw [hs.mapTx]
    unfold updateTransaction
    rw [hids]
    split
    · next hu => exact h.repaired_present hsuf hu hs hdone
    · next hu => exact h.repaired_absent hu hdone hs

theorem updateTransactionsFromBlock_eq (v : List H) : pool.updateTransactionsFromBlock T v =
      (v.foldr (fun hash s => updateTransaction T v s hash) (pool, fun _ => [])).1 := by
  unfold updateTransactionsFromBlock
  rw [foldl_reverse]

theorem Reorganised.entries_same (h : Reorganised T pool R F v) :
    (pool.updateTransactionsFromBlock T v).mapTx = pool.mapTx ∧
      (pool.updateTransactionsFromBlock T v).mapNextTx = pool.mapNextTx := by
  have hs := h.repaired (suffix_refl v)
  rw [updateTransactionsFromBlock_eq]
  exact ⟨hs.mapTx, hs.mapNextTx⟩

theorem Reorganised.updateTransactionsFromBlock (h : Reorganised T pool R F v) :
    Tallied T (pool.updateTransactionsFromBlock T v) F := by
  have hs := h.repaired (suffix_refl v)
  have hjoins := h.joins
  obtain ⟨s, hs'⟩ : ∃ s, v.foldr (fun hash s => updateTransaction T v s hash) (pool, fun _ => []) = s := ⟨_, rfl⟩
  rw [updateTransactionsFromBlock_eq]
  rw [hs'] at hs ⊢
  have hids : s.1.ids T = pool.ids T := by
    unfold ids
    rw [hs.mapTx]
  have hown : ∀ x, s.1.ownAbove T x = pool.ownAbove T x ∧ s.1.ownBelow T x = pool.ownBelow T x := by
    intro x
    have hfind : s.1.find T x = pool.find T x := by
      unfold find
      rw [hs.mapTx]
    exact ⟨ownAbove_congr hfind (hs.feeDelta x), ownBelow_congr hfind (hs.feeDelta x)⟩
  refine ⟨⟨?_, ?_, fun p c => ?_, fun p c => ?_, fun x hx => ?_⟩, hs.children_nodup, ?_, ?_, ?_⟩
  · rw [hids]
    exact h.tallied.nodup
  · rw [hids]
    exact h.support
  · rw [hs.mem_parents, h.relinked_all]
  · rw [hs.mem_children, h.relinked_all]
  · by_cases hxv : x ∈ v
    · exact h.tallied.acyclic x ((hjoins.transGen_top hxv).1 hx)
    · exact h.tallied.acyclic x ((hjoins.transGen_rest hxv).1 hx)
  · rw [hids]
    refine (h.tallied.above.join hjoins ?_ ?_).congr (fun x _ => (hown x).1) fun x _ => rfl
    · intro x _ hx
      rw [hs.ancestors, if_pos hx, add_zero]
    · intro x _ hx
      have hset : above (pool.ids T).toFinset F x ∩ v.toFinset =
          (above (pool.ids T).toFinset F x).filter (· ∈ v) := by
        ext y
        rw [Finset.mem_inter, Finset.mem_filter, mem_toFinset]
      rw [hs.ancestors, if_neg hx, hset]
  · rw [hids]
    refine (h.tallied.below.join hjoins ?_ ?_).congr (fun x _ => (hown x).2) fun x _ => rfl
    · intro x _ hx
      rw [hs.descendants, if_neg hx, add_zero]
    · intro x _ hx
      rw [hs.descendants, if_pos hx]
  · intro x hx
    rw [hs.feeDelta, hs.mapDeltas]
    exact h.tallied.deltas x (hids ▸ hx)

end

end BitCash
