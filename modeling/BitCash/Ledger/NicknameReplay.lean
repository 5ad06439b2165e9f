import BitCash.Mempool.Names

/-!
# Registering the names of a chain again

`RollforwardBlock` and level 4 of `VerifyDB` register the nickname inputs of the last blocks again, over a book that
has them already.
-/

set_option linter.unusedSectionVars false

namespace BitCash
open Checks List Function CNicknameBookData ChainBlock

variable {H : Type} [Inhabited H] [DecidableEq H] {env : Env H} {params : Params H}

/-! ## registrations -/

structure Registration (H : Type) where
  hash : H
  input : CTxIn H

def Registration.nick (r : Registration H) : Bytes := toUpperCopy r.input.nickname

def register (env : Env H) (n : Nicknames H) (r : Registration H) : Nicknames H :=
  addNickname env r.hash n r.input

def ChainBlock.registrations (b : ChainBlock H) : List (Registration H) :=
  (nicknameInputs b.block.vtx).map (⟨b.pindex.hash, ·⟩)

structure Registered (env : Env H) (R : List (Registration H)) : Prop where
  form : ∀ r ∈ R, NameForm env r.input
  names : R.Pairwise fun r s => r.nick ≠ s.nick
  owners : R.Pairwise fun r s => r.input.address = s.input.address →
    signedByMaster env r.input = true ∨ signedByMaster env s.input = true

def findNick (R : List (Registration H)) (u : Bytes) : Option (Registration H) :=
  R.find? fun r => decide (r.nick = u)

def findOwner (env : Env H) (R : List (Registration H)) (a : CPubKey) : Option (Registration H) :=
  R.find? fun r => decide (r.input.address = a) && !signedByMaster env r.input

def Registration.entry (r : Registration H) (now : Bytes) : CNicknameBookData H :=
  ⟨r.input.address, r.hash, decide (r.nick ≠ toUpperCopy now), r.input.isnonprivatenickname,
    r.input.nicknamehasviewkey, r.input.viewpubkey⟩

def bookOf (env : Env H) (R : List (Registration H)) (cur : CPubKey → Bytes) : Nicknames H where
  mapNicknameBook u := ((findNick R u).map fun r => r.entry (cur r.input.address)).getD default
  mapAddressForNicknameBook a := ⟨cur a, ((findOwner env R a).map (·.hash)).getD default⟩

/-- the registered addresses have one of their names, and the others have none -/
structure Current (R : List (Registration H)) (cur : CPubKey → Bytes) : Prop where
  named : ∀ r ∈ R, ∃ s ∈ R, s.input.address = r.input.address ∧ cur r.input.address = s.input.nickname
  free : ∀ a, (∀ r ∈ R, r.input.address ≠ a) → cur a = []

def renamed (cur : CPubKey → Bytes) (r : Registration H) : CPubKey → Bytes :=
  Function.update cur r.input.address r.input.nickname

/-! ## finding a registration -/

variable {R : List (Registration H)} {r : Registration H} {u : Bytes}

theorem findNick_eq (hR : R.Pairwise fun r s => r.nick ≠ s.nick) (hr : r ∈ R) : findNick R r.nick = some r := by
  induction R with
  | nil => cases hr
  | cons s R ih =>
    rw [pairwise_cons] at hR
    unfold findNick
    rcases mem_cons.1 hr with rfl | hr
    · exact find?_cons_of_pos (decide_eq_true rfl)
    · rw [find?_cons_of_neg (by simpa using hR.1 r hr)]
      exact ih hR.2 hr

theorem findNick_some (h : findNick R u = some r) : r ∈ R ∧ r.nick = u := by
  have hp := find?_some h
  exact ⟨mem_of_find?_eq_some h, of_decide_eq_true hp⟩

theorem findOwner_eq (hR : R.Pairwise fun r s => r.input.address = s.input.address →
      signedByMaster env r.input ∨ signedByMaster env s.input)
    (hr : r ∈ R) (hown : signedByMaster env r.input = false) : findOwner env R r.input.address = some r := by
  induction R with
  | nil => cases hr
  | cons s R ih =>
    rw [pairwise_cons] at hR
    unfold findOwner
    rcases mem_cons.1 hr with rfl | hr
    · exact find?_cons_of_pos (by simp [hown])
    · rw [find?_cons_of_neg]
      · exact ih hR.2 hr
      · -- an earlier registration of the address is signed with the master key
        simp only [Bool.and_eq_true, decide_eq_true_eq, Bool.not_eq_true', not_and, Bool.not_eq_false]
        intro ha
        rcases hR.1 r hr ha with hs | hs
        · exact hs
        · rw [hown] at hs
          cases hs

/-! ## one registration -/

variable {cur : CPubKey → Bytes} {i : CTxIn H} {l : List (ChainBlock H)} {bh : H}

section
variable (hR : Registered env R)
include hR

theorem Current.find (hcur : Current R cur) {a : CPubKey} (ha : 0 < (cur a).length) :
    ∃ s, findNick R (toUpperCopy (cur a)) = some s ∧ s.input.address = a := by
  by_cases hreg : ∀ r ∈ R, r.input.address ≠ a
  · rw [hcur.free a hreg] at ha
    exact absurd ha (lt_irrefl 0)
  · simp only [not_forall, not_not] at hreg
    obtain ⟨r, hr, rfl⟩ := hreg
    obtain ⟨s, hs, haddr, hname⟩ := hcur.named r hr
    refine ⟨s, ?_, haddr⟩
    rw [hname]
    exact findNick_eq hR.names hs

theorem Current.named_pos (hcur : Current R cur) (hr : r ∈ R) : 0 < (cur r.input.address).length:= by
  obtain ⟨s, hs, -, hname⟩ := hcur.named r hr
  have hshort := (hR.form s hs).short
  rw [hname]
  omega

theorem register_other (hcur : Current R cur) (hu : u ≠ r.nick) :
    (register env (bookOf env R cur) r).mapNicknameBook u =
      ((findNick R u).map fun t => t.entry (renamed cur r t.input.address)).getD default := by
  unfold register
  rw [addNickname_other r.input hu]
  show (if 0 < (cur r.input.address).length ∧ u = toUpperCopy (cur r.input.address) then
    markInvalid (((findNick R u).map fun t => t.entry (cur t.input.address)).getD default)
    else ((findNick R u).map fun t => t.entry (cur t.input.address)).getD default) = _
  cases hfind : findNick R u with
  | none =>
    rw [if_neg]
    · rfl
    · rintro ⟨hpos, hname⟩
      obtain ⟨s, hs, -⟩ := hcur.find hR hpos
      rw [← hname, hfind] at hs
      cases hs
  | some t =>
    obtain ⟨ht, hnick⟩ := findNick_some hfind
    by_cases ha : t.input.address = r.input.address
    · -- the address gets another name than this one
      have hnew : t.entry (renamed cur r t.input.address) = (t.entry (cur t.input.address)).markInvalid := by
        have hne : t.nick ≠ toUpperCopy r.input.nickname := by
          rw [hnick]
          exact hu
        unfold renamed Registration.entry markInvalid
        rw [ha, update_self, decide_eq_true hne]
      show (if _ then _ else t.entry (cur t.input.address)) = t.entry (renamed cur r t.input.address)
      rw [hnew]
      split
      · rfl
      · next hold =>
        have hpos := hcur.named_pos hR ht
        have hne : t.nick ≠ toUpperCopy (cur t.input.address) := by
          rw [hnick, ha]
          rw [ha] at hpos
          exact fun h => hold ⟨hpos, h⟩
        unfold Registration.entry markInvalid
        rw [decide_eq_true hne]
    · have hkeep : renamed cur r t.input.address = cur t.input.address := update_of_ne ha _ _
      rw [if_neg]
      · show t.entry (cur t.input.address) = t.entry (renamed cur r t.input.address)
        rw [hkeep]
      · rintro ⟨hpos, hname⟩
        obtain ⟨s, hs, haddr⟩ := hcur.find hR hpos
        rw [← hname, hfind] at hs
        cases hs
        exact ha haddr

theorem register_bookOf {R' : List (Registration H)} (hcur : Current R cur)
    (hself : findNick R' r.nick = some r) (hnick : ∀ u, u ≠ r.nick → findNick R' u = findNick R u)
    (howner : signedByMaster env r.input = false → findOwner env R' r.input.address = some r)
    (hothers : ∀ a, a ≠ r.input.address ∨ signedByMaster env r.input →
      findOwner env R' a = findOwner env R a) : register env (bookOf env R cur) r = bookOf env R' (renamed cur r) := by
  have hnames : (register env (bookOf env R cur) r).mapNicknameBook =
      (bookOf env R' (renamed cur r)).mapNicknameBook := by
    funext u
    show _ = ((findNick R' u).map fun t => t.entry (renamed cur r t.input.address)).getD default
    by_cases hu : u = r.nick
    · have hentry : r.entry (renamed cur r r.input.address) =
          ⟨r.input.address, r.hash, false, r.input.isnonprivatenickname, r.input.nicknamehasviewkey,
            r.input.viewpubkey⟩ := by
        have hsame : ¬ r.nick ≠ toUpperCopy r.input.nickname := fun h => h rfl
        unfold renamed Registration.entry
        rw [update_self, decide_eq_false hsame]
      rw [hu, hself]
      show _ = r.entry (renamed cur r r.input.address)
      rw [hentry]
      exact addNickname_entry r.hash _ r.input
    · rw [register_other hR hcur hu, hnick u hu]
  have haddresses : (register env (bookOf env R cur) r).mapAddressForNicknameBook =
      (bookOf env R' (renamed cur r)).mapAddressForNicknameBook := by
    funext a
    show _ = (⟨renamed cur r a, ((findOwner env R' a).map (·.hash)).getD default⟩ : CNicknameAddrBookData H)
    by_cases ha : a = r.input.address
    · subst ha
      have hadd : (register env (bookOf env R cur) r).mapAddressForNicknameBook r.input.address =
          ⟨r.input.nickname, if !signedByMaster env r.input then r.hash else
            ((findOwner env R r.input.address).map (·.hash)).getD default⟩ := by
        show (if r.input.address = r.input.address then _ else _) = _
        rw [if_pos rfl]
        congr 1
        split
        · rfl
        · split <;> rfl
      rw [hadd, show renamed cur r r.input.address = r.input.nickname from update_self ..]
      cases hm : signedByMaster env r.input with
      | false =>
        rw [howner hm]
        rfl
      | true =>
        rw [hothers _ (.inr hm)]
        rfl
    · have hkeep : renamed cur r a = cur a := update_of_ne ha _ _
      rw [hkeep, hothers a (.inl ha)]
      exact addNickname_address r.input ha
  show Nicknames.mk _ _ = Nicknames.mk _ _
  rw [Nicknames.mk.injEq]
  exact ⟨hnames, haddresses⟩

end

/-! ## all registrations -/

def namesAfter (cur : CPubKey → Bytes) (R : List (Registration H)) : CPubKey → Bytes :=
  R.foldl renamed cur

theorem register_again (hR : Registered env R) (hcur : Current R cur) (hr : r ∈ R) :
    register env (bookOf env R cur) r = bookOf env R (renamed cur r) :=
  register_bookOf hR hcur (findNick_eq hR.names hr) (fun _ _ => rfl) (findOwner_eq hR.owners hr) fun _ _ => rfl

theorem Current.again (hcur : Current R cur) (hr : r ∈ R) : Current R (renamed cur r) := by
  refine ⟨fun t ht => ?_, fun a ha => ?_⟩
  · by_cases hta : t.input.address = r.input.address
    · refine ⟨r, hr, hta.symm, ?_⟩
      unfold renamed
      rw [hta, update_self]
    · unfold renamed
      rw [update_of_ne hta]
      exact hcur.named t ht
  · unfold renamed
    rw [update_of_ne fun h => ha r hr h.symm]
    exact hcur.free a ha

theorem register_new (hR : Registered env (R ++ [r])) (hcur : Current R cur) :
    register env (bookOf env R cur) r = bookOf env (R ++ [r]) (renamed cur r) := by
  have hold : Registered env R := ⟨fun s hs => hR.form s (mem_append_left _ hs),
    (pairwise_append.1 hR.names).1, (pairwise_append.1 hR.owners).1⟩
  have hlast : r ∈ R ++ [r] := mem_append_right R (mem_singleton_self r)
  refine register_bookOf hold hcur (findNick_eq hR.names hlast) (fun u hu => ?_)
    (findOwner_eq hR.owners hlast) fun a ha => ?_
  · have hnone : findNick [r] u = none := by
      unfold findNick
      rw [find?_cons_of_neg (by simpa using hu.symm), find?_nil]
    show (R ++ [r]).find? _ = _
    rw [find?_append]
    show (findNick R u).or (findNick [r] u) = findNick R u
    rw [hnone, Option.or_none]
  · have hnone : findOwner env [r] a = none := by
      unfold findOwner
      rw [find?_cons_of_neg, find?_nil]
      rcases ha with ha | ha
      · simp [ha.symm]
      · simp [ha]
    show (R ++ [r]).find? _ = _
    rw [find?_append]
    show (findOwner env R a).or (findOwner env [r] a) = findOwner env R a
    rw [hnone, Option.or_none]

theorem Current.new (hcur : Current R cur) (r : Registration H) : Current (R ++ [r]) (renamed cur r) := by
  refine ⟨fun t ht => ?_, fun a ha => ?_⟩
  · by_cases hta : t.input.address = r.input.address
    · refine ⟨r, mem_append_right R (mem_singleton_self r), hta.symm, ?_⟩
      unfold renamed
      rw [hta, update_self]
    · rcases mem_append.1 ht with ht | ht
      · obtain ⟨s, hs, hst, hname⟩ := hcur.named t ht
        refine ⟨s, mem_append_left _ hs, hst, ?_⟩
        unfold renamed
        rw [update_of_ne hta, hname]
      · rw [mem_singleton.1 ht] at hta
        exact absurd rfl hta
  · unfold renamed
    rw [update_of_ne fun h =>
      ha r (mem_append_right R (mem_singleton_self r)) h.symm]
    exact hcur.free a fun s hs => ha s (mem_append_left _ hs)

theorem registered_bookOf (hR : Registered env R) :
    R.foldl (register env) .empty = bookOf env R (namesAfter (fun _ => []) R) ∧
      Current R (namesAfter (fun _ => []) R) := by
  induction R using reverseRecOn with
  | nil => exact ⟨rfl, ⟨fun r hr => absurd hr not_mem_nil, fun _ _ => rfl⟩⟩
  | append_singleton R r ih =>
    have hold : Registered env R := ⟨fun s hs => hR.form s (mem_append_left _ hs),
      (pairwise_append.1 hR.names).1, (pairwise_append.1 hR.owners).1⟩
    obtain ⟨hbook, hcur⟩ := ih hold
    unfold namesAfter at hcur hbook ⊢
    rw [foldl_append, foldl_append, hbook]
    exact ⟨register_new hR hcur, hcur.new r⟩

theorem registered_again {Q : List (Registration H)} (hR : Registered env R)
    (hcur : Current R cur) (hQ : ∀ r ∈ Q, r ∈ R) :
    Q.foldl (register env) (bookOf env R cur) = bookOf env R (namesAfter cur Q) ∧ Current R (namesAfter cur Q) := by
  induction Q generalizing cur with
  | nil => exact ⟨rfl, hcur⟩
  | cons r Q ih =>
    rw [forall_mem_cons] at hQ
    rw [foldl_cons, register_again hR hcur hQ.1]
    exact ih (hcur.again hQ.1) hQ.2

theorem namesAfter_idem (cur : CPubKey → Bytes) (Q : List (Registration H)) :
    namesAfter (namesAfter cur Q) Q = namesAfter cur Q := by
  have hkeep : ∀ (Q : List (Registration H)) (c : CPubKey → Bytes) (a : CPubKey),
      (∀ r ∈ Q, r.input.address ≠ a) → namesAfter c Q a = c a := by
    intro Q
    induction Q with
    | nil => intro c a _; rfl
    | cons r Q ih =>
      intro c a ha
      rw [forall_mem_cons] at ha
      exact (ih (renamed c r) a ha.2).trans (update_of_ne ha.1.symm _ _)
  have hsame : ∀ (Q : List (Registration H)) (c d : CPubKey → Bytes) (a : CPubKey),
      (∃ r ∈ Q, r.input.address = a) → namesAfter c Q a = namesAfter d Q a := by
    intro Q
    induction Q with
    | nil => rintro c d a ⟨r, hr, -⟩; cases hr
    | cons r Q ih =>
      intro c d a ha
      show namesAfter (renamed c r) Q a = namesAfter (renamed d r) Q a
      by_cases hQ : ∃ s ∈ Q, s.input.address = a
      · exact ih _ _ a hQ
      · have hno : ∀ s ∈ Q, s.input.address ≠ a := fun s hs hsa => hQ ⟨s, hs, hsa⟩
        obtain ⟨s, hs, hsa⟩ := ha
        rcases mem_cons.1 hs with rfl | hs
        · rw [hkeep Q _ a hno, hkeep Q _ a hno]
          unfold renamed
          rw [← hsa, update_self, update_self]
        · exact absurd hsa (hno s hs)
  funext a
  by_cases ha : ∃ r ∈ Q, r.input.address = a
  · exact hsame Q _ _ a ha
  · exact hkeep Q _ a fun r hr hra => ha ⟨r, hr, hra⟩

/-! ## the rules -/

theorem checkNicknameInput_hash_iff {nicks : Nicknames H} :
    checkNicknameInput env nicks bh true i = .ok () ↔ NameForm env i ∧
        (nicks.doesNicknameExist i.nickname → nicks.getHashForNickname i.nickname = bh) ∧
        (0 < (nicks.getNicknameForAddress i.address).length →
          nicks.getHashForAddress i.address = bh ∨ signedByMaster env i) := by
  simp only [checkNicknameInput, bind_ok, need_ok, exists_const, decide_eq_true_eq, Bool.not_true,
    Bool.false_or, Bool.not_eq_true', Bool.and_eq_false_iff, decide_eq_false_iff_not, not_not,
    Bool.not_eq_false', not_lt]
  constructor
  · rintro ⟨h3, h20, hc, hex, ha, hnamed, hs⟩
    refine ⟨⟨h3, h20, hc, ha, hs⟩, fun he => ?_, fun hlen => ?_⟩
    · rcases hex with hex | hex
      · rw [he] at hex
        cases hex
      · exact hex
    · rcases hnamed with (hnamed | hnamed) | hnamed
      · omega
      · exact .inl hnamed
      · exact .inr hnamed
  · rintro ⟨⟨h3, h20, hc, ha, hs⟩, hex, hnamed⟩
    refine ⟨h3, h20, hc, ?_, ha, ?_, hs⟩
    · cases he : nicks.doesNicknameExist i.nickname with
      | false => exact .inl rfl
      | true => exact .inr (hex he)
    · by_cases hlen : 0 < (nicks.getNicknameForAddress i.address).length
      · rcases hnamed hlen with h | h
        · exact .inl (.inr h)
        · exact .inr h
      · exact .inl (.inl (by omega))

theorem isCoinBase_not_nickname {tx : CTransaction H} (h : tx.isCoinBase)
    (hi : i ∈ tx.vin) : i.isnickname = false := by
  unfold CTransaction.isCoinBase isCoinBaseVin at h
  split at h
  · rename_i j hv
    rw [Bool.and_eq_true, Bool.not_eq_true'] at h
    rw [hv] at hi
    rw [mem_singleton.1 hi]
    exact h.2
  · cases h

theorem connectLoop_nicknames {ctx : ConnectContext H} {block : CBlock H} {view : CCoinsViewCache H}
    {c : ConnectLoop H} (h : connectLoop env params ctx block view = .ok c) {i : CTxIn H}
    (hi : i ∈ nicknameInputs block.vtx) :
    checkNicknameInput env ctx.nicks (block.getHash env) true i = .ok () := by
  obtain ⟨tx, htx, hmem⟩ := mem_flatMap.1 hi
  obtain ⟨hvin, hnick⟩ := mem_filter.1 hmem
  obtain ⟨p, q, hsplit⟩ := append_of_mem htx
  unfold connectLoop at h
  rw [hsplit] at h
  obtain ⟨s, t, -, hone, -⟩ := run_split h
  have hcb : tx.isCoinBase = false := by
    cases hcb : tx.isCoinBase with
    | false => rfl
    | true =>
      rw [isCoinBase_not_nickname hcb hvin] at hnick
      cases hnick
  obtain ⟨txfee, hin, -, -⟩ := connectFee_ok hcb (connectTx_ok hone).1
  simp only [checkTxInputs, bind_ok, need_ok, exists_const] at hin
  obtain ⟨-, total, hrun, -⟩ := hin
  obtain ⟨p', q', hsplit'⟩ := append_of_mem hvin
  rw [hsplit'] at hrun
  obtain ⟨u, v, -, hrule, -⟩ := run_split hrun
  rw [checkTxIn, hnick, if_pos rfl, bind_ok] at hrule
  obtain ⟨_, hok, -⟩ := hrule
  exact hok

theorem blockRules_pairwise {block : CBlock H} {pow merkle : Bool}
    (h : blockRules env params block pow merkle = .ok ()) : (nicknameInputs block.vtx).Pairwise (MayFollow env) := by
  have hbody := (blockRules_ok.1 h).2.2.2
  rw [nicknameInputs_tail hbody]
  simp only [bodyRules, bind_ok, need_ok, exists_const] at hbody
  obtain ⟨-, -, -, -, -, -, t, ht, -⟩ := hbody
  exact (checkDuplicateNicks_iff.1 ⟨t, ht⟩).2

/-! ## chains -/

inductive IndexedChain (env : Env H) (params : Params H) : ActiveChain H → Prop
  | genesis : IndexedChain env params (.genesis params)
  | connect {a a' : ActiveChain H} (ha : IndexedChain env params a) (l : LocalEnv H) (undoPos : Res Nat)
      (block : CBlock H) (pindex : CBlockIndex H) (htop : OnTop env params a block pindex)
      (hnew : ∀ b ∈ a.blocks, b.pindex.hash ≠ pindex.hash)
      (h : connectNext (env.withLocal l) params undoPos a block pindex = .ok a') :
      IndexedChain env params a'

def chainRegistrations (blocks : List (ChainBlock H)) : List (Registration H) :=
  blocks.reverse.flatMap ChainBlock.registrations

/-- the registrations of some blocks, the oldest first, over a book -/
def replay (env : Env H) (blocks : List (ChainBlock H)) (n : Nicknames H) : Nicknames H :=
  blocks.foldl (fun n b => addNicknames env (b.block.getHash env) b.block.vtx n) n

theorem chainRegistrations_cons (b : ChainBlock H) (l : List (ChainBlock H)) :
    chainRegistrations (b :: l) = chainRegistrations l ++ b.registrations := by
  unfold chainRegistrations
  rw [reverse_cons, flatMap_append, flatMap_singleton]

theorem addNicknames_eq (env : Env H) (b : ChainBlock H) (n : Nicknames H) :
    addNicknames env b.pindex.hash b.block.vtx n = b.registrations.foldl (register env) n := by
  unfold addNicknames registrations
  rw [foldl_map]
  rfl

theorem Registered.follows (hR : Registered env R) (hcur : Current R cur) (hnew : ∀ r ∈ R, r.hash ≠ bh)
    (h : checkNicknameInput env (bookOf env R cur) bh true i = .ok ()) (hr : r ∈ R) :
    r.nick ≠ toUpperCopy i.nickname ∧ (r.input.address = i.address →
      signedByMaster env r.input ∨ signedByMaster env i) := by
  obtain ⟨hform, hname, haddr⟩ := checkNicknameInput_hash_iff.1 h
  constructor
  · intro heq
    have hentry : (bookOf env R cur).mapNicknameBook (toUpperCopy i.nickname) = r.entry (cur r.input.address) := by
      show ((findNick R (toUpperCopy i.nickname)).map _).getD default = _
      rw [← heq, findNick_eq hR.names hr]
      rfl
    have hexists : (bookOf env R cur).doesNicknameExist i.nickname := by
      unfold Nicknames.doesNicknameExist
      rw [dropAt_valid hform.chars, hentry]
      exact (hR.form r hr).address
    have hhash := hname hexists
    unfold Nicknames.getHashForNickname at hhash
    rw [hentry] at hhash
    exact hnew r hr hhash
  · intro ha
    cases hm : signedByMaster env r.input with
    | true => exact .inl rfl
    | false =>
      right
      have hpos : 0 < ((bookOf env R cur).getNicknameForAddress i.address).length := by
        show 0 < (cur i.address).length
        rw [← ha]
        exact hcur.named_pos hR hr
      rcases haddr hpos with hhash | hsigned
      · have hown : (bookOf env R cur).getHashForAddress i.address = r.hash := by
          show ((findOwner env R i.address).map (·.hash)).getD default = r.hash
          rw [← ha, findOwner_eq hR.owners hr hm]
          rfl
        rw [hown] at hhash
        exact absurd hhash (hnew r hr)
      · exact hsigned

/-- **the registrations of a chain** -/
structure ChainNames (env : Env H) (a : ActiveChain H) : Prop where
  registered : Registered env (chainRegistrations a.blocks)
  book : a.nicks = (chainRegistrations a.blocks).foldl (register env) .empty
  hash : ∀ b ∈ a.blocks, b.pindex.hash = b.block.getHash env

theorem mem_chainRegistrations : r ∈ chainRegistrations l ↔ ∃ b ∈ l, r ∈ b.registrations := by
  unfold chainRegistrations
  simp only [mem_flatMap, mem_reverse]

theorem IndexedChain.names {a : ActiveChain H} (h : IndexedChain env params a) : ChainNames env a := by
  induction h with
  | genesis =>
    refine ⟨⟨fun r hr => absurd hr not_mem_nil, .nil, .nil⟩, rfl, fun b hb => ?_⟩
    exact absurd hb not_mem_nil
  | @connect a a' ha l undoPos block pindex htop hnew h ih =>
    obtain ⟨c, hc⟩ := connectNext_ok (htop.withLocal l) h
    obtain ⟨hbook, hcur⟩ := registered_bookOf ih.registered
    have hcheck : ∀ i ∈ nicknameInputs block.vtx, checkNicknameInput env a.nicks
        (block.getHash env) true i = .ok () := fun i hi =>
      @connectLoop_nicknames _ _ _ (env.withLocal l) _ _ _ _ _ hc.loop _ hi
    rw [ih.book, hbook] at hcheck
    have hother : ∀ r ∈ chainRegistrations a.blocks, r.hash ≠ block.getHash env := by
      intro r hr
      obtain ⟨b, hb, hmem⟩ := mem_chainRegistrations.1 hr
      obtain ⟨i, -, rfl⟩ := mem_map.1 hmem
      have hhash : pindex.hash = block.getHash env := hc.hash
      rw [← hhash]
      exact hnew b hb
    have hblock : (nicknameInputs block.vtx).Pairwise (MayFollow env) :=
      @blockRules_pairwise _ _ _ (env.withLocal l) _ _ _ _ hc.rules
    refine ⟨?_, ?_, ?_⟩
    · rw [hc.blocks, chainRegistrations_cons]
      refine ⟨fun r hr => ?_, pairwise_append.2 ⟨ih.registered.names, ?_, fun r hr s hs => ?_⟩,
        pairwise_append.2 ⟨ih.registered.owners, ?_, fun r hr s hs => ?_⟩⟩
      · rcases mem_append.1 hr with hr | hr
        · exact ih.registered.form r hr
        · obtain ⟨i, hi, rfl⟩ := mem_map.1 hr
          exact (checkNicknameInput_hash_iff.1 (hcheck i hi)).1
      · exact pairwise_map.2 (hblock.imp fun hf => hf.1)
      · obtain ⟨i, hi, rfl⟩ := mem_map.1 hs
        exact (ih.registered.follows hcur hother (hcheck i hi) hr).1
      · exact pairwise_map.2 (hblock.imp fun hf ha => .inr (hf.2 ha))
      · obtain ⟨i, hi, rfl⟩ := mem_map.1 hs
        exact (ih.registered.follows hcur hother (hcheck i hi) hr).2
    · rw [hc.nicks, hc.blocks, chainRegistrations_cons, foldl_append, ← ih.book]
      exact addNicknames_eq env ⟨block, pindex, c.vtxundo⟩ a.nicks
    · rw [hc.blocks]
      intro b hb
      rcases mem_cons.1 hb with rfl | hb
      · exact hc.hash
      · exact ih.hash b hb

/-! ## registering again -/

def OneName (n : Nicknames H) : Prop :=
  ∀ a : CPubKey, a.isValid = true →
    (∀ u, (n.mapNicknameBook u).pubkey = a → (n.mapNicknameBook u).invalid = false →
      u = toUpperCopy (n.getNicknameForAddress a)) ∧
    (0 < (n.getNicknameForAddress a).length →
      (n.mapNicknameBook (toUpperCopy (n.getNicknameForAddress a))).pubkey = a ∧
        (n.mapNicknameBook (toUpperCopy (n.getNicknameForAddress a))).invalid = false)

theorem bookOf_oneName (hR : Registered env R) (hcur : Current R cur) : OneName (bookOf env R cur) := by
  intro a ha
  constructor
  · intro u hpub hvalid
    change (((findNick R u).map
      fun r : Registration H => r.entry (cur r.input.address)).getD default).pubkey = a at hpub
    change (((findNick R u).map
      fun r : Registration H => r.entry (cur r.input.address)).getD default).invalid = false at hvalid
    cases hfind : findNick R u with
    | none =>
      rw [hfind] at hpub
      rw [← hpub] at ha
      cases ha
    | some r =>
      rw [hfind] at hpub hvalid
      have haddr : r.input.address = a := hpub
      have hnick : ¬ r.nick ≠ toUpperCopy (cur r.input.address) := of_decide_eq_false hvalid
      rw [haddr, not_not, (findNick_some hfind).2] at hnick
      exact hnick
  · intro hpos
    obtain ⟨s, hs, hsa⟩ := hcur.find hR hpos
    have hentry : (bookOf env R cur).mapNicknameBook (toUpperCopy (cur a)) = s.entry (cur a) := by
      show ((findNick R (toUpperCopy (cur a))).map
        fun r : Registration H => r.entry (cur r.input.address)).getD default = _
      rw [hs, ← hsa]
      rfl
    show ((bookOf env R cur).mapNicknameBook (toUpperCopy (cur a))).pubkey = a ∧ _
    rw [show (bookOf env R cur).getNicknameForAddress a = cur a from rfl, hentry]
    refine ⟨hsa, decide_eq_false fun h => h ?_⟩
    exact (findNick_some hs).2

theorem bookOf_passes (hR : Registered env R) (hr : r ∈ R) :
    checkNicknameInput env (bookOf env R cur) r.hash true r.input = .ok () := by
  refine checkNicknameInput_hash_iff.2 ⟨hR.form r hr, fun _ => ?_, fun _ => ?_⟩
  · show (((findNick R r.nick).map
      fun t : Registration H => t.entry (cur t.input.address)).getD default).hash = r.hash
    rw [findNick_eq hR.names hr]
    rfl
  · cases hm : signedByMaster env r.input with
    | true => exact .inr rfl
    | false =>
      left
      show ((findOwner env R r.input.address).map (·.hash)).getD default = r.hash
      rw [findOwner_eq hR.owners hr hm]
      rfl

theorem replay_eq (hl : ∀ b ∈ l, b.pindex.hash = b.block.getHash env) (n : Nicknames H) :
    replay env l n = (l.flatMap registrations).foldl (register env) n := by
  induction l generalizing n with
  | nil => rfl
  | cons b l ih =>
    rw [forall_mem_cons] at hl
    rw [flatMap_cons, foldl_append, ← addNicknames_eq, hl.1]
    exact ih hl.2 _

/-- **registering the inputs of a suffix of a chain again is harmless**: every input passes the nickname
rules of `CheckTxInputs` in the book that the replay has reached, an address has one valid name there,
and in the end the book is what it was -/
theorem replay_harmless {a : ActiveChain H} (h : IndexedChain env params a)
    {last old : List (ChainBlock H)} (hlast : a.blocks = last ++ old) : replay env last.reverse a.nicks = a.nicks ∧
      (∀ done rest, last.reverse = done ++ rest → OneName (replay env done a.nicks)) ∧
      ∀ done b rest, last.reverse = done ++ b :: rest → ∀ i ∈ nicknameInputs b.block.vtx,
        checkNicknameInput env (replay env done a.nicks) (b.block.getHash env) true i = .ok () := by
  have hn := h.names
  have hR := hn.registered
  obtain ⟨hbook, hcur⟩ := registered_bookOf hR
  have hhash : ∀ b ∈ last.reverse, b.pindex.hash = b.block.getHash env := by
    intro b hb
    exact hn.hash b (hlast ▸ mem_append_left old (List.mem_reverse.1 hb))
  have hmem : ∀ b ∈ last.reverse, ∀ r ∈ b.registrations, r ∈ chainRegistrations a.blocks := by
    intro b hb r hr
    refine mem_chainRegistrations.2 ⟨b, ?_, hr⟩
    exact hlast ▸ mem_append_left old (List.mem_reverse.1 hb)
  have hstate : ∀ done rest, last.reverse = done ++ rest →
      replay env done a.nicks = bookOf env (chainRegistrations a.blocks)
        (namesAfter (namesAfter (fun _ => []) (chainRegistrations a.blocks))
          (done.flatMap ChainBlock.registrations)) ∧
      Current (chainRegistrations a.blocks) (namesAfter (namesAfter (fun _ => []) (chainRegistrations a.blocks))
          (done.flatMap ChainBlock.registrations)) := by
    intro done rest hsplit
    have hdone : ∀ b ∈ done, b ∈ last.reverse := fun b hb => hsplit ▸ mem_append_left rest hb
    rw [replay_eq fun b hb => hhash b (hdone b hb), hn.book, hbook]
    refine registered_again hR hcur fun r hr => ?_
    obtain ⟨b, hb, hrb⟩ := List.mem_flatMap.1 hr
    exact hmem b (hdone b hb) r hrb
  refine ⟨?_, fun done rest hsplit => ?_, fun done b rest hsplit i hi => ?_⟩
  · -- the names of the suffix are the last ones already
    have hparts : chainRegistrations a.blocks =
        chainRegistrations old ++ last.reverse.flatMap ChainBlock.registrations := by
      unfold chainRegistrations
      rw [hlast, reverse_append, flatMap_append]
    have hsame : namesAfter (namesAfter (fun _ => []) (chainRegistrations a.blocks))
        (last.reverse.flatMap ChainBlock.registrations) = namesAfter (fun _ => []) (chainRegistrations a.blocks) := by
      rw [hparts]
      unfold namesAfter
      rw [foldl_append]
      exact namesAfter_idem _ _
    rw [(hstate last.reverse [] (append_nil _).symm).1, hsame, hn.book, hbook]
  · obtain ⟨hreplay, hnow⟩ := hstate done rest hsplit
    rw [hreplay]
    exact bookOf_oneName hR hnow
  · have hb : b ∈ last.reverse := hsplit ▸ mem_append_right done mem_cons_self
    rw [(hstate done (b :: rest) hsplit).1, ← hhash b hb]
    exact bookOf_passes hR (r := ⟨b.pindex.hash, i⟩) (hmem b hb _ (mem_map_of_mem hi))

/-! ## bob and ann -/

theorem IndexedChain.extend {a a' : ActiveChain Digest} {n : UInt8} {vtx : List (CTransaction Digest)}
    (ha : IndexedChain symEnv symParams a) (h : extend a n vtx = .ok a')
    (hnew : ∀ b ∈ a.blocks, b.pindex.hash ≠ (indexOn a (blockOn a halfDollar n vtx)).hash) :
    IndexedChain symEnv symParams a' :=
  .connect ha symEnv.localEnv (.ok 0) _ _ (blockOn_onTop rfl a halfDollar n vtx) hnew h

theorem annChain_connected : IndexedChain symEnv symParams annChain := by
  have hbob : extend (.genesis symParams) 1 [registerTx [98, 111, 98] dev1ScriptPubKey] =
      .ok bobChain := eq_valueOr (by decide)
  have hann : extend bobChain 2 [registerTx [97, 110, 110] nicknameMasterPubKey] = .ok annChain :=
    eq_valueOr (by decide)
  have hgenesis : IndexedChain symEnv symParams (.genesis symParams) := .genesis
  exact (hgenesis.extend hbob fun b hb => absurd hb not_mem_nil).extend hann (by decide)

/-- bob and ann, two names of one address, registered again -/
theorem replay_harmless_ann : IndexedChain symEnv symParams annChain ∧
      replay symEnv annChain.blocks.reverse annChain.nicks = annChain.nicks ∧ OneName annChain.nicks := by
  have hall : annChain.blocks = annChain.blocks ++ [] := (append_nil _).symm
  have h := replay_harmless annChain_connected hall
  exact ⟨annChain_connected, h.1, h.2.1 [] _ rfl⟩

end BitCash
