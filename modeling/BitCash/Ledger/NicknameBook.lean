import BitCash.Chain.Branch
import BitCash.Ledger.Registration

/-!
# The nickname book and the active chain

`ConnectBlock` registers the nickname inputs of a block and `DisconnectBlock` deletes them again.
-/

set_option linter.unusedSectionVars false

namespace BitCash
open Checks Runs List

variable {H : Type} [Inhabited H] [DecidableEq H] {env : Env H} {params : Params H}
  {m : Nicknames H} {block : CBlock H} {i : CTxIn H} {u : Bytes} {d e : CNicknameBookData H} {a : CPubKey}

structure SameAnswers (n m : Nicknames H) : Prop where
  getAddressForNickname : ∀ nick, n.getAddressForNickname nick = m.getAddressForNickname nick
  getNicknameForAddress : ∀ a, n.getNicknameForAddress a = m.getNicknameForAddress a
  doesNicknameExist : ∀ nick, n.doesNicknameExist nick = m.doesNicknameExist nick
  getHashForNickname : ∀ nick, n.getHashForNickname nick = m.getHashForNickname nick
  getHashForAddress : ∀ a, n.getHashForAddress a = m.getHashForAddress a
  isNonPrivateNickname : ∀ nick, n.isNonPrivateNickname nick = m.isNonPrivateNickname nick
  hasViewKeyNickname : ∀ nick, n.hasViewKeyNickname nick = m.hasViewKeyNickname nick
  getViewKeyNickname : ∀ nick, n.getViewKeyNickname nick = m.getViewKeyNickname nick

/-- the nickname inputs of a chain, newest block first, registered in order -/
def rebuild (env : Env H) : List (ChainBlock H) → Nicknames H
  | [] => .empty
  | b :: l => addNicknames env b.pindex.hash b.block.vtx (rebuild env l)

/-- a registration that its deletion undoes: the name was free, the address had no name, and there is
no flag and no view key to be left behind -/
structure CleanInput (n : Nicknames H) (i : CTxIn H) : Prop where
  name : n.doesNicknameExist i.nickname = false
  address : n.getNicknameForAddress i.address = [] ∧ n.getHashForAddress i.address = default
  isnonprivate : i.isnonprivatenickname = false
  hasviewkey : i.nicknamehasviewkey = false
  viewkey : i.viewpubkey = default

/-! ## entries -/

structure EntryLike (d e : CNicknameBookData H) : Prop where
  address : (if d.invalid then default else d.pubkey) = if e.invalid then default else e.pubkey
  exist : 0 < d.pubkey.size ↔ 0 < e.pubkey.size
  hash : d.hash = e.hash
  isnonprivate : d.isnonprivate = e.isnonprivate
  hasviewkey : d.hasviewkey = e.hasviewkey
  viewkey : d.viewkey = e.viewkey

theorem EntryLike.refl (d : CNicknameBookData H) : EntryLike d d := ⟨rfl, Iff.rfl, rfl, rfl, rfl, rfl⟩

theorem EntryLike.symm (h : EntryLike d e) : EntryLike e d :=
  ⟨h.address.symm, h.exist.symm, h.hash.symm, h.isnonprivate.symm, h.hasviewkey.symm, h.viewkey.symm⟩

theorem EntryLike.trans {f : CNicknameBookData H} (h : EntryLike d e) (h' : EntryLike e f) : EntryLike d f :=
  ⟨h.address.trans h'.address, h.exist.trans h'.exist, h.hash.trans h'.hash,
    h.isnonprivate.trans h'.isnonprivate, h.hasviewkey.trans h'.hasviewkey, h.viewkey.trans h'.viewkey⟩

def CNicknameBookData.markInvalid (d : CNicknameBookData H) : CNicknameBookData H :=
  { d with invalid := true }

def CNicknameBookData.blank (d : CNicknameBookData H) : CNicknameBookData H :=
  { d with pubkey := default, hash := default }

@[simp] theorem CNicknameBookData.blank_blank (d : CNicknameBookData H) : d.blank.blank = d.blank := rfl

theorem EntryLike.markInvalid (h : EntryLike d e) : EntryLike d.markInvalid e.markInvalid :=
  ⟨rfl, h.exist, h.hash, h.isnonprivate, h.hasviewkey, h.viewkey⟩

theorem EntryLike.blank (h : EntryLike d e) : EntryLike d.blank e.blank := by
  refine ⟨?_, Iff.rfl, rfl, h.isnonprivate, h.hasviewkey, h.viewkey⟩
  show (if d.invalid then default else default) = if e.invalid then default else default
  rw [ite_self, ite_self]

/-! ## books -/

structure BookLike (n m : Nicknames H) : Prop where
  entry : ∀ x, EntryLike (n.mapNicknameBook (toUpperCopy x)) (m.mapNicknameBook (toUpperCopy x))
  address : n.mapAddressForNicknameBook = m.mapAddressForNicknameBook

theorem BookLike.refl (n : Nicknames H) : BookLike n n := ⟨fun _ => .refl _, rfl⟩

theorem BookLike.symm {n : Nicknames H} (h : BookLike n m) : BookLike m n :=
  ⟨fun x => (h.entry x).symm, h.address.symm⟩

theorem BookLike.trans {n k : Nicknames H} (h : BookLike n m) (h' : BookLike m k) : BookLike n k :=
  ⟨fun x => (h.entry x).trans (h'.entry x), h.address.trans h'.address⟩

theorem sameAnswers_iff {n : Nicknames H} : SameAnswers n m ↔ BookLike n m := by
  constructor
  · intro h
    refine ⟨fun x => ?_, ?_⟩
    · refine ⟨h.getAddressForNickname (64 :: x), ?_, h.getHashForNickname x, h.isNonPrivateNickname x,
        h.hasViewKeyNickname x, h.getViewKeyNickname x⟩
      exact decide_eq_decide.1 (h.doesNicknameExist (64 :: x))
    · funext a
      have hname := h.getNicknameForAddress a
      have hhash := h.getHashForAddress a
      unfold Nicknames.getNicknameForAddress at hname
      unfold Nicknames.getHashForAddress at hhash
      cases hn : n.mapAddressForNicknameBook a with
      | mk name hash =>
        cases hm : m.mapAddressForNicknameBook a with
        | mk name' hash' =>
          rw [hn, hm] at hname hhash
          cases hname
          cases hhash
          rfl
  · intro h
    have haddr : ∀ a, n.mapAddressForNicknameBook a = m.mapAddressForNicknameBook a := congrFun h.address
    exact {
      getAddressForNickname := fun nick => (h.entry (dropAt nick)).address
      getNicknameForAddress := fun a => congrArg _ (haddr a)
      doesNicknameExist := fun nick => decide_eq_decide.2 (h.entry (dropAt nick)).exist
      getHashForNickname := fun nick => (h.entry nick).hash
      getHashForAddress := fun a => congrArg _ (haddr a)
      isNonPrivateNickname := fun nick => (h.entry nick).isnonprivate
      hasViewKeyNickname := fun nick => (h.entry nick).hasviewkey
      getViewKeyNickname := fun nick => (h.entry nick).viewkey }

theorem BookLike.modifyName {n : Nicknames H} (h : BookLike n m) (x : Bytes)
    {f : CNicknameBookData H → CNicknameBookData H} (hf : ∀ d e, EntryLike d e → EntryLike (f d) (f e)) :
    BookLike (n.modifyName (toUpperCopy x) f) (m.modifyName (toUpperCopy x) f) := by
  refine ⟨fun y => ?_, h.address⟩
  simp only [Nicknames.modifyName]
  split
  · exact hf _ _ (h.entry x)
  · exact h.entry y

theorem BookLike.modifyAddress {n : Nicknames H} (h : BookLike n m) (a : CPubKey)
    (f : CNicknameAddrBookData H → CNicknameAddrBookData H) : BookLike (n.modifyAddress a f) (m.modifyAddress a f) := by
  refine ⟨h.entry, ?_⟩
  simp only [Nicknames.modifyAddress]
  rw [h.address]

theorem BookLike.addNickname {n : Nicknames H} (h : BookLike n m) (hash : H) (i : CTxIn H) :
    BookLike (addNickname env hash n i) (addNickname env hash m i) := by
  have hold : n.getNicknameForAddress i.address = m.getNicknameForAddress i.address := by
    unfold Nicknames.getNicknameForAddress
    rw [h.address]
  simp only [BitCash.addNickname, Nicknames.setNickname, hold]
  refine BookLike.modifyAddress (BookLike.modifyName ?_ _ fun _ _ _ => .refl _) _ _
  split
  · exact h.modifyName _ fun _ _ hde => hde.markInvalid
  · exact h

theorem BookLike.addNicknames {n : Nicknames H} (h : BookLike n m) (hash : H) (vtx : List (CTransaction H)) :
    BookLike (addNicknames env hash vtx n) (addNicknames env hash vtx m) := by
  unfold BitCash.addNicknames
  induction nicknameInputs vtx generalizing n m with
  | nil => exact h
  | cons i l ih => exact ih (h.addNickname hash i)

theorem BookLike.removeNicknames {n : Nicknames H} (h : BookLike n m)
    (vtx : List (CTransaction H)) : BookLike (removeNicknames vtx n) (removeNicknames vtx m) := by
  unfold BitCash.removeNicknames
  induction nicknameInputs vtx generalizing n m with
  | nil => exact h
  | cons i l ih =>
    exact ih (BookLike.modifyAddress (h.modifyName _ fun _ _ hde => hde.blank) _ _)

/-! ## what registering and deleting a list of inputs does -/

section Pointwise

variable {hash : H} {n : Nicknames H} {l : List (CTxIn H)}

theorem delete_entry (u : Bytes) : (l.foldl (fun n i => n.deleteNickname i.nickname i.address) n).mapNicknameBook u =
      if u ∈ l.map (fun i => toUpperCopy i.nickname) then (n.mapNicknameBook u).blank else n.mapNicknameBook u := by
  induction l generalizing n with
  | nil => simp
  | cons i l ih =>
    have hone : (n.deleteNickname i.nickname i.address).mapNicknameBook u =
        if u = toUpperCopy i.nickname then (n.mapNicknameBook u).blank else n.mapNicknameBook u := by
      show (if u = toUpperCopy i.nickname then _ else _) = _
      split
      · rename_i hu
        rw [hu]
        rfl
      · rfl
    rw [foldl_cons, ih, hone]
    by_cases hi : u = toUpperCopy i.nickname
    · simp [hi]
    · simp [hi]

theorem delete_address (a : CPubKey) :
    (l.foldl (fun n i => n.deleteNickname i.nickname i.address) n).mapAddressForNicknameBook a =
      if a ∈ l.map (·.address) then ⟨[], default⟩ else n.mapAddressForNicknameBook a := by
  induction l generalizing n with
  | nil => simp
  | cons i l ih =>
    have hone : (n.deleteNickname i.nickname i.address).mapAddressForNicknameBook a =
        if a = i.address then ⟨[], default⟩ else n.mapAddressForNicknameBook a := rfl
    rw [foldl_cons, ih, hone]
    by_cases hi : a = i.address
    · simp [hi]
    · simp [hi]

theorem addNickname_address (i : CTxIn H) (ha : a ≠ i.address) :
    (addNickname env hash n i).mapAddressForNicknameBook a = n.mapAddressForNicknameBook a := by
  show (if a = i.address then _ else _) = _
  rw [if_neg ha]
  split <;> rfl

theorem addNickname_name (i : CTxIn H) :
    ((addNickname env hash n i).mapAddressForNicknameBook i.address).name = i.nickname := by
  show (if i.address = i.address then _ else _ : CNicknameAddrBookData H).name = _
  rw [if_pos rfl]

theorem addNickname_other (i : CTxIn H) (hu : u ≠ toUpperCopy i.nickname) :
    (addNickname env hash n i).mapNicknameBook u = if 0 < (n.getNicknameForAddress i.address).length ∧
          u = toUpperCopy (n.getNicknameForAddress i.address)
      then (n.mapNicknameBook u).markInvalid else n.mapNicknameBook u := by
  show (if u = toUpperCopy i.nickname then _ else
    (if 0 < (n.getNicknameForAddress i.address).length then _ else n).mapNicknameBook u) = _
  rw [if_neg hu]
  by_cases hold : 0 < (n.getNicknameForAddress i.address).length
  · rw [if_pos hold]
    show (if u = _ then _ else _) = _
    by_cases h : u = toUpperCopy (n.getNicknameForAddress i.address)
    · rw [if_pos h, if_pos ⟨hold, h⟩, h]
      rfl
    · rw [if_neg h, if_neg fun hh => h hh.2]
  · rw [if_neg hold, if_neg fun hh => hold hh.1]

theorem add_address (ha : a ∉ l.map (·.address)) :
    (l.foldl (addNickname env hash) n).mapAddressForNicknameBook a = n.mapAddressForNicknameBook a := by
  induction l generalizing n with
  | nil => rfl
  | cons i l ih =>
    rw [map_cons, mem_cons, not_or] at ha
    rw [foldl_cons, ih ha.2, addNickname_address i ha.1]

theorem add_other {u : Bytes} (hu : u ∉ l.map fun i => toUpperCopy i.nickname) :
    (l.foldl (addNickname env hash) n).mapNicknameBook u = n.mapNicknameBook u ∨
      (l.foldl (addNickname env hash) n).mapNicknameBook u = (n.mapNicknameBook u).markInvalid := by
  induction l generalizing n with
  | nil => exact .inl rfl
  | cons i l ih =>
    rw [map_cons, mem_cons, not_or] at hu
    have hone : (addNickname env hash n i).mapNicknameBook u = _ := addNickname_other i hu.1
    rw [foldl_cons]
    split at hone
    · rcases @ih (addNickname env hash n i) hu.2 with h | h
      · exact .inr (by rw [h, hone])
      · exact .inr (by rw [h, hone]; rfl)
    · rcases @ih (addNickname env hash n i) hu.2 with h | h
      · exact .inl (by rw [h, hone])
      · exact .inr (by rw [h, hone])

theorem add_frame {S : List Bytes} (hnew : ∀ i ∈ l, toUpperCopy i.nickname ∈ S)
    (hold : ∀ i ∈ l, 0 < (n.getNicknameForAddress i.address).length →
      toUpperCopy (n.getNicknameForAddress i.address) ∈ S) (hu : u ∉ S) :
    (l.foldl (addNickname env hash) n).mapNicknameBook u = n.mapNicknameBook u := by
  induction l generalizing n with
  | nil => rfl
  | cons i l ih =>
    have hi : u ≠ toUpperCopy i.nickname := fun h => hu (h ▸ hnew i mem_cons_self)
    have hone : (addNickname env hash n i).mapNicknameBook u = n.mapNicknameBook u := by
      rw [addNickname_other i hi, if_neg]
      rintro ⟨hlen, h⟩
      exact hu (h ▸ hold i mem_cons_self hlen)
    rw [foldl_cons, ih, hone]
    · exact fun j hj => hnew j (mem_cons_of_mem i hj)
    · -- the address of a later input has its name from before, or from this input
      intro j hj hlen
      by_cases ha : j.address = i.address
      · have hname : (addNickname env hash n i).getNicknameForAddress j.address = i.nickname := by
          rw [ha]
          exact addNickname_name i
        rw [hname]
        exact hnew i mem_cons_self
      · have hname : (addNickname env hash n i).getNicknameForAddress j.address = n.getNicknameForAddress j.address :=
          congrArg _ (addNickname_address i ha)
        rw [hname] at hlen ⊢
        exact hold j (mem_cons_of_mem i hj) hlen

theorem add_entry (hd : (l.map fun i => toUpperCopy i.nickname).Nodup) {i : CTxIn H} (hi : i ∈ l) :
    ∃ invalid, (l.foldl (addNickname env hash) n).mapNicknameBook (toUpperCopy i.nickname) =
      ⟨i.address, hash, invalid, i.isnonprivatenickname, i.nicknamehasviewkey, i.viewpubkey⟩ := by
  induction l generalizing n with
  | nil => cases hi
  | cons j l ih =>
    rw [map_cons, nodup_cons] at hd
    rw [foldl_cons]
    rcases mem_cons.1 hi with rfl | hi
    · rcases @add_other _ _ _ env hash (addNickname env hash n i) l _ hd.1 with h | h
      · exact ⟨false, by rw [h, addNickname_entry]⟩
      · exact ⟨true, by rw [h, addNickname_entry]; rfl⟩
    · exact ih hd.2 hi

end Pointwise

/-! ## the book of a chain -/

structure WellNamed (vtx : List (CTransaction H)) : Prop where
  distinct : ((nicknameInputs vtx).map fun i => toUpperCopy i.nickname).Nodup
  chars : ∀ i ∈ nicknameInputs vtx, i.nickname.all validCharacter = true
  address : ∀ i ∈ nicknameInputs vtx, 0 < i.address.size

theorem dropAt_valid {nick : Bytes} (h : nick.all validCharacter) : dropAt nick = nick := by
  unfold dropAt
  split
  · cases h
  · rfl

theorem checkDuplicateNick_ok {s t : List Bytes × List CPubKey} (h : checkDuplicateNick env s i = .ok t) :
    toUpperCopy i.nickname ∉ s.1 ∧ (i.address ∈ s.2 → signedByMaster env i) ∧
      t = (s.1 ++ [toUpperCopy i.nickname], s.2 ++ [i.address]) := by
  simp only [checkDuplicateNick, bind_ok, need_ok, exists_const, Bool.not_eq_true', Bool.or_eq_true] at h
  obtain ⟨hnick, haddr, hret⟩ := h
  cases hret
  refine ⟨by simpa using hnick, fun hmem => ?_, rfl⟩
  rcases haddr with haddr | haddr
  · rw [contains_iff_mem.2 hmem] at haddr
    cases haddr
  · exact haddr

theorem checkDuplicateNick_nodup {l : List (CTxIn H)} {s t : List Bytes × List CPubKey}
    (hs : s.1.Nodup) (h : run (checkDuplicateNick env) s l = .ok t) :
    (s.1 ++ l.map fun i => toUpperCopy i.nickname).Nodup := by
  induction l generalizing s with
  | nil => simpa using hs
  | cons i l ih =>
    obtain ⟨u, hi, hl⟩ := run_cons_ok.1 h
    obtain ⟨hnew, -, rfl⟩ := checkDuplicateNick_ok hi
    have hs' : (s.1 ++ [toUpperCopy i.nickname]).Nodup := by
      rw [nodup_append]
      refine ⟨hs, by simp, ?_⟩
      intro a ha b hb hab
      rw [mem_singleton.1 hb] at hab
      exact hnew (hab ▸ ha)
    simpa using ih hs' hl

theorem nicknameInputs_tail (h : bodyRules env params block = .ok ()) :
    nicknameInputs block.vtx = nicknameInputs block.vtx.tail := by
  obtain ⟨⟨cb, rest, hvtx, hcb, -⟩, -⟩ := bodyRules_ok h
  have hnone : cb.vin.filter (·.isnickname) = [] := by
    unfold CTransaction.isCoinBase isCoinBaseVin at hcb
    split at hcb
    · rename_i i hv
      rw [Bool.and_eq_true, Bool.not_eq_true'] at hcb
      rw [hv]
      simp [hcb.2]
    · cases hcb
  rw [hvtx]
  show cb.vin.filter (·.isnickname) ++ nicknameInputs rest = nicknameInputs rest
  rw [hnone, nil_append]

theorem nicknameInput_checked (h : bodyRules env params block = .ok ()) (hi : i ∈ nicknameInputs block.vtx) :
    i.nickname.all validCharacter ∧ i.address.isValid := by
  obtain ⟨tx, htx, hmem⟩ := mem_flatMap.1 hi
  obtain ⟨-, -, -, -, -, -, hnick⟩ := checkTransaction_ok env ((bodyRules_ok h).2 tx htx)
  exact checkNickname_ok (each_ok.1 hnick i hmem)

theorem wellNamed_of_rules {pow merkle : Bool}
    (h : blockRules env params block pow merkle = .ok ()) : WellNamed block.vtx := by
  have hbody := (blockRules_ok.1 h).2.2.2
  refine ⟨?_, fun i hi => (nicknameInput_checked hbody hi).1, fun i hi =>
    of_decide_eq_true (nicknameInput_checked hbody hi).2⟩
  have hdup : ∃ t, run (checkDuplicateNick env) ([], []) (nicknameInputs block.vtx.tail) = .ok t := by
    simp only [bodyRules, bind_ok, need_ok, exists_const] at hbody
    obtain ⟨-, -, -, -, -, -, t, ht, -⟩ := hbody
    exact ⟨t, ht⟩
  obtain ⟨t, ht⟩ := hdup
  rw [nicknameInputs_tail hbody]
  simpa using checkDuplicateNick_nodup nodup_nil ht

structure Grown (n : Nicknames H) : Prop where
  entry : ∀ u, n.mapNicknameBook u = default ∨ 0 < (n.mapNicknameBook u).pubkey.size
  name : ∀ a, 0 < (n.getNicknameForAddress a).length →
    0 < (n.mapNicknameBook (toUpperCopy (n.getNicknameForAddress a))).pubkey.size

theorem Grown.addNickname {n : Nicknames H} (h : Grown n) (hash : H)
    (hi : 0 < i.address.size) : Grown (addNickname env hash n i) := by
  have hself : 0 < ((BitCash.addNickname env hash n i).mapNicknameBook (toUpperCopy i.nickname)).pubkey.size := by
    rw [addNickname_entry]
    exact hi
  have hkept : ∀ u, 0 < (n.mapNicknameBook u).pubkey.size →
      0 < ((BitCash.addNickname env hash n i).mapNicknameBook u).pubkey.size := by
    intro u hu
    by_cases hui : u = toUpperCopy i.nickname
    · rw [hui]
      exact hself
    · rw [addNickname_other i hui]
      split
      · exact hu
      · exact hu
  constructor
  · intro u
    by_cases hui : u = toUpperCopy i.nickname
    · right
      rw [hui]
      exact hself
    · rw [addNickname_other i hui]
      split
      · rename_i hold
        right
        show 0 < (n.mapNicknameBook u).pubkey.size
        rw [hold.2]
        exact h.name _ hold.1
      · exact h.entry u
  · intro a ha
    by_cases hai : a = i.address
    · have hname : (BitCash.addNickname env hash n i).getNicknameForAddress a = i.nickname := by
        rw [hai]
        exact addNickname_name i
      rw [hname]
      exact hself
    · have hname : (BitCash.addNickname env hash n i).getNicknameForAddress a = n.getNicknameForAddress a :=
        congrArg _ (addNickname_address i hai)
      rw [hname] at ha ⊢
      exact hkept _ (h.name a ha)

theorem grown_rebuild {l : List (ChainBlock H)} (h : ∀ b ∈ l, WellNamed b.block.vtx) : Grown (rebuild env l) := by
  induction l with
  | nil => exact ⟨fun _ => .inl rfl, fun _ ha => absurd ha (lt_irrefl 0)⟩
  | cons b l ih =>
    have hrest := ih fun c hc => h c (mem_cons_of_mem b hc)
    have haddr := (h b mem_cons_self).address
    show Grown (addNicknames env b.pindex.hash b.block.vtx (rebuild env l))
    unfold addNicknames
    revert haddr hrest
    generalize rebuild env l = n
    generalize nicknameInputs b.block.vtx = inputs
    intro hn haddr
    induction inputs generalizing n with
    | nil => exact hn
    | cons i inputs ih' =>
      exact ih' _ (hn.addNickname _ (haddr i mem_cons_self)) fun j hj => haddr j (mem_cons_of_mem i hj)

theorem doesNicknameExist_eq_false_iff {n : Nicknames H} {x : Bytes} (hchars : x.all validCharacter) :
    n.doesNicknameExist x = false ↔ ¬ 0 < (n.mapNicknameBook (toUpperCopy x)).pubkey.size := by
  unfold Nicknames.doesNicknameExist
  rw [dropAt_valid hchars, decide_eq_false_iff_not]

section Undone
variable {vtx : List (CTransaction H)} {n : Nicknames H} {hash : H}

theorem undone_entry (hv : WellNamed vtx) {i : CTxIn H} (hi : i ∈ nicknameInputs vtx) :
    ∃ invalid, (removeNicknames vtx (addNicknames env hash vtx n)).mapNicknameBook (toUpperCopy i.nickname) =
      ⟨default, default, invalid, i.isnonprivatenickname, i.nicknamehasviewkey, i.viewpubkey⟩ := by
  have hmem : toUpperCopy i.nickname ∈ (nicknameInputs vtx).map fun i => toUpperCopy i.nickname := mem_map_of_mem hi
  obtain ⟨invalid, hentry⟩ := @add_entry _ _ _ env hash n _ hv.distinct _ hi
  refine ⟨invalid, ?_⟩
  rw [removeNicknames, delete_entry, if_pos hmem, addNicknames, hentry]
  rfl

theorem undone_address (a : CPubKey) :
    (removeNicknames vtx (addNicknames env hash vtx n)).mapAddressForNicknameBook a =
      if a ∈ (nicknameInputs vtx).map (·.address) then ⟨[], default⟩ else n.mapAddressForNicknameBook a := by
  rw [removeNicknames, delete_address]
  split
  · rfl
  · next ha => exact add_address ha

theorem undone_other (haddr : ∀ i ∈ nicknameInputs vtx, n.getNicknameForAddress i.address = [])
    (hu : u ∉ (nicknameInputs vtx).map fun i => toUpperCopy i.nickname) :
    (removeNicknames vtx (addNicknames env hash vtx n)).mapNicknameBook u = n.mapNicknameBook u := by
  rw [removeNicknames, delete_entry, if_neg hu, addNicknames]
  have hnew : ∀ i ∈ nicknameInputs vtx, toUpperCopy i.nickname ∈
      (nicknameInputs vtx).map fun i => toUpperCopy i.nickname :=
    fun i hi => mem_map_of_mem hi
  refine add_frame hnew (fun i hi hlen => ?_) hu
  rw [haddr i hi] at hlen
  exact absurd hlen (lt_irrefl 0)

theorem undo_iff (hv : WellNamed vtx) (hn : Grown n) (hash : H) :
    BookLike (removeNicknames vtx (addNicknames env hash vtx n)) n ↔ ∀ i ∈ nicknameInputs vtx, CleanInput n i := by
  constructor
  · intro h i hi
    obtain ⟨invalid, hentry⟩ := @undone_entry _ _ _ env vtx n hash hv i hi
    have hlike := h.entry i.nickname
    rw [hentry] at hlike
    have hfree : ¬ 0 < (n.mapNicknameBook (toUpperCopy i.nickname)).pubkey.size :=
      fun hpos => absurd (hlike.exist.2 hpos) (lt_irrefl 0)
    rw [(hn.entry _).resolve_right hfree] at hlike
    have haddr := congrFun h.address i.address
    rw [undone_address, if_pos (mem_map_of_mem hi)] at haddr
    refine ⟨?_, ⟨?_, ?_⟩, hlike.isnonprivate, hlike.hasviewkey, hlike.viewkey⟩
    · exact (doesNicknameExist_eq_false_iff (hv.chars i hi)).2 hfree
    · exact (congrArg (·.name) haddr).symm
    · exact (congrArg (·.hash) haddr).symm
  · intro h
    refine ⟨fun x => ?_, ?_⟩
    · by_cases hmem : toUpperCopy x ∈ (nicknameInputs vtx).map fun i => toUpperCopy i.nickname
      · obtain ⟨i, hi, hix⟩ := mem_map.1 hmem
        obtain ⟨invalid, hentry⟩ := @undone_entry _ _ _ env vtx n hash hv i hi
        have hclean := h i hi
        have hfree := (doesNicknameExist_eq_false_iff (hv.chars i hi)).1 hclean.name
        rw [← hix, hentry, (hn.entry _).resolve_right hfree]
        exact ⟨ite_self _, Iff.rfl, rfl, hclean.isnonprivate, hclean.hasviewkey, hclean.viewkey⟩
      · rw [undone_other (fun i hi => (h i hi).address.1) hmem]
        exact .refl _
    · funext a
      rw [undone_address]
      split
      · next hmem =>
        obtain ⟨i, hi, rfl⟩ := mem_map.1 hmem
        obtain ⟨hname, hhash⟩ := (h i hi).address
        unfold Nicknames.getNicknameForAddress at hname
        unfold Nicknames.getHashForAddress at hhash
        rw [← hname, ← hhash]
      · rfl

end Undone

/-! ## runs -/

def CleanStep (env : Env H) (a a' : ActiveChain H) : Prop :=
  ∀ b, a.blocks = b :: a'.blocks → ∀ i ∈ nicknameInputs b.block.vtx,
    CleanInput (rebuild env a'.blocks) i

def BookOfChain (env : Env H) (a : ActiveChain H) : Prop := SameAnswers a.nicks (rebuild env a.blocks)

theorem ChainStep.bookOfChain_iff {a a' : ActiveChain H} (h : ChainStep env params a a')
    (hw : ∀ b ∈ a.blocks, WellNamed b.block.vtx) (ha : BookOfChain env a) :
    (∀ b ∈ a'.blocks, WellNamed b.block.vtx) ∧ (BookOfChain env a' ↔ CleanStep env a a') := by
  rw [BookOfChain, sameAnswers_iff] at ha
  rcases h.inv with ⟨l, b, c, hc⟩ | hd
  · refine ⟨?_, ?_⟩
    · rw [hc.blocks]
      intro x hx
      rcases mem_cons.1 hx with rfl | hx
      · exact wellNamed_of_rules hc.rules
      · exact hw x hx
    · have hclean : CleanStep env a a' := by
        intro x hx
        have hlen := congrArg length hx
        rw [hc.blocks, length_cons, length_cons] at hlen
        omega
      refine iff_of_true ?_ hclean
      rw [BookOfChain, sameAnswers_iff, hc.nicks, hc.blocks]
      exact ha.addNicknames b.pindex.hash b.block.vtx
  · obtain ⟨b, view, hblocks, -, -, -, hnicks⟩ := disconnectLast_ok hd
    rw [hblocks] at ha hw
    have hrest : ∀ x ∈ a'.blocks, WellNamed x.block.vtx := fun x hx => hw x (mem_cons_of_mem b hx)
    have hgrown : Grown (rebuild env a'.blocks) := grown_rebuild hrest
    have hundo := @undo_iff _ _ _ env _ _ (hw b mem_cons_self) hgrown b.pindex.hash
    have hlike : BookLike a'.nicks (removeNicknames b.block.vtx
        (addNicknames env b.pindex.hash b.block.vtx (rebuild env a'.blocks))) := by
      rw [hnicks]
      exact ha.removeNicknames b.block.vtx
    have hstep : CleanStep env a a' ↔ ∀ i ∈ nicknameInputs b.block.vtx, CleanInput (rebuild env a'.blocks) i := by
      unfold CleanStep
      rw [hblocks]
      simp
    refine ⟨hrest, ?_⟩
    rw [hstep, ← hundo, BookOfChain, sameAnswers_iff]
    exact ⟨fun h => hlike.symm.trans h, fun h => hlike.trans h⟩

/-- **the nickname book depends on the active chain only** exactly when every disconnected block had
clean inputs only -/
theorem nickname_book_iff {run : List (ActiveChain H)} (h : IsRun (ChainStep env params) (.genesis params) run) :
    (∀ a ∈ ActiveChain.genesis params :: run, SameAnswers a.nicks (rebuild env a.blocks)) ↔
      IsRun (CleanStep env) (.genesis params) run := by
  refine points_iff (I := BookOfChain env) (J := fun a => ∀ b ∈ a.blocks, WellNamed b.block.vtx)
    (fun a a' hw ha hstep => (hstep.bookOfChain_iff hw ha).1)
    (fun a a' hw ha hstep => (hstep.bookOfChain_iff hw ha).2) h ?_ ?_
  · exact fun b hb => absurd hb not_mem_nil
  · exact sameAnswers_iff.2 (.refl _)

/-! ## two names for one address -/

def registerInput (nickname : Bytes) (key : CPubKey) (isnonprivate : Bool) : CTxIn Digest :=
  .ofNickname nickname dev1ScriptPubKey key.vch isnonprivate false default

def registerTx (nickname : Bytes) (key : CPubKey) : CTransaction Digest :=
  ⟨6, [registerInput nickname key false], [], 0, rfl, .refl true⟩

def bobChain : ActiveChain Digest :=
  valueOr (extend (.genesis symParams) 1 [registerTx [98, 111, 98] dev1ScriptPubKey])
    (.genesis symParams)

def annChain : ActiveChain Digest :=
  valueOr (extend bobChain 2 [registerTx [97, 110, 110] nicknameMasterPubKey]) bobChain

def afterAnn : ActiveChain Digest := valueOr (disconnectLast symEnv annChain) annChain

def afterBob : ActiveChain Digest := valueOr (disconnectLast symEnv bobChain) bobChain

theorem bobChain_step : ChainStep symEnv symParams (.genesis symParams) bobChain :=
  extend_step (by decide)

/-- bob is connected, ann is connected, ann is disconnected: the chain ends with bob's block, but the
address has no name any more, and the name has no address -/
theorem nickname_book_forgets : IsRun (ChainStep symEnv symParams) (.genesis symParams)
        [bobChain, annChain, afterAnn] ∧
      (rebuild symEnv afterAnn.blocks).getNicknameForAddress dev1ScriptPubKey = [98, 111, 98] ∧
      afterAnn.nicks.getNicknameForAddress dev1ScriptPubKey = [] ∧
      (rebuild symEnv afterAnn.blocks).getAddressForNickname [98, 111, 98] = dev1ScriptPubKey ∧
      afterAnn.nicks.getAddressForNickname [98, 111, 98] = default := by
  refine ⟨?_, by decide⟩
  simp only [isRun_cons, isRun_nil, and_true]
  refine ⟨bobChain_step, extend_step (by decide), .disconnect ?_⟩
  exact eq_valueOr (by decide)

/-- connecting and disconnecting the block of bob alone leaves no trace -/
theorem nickname_book_bob :
    IsRun (ChainStep symEnv symParams) (.genesis symParams) [bobChain, afterBob] ∧
      ∀ a ∈ [ActiveChain.genesis symParams, bobChain, afterBob],
        SameAnswers a.nicks (rebuild symEnv a.blocks) := by
  have hlast : disconnectLast symEnv bobChain = .ok afterBob := eq_valueOr (by decide)
  have hrun : IsRun (ChainStep symEnv symParams) (.genesis symParams) [bobChain, afterBob] := by
    simp only [isRun_cons, isRun_nil, and_true]
    exact ⟨bobChain_step, .disconnect hlast⟩
  refine ⟨hrun, (nickname_book_iff hrun).2 ?_⟩
  simp only [isRun_cons, isRun_nil, and_true]
  have hinput : bobChain.blocks.flatMap (fun b => nicknameInputs b.block.vtx) =
      [registerInput [98, 111, 98] dev1ScriptPubKey false] := by
    decide
  constructor
  · intro b hb
    have hlen := congrArg List.length hb
    simp [ActiveChain.genesis] at hlen
  · intro b hb i hi
    have hempty : afterBob.blocks = [] := by
      have hlen : bobChain.blocks.length = 1 := by decide
      rw [hb, length_cons] at hlen
      exact List.length_eq_zero_iff.1 (by omega)
    rw [hb, hempty, flatMap_cons, flatMap_nil, append_nil] at hinput
    rw [hinput, mem_singleton] at hi
    rw [hempty, hi]
    exact ⟨by decide, by decide, rfl, rfl, rfl⟩

end BitCash
