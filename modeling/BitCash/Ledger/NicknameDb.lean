import BitCash.Ledger.NicknameBook
import BitCash.Serialize.Stream

/-!
# The nickname database

`SetNickname` and `DeleteNickname` change the maps in memory and write the same change to the database; at a start
`LoadWallet` reads every record back with `ReadKeyValue`.
-/

set_option linter.unusedSectionVars false

namespace BitCash
open Function List

variable {H : Type} [Inhabited H] [DecidableEq H]

structure NicknameDatabase (H : Type) where
  nickname : Bytes → Option CPubKey
  nickaddr : CPubKey → Option Bytes
  nickhash : Bytes → Option H
  nickinvalid : Bytes → Option Bool
  nicknonprivate : Bytes → Option Bool
  nickhasviewkey : Bytes → Option Bool
  nickviewkey : Bytes → Option CPubKey
  addrhash : CPubKey → Option H

namespace NicknameDatabase

def empty : NicknameDatabase H :=
  ⟨fun _ => none, fun _ => none, fun _ => none, fun _ => none, fun _ => none, fun _ => none,
    fun _ => none, fun _ => none⟩

def writeNameNick (db : NicknameDatabase H) (strNick : Bytes) (address : CPubKey) :
    NicknameDatabase H :=
  { db with nickname := update db.nickname strNick (some address) }

def writeNameNickAddr (db : NicknameDatabase H) (addr : CPubKey) (strNick : Bytes) :
    NicknameDatabase H :=
  { db with nickaddr := update db.nickaddr addr (some strNick) }

def writeHashForNameNick (db : NicknameDatabase H) (strNick : Bytes) (hash : H) :
    NicknameDatabase H :=
  { db with nickhash := update db.nickhash strNick (some hash) }

def writeInvalidForNameNick (db : NicknameDatabase H) (strNick : Bytes) (invalid : Bool) :
    NicknameDatabase H :=
  { db with nickinvalid := update db.nickinvalid strNick (some invalid) }

def writeIsNonPrivateForNameNick (db : NicknameDatabase H) (strNick : Bytes) (isnonprivate : Bool) :
    NicknameDatabase H :=
  { db with nicknonprivate := update db.nicknonprivate strNick (some isnonprivate) }

def writeHasViewkeyForNameNick (db : NicknameDatabase H) (strNick : Bytes) (hasviewkey : Bool) :
    NicknameDatabase H :=
  { db with nickhasviewkey := update db.nickhasviewkey strNick (some hasviewkey) }

def writeViewkeyForNameNick (db : NicknameDatabase H) (strNick : Bytes) (viewkey : CPubKey) :
    NicknameDatabase H :=
  { db with nickviewkey := update db.nickviewkey strNick (some viewkey) }

def writeHashForNameNickAddr (db : NicknameDatabase H) (addr : CPubKey) (hash : H) :
    NicknameDatabase H :=
  { db with addrhash := update db.addrhash addr (some hash) }

/-- what `ReadKeyValue` makes of the records of a nickname.  A key that is longer than a stream
reads makes it throw, and the record is skipped. -/
def readName (db : NicknameDatabase H) (strNickname : Bytes) : CNicknameBookData H :=
  if strNickname.length ≤ MAX_SIZE then
    { pubkey := (db.nickname strNickname).getD default
      hash := (db.nickhash strNickname).getD default
      invalid := (db.nickinvalid strNickname).getD false
      isnonprivate := (db.nicknonprivate strNickname).getD false
      hasviewkey := (db.nickhasviewkey strNickname).getD false
      viewkey := (db.nickviewkey strNickname).getD default }
  else default

def readAddress (db : NicknameDatabase H) (nickaddr : CPubKey) : CNicknameAddrBookData H :=
  { name := ((db.nickaddr nickaddr).filter fun name => name.length ≤ MAX_SIZE).getD []
    hash := (db.addrhash nickaddr).getD default }

def loadWallet (db : NicknameDatabase H) : Nicknames H := ⟨db.readName, db.readAddress⟩

end NicknameDatabase

structure NicknameStore (H : Type) where
  book : Nicknames H
  keys : List Bytes
  database : NicknameDatabase H

namespace NicknameStore

def empty : NicknameStore H := ⟨.empty, [], .empty⟩

def setNickname (s : NicknameStore H) (strName : Bytes) (address : CPubKey) (hash : H)
    (storeblockhash isnonprivate hasviewkey : Bool) (viewkey : CPubKey) : NicknameStore H :=
  let oldnick := s.book.getNicknameForAddress address
  let db := if 0 < oldnick.length then s.database.writeInvalidForNameNick (toUpperCopy oldnick) true
    else s.database
  let keys := if 0 < oldnick.length then s.keys.insert (toUpperCopy oldnick) else s.keys
  let nick := toUpperCopy strName
  let db := ((((((db.writeNameNick nick address).writeNameNickAddr address strName).writeHashForNameNick
    nick hash).writeInvalidForNameNick nick false).writeIsNonPrivateForNameNick nick
    isnonprivate).writeHasViewkeyForNameNick nick hasviewkey).writeViewkeyForNameNick nick viewkey
  { book := s.book.setNickname strName address hash storeblockhash isnonprivate hasviewkey viewkey
    keys := keys.insert nick
    database := if storeblockhash then db.writeHashForNameNickAddr address hash else db }

def deleteNickname (s : NicknameStore H) (strName : Bytes) (address : CPubKey) : NicknameStore H :=
  let nick := toUpperCopy strName
  { book := s.book.deleteNickname strName address
    keys := s.keys.insert nick
    database := ((((((s.database.writeNameNick nick default).writeNameNickAddr address
      []).writeIsNonPrivateForNameNick nick false).writeHashForNameNick nick
      default).writeHashForNameNickAddr address default).writeHasViewkeyForNameNick nick
      false).writeViewkeyForNameNick nick default }

def deleteAllNicknames (s : NicknameStore H) : NicknameStore H :=
  s.keys.foldl (fun s nick => s.deleteNickname nick (s.book.mapNicknameBook nick).pubkey) s

end NicknameStore

/-- a call of `nicknames.cpp`; a lookup makes a default entry where there is none -/
inductive NicknameCall (H : Type)
  | setNickname (strName : Bytes) (address : CPubKey) (hash : H)
      (storeblockhash isnonprivate hasviewkey : Bool) (viewkey : CPubKey)
  | deleteNickname (strName : Bytes) (address : CPubKey)
  | deleteAllNicknames
  | lookup (nick : Bytes)

def NicknameCall.run (s : NicknameStore H) : NicknameCall H → NicknameStore H
  | .setNickname strName address hash storeblockhash isnonprivate hasviewkey viewkey =>
    s.setNickname strName address hash storeblockhash isnonprivate hasviewkey viewkey
  | .deleteNickname strName address => s.deleteNickname strName address
  | .deleteAllNicknames => s.deleteAllNicknames
  | .lookup nick => { s with keys := s.keys.insert (toUpperCopy nick) }

def NicknameStore.Mirrored (s : NicknameStore H) : Prop := SameAnswers s.database.loadWallet s.book

structure CNicknameBookData.Plain (d : CNicknameBookData H) : Prop where
  isnonprivate : d.isnonprivate = false
  hasviewkey : d.hasviewkey = false
  viewkey : d.viewkey = default

def CleanCall (s : NicknameStore H) : NicknameCall H → Prop
  | .setNickname strName _ _ _ _ _ _ => strName.length ≤ MAX_SIZE
  | .deleteNickname strName _ => (s.book.mapNicknameBook (toUpperCopy strName)).Plain
  | .deleteAllNicknames => ∀ nick ∈ s.keys, (s.book.mapNicknameBook (toUpperCopy nick)).Plain
  | .lookup _ => True

def CleanCalls (s : NicknameStore H) : List (NicknameCall H) → Prop
  | [] => True
  | c :: calls => CleanCall s c ∧ CleanCalls (c.run s) calls

/-! ## one call -/

@[simp] theorem length_toUpperCopy (s : Bytes) : (toUpperCopy s).length = s.length := length_map ..

structure NicknameStore.Exact (s : NicknameStore H) : Prop where
  name : ∀ nick, s.database.readName nick = s.book.mapNicknameBook nick
  address : ∀ a, s.database.readAddress a = s.book.mapAddressForNicknameBook a

variable {s : NicknameStore H} {c : NicknameCall H} {strName : Bytes}

theorem NicknameStore.Exact.mirrored (h : s.Exact) : s.Mirrored := by
  have hname : s.database.loadWallet.mapNicknameBook = s.book.mapNicknameBook := funext h.name
  refine sameAnswers_iff.2 ⟨fun x => ?_, funext h.address⟩
  rw [hname]
  exact .refl _

theorem NicknameStore.Exact.empty : (NicknameStore.empty : NicknameStore H).Exact := by
  refine ⟨fun nick => ?_, fun _ => rfl⟩
  show (if nick.length ≤ MAX_SIZE then (default : CNicknameBookData H) else default) = default
  rw [ite_self]

def CNicknameBookData.deleted (d : CNicknameBookData H) : CNicknameBookData H :=
  ⟨default, default, d.invalid, false, false, default⟩

theorem CNicknameBookData.Plain.deleted (d : CNicknameBookData H) : d.deleted.Plain := ⟨rfl, rfl, rfl⟩

theorem CNicknameBookData.Plain.blank_eq {d : CNicknameBookData H} (h : d.Plain) : d.deleted = d.blank := by
  obtain ⟨hnonprivate, hhasviewkey, hviewkey⟩ := h
  unfold CNicknameBookData.deleted CNicknameBookData.blank
  rw [hnonprivate, hhasviewkey, hviewkey]

theorem deleteNickname_readName (s : NicknameStore H) (strName : Bytes) (address : CPubKey) (x : Bytes) :
    (s.deleteNickname strName address).database.readName x =
      if x = toUpperCopy strName then (s.database.readName x).deleted else s.database.readName x := by
  unfold NicknameDatabase.readName
  by_cases hx : x = toUpperCopy strName
  · subst hx
    by_cases hlen : (toUpperCopy strName).length ≤ MAX_SIZE
    · rw [if_pos hlen, if_pos rfl, if_pos hlen]
      simp [NicknameStore.deleteNickname, NicknameDatabase.writeNameNick,
        NicknameDatabase.writeNameNickAddr, NicknameDatabase.writeIsNonPrivateForNameNick,
        NicknameDatabase.writeHashForNameNick, NicknameDatabase.writeHashForNameNickAddr,
        NicknameDatabase.writeHasViewkeyForNameNick, NicknameDatabase.writeViewkeyForNameNick,
        CNicknameBookData.deleted]
    · rw [if_neg hlen, if_pos rfl, if_neg hlen]
      rfl
  · rw [if_neg hx]
    simp [NicknameStore.deleteNickname, NicknameDatabase.writeNameNick,
      NicknameDatabase.writeNameNickAddr, NicknameDatabase.writeIsNonPrivateForNameNick,
      NicknameDatabase.writeHashForNameNick, NicknameDatabase.writeHashForNameNickAddr,
      NicknameDatabase.writeHasViewkeyForNameNick, NicknameDatabase.writeViewkeyForNameNick, hx]

theorem deleteNickname_readAddress (s : NicknameStore H) (strName : Bytes) (address a : CPubKey) :
    (s.deleteNickname strName address).database.readAddress a =
      if a = address then ⟨[], default⟩ else s.database.readAddress a := by
  show NicknameDatabase.readAddress { s.database with
      nickaddr := update s.database.nickaddr address (some [])
      addrhash := update s.database.addrhash address (some default) } a = _
  unfold NicknameDatabase.readAddress
  by_cases ha : a = address
  · subst ha
    simp [Option.filter]
  · simp [ha]

theorem deleteNickname_name (s : NicknameStore H) (strName : Bytes) (address : CPubKey) (x : Bytes) :
    (s.deleteNickname strName address).book.mapNicknameBook x =
      if x = toUpperCopy strName then (s.book.mapNicknameBook x).blank else s.book.mapNicknameBook x := by
  show (if x = toUpperCopy strName then _ else _) = _
  split
  · next hx =>
    subst hx
    rfl
  · rfl

namespace NicknameStore.Exact

theorem deleteNickname (h : s.Exact) (address : CPubKey)
    (hp : (s.book.mapNicknameBook (toUpperCopy strName)).Plain) : (s.deleteNickname strName address).Exact := by
  constructor
  · intro x
    rw [deleteNickname_readName, deleteNickname_name, h.name]
    split
    · next hx =>
      subst hx
      exact hp.blank_eq
    · rfl
  · intro a
    rw [deleteNickname_readAddress, h.address]
    rfl

end NicknameStore.Exact

theorem plain_readName_deleteNickname (s : NicknameStore H) (strName : Bytes) (address : CPubKey)
    (x : Bytes) (h : (s.database.readName x).Plain ∨ x = toUpperCopy strName) :
    ((s.deleteNickname strName address).database.readName x).Plain := by
  rw [deleteNickname_readName]
  split
  · exact .deleted _
  · next hx => exact h.resolve_right hx

theorem plain_name_deleteNickname (s : NicknameStore H) (strName : Bytes) (address : CPubKey) (x : Bytes) :
    ((s.deleteNickname strName address).book.mapNicknameBook x).Plain ↔ (s.book.mapNicknameBook x).Plain := by
  rw [deleteNickname_name]
  split
  · exact ⟨fun h => ⟨h.isnonprivate, h.hasviewkey, h.viewkey⟩, fun h => ⟨h.isnonprivate, h.hasviewkey, h.viewkey⟩⟩
  · exact Iff.rfl

theorem NicknameStore.Mirrored.plain (h : s.Mirrored) (nick : Bytes)
    (hp : (s.database.readName (toUpperCopy nick)).Plain) : (s.book.mapNicknameBook (toUpperCopy nick)).Plain := by
  have hlike : EntryLike (s.database.readName (toUpperCopy nick))
      (s.book.mapNicknameBook (toUpperCopy nick)) := (sameAnswers_iff.1 h).entry nick
  exact ⟨hlike.isnonprivate.symm.trans hp.isnonprivate, hlike.hasviewkey.symm.trans hp.hasviewkey,
    hlike.viewkey.symm.trans hp.viewkey⟩

/-! ### all names -/

def NicknameStore.deleteKeys (s : NicknameStore H) (keys : List Bytes) : NicknameStore H :=
  keys.foldl (fun s nick => s.deleteNickname nick (s.book.mapNicknameBook nick).pubkey) s

theorem plain_name_deleteKeys (keys : List Bytes) (s : NicknameStore H) (x : Bytes) :
    ((s.deleteKeys keys).book.mapNicknameBook x).Plain ↔ (s.book.mapNicknameBook x).Plain := by
  induction keys generalizing s with
  | nil => exact Iff.rfl
  | cons nick keys ih => exact (ih _).trans (plain_name_deleteNickname ..)

theorem plain_readName_deleteKeys (keys : List Bytes) (s : NicknameStore H) (x : Bytes)
    (h : (s.database.readName (toUpperCopy x)).Plain ∨ x ∈ keys) :
    ((s.deleteKeys keys).database.readName (toUpperCopy x)).Plain := by
  induction keys generalizing s with
  | nil => exact h.resolve_right not_mem_nil
  | cons nick keys ih =>
    apply ih
    rcases h with h | h
    · exact .inl (plain_readName_deleteNickname s nick _ _ (.inl h))
    · rcases mem_cons.1 h with rfl | h
      · exact .inl (plain_readName_deleteNickname s x _ _ (.inr rfl))
      · exact .inr h

theorem NicknameStore.Exact.deleteKeys (keys : List Bytes) (h : s.Exact)
    (hp : ∀ nick ∈ keys, (s.book.mapNicknameBook (toUpperCopy nick)).Plain) : (s.deleteKeys keys).Exact := by
  induction keys generalizing s with
  | nil => exact h
  | cons nick keys ih =>
    apply ih (h.deleteNickname _ (hp nick mem_cons_self))
    intro x hx
    exact (plain_name_deleteNickname ..).2 (hp x (mem_cons_of_mem _ hx))

/-! ### a registration -/

theorem setNickname_readAddress (s : NicknameStore H) (strName : Bytes) (address : CPubKey) (hash : H)
    (storeblockhash isnonprivate hasviewkey : Bool) (viewkey a : CPubKey) :
    (s.setNickname strName address hash storeblockhash isnonprivate hasviewkey viewkey).database.readAddress a =
      if a = address then
        { name := if strName.length ≤ MAX_SIZE then strName else []
          hash := if storeblockhash then hash else (s.database.readAddress a).hash }
      else s.database.readAddress a := by
  have hold : ∀ db : NicknameDatabase H, db.nickaddr = s.database.nickaddr → db.addrhash = s.database.addrhash →
      NicknameDatabase.readAddress { db with
          nickaddr := update db.nickaddr address (some strName)
          addrhash := if storeblockhash then update db.addrhash address (some hash) else db.addrhash } a =
        if a = address then
          { name := if strName.length ≤ MAX_SIZE then strName else []
            hash := if storeblockhash then hash else (s.database.readAddress a).hash }
        else s.database.readAddress a := by
    intro db hnickaddr haddrhash
    unfold NicknameDatabase.readAddress
    rw [hnickaddr, haddrhash]
    by_cases ha : a = address
    · subst ha
      cases storeblockhash <;> by_cases hlen : strName.length ≤ MAX_SIZE <;> simp [hlen, Option.filter]
    · cases storeblockhash <;> simp [ha]
  have hdb := hold (if 0 < (s.book.getNicknameForAddress address).length then
    s.database.writeInvalidForNameNick (toUpperCopy (s.book.getNicknameForAddress address)) true
    else s.database) (by split <;> rfl) (by split <;> rfl)
  rw [← hdb]
  cases storeblockhash <;> rfl

theorem writeInvalid_readName (db : NicknameDatabase H) (nick x : Bytes) (hlen : nick.length ≤ MAX_SIZE) :
    (db.writeInvalidForNameNick nick true).readName x =
      if x = nick then (db.readName x).markInvalid else db.readName x := by
  unfold NicknameDatabase.readName
  by_cases hx : x = nick
  · subst hx
    rw [if_pos hlen, if_pos rfl, if_pos hlen]
    simp [NicknameDatabase.writeInvalidForNameNick, CNicknameBookData.markInvalid]
  · simp [NicknameDatabase.writeInvalidForNameNick, hx]

theorem setRecords_readName (db : NicknameDatabase H) (strName nick : Bytes) (address : CPubKey) (hash : H)
    (storeblockhash isnonprivate hasviewkey : Bool) (viewkey : CPubKey) (x : Bytes)
    (hlen : nick.length ≤ MAX_SIZE) :
    let written := ((((((db.writeNameNick nick address).writeNameNickAddr address
      strName).writeHashForNameNick nick hash).writeInvalidForNameNick nick
      false).writeIsNonPrivateForNameNick nick isnonprivate).writeHasViewkeyForNameNick nick
      hasviewkey).writeViewkeyForNameNick nick viewkey
    (if storeblockhash then written.writeHashForNameNickAddr address hash else written).readName x =
      if x = nick then ⟨address, hash, false, isnonprivate, hasviewkey, viewkey⟩ else db.readName x := by
  intro written
  have hwritten : (if storeblockhash then written.writeHashForNameNickAddr address hash
      else written).readName x = written.readName x := by
    cases storeblockhash <;> rfl
  rw [hwritten]
  unfold NicknameDatabase.readName
  by_cases hx : x = nick
  · subst hx
    rw [if_pos hlen, if_pos rfl]
    simp [written, NicknameDatabase.writeNameNick, NicknameDatabase.writeNameNickAddr,
      NicknameDatabase.writeHashForNameNick, NicknameDatabase.writeInvalidForNameNick,
      NicknameDatabase.writeIsNonPrivateForNameNick, NicknameDatabase.writeHasViewkeyForNameNick,
      NicknameDatabase.writeViewkeyForNameNick]
  · simp [written, NicknameDatabase.writeNameNick, NicknameDatabase.writeNameNickAddr,
      NicknameDatabase.writeHashForNameNick, NicknameDatabase.writeInvalidForNameNick,
      NicknameDatabase.writeIsNonPrivateForNameNick, NicknameDatabase.writeHasViewkeyForNameNick,
      NicknameDatabase.writeViewkeyForNameNick, hx]

theorem length_readAddress (db : NicknameDatabase H) (a : CPubKey) : (db.readAddress a).name.length ≤ MAX_SIZE := by
  show (((db.nickaddr a).filter fun name => name.length ≤ MAX_SIZE).getD []).length ≤ MAX_SIZE
  cases hname : (db.nickaddr a).filter fun name => name.length ≤ MAX_SIZE with
  | none => exact Nat.zero_le _
  | some name => exact of_decide_eq_true (Option.filter_eq_some_iff.1 hname).2

theorem NicknameStore.Exact.setNickname (h : s.Exact)
    (address : CPubKey) (hash : H) (storeblockhash isnonprivate hasviewkey : Bool) (viewkey : CPubKey)
    (hlen : strName.length ≤ MAX_SIZE) :
    (s.setNickname strName address hash storeblockhash isnonprivate hasviewkey viewkey).Exact := by
  have hnick : (toUpperCopy strName).length ≤ MAX_SIZE := by rwa [length_toUpperCopy]
  constructor
  · intro x
    refine (setRecords_readName _ strName (toUpperCopy strName) address hash storeblockhash
      isnonprivate hasviewkey viewkey x hnick).trans ?_
    show _ = (if x = toUpperCopy strName then _ else _)
    split
    · rfl
    have hold : (toUpperCopy (s.book.getNicknameForAddress address)).length ≤ MAX_SIZE := by
      rw [length_toUpperCopy]
      unfold Nicknames.getNicknameForAddress
      rw [← h.address]
      exact length_readAddress ..
    by_cases hpos : 0 < (s.book.getNicknameForAddress address).length
    · rw [if_pos hpos, if_pos hpos, writeInvalid_readName _ _ _ hold, h.name]
      show _ = if x = _ then _ else _
      split
      · next hx =>
        subst hx
        rfl
      · rfl
    · rw [if_neg hpos, if_neg hpos, h.name]
  · intro a
    rw [setNickname_readAddress, if_pos hlen, h.address]
    show _ = if a = address then _ else _
    split
    · next ha =>
      subst ha
      cases storeblockhash with
      | true => rfl
      | false =>
        by_cases hpos : 0 < (s.book.getNicknameForAddress a).length
        · rw [if_pos hpos]
          rfl
        · rw [if_neg hpos]
          rfl
    · split <;> rfl

/-! ## a sequence of calls -/

theorem NicknameStore.Exact.run (h : s.Exact) (hc : CleanCall s c) : (c.run s).Exact := by
  cases c with
  | setNickname strName address hash storeblockhash isnonprivate hasviewkey viewkey =>
    exact h.setNickname address hash storeblockhash isnonprivate hasviewkey viewkey hc
  | deleteNickname strName address => exact h.deleteNickname address hc
  | deleteAllNicknames => exact h.deleteKeys s.keys hc
  | lookup nick => exact ⟨h.name, h.address⟩

theorem cleanCall_of_mirrored (h : (c.run s).Mirrored) : CleanCall s c := by
  cases c with
  | setNickname strName address hash storeblockhash isnonprivate hasviewkey viewkey =>
    have hname := h.getNicknameForAddress address
    change ((s.setNickname strName address hash storeblockhash isnonprivate hasviewkey
      viewkey).database.readAddress address).name = _ at hname
    rw [setNickname_readAddress, if_pos rfl] at hname
    change (if strName.length ≤ MAX_SIZE then strName else []) =
      ((if address = address then _ else _ : CNicknameAddrBookData H)).name at hname
    rw [if_pos rfl] at hname
    show strName.length ≤ MAX_SIZE
    by_contra hlen
    rw [if_neg hlen] at hname
    change [] = strName at hname
    rw [← hname] at hlen
    exact hlen (Nat.zero_le _)
  | deleteNickname strName address =>
    have hread := plain_readName_deleteNickname s strName address _ (.inr rfl)
    exact (plain_name_deleteNickname s strName address _).1 (h.plain strName hread)
  | deleteAllNicknames =>
    intro nick hnick
    have hread := plain_readName_deleteKeys s.keys s nick (.inr hnick)
    exact (plain_name_deleteKeys s.keys s _).1 (h.plain nick hread)
  | lookup nick => trivial

theorem mirrored_iff_cleanCalls (h : s.Exact) (calls : List (NicknameCall H)) :
    (∀ done rest, calls = done ++ rest → (done.foldl NicknameCall.run s).Mirrored) ↔ CleanCalls s calls := by
  induction calls generalizing s with
  | nil =>
    refine ⟨fun _ => trivial, fun _ done rest hdone => ?_⟩
    rw [(append_eq_nil_iff.1 hdone.symm).1]
    exact h.mirrored
  | cons c calls ih =>
    constructor
    · intro hall
      have hc : CleanCall s c := cleanCall_of_mirrored (hall [c] calls rfl)
      refine ⟨hc, (ih (h.run hc)).1 fun done rest hdone => ?_⟩
      exact hall (c :: done) rest (congrArg (c :: ·) hdone)
    · intro hclean done rest hdone
      cases done with
      | nil => exact h.mirrored
      | cons d done =>
        obtain ⟨rfl, hrest⟩ := cons.inj hdone
        exact (ih (h.run hclean.1)).2 hclean.2 done rest hrest

/-- **The database mirrors the maps** after every call of a sequence exactly when each call, in the
state it is made in, deletes only names without the private flag and a view key, and sets only names
that a stream reads back. -/
theorem database_mirrors_iff (calls : List (NicknameCall H)) : (∀ done rest, calls = done ++ rest →
      SameAnswers (done.foldl NicknameCall.run .empty).database.loadWallet
        (done.foldl NicknameCall.run .empty).book) ↔ CleanCalls (.empty : NicknameStore H) calls :=
  mirrored_iff_cleanCalls .empty calls

/-- "bob", registered without privacy and deleted: memory says that the name is not private, the
database that it is -/
theorem database_forgets_bob :
    let calls : List (NicknameCall Nat) := [.setNickname [98, 111, 98] nicknameMasterPubKey 7 true true false default,
        .deleteNickname [98, 111, 98] nicknameMasterPubKey]
    let s := calls.foldl NicknameCall.run .empty
    s.book.isNonPrivateNickname [98, 111, 98] = true ∧
      s.database.loadWallet.isNonPrivateNickname [98, 111, 98] = false := by
  decide

end BitCash
