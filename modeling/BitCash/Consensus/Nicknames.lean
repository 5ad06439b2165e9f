import BitCash.Consensus.Params

/-!
# The nickname book

`SetNickname`, `DeleteNickname` and the lookups of `nicknames.cpp`.
-/

namespace BitCash

variable {H : Type} [Inhabited H] [DecidableEq H]

structure CNicknameBookData (H : Type) where
  pubkey : CPubKey
  hash : H
  invalid : Bool
  isnonprivate : Bool
  hasviewkey : Bool
  viewkey : CPubKey
  deriving DecidableEq

structure CNicknameAddrBookData (H : Type) where
  name : Bytes
  hash : H
  deriving DecidableEq

instance : Inhabited (CNicknameBookData H) := ⟨⟨default, default, false, false, false, default⟩⟩

instance : Inhabited (CNicknameAddrBookData H) := ⟨⟨[], default⟩⟩

structure Nicknames (H : Type) where
  mapNicknameBook : Bytes → CNicknameBookData H
  mapAddressForNicknameBook : CPubKey → CNicknameAddrBookData H

def Nicknames.empty : Nicknames H := ⟨fun _ => default, fun _ => default⟩

def toUpper (b : UInt8) : UInt8 := if 97 ≤ b ∧ b ≤ 122 then b - 32 else b

def toUpperCopy (s : Bytes) : Bytes := s.map toUpper

def dropAt : Bytes → Bytes
  | 64 :: s => s
  | s => s

namespace Nicknames

def modifyName (n : Nicknames H) (nick : Bytes) (f : CNicknameBookData H → CNicknameBookData H) :
    Nicknames H :=
  { n with mapNicknameBook := fun x =>
      if x = nick then f (n.mapNicknameBook nick) else n.mapNicknameBook x }

def modifyAddress (n : Nicknames H) (address : CPubKey)
    (f : CNicknameAddrBookData H → CNicknameAddrBookData H) : Nicknames H :=
  { n with mapAddressForNicknameBook := fun x =>
      if x = address then f (n.mapAddressForNicknameBook address)
      else n.mapAddressForNicknameBook x }

def doesNicknameExist (n : Nicknames H) (nick : Bytes) : Bool :=
  decide (0 < (n.mapNicknameBook (toUpperCopy (dropAt nick))).pubkey.size)

def getAddressForNickname (n : Nicknames H) (nick : Bytes) : CPubKey :=
  let d := n.mapNicknameBook (toUpperCopy (dropAt nick))
  if d.invalid then default else d.pubkey

def isNonPrivateNickname (n : Nicknames H) (nick : Bytes) : Bool :=
  (n.mapNicknameBook (toUpperCopy nick)).isnonprivate

def hasViewKeyNickname (n : Nicknames H) (nick : Bytes) : Bool :=
  (n.mapNicknameBook (toUpperCopy nick)).hasviewkey

def getViewKeyNickname (n : Nicknames H) (nick : Bytes) : CPubKey :=
  (n.mapNicknameBook (toUpperCopy nick)).viewkey

def getNicknameForAddress (n : Nicknames H) (address : CPubKey) : Bytes :=
  (n.mapAddressForNicknameBook address).name

def getHashForNickname (n : Nicknames H) (nick : Bytes) : H :=
  (n.mapNicknameBook (toUpperCopy nick)).hash

def getHashForAddress (n : Nicknames H) (address : CPubKey) : H :=
  (n.mapAddressForNicknameBook address).hash

/-- `SetNickname`: the old name of the address becomes invalid, the new one is stored; the block
hash is kept with the address only where `storeblockhash` says so -/
def setNickname (n : Nicknames H) (strName : Bytes) (address : CPubKey) (hash : H)
    (storeblockhash isnonprivate hasviewkey : Bool) (viewkey : CPubKey) : Nicknames H :=
  let oldnick := n.getNicknameForAddress address
  let n := if 0 < oldnick.length then
      n.modifyName (toUpperCopy oldnick) fun d => { d with invalid := true }
    else n
  let n := n.modifyName (toUpperCopy strName) fun _ =>
    ⟨address, hash, false, isnonprivate, hasviewkey, viewkey⟩
  n.modifyAddress address fun d =>
    { name := strName, hash := if storeblockhash then hash else d.hash }

def deleteNickname (n : Nicknames H) (strName : Bytes) (address : CPubKey) : Nicknames H :=
  (n.modifyName (toUpperCopy strName) fun d => { d with pubkey := default, hash := default }).modifyAddress
    address fun _ => { name := [], hash := default }

end Nicknames

/-! ## the nickname inputs of a block -/

def nicknameHash (env : Env H) (i : CTxIn H) : H := env.hashBytes (i.nickname ++ i.address.vch)

def signedByMaster (env : Env H) (i : CTxIn H) : Bool :=
  env.verify nicknameMasterPubKey (nicknameHash env i) i.nicknamesig

def validCharacter (ch : UInt8) : Bool :=
  (decide (48 ≤ ch) && decide (ch ≤ 57)) || (decide (97 ≤ ch) && decide (ch ≤ 122)) ||
    (decide (65 ≤ ch) && decide (ch ≤ 90))

def nicknameInputs (vtx : List (CTransaction H)) : List (CTxIn H) :=
  vtx.flatMap fun tx => tx.vin.filter (·.isnickname)

def addNickname (env : Env H) (hashBlock : H) (n : Nicknames H) (i : CTxIn H) : Nicknames H :=
  n.setNickname i.nickname i.address hashBlock (!signedByMaster env i) i.isnonprivatenickname
    i.nicknamehasviewkey i.viewpubkey

def addNicknames (env : Env H) (hashBlock : H) (vtx : List (CTransaction H)) (n : Nicknames H) :
    Nicknames H :=
  (nicknameInputs vtx).foldl (addNickname env hashBlock) n

def removeNicknames (vtx : List (CTransaction H)) (n : Nicknames H) : Nicknames H :=
  (nicknameInputs vtx).foldl (fun n i => n.deleteNickname i.nickname i.address) n

end BitCash
