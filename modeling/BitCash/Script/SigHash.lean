import BitCash.Consensus.Symbolic
import BitCash.Lib.Wire
import Mathlib.Data.List.OfFn

/-!
# The signature hash

`SignatureHash` of `script/interpreter.cpp`, with the state of the process it reads.
-/

namespace BitCash
open Wire Digest List CTxOut

variable {H : Type} [Inhabited H] [DecidableEq H]

/-! ## the flags -/

structure SerFlags where
  userefline : Bool
  usenonprivacy : Bool
  usecurrency : Bool
  usemasterkeydummyonly : Bool
  deriving DecidableEq

namespace SerFlags

def initial : SerFlags := ⟨false, false, false, false⟩

def ofVersion (nVersion : Int) : SerFlags :=
  ⟨decide (3 ≤ nVersion), decide (4 ≤ nVersion), decide (5 ≤ nVersion), decide (6 ≤ nVersion)⟩

def layout (f : SerFlags) : Bool × Bool × Bool := (f.userefline, f.usenonprivacy, f.usecurrency)

def Nested (f : SerFlags) : Prop :=
  (f.usecurrency = true → f.usenonprivacy = true) ∧ (f.usenonprivacy = true → f.userefline = true)

def level (f : SerFlags) : Nat := f.userefline.toNat + f.usenonprivacy.toNat + f.usecurrency.toNat

end SerFlags

def flagsAfter (history : List (CTransaction H)) : SerFlags :=
  history.foldl (fun _ tx => .ofVersion tx.nVersion) .initial

theorem flagsAfter_nested (history : List (CTransaction H)) : (flagsAfter history).Nested := by
  have hver : ∀ v : Int, (SerFlags.ofVersion v).Nested := by
    intro v
    constructor
    · show decide (5 ≤ v) = true → decide (4 ≤ v) = true
      rw [decide_eq_true_iff, decide_eq_true_iff]
      omega
    · show decide (4 ≤ v) = true → decide (3 ≤ v) = true
      rw [decide_eq_true_iff, decide_eq_true_iff]
      omega
  have hfold : ∀ (l : List (CTransaction H)) (f : SerFlags), f.Nested →
      (l.foldl (fun _ tx => SerFlags.ofVersion tx.nVersion) f).Nested := by
    intro l
    induction l with
    | nil => exact fun f hf => hf
    | cons tx l ih => exact fun f _ => ih _ (hver tx.nVersion)
  exact hfold history .initial ⟨id, id⟩

theorem level_of_layout_ne {f g : SerFlags} (hf : f.Nested) (hg : g.Nested)
    (h : f.layout ≠ g.layout) : f.level < g.level ∨ g.level < f.level := by
  obtain ⟨a, b, c, d⟩ := f
  obtain ⟨a', b', c', d'⟩ := g
  unfold SerFlags.Nested at hf hg
  unfold SerFlags.layout at h
  unfold SerFlags.level
  cases a <;> cases b <;> cases c <;> cases a' <;> cases b' <;> cases c' <;> simp_all

/-! ## an output in bytes -/

def le64 (x : Int) : Bytes := le 8 (x % 2 ^ 64).toNat

def compactBytes (n : Nat) : Bytes :=
  if n < 253 then [UInt8.ofNat n]
  else if n ≤ 0xffff then 253 :: le 2 n
  else if n ≤ 0xffffffff then 254 :: le 4 n
  else 255 :: le 8 n

def vectorBytes (b : Bytes) : Bytes := compactBytes b.length ++ b

def CTxOut.hashBytes (f : SerFlags) (o : CTxOut) : Bytes :=
  (if f.usecurrency then [] else le64 o.nValue) ++ vectorBytes o.scriptPubKey ++
    (if f.userefline then
      vectorBytes o.referenceline ++ vectorBytes o.randomPubKey.vch ++ o.randomPrivatKey else []) ++
    (if f.usenonprivacy then
      [if o.isnonprivate then 1 else 0, o.recipientid1, o.recipientid2] else []) ++
    (if f.usecurrency then le64 o.nValueBitCash ++ [o.currency] else [])

@[simp] theorem length_le64 (x : Int) : (le64 x).length = 8 := length_le 8 _

theorem length_vectorBytes_pos (b : Bytes) : 0 < (vectorBytes b).length := by
  unfold vectorBytes compactBytes
  rw [length_append]
  split
  · simp
  · split
    · simp
    · split
      · simp
      · simp

theorem hashBytes_layout {f g : SerFlags} (h : f.layout = g.layout) (o : CTxOut) : o.hashBytes f = o.hashBytes g := by
  unfold SerFlags.layout at h
  simp only [Prod.mk.injEq] at h
  unfold hashBytes
  rw [h.1, h.2.1, h.2.2]

theorem hashBytes_shorter {f g : SerFlags} (hf : f.Nested) (hg : g.Nested) (h : f.level < g.level)
    (o : CTxOut) : (o.hashBytes f).length < (o.hashBytes g).length := by
  have href := length_vectorBytes_pos o.referenceline
  obtain ⟨a, b, c, d⟩ := f
  obtain ⟨a', b', c', d'⟩ := g
  unfold SerFlags.Nested at hf hg
  unfold SerFlags.level at h
  unfold hashBytes
  simp only [length_append]
  cases a <;> cases b <;> cases c <;> cases a' <;> cases b' <;> cases c' <;> simp_all <;> omega

/-! ## the outputs a hash covers -/

/-- the uninitialised `randomPrivatKey` of a fresh output, for each place where one is made -/
abbrev Uninit := Nat → Fin 32 → UInt8

def CTxOut.null (u : Fin 32 → UInt8) : CTxOut :=
  ⟨-1, -1, [], [], List.ofFn u, default, 0, false, 0, 0⟩

inductive Slot where
  | blank (i : Nat)
  | out (o : CTxOut)

def Slot.txout (u : Uninit) : Slot → CTxOut
  | .blank i => .null (u i)
  | .out o => o

def slotBytes (f : SerFlags) (u : Uninit) (l : List Slot) : Bytes :=
  l.flatMap fun s => (s.txout u).hashBytes f

inductive SigVersion where
  | base
  | witnessV0
  deriving DecidableEq

def SIGHASH_NONE : BitVec 32 := 2#32
def SIGHASH_SINGLE : BitVec 32 := 3#32
def SIGHASH_ANYONECANPAY : BitVec 32 := 0x80#32

def anyoneCanPay (nHashType : BitVec 32) : Bool := nHashType &&& SIGHASH_ANYONECANPAY != 0
def hashSingle (nHashType : BitVec 32) : Bool := nHashType &&& 0x1f#32 == SIGHASH_SINGLE
def hashNone (nHashType : BitVec 32) : Bool := nHashType &&& 0x1f#32 == SIGHASH_NONE

variable (txTo : CTransaction H) (nIn : Nat) (nHashType : BitVec 32)

def serializeOutput (nOutput : Nat) : List Slot :=
  if hashSingle nHashType && nOutput != nIn then [.blank nOutput]
  else (txTo.vout[nOutput]?.map Slot.out).toList

def baseOutputs : List Slot :=
  (List.range (if hashNone nHashType then 0 else if hashSingle nHashType then nIn + 1
    else txTo.vout.length)).flatMap (serializeOutput txTo nIn nHashType)

def singleOutput : List Slot := (txTo.vout[nIn]?.map Slot.out).toList

/-! ## SignatureHash -/

structure WitnessSigPreimage (H : Type) where
  nVersion : Int
  hashPrevouts : H
  hashSequence : H
  prevout : COutPoint H
  scriptCode : CScript
  amount : Int
  nSequence : UInt32
  hashOutputs : H
  nLockTime : UInt32
  nHashType : BitVec 32
  deriving DecidableEq

/-- the inputs with the script that stands for theirs, and the outputs as bytes behind their number -/
structure BaseSigPreimage (H : Type) where
  nVersion : Int
  vin : List (COutPoint H × Bytes × UInt32)
  nOutputs : Nat
  vout : Bytes
  nLockTime : UInt32
  nHashType : BitVec 32
  deriving DecidableEq

structure SigHashEnv (H : Type) where
  hashPrevouts : List (COutPoint H) → H
  hashSequence : List UInt32 → H
  hashOutputs : Bytes → H
  hashWitness : WitnessSigPreimage H → H
  hashBase : BaseSigPreimage H → H
  scriptCodeBytes : CScript → Bytes
  /-- the hash that stands for an output that is not there -/
  one : H

structure SigHashEnv.Injective (senv : SigHashEnv H) : Prop where
  outputs : Function.Injective senv.hashOutputs
  witness : Function.Injective senv.hashWitness
  base : Function.Injective senv.hashBase

structure PrecomputedTransactionData (H : Type) where
  hashPrevouts : H
  hashSequence : H
  hashOutputs : H
  ready : Bool

variable (senv : SigHashEnv H) (f : SerFlags) (u : Uninit)

def getPrevoutHash : H := senv.hashPrevouts (txTo.vin.map (·.prevout))

def getSequenceHash : H := senv.hashSequence (txTo.vin.map (·.nSequence))

def getOutputsHash : H := senv.hashOutputs (txTo.vout.flatMap (CTxOut.hashBytes f))

def precomputedTransactionData : PrecomputedTransactionData H :=
  if txTo.hasWitness then
    ⟨getPrevoutHash txTo senv, getSequenceHash txTo senv, getOutputsHash txTo senv f, true⟩
  else ⟨default, default, default, false⟩

def serializeInput (scriptCode : CScript) (p : CTxIn H × Nat) : COutPoint H × Bytes × UInt32 :=
  (p.1.prevout, if p.2 = nIn then senv.scriptCodeBytes scriptCode else [],
    if p.2 ≠ nIn ∧ (hashSingle nHashType || hashNone nHashType) = true then 0 else p.1.nSequence)

def baseSigPreimage (scriptCode : CScript) : BaseSigPreimage H where
  nVersion := txTo.nVersion
  vin := (txTo.vin.zipIdx.filter fun p => !anyoneCanPay nHashType || p.2 == nIn).map
    (serializeInput nIn nHashType senv scriptCode)
  nOutputs := (baseOutputs txTo nIn nHashType).length
  vout := slotBytes f u (baseOutputs txTo nIn nHashType)
  nLockTime := txTo.nLockTime
  nHashType := nHashType

def witnessHashOutputs (cache : Option (PrecomputedTransactionData H)) : H :=
  if !hashSingle nHashType && !hashNone nHashType then
    ((cache.filter (·.ready)).map (·.hashOutputs)).getD (getOutputsHash txTo senv f)
  else if hashSingle nHashType && decide (nIn < txTo.vout.length) then
    senv.hashOutputs (slotBytes f u (singleOutput txTo nIn))
  else default

def witnessSigPreimage (scriptCode : CScript) (txin : CTxIn H) (amount : Int)
    (cache : Option (PrecomputedTransactionData H)) : WitnessSigPreimage H where
  nVersion := txTo.nVersion
  hashPrevouts :=
    if anyoneCanPay nHashType then default
    else ((cache.filter (·.ready)).map (·.hashPrevouts)).getD (getPrevoutHash txTo senv)
  hashSequence :=
    if anyoneCanPay nHashType || hashSingle nHashType || hashNone nHashType then default
    else ((cache.filter (·.ready)).map (·.hashSequence)).getD (getSequenceHash txTo senv)
  prevout := txin.prevout
  scriptCode := scriptCode
  amount := amount
  nSequence := txin.nSequence
  hashOutputs := witnessHashOutputs txTo nIn nHashType senv f u cache
  nLockTime := txTo.nLockTime
  nHashType := nHashType

def signatureHash (scriptCode : CScript) (amount : Int) (sigversion : SigVersion)
    (cache : Option (PrecomputedTransactionData H)) : Res H :=
  match txTo.vin[nIn]? with
  | none => .error (.fault .assertionFailed)
  | some txin =>
    match sigversion with
    | .witnessV0 =>
      .ok (senv.hashWitness (witnessSigPreimage txTo nIn nHashType senv f u scriptCode txin amount cache))
    | .base =>
      if hashSingle nHashType && decide (txTo.vout.length ≤ nIn) then .ok senv.one
      else .ok (senv.hashBase (baseSigPreimage txTo nIn nHashType senv f u scriptCode))

structure SigHashCall (H : Type) [Inhabited H] [DecidableEq H] where
  history : List (CTransaction H)
  precomputed : Option (List (CTransaction H))
  uninit : Uninit

variable (scriptCode : CScript) (amount : Int) (sigversion : SigVersion)

def SigHashCall.value (c : SigHashCall H) : Res H :=
  signatureHash txTo nIn nHashType senv (flagsAfter c.history) c.uninit scriptCode amount sigversion
    (c.precomputed.map fun h => precomputedTransactionData txTo senv (flagsAfter h))

def SigHashCall.outputFlags (c : SigHashCall H) : SerFlags :=
  if sigversion = .witnessV0 ∧ hashSingle nHashType = false ∧ hashNone nHashType = false ∧
      txTo.hasWitness = true then
    (c.precomputed.map flagsAfter).getD (flagsAfter c.history)
  else flagsAfter c.history

def hashedOutputs : List Slot :=
  match sigversion with
  | .base => if hashSingle nHashType && decide (txTo.vout.length ≤ nIn) then []
    else baseOutputs txTo nIn nHashType
  | .witnessV0 => if !hashSingle nHashType && !hashNone nHashType then txTo.vout.map .out
    else if hashSingle nHashType then singleOutput txTo nIn else []

def HashesOutput : Prop :=
  if hashNone nHashType then False
  else if hashSingle nHashType then nIn < txTo.vout.length else txTo.vout ≠ []

/-! ## equal bytes -/

variable {txTo nIn nHashType senv f u scriptCode amount sigversion} {i n : Nat}

theorem null_hashBytes (f : SerFlags) (u : Fin 32 → UInt8) : (null u).hashBytes f =
      (if f.usecurrency then [] else le64 (-1)) ++ [0] ++ (if f.userefline then [0, 0] ++ ofFn u else []) ++
        (if f.usenonprivacy then [0, 0, 0] else []) ++ (if f.usecurrency then le64 (-1) ++ [0] else []) := rfl

theorem length_null (f : SerFlags) (u u' : Fin 32 → UInt8) :
    ((null u).hashBytes f).length = ((null u').hashBytes f).length := by
  rw [null_hashBytes, null_hashBytes]
  cases f.userefline with
  | false => rfl
  | true => simp

theorem null_hashBytes_eq_iff (f : SerFlags) (u u' : Fin 32 → UInt8) :
    (null u).hashBytes f = (null u').hashBytes f ↔ (f.userefline → u = u') := by
  rw [null_hashBytes, null_hashBytes]
  cases f.userefline with
  | false => simp
  | true =>
    simp only [if_true, append_assoc, append_right_inj, append_left_inj, forall_const]
    exact ofFn_injective.eq_iff

/-- **equal bytes**: two calls write the same bytes for some outputs exactly when there are none, or
they write them in the same layout with the same uninitialised bytes -/
theorem slotBytes_eq_iff {f g : SerFlags} (hf : f.Nested) (hg : g.Nested) {u u' : Uninit} {l : List Slot} :
    slotBytes f u l = slotBytes g u' l ↔ (l ≠ [] → f.layout = g.layout ∧
      (f.userefline → ∀ i, Slot.blank i ∈ l → u i = u' i)) := by
  have hlen : ∀ f, ∀ s ∈ l, ((s.txout u).hashBytes f).length = ((s.txout u').hashBytes f).length := by
    intro f s _
    cases s with
    | blank i => exact length_null f _ _
    | out o => rfl
  have hflat : ∀ f, (slotBytes f u l).length = (slotBytes f u' l).length := by
    intro f
    simp only [slotBytes, length_flatMap]
    rw [map_congr_left (hlen f)]
  by_cases hl : l = []
  · subst hl
    simp [slotBytes]
  · simp only [hl, ne_eq, not_false_eq_true, forall_const]
    by_cases hlay : f.layout = g.layout
    · -- the same layout: output by output
      have hsame : slotBytes g u' l = slotBytes f u' l := by
        unfold slotBytes
        rw [flatMap, flatMap, map_congr_left fun s _ => hashBytes_layout hlay.symm _]
      rw [hsame]
      unfold slotBytes
      rw [flatMap_congr_iff (hlen f)]
      constructor
      · intro h
        exact ⟨hlay, fun href i hi => (null_hashBytes_eq_iff f _ _).1 (h (.blank i) hi) href⟩
      · intro h s hs
        cases s with
        | blank i => exact (null_hashBytes_eq_iff f _ _).2 fun href => h.2 href i hs
        | out o => rfl
    · -- another layout: another length
      simp only [hlay, false_and, iff_false]
      intro heq
      have hpos := length_pos_of_ne_nil hl
      have hlength := congrArg length heq
      rcases level_of_layout_ne hf hg hlay with hlt | hlt
      · have := @flatMap_shorter _ _ _ _ l fun s _ => hashBytes_shorter hf hg hlt (s.txout u)
        have hg' := hflat g
        unfold slotBytes at hlength hg'
        omega
      · have := @flatMap_shorter _ _ _ _ l fun s _ => hashBytes_shorter hg hf hlt (s.txout u')
        have hf' := hflat f
        unfold slotBytes at hlength hf'
        omega

/-! ## equal hashes -/

theorem blank_mem_serializeOutput : Slot.blank i ∈ serializeOutput txTo nIn nHashType n ↔
      i = n ∧ hashSingle nHashType ∧ n ≠ nIn := by
  unfold serializeOutput
  split
  · next hc =>
    have hblank : hashSingle nHashType = true ∧ n ≠ nIn := by simpa using hc
    simp [hblank]
  · next hc =>
    have hkept : ¬ (hashSingle nHashType = true ∧ n ≠ nIn) := by simpa using hc
    refine iff_of_false ?_ fun h => hkept h.2
    cases txTo.vout[n]? <;> simp

theorem blank_mem_baseOutputs : Slot.blank i ∈ baseOutputs txTo nIn nHashType ↔
      hashSingle nHashType ∧ hashNone nHashType = false ∧ i < nIn := by
  unfold baseOutputs
  rw [mem_flatMap]
  constructor
  · rintro ⟨n, hn, hs⟩
    obtain ⟨rfl, hsingle, hne⟩ := blank_mem_serializeOutput.1 hs
    cases hnone : hashNone nHashType with
    | true =>
      rw [hnone] at hn
      cases hn
    | false =>
      rw [hnone, hsingle] at hn
      have hlt : i < nIn + 1 := mem_range.1 hn
      exact ⟨hsingle, rfl, by omega⟩
  · rintro ⟨hsingle, hnone, hi⟩
    refine ⟨i, ?_, blank_mem_serializeOutput.2 ⟨rfl, hsingle, by omega⟩⟩
    rw [hnone, hsingle]
    show i ∈ range (nIn + 1)
    exact mem_range.2 (by omega)

theorem blank_mem_hashedOutputs : Slot.blank i ∈ hashedOutputs txTo nIn nHashType sigversion ↔
      sigversion = .base ∧ hashSingle nHashType ∧ hashNone nHashType = false ∧ nIn < txTo.vout.length ∧ i < nIn := by
  cases sigversion with
  | witnessV0 =>
    have hout : ∀ (x : Option CTxOut), Slot.blank i ∉ (x.map Slot.out).toList := by
      intro x
      cases x with
      | none => simp
      | some o => simp
    simp only [hashedOutputs, reduceCtorEq, false_and, iff_false]
    split
    · simp
    · split
      · exact hout _
      · simp
  | base =>
    simp only [hashedOutputs, true_and]
    split
    · next hone =>
      have hle : txTo.vout.length ≤ nIn := of_decide_eq_true (Bool.and_eq_true_iff.1 hone).2
      refine iff_of_false not_mem_nil fun h => ?_
      have hlt := h.2.2.1
      omega
    · next hone =>
      rw [blank_mem_baseOutputs]
      constructor
      · rintro ⟨hsingle, hnone, hi⟩
        rw [hsingle, Bool.true_and, decide_eq_true_iff] at hone
        exact ⟨hsingle, hnone, by omega, hi⟩
      · rintro ⟨hsingle, hnone, -, hi⟩
        exact ⟨hsingle, hnone, hi⟩

theorem hashNone_of_hashSingle (h : hashSingle nHashType) : hashNone nHashType = false := by
  unfold hashSingle at h
  unfold hashNone
  rw [beq_iff_eq] at h
  rw [h]
  rfl

theorem out_mem_baseOutputs {o : CTxOut} (ho : txTo.vout[n]? = some o)
    (hnone : hashNone nHashType = false) (hn : hashSingle nHashType → n = nIn) :
    Slot.out o ∈ baseOutputs txTo nIn nHashType := by
  have hlt : n < txTo.vout.length := (List.getElem?_eq_some_iff.1 ho).1
  unfold baseOutputs
  rw [hnone]
  refine mem_flatMap.2 ⟨n, mem_range.2 ?_, ?_⟩
  · cases hs : hashSingle nHashType with
    | true =>
      show n < nIn + 1
      rw [hn hs]
      omega
    | false => exact hlt
  · unfold serializeOutput
    have hc : ¬ (hashSingle nHashType && n != nIn) := by
      intro hc
      obtain ⟨hs, hne⟩ := Bool.and_eq_true_iff.1 hc
      rw [hn hs] at hne
      simp at hne
    rw [if_neg hc, ho]
    exact mem_singleton_self _

theorem hashedOutputs_ne_nil :
    hashedOutputs txTo nIn nHashType sigversion ≠ [] ↔ HashesOutput txTo nIn nHashType := by
  unfold HashesOutput
  cases hnone : hashNone nHashType with
  | true =>
    have hsingle : hashSingle nHashType = false := by
      cases hs : hashSingle nHashType with
      | false => rfl
      | true => rw [hashNone_of_hashSingle hs] at hnone; cases hnone
    cases sigversion with
    | base => simp [hashedOutputs, hsingle, baseOutputs, hnone]
    | witnessV0 => simp [hashedOutputs, hsingle, hnone]
  | false =>
    cases hsingle : hashSingle nHashType with
    | true =>
      by_cases hlt : nIn < txTo.vout.length
      · have ho : txTo.vout[nIn]? = some txTo.vout[nIn] := getElem?_eq_getElem hlt
        have hmem : Slot.out txTo.vout[nIn] ∈ baseOutputs txTo nIn nHashType :=
          out_mem_baseOutputs ho hnone fun _ => rfl
        have hge : ¬ txTo.vout.length ≤ nIn := by omega
        cases sigversion with
        | base => simpa [hashedOutputs, hsingle, hge, hlt] using ne_nil_of_mem hmem
        | witnessV0 => simp [hashedOutputs, hsingle, singleOutput, hlt]
      · have hge : txTo.vout.length ≤ nIn := by omega
        cases sigversion with
        | base => simp [hashedOutputs, hsingle, hge]
        | witnessV0 => simp [hashedOutputs, hsingle, singleOutput, hge]
    | false =>
      cases sigversion with
      | witnessV0 => simp [hashedOutputs, hsingle, hnone]
      | base =>
        simp only [hashedOutputs, hsingle, Bool.false_and, Bool.false_eq_true, if_false]
        cases hv : txTo.vout with
        | nil => simp [baseOutputs, hnone, hsingle, hv]
        | cons o l =>
          have ho : txTo.vout[0]? = some o := by rw [hv]; rfl
          have hmem : Slot.out o ∈ baseOutputs txTo nIn nHashType := by
            apply out_mem_baseOutputs ho hnone
            intro hs
            rw [hsingle] at hs
            cases hs
          simpa using ne_nil_of_mem hmem

def SigHashCall.cache (c : SigHashCall H) (txTo : CTransaction H) (senv : SigHashEnv H) :
    Option (PrecomputedTransactionData H) :=
  (c.precomputed.map fun h => precomputedTransactionData txTo senv (flagsAfter h)).filter (·.ready)

section
variable (c : SigHashCall H)

theorem SigHashCall.cache_eq (txTo : CTransaction H) (senv : SigHashEnv H) :
    c.cache txTo senv = if txTo.hasWitness then c.precomputed.map fun h =>
      ⟨getPrevoutHash txTo senv, getSequenceHash txTo senv, getOutputsHash txTo senv (flagsAfter h),
        true⟩ else none := by
  unfold SigHashCall.cache precomputedTransactionData
  cases txTo.hasWitness with
  | false => cases c.precomputed <;> rfl
  | true => cases c.precomputed <;> rfl

theorem SigHashCall.cached_prevouts (txTo : CTransaction H) (senv : SigHashEnv H) :
    ((c.cache txTo senv).map (·.hashPrevouts)).getD (getPrevoutHash txTo senv) = getPrevoutHash txTo senv := by
  rw [c.cache_eq]
  cases txTo.hasWitness with
  | false => rfl
  | true => cases c.precomputed <;> rfl

theorem SigHashCall.cached_sequence (txTo : CTransaction H) (senv : SigHashEnv H) :
    ((c.cache txTo senv).map (·.hashSequence)).getD (getSequenceHash txTo senv) = getSequenceHash txTo senv := by
  rw [c.cache_eq]
  cases txTo.hasWitness with
  | false => rfl
  | true => cases c.precomputed <;> rfl

theorem SigHashCall.cached_outputs (txTo : CTransaction H)
    (senv : SigHashEnv H) (hsingle : hashSingle nHashType = false) (hnone : hashNone nHashType = false) :
    ((c.cache txTo senv).map (·.hashOutputs)).getD (getOutputsHash txTo senv (flagsAfter c.history)) =
      getOutputsHash txTo senv (c.outputFlags txTo nHashType .witnessV0) := by
  rw [c.cache_eq]
  unfold SigHashCall.outputFlags
  cases hw : txTo.hasWitness with
  | false => simp
  | true => cases c.precomputed <;> simp [hsingle, hnone]

theorem SigHashCall.witnessHashOutputs_eq :
    witnessHashOutputs txTo nIn nHashType senv (flagsAfter c.history) c.uninit
        (c.precomputed.map fun h => precomputedTransactionData txTo senv (flagsAfter h)) =
      if !hashSingle nHashType && !hashNone nHashType || hashSingle nHashType && decide (nIn < txTo.vout.length) then
        senv.hashOutputs (slotBytes (c.outputFlags txTo nHashType .witnessV0) c.uninit
          (hashedOutputs txTo nIn nHashType .witnessV0)) else default := by
  cases hsingle : hashSingle nHashType with
  | true =>
    have hflags : c.outputFlags txTo nHashType .witnessV0 = flagsAfter c.history := if_neg (by simp [hsingle])
    simp [witnessHashOutputs, hashedOutputs, hsingle, hflags]
  | false =>
    cases hnone : hashNone nHashType with
    | true => simp [witnessHashOutputs, hsingle, hnone]
    | false =>
      have hall := c.cached_outputs txTo senv hsingle hnone
      simp only [witnessHashOutputs, hashedOutputs, hsingle, hnone, Bool.not_false, Bool.and_self,
        Bool.true_or, if_true]
      refine Eq.trans hall ?_
      unfold getOutputsHash slotBytes
      rw [flatMap_map]
      rfl

end

theorem value_eq_iff (hinj : senv.Injective) (c d : SigHashCall H) :
    c.value txTo nIn nHashType senv scriptCode amount sigversion =
        d.value txTo nIn nHashType senv scriptCode amount sigversion ↔ (nIn < txTo.vin.length →
        slotBytes (c.outputFlags txTo nHashType sigversion) c.uninit (hashedOutputs txTo nIn nHashType sigversion) =
          slotBytes (d.outputFlags txTo nHashType sigversion) d.uninit
            (hashedOutputs txTo nIn nHashType sigversion)) := by
  unfold SigHashCall.value signatureHash
  by_cases hin : nIn < txTo.vin.length
  · rw [getElem?_eq_getElem hin]
    simp only [hin, forall_const]
    cases sigversion with
    | base =>
      have hflags : ∀ e : SigHashCall H, e.outputFlags txTo nHashType .base = flagsAfter e.history :=
        fun e => if_neg (by simp)
      simp only [hashedOutputs, hflags]
      by_cases hone : (hashSingle nHashType && decide (txTo.vout.length ≤ nIn)) = true
      · simp only [if_pos hone, slotBytes, flatMap_nil]
      · simp only [if_neg hone, Except.ok.injEq, hinj.base.eq_iff]
        simp [baseSigPreimage]
    | witnessV0 =>
      simp only [Except.ok.injEq, hinj.witness.eq_iff, witnessSigPreimage,
        WitnessSigPreimage.mk.injEq, SigHashCall.witnessHashOutputs_eq, true_and, and_true]
      have hprev : ∀ e : SigHashCall H, _ := fun e => e.cached_prevouts txTo senv
      have hseq : ∀ e : SigHashCall H, _ := fun e => e.cached_sequence txTo senv
      unfold SigHashCall.cache at hprev hseq
      simp only [hprev, hseq, true_and]
      by_cases hcov : (!hashSingle nHashType && !hashNone nHashType ||
          hashSingle nHashType && decide (nIn < txTo.vout.length)) = true
      · simp only [if_pos hcov, hinj.outputs.eq_iff]
      · -- no output is hashed
        have hnil : hashedOutputs txTo nIn nHashType .witnessV0 = [] := by
          by_contra hne
          apply hcov
          have hh := hashedOutputs_ne_nil.1 hne
          unfold HashesOutput at hh
          cases hn : hashNone nHashType with
          | true => simp [hn] at hh
          | false =>
            cases hs : hashSingle nHashType with
            | false => rfl
            | true =>
              have hlt : nIn < txTo.vout.length := by simpa [hn, hs] using hh
              simp [hlt]
        simp only [if_neg hcov, hnil, slotBytes, flatMap_nil]
  · rw [getElem?_eq_none (by omega)]
    simp [hin]

/-- **the signature hash as a function of its arguments**: two calls return the same value exactly
when no output is hashed, or the outputs were written in the same layout and, where fresh ones are
written with a `randomPrivatKey`, with the same uninitialised bytes -/
theorem signatureHash_eq_iff (hinj : senv.Injective) (c d : SigHashCall H) :
    c.value txTo nIn nHashType senv scriptCode amount sigversion =
        d.value txTo nIn nHashType senv scriptCode amount sigversion ↔
      (nIn < txTo.vin.length → HashesOutput txTo nIn nHashType → (c.outputFlags txTo nHashType sigversion).layout =
          (d.outputFlags txTo nHashType sigversion).layout ∧ (sigversion = .base → hashSingle nHashType = true →
          (c.outputFlags txTo nHashType sigversion).userefline = true → ∀ i < nIn, c.uninit i = d.uninit i)) := by
  have hnested : ∀ e : SigHashCall H, (e.outputFlags txTo nHashType sigversion).Nested := by
    intro e
    unfold SigHashCall.outputFlags
    split
    · cases e.precomputed with
      | none => exact flagsAfter_nested _
      | some l => exact flagsAfter_nested l
    · exact flagsAfter_nested _
  rw [value_eq_iff hinj]
  refine forall_congr' fun _ => ?_
  rw [slotBytes_eq_iff (hnested c) (hnested d), hashedOutputs_ne_nil]
  refine forall_congr' fun hh => and_congr_right fun _ => ?_
  constructor
  · intro h hbase hsingle href i hi
    have hvout : nIn < txTo.vout.length := by
      unfold HashesOutput at hh
      rwa [hashNone_of_hashSingle hsingle, hsingle] at hh
    exact h href i (blank_mem_hashedOutputs.2 ⟨hbase, hsingle, hashNone_of_hashSingle hsingle, hvout, hi⟩)
  · intro h href i hi
    obtain ⟨hbase, hsingle, -, -, hlt⟩ := blank_mem_hashedOutputs.1 hi
    exact h hbase hsingle href i hlt

/-! ## two calls on one transaction -/

instance : Code (WitnessSigPreimage Digest) :=
  .ofInjective (fun p => (p.nVersion, p.hashPrevouts, p.hashSequence, p.prevout, p.scriptCode,
    p.amount, p.nSequence, p.hashOutputs, p.nLockTime, p.nHashType)) fun {a b} h => by
      cases a; cases b; simp_all

instance : Code (BaseSigPreimage Digest) :=
  .ofInjective (fun p => (p.nVersion, p.vin, p.nOutputs, p.vout, p.nLockTime, p.nHashType))
    fun {a b} h => by cases a; cases b; simp_all

def symSigHash : SigHashEnv Digest where
  hashPrevouts l := tagged 10 l
  hashSequence l := tagged 11 l
  hashOutputs b := tagged 12 b
  hashWitness p := tagged 13 p
  hashBase p := tagged 14 p
  scriptCodeBytes s := s
  one := .atom 1

theorem symSigHash_injective : symSigHash.Injective where
  outputs _ _ h := Code.inj (tagged_inj h).2
  witness _ _ h := Code.inj (tagged_inj h).2
  base _ _ h := Code.inj (tagged_inj h).2

def versionTx (nVersion : Int) : CTransaction Digest := ⟨nVersion, [], [], 0, rfl, rfl⟩

def twoByTwo : CTransaction Digest :=
  ⟨6, [.ofOutPoint ⟨.atom 7, 0⟩ [], .ofOutPoint ⟨.atom 8, 0⟩ []], [.of 4 4 [] 0, .of 4 4 [] 0], 0,
    by decide, by decide⟩

/-- a call after a transaction of some version was read, with the given byte all over the
uninitialised memory -/
def callAfter (nVersion : Int) (b : UInt8) : SigHashCall Digest :=
  ⟨[versionTx nVersion], none, fun _ _ => b⟩

/-- the same arguments, `SIGHASH_ALL` after transactions of versions 6 and 2, and `SIGHASH_SINGLE`
with different bytes in uninitialised memory: different values -/
theorem signatureHash_ne : (callAfter 6 0).value twoByTwo 1 1#32 symSigHash [] 4 .witnessV0 ≠
        (callAfter 2 0).value twoByTwo 1 1#32 symSigHash [] 4 .witnessV0 ∧
      (callAfter 6 0).value twoByTwo 1 SIGHASH_SINGLE symSigHash [] 4 .base ≠
        (callAfter 6 1).value twoByTwo 1 SIGHASH_SINGLE symSigHash [] 4 .base := by
  decide

/-- versions 5 and 6 are written in the same layout, and uninitialised bytes do not matter to
`SIGHASH_ALL` -/
theorem signatureHash_eq_allOutputs : (callAfter 6 0).value twoByTwo 1 1#32 symSigHash [] 4 .base =
      (callAfter 5 1).value twoByTwo 1 1#32 symSigHash [] 4 .base := by
  refine (signatureHash_eq_iff symSigHash_injective _ _).2 fun _ _ => ⟨by decide, ?_⟩
  intro _ hsingle
  cases hsingle

end BitCash
