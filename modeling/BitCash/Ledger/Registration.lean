import BitCash.Validation.ConnectBlock
import BitCash.Lib.Wire

/-!
# What a nickname signature covers

The message under a nickname signature is the name followed by the address key.
-/

set_option linter.unusedSectionVars false

namespace BitCash
open Checks Wire CPubKey

variable {H : Type} [Inhabited H] [DecidableEq H] {env : Env H} {i : CTxIn H}

def Env.BindingSignatures (env : Env H) : Prop :=
  ∀ (k : CPubKey) (h h' : H) (sig : Bytes), env.verify k h sig = true → env.verify k h' sig = true →
    h = h'

structure SignedWith (env : Env H) (k : CPubKey) (i : CTxIn H) : Prop where
  key : k = i.address ∨ k = nicknameMasterPubKey
  valid : env.verify k (nicknameHash env i) i.nicknamesig = true

def RegistersIn (env : Env H) (tx : CTransaction H) (i : CTxIn H) : Prop :=
  i ∈ tx.vin ∧ i.isnickname = true ∧
    ∃ nicks dup blockhash dbl, checkTransaction env nicks tx dup blockhash dbl = .ok ()

theorem checkNickname_ok {nicks : Nicknames H} {bh : H} {dbl : Bool} (h : checkNickname env nicks bh dbl i = .ok ()) :
    i.nickname.all validCharacter ∧ i.address.isValid := by
  simp only [checkNickname, bind_ok, need_ok, exists_const] at h
  obtain ⟨-, -, hchars, -, haddr, -⟩ := h
  exact ⟨hchars, haddr⟩

theorem RegistersIn.wellFormed {tx : CTransaction H} (h : RegistersIn env tx i) :
    i.nickname.all validCharacter ∧ i.address.isValid := by
  obtain ⟨hmem, hn, nicks, dup, bh, dbl, hct⟩ := h
  obtain ⟨-, -, -, -, -, -, hnick⟩ := checkTransaction_ok env hct
  exact checkNickname_ok (each_ok.1 hnick i (List.mem_filter.2 ⟨hmem, hn⟩))

theorem key_head_not_character (k : CPubKey) : k.vch.head?.all (fun b => !validCharacter b) := by
  obtain ⟨vch, wf⟩ := k
  cases vch with
  | nil => rfl
  | cons b l =>
    have hlen : 0 < getLen b := by
      unfold wellFormed at wf
      exact of_decide_eq_true (Bool.and_eq_true_iff.1 wf).1
    have hb : b = 2 ∨ b = 3 ∨ b = 4 ∨ b = 6 ∨ b = 7 := by
      unfold getLen at hlen
      by_contra hne
      simp only [not_or] at hne
      simp [hne] at hlen
    show (!validCharacter b) = true
    rcases hb with rfl | rfl | rfl | rfl | rfl
    all_goals rfl

theorem parse_unique {j : CTxIn H} (hi : i.nickname.all validCharacter)
    (hj : j.nickname.all validCharacter) (h : i.nickname ++ i.address.vch = j.nickname ++ j.address.vch) :
    i.nickname = j.nickname ∧ i.address = j.address := by
  obtain ⟨hname, hkey⟩ := append_inj_of_all hi hj (key_head_not_character i.address)
    (key_head_not_character j.address) h
  refine ⟨hname, ?_⟩
  cases hia : i.address with
  | mk vch wf =>
    cases hja : j.address with
    | mk vch' wf' =>
      rw [hia, hja] at hkey
      cases hkey
      rfl

theorem addNickname_entry (hashBlock : H) (n : Nicknames H) (i : CTxIn H) :
    (addNickname env hashBlock n i).mapNicknameBook (toUpperCopy i.nickname) =
      ⟨i.address, hashBlock, false, i.isnonprivatenickname, i.nicknamehasviewkey, i.viewpubkey⟩ :=
  if_pos rfl

/-- **a registration is authorised** up to its private and view key fields: two accepted inputs with
one signature of one key have the same name and address, and they are recorded alike in every book and
every block exactly when those fields agree -/
theorem registration_authorised_iff (hinj : Function.Injective env.hashBytes)
    (hsig : env.BindingSignatures) {tx ty : CTransaction H} {i j : CTxIn H} {k : CPubKey}
    (hi : RegistersIn env tx i) (hj : RegistersIn env ty j) (hsame : i.nicknamesig = j.nicknamesig)
    (hki : SignedWith env k i) (hkj : SignedWith env k j) : i.nickname = j.nickname ∧ i.address = j.address ∧
      ((∀ (n : Nicknames H) (hashBlock : H), addNickname env hashBlock n i = addNickname env hashBlock n j) ↔
        i.isnonprivatenickname = j.isnonprivatenickname ∧
          i.nicknamehasviewkey = j.nicknamehasviewkey ∧ i.viewpubkey = j.viewpubkey) := by
  have hhash : nicknameHash env i = nicknameHash env j :=
    hsig k _ _ i.nicknamesig hki.valid (by rw [hsame]; exact hkj.valid)
  obtain ⟨hname, haddr⟩ := parse_unique hi.wellFormed.1 hj.wellFormed.1 (hinj hhash)
  refine ⟨hname, haddr, ?_, ?_⟩
  · intro h
    have hentry := congrArg (fun n => n.mapNicknameBook (toUpperCopy i.nickname)) (h .empty default)
    simp only [addNickname_entry] at hentry
    rw [hname, addNickname_entry] at hentry
    simp only [CNicknameBookData.mk.injEq, true_and] at hentry
    exact hentry.2
  · rintro ⟨hprivate, hhas, hview⟩ n hashBlock
    have hmaster : signedByMaster env i = signedByMaster env j := by
      unfold signedByMaster
      rw [hhash, hsame]
    unfold addNickname
    rw [hname, haddr, hmaster, hprivate, hhas, hview]

/-! ## one signature, two registrations -/

def bobSignedEnv : Env Digest :=
  { symEnv with
    verify := fun k h sig => decide (sig = k.vch) &&
      decide (h = symEnv.hashBytes ([98, 111, 98] ++ dev1ScriptPubKey.vch)) }

theorem bobSignedEnv_binding : bobSignedEnv.BindingSignatures := by
  intro k h h' sig hv hv'
  have e := of_decide_eq_true (Bool.and_eq_true_iff.1 hv).2
  have e' := of_decide_eq_true (Bool.and_eq_true_iff.1 hv').2
  rw [e, e']

theorem bobSignedEnv_injective : Function.Injective bobSignedEnv.hashBytes :=
  fun _ _ h => Digest.Code.inj (Digest.tagged_inj h).2

def bobInput (isnonprivate : Bool) (witness : List Bytes) : CTxIn Digest :=
  { CTxIn.ofNickname [98, 111, 98] dev1ScriptPubKey dev1ScriptPubKey.vch isnonprivate false default with
    scriptWitness := witness }

def bobRegistration (isnonprivate : Bool) (witness : List Bytes) : CTransaction Digest :=
  ⟨6, [bobInput isnonprivate witness], [], 0, by cases isnonprivate <;> rfl, rfl⟩

theorem bobInput_registers (isnonprivate : Bool) (witness : List Bytes) :
    RegistersIn bobSignedEnv (bobRegistration isnonprivate witness) (bobInput isnonprivate witness) := by
  refine ⟨List.mem_singleton_self _, rfl, .empty, true, default, true, ?_⟩
  cases isnonprivate
  · rfl
  · rfl

theorem bobInput_signed (isnonprivate : Bool) (witness : List Bytes) :
    SignedWith bobSignedEnv dev1ScriptPubKey (bobInput isnonprivate witness) :=
  ⟨.inl rfl, by rfl⟩

/-- the signature of a private registration is valid for one that is not private -/
theorem registration_not_authorised : (RegistersIn bobSignedEnv (bobRegistration false []) (bobInput false []) ∧
        SignedWith bobSignedEnv dev1ScriptPubKey (bobInput false [])) ∧
      (RegistersIn bobSignedEnv (bobRegistration true []) (bobInput true []) ∧
        SignedWith bobSignedEnv dev1ScriptPubKey (bobInput true [])) ∧
      (bobInput false []).nicknamesig = (bobInput true []).nicknamesig ∧
      ((addNickname bobSignedEnv (.atom 1) .empty (bobInput false [])).mapNicknameBook
        [66, 79, 66]).isnonprivate = false ∧
      ((addNickname bobSignedEnv (.atom 1) .empty (bobInput true [])).mapNicknameBook
        [66, 79, 66]).isnonprivate = true :=
  ⟨⟨bobInput_registers false [], bobInput_signed false []⟩,
    ⟨bobInput_registers true [], bobInput_signed true []⟩, rfl, by decide, by decide⟩

/-- two registrations that differ in their witness only are recorded alike -/
theorem registration_authorised_bob : bobInput false [] ≠ bobInput false [[1]] ∧
      ∀ (n : Nicknames Digest) (hashBlock : Digest), addNickname bobSignedEnv hashBlock n (bobInput false []) =
          addNickname bobSignedEnv hashBlock n (bobInput false [[1]]) :=
  ⟨by decide, (registration_authorised_iff bobSignedEnv_injective bobSignedEnv_binding
    (bobInput_registers false []) (bobInput_registers false [[1]]) rfl (bobInput_signed false [])
    (bobInput_signed false [[1]])).2.2.2 ⟨rfl, rfl, rfl⟩⟩

end BitCash
