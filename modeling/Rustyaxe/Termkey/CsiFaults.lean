import Rustyaxe.Termkey.CsiDriver

/-!
# Sequences that leave the arrays

The control sequences with which `tui.driver-csi.c` reads or writes outside of an array, or reads
a parameter that it has not written, are exactly the ones of `Faulty` (`peekkeyCsi_eq_none_iff`).
Their parameters are taken as a `long` that wraps has them: numbers that are no `long` are another
matter (`Overflowing`).
-/

set_option autoImplicit false

namespace Rustyaxe.Termkey

/-! ## The three bytes of a command -/

theorem toNat_csiCommand (cmd initial inter : UInt8) :
    (csiCommand cmd initial inter).toNat =
      inter.toNat * 2 ^ 16 + initial.toNat * 2 ^ 8 + cmd.toNat := by
  have happend : ∀ {n : ℕ} (a : BitVec n) (b : UInt8),
      (a ++ b.toBitVec).toNat = a.toNat * 2 ^ 8 + b.toNat := by
    intro n a b
    rw [BitVec.toNat_append, Nat.shiftLeft_eq, Nat.mul_comm,
      ← Nat.two_pow_add_eq_or_of_lt (i := 8) b.toBitVec.isLt, UInt8.toNat_toBitVec]
  have hzero : (0 : BitVec 8).toNat = 0 := rfl
  rw [csiCommand]
  rw [happend, happend, happend, hzero]
  omega

theorem csiCommand_inj {c i n c' i' n' : UInt8} :
    csiCommand c i n = csiCommand c' i' n' ↔ c = c' ∧ i = i' ∧ n = n' := by
  constructor
  · intro h
    have hnat := congrArg BitVec.toNat h
    rw [toNat_csiCommand, toNat_csiCommand] at hnat
    have hc := c.toNat_lt
    have hi := i.toNat_lt
    have hc' := c'.toNat_lt
    have hi' := i'.toNat_lt
    exact ⟨UInt8.toNat_inj.mp (by omega), UInt8.toNat_inj.mp (by omega),
      UInt8.toNat_inj.mp (by omega)⟩
  · rintro ⟨rfl, rfl, rfl⟩
    rfl

theorem final_csiCommand (cmd initial inter : UInt8) :
    UInt8.ofBitVec ((csiCommand cmd initial inter).setWidth 8) = cmd := by
  apply UInt8.toNat_inj.mp
  rw [UInt8.toNat_ofBitVec, BitVec.toNat_setWidth, toNat_csiCommand]
  have hc := cmd.toNat_lt
  omega

theorem csiCommand_lt {cmd initial inter : UInt8} (hcmd : cmd < 0x80) :
    (csiCommand cmd initial inter).toNat < 0x80 ↔ initial = 0 ∧ inter = 0 := by
  have hlt : cmd.toNat < 0x80 := UInt8.lt_iff_toNat_lt.mp hcmd
  rw [toNat_csiCommand, ← UInt8.toNat_inj, ← UInt8.toNat_inj, UInt8.toNat_zero]
  omega

/-! ## What goes wrong -/

/-- The codepoints in front of `tk->c0`. -/
def FaultyCodepoint (flags : TermKeyFlags) (codepoint : BitVec 64) : Prop :=
  codepoint.slt 0 = true ∧ flags.nointerpret = false

/-- **The sequences that leave an array**, or need a parameter that they do not have. -/
inductive Faulty (flags : TermKeyFlags) (cmd initial inter : UInt8) (arg : List (BitVec 64)) :
    Prop where
  /-- `args` has room for sixteen parameters. -/
  | args : 16 < arg.length → Faulty flags cmd initial inter arg
  /-- `csi_ss3s` has entries for final bytes only. -/
  | ss3 : (csiSs3s cmd).sym ≠ TermKeySym.unknown → initial ≠ 0 ∨ inter ≠ 0 →
    ¬ (cmd = 0x52 ∧ initial = 0x3f ∧ inter = 0) → Faulty flags cmd initial inter arg
  | funcNone : cmd = 0x7e → arg = [] → Faulty flags cmd initial inter arg
  | funcShort : cmd = 0x7e → arg.head? = some 27 → arg.length < 3 →
    Faulty flags cmd initial inter arg
  | funcNegative {c : BitVec 64} : cmd = 0x7e → arg.head? = some 27 → arg[2]? = some c →
    FaultyCodepoint flags c → Faulty flags cmd initial inter arg
  | unicodeNone : cmd = 0x75 → initial = 0 → inter = 0 → arg = [] →
    Faulty flags cmd initial inter arg
  | unicodeNegative {c : BitVec 64} : cmd = 0x75 → initial = 0 → inter = 0 → arg.head? = some c →
    FaultyCodepoint flags c → Faulty flags cmd initial inter arg

section Fault

variable {flags : TermKeyFlags} {p : Peeked} {force : Bool} {cmd initial inter : UInt8}
  {arg : List (BitVec 64)} {key : TermKeyKey}

theorem handleCsiSs3Full_eq_none_iff (hcmd : cmd < 0x80) :
    handleCsiSs3Full flags key (csiCommand cmd initial inter) arg = none ↔
      initial ≠ 0 ∨ inter ≠ 0 := by
  rw [handleCsiSs3Full]
  rw [← not_and_or, ← csiCommand_lt hcmd]
  split
  · next h => exact iff_of_false (by simp) (not_not_intro h)
  · next h => exact iff_of_true rfl h

theorem handleCsifunc_eq_none_iff {cmd : BitVec 32} :
    handleCsifunc flags key cmd arg = none ↔ arg = [] ∨ arg.head? = some 27 ∧
      (arg.length < 3 ∨ ∃ c, arg[2]? = some c ∧ FaultyCodepoint flags c) := by
  rw [handleCsifunc]
  cases arg with
  | nil => exact iff_of_true rfl (.inl rfl)
  | cons arg0 arg =>
    simp only [List.getElem?_cons_zero, Option.bind_eq_bind, Option.bind_some, List.head?_cons,
      Option.some.injEq, reduceCtorEq, false_or]
    by_cases h27 : arg0 = 27
    · subst h27
      rw [if_pos rfl]
      cases harg : (27 :: arg)[2]? with
      | none =>
        refine iff_of_true rfl ⟨rfl, .inl ?_⟩
        have := List.getElem?_eq_none_iff.mp harg
        omega
      | some c =>
        have hlen : ¬ (27 :: arg).length < 3 := by
          have := (List.getElem?_eq_some_iff.mp harg).1
          omega
        have hnone : FaultyCodepoint flags c ↔
            emitCodepoint flags c
                { key with type := .keysym, modifiers := csiModifiers (27 :: arg) } = none :=
          emitCodepoint_eq_none_iff.symm
        simp only [Option.bind_some, Option.some.injEq, exists_eq_left', hnone, true_and,
          or_iff_right hlen]
        cases emitCodepoint flags c
            { key with type := .keysym, modifiers := csiModifiers (27 :: arg) } with
        | none => simp
        | some k => simp
    · rw [if_neg h27]
      refine iff_of_false ?_ fun h ↦ h27 h.1
      split
      · split <;> simp
      · simp

theorem handleCsiU_eq_none_iff :
    handleCsiU flags key (csiCommand 0x75 initial inter) arg = none ↔ initial = 0 ∧ inter = 0 ∧
      (arg = [] ∨ ∃ c, arg.head? = some c ∧ FaultyCodepoint flags c) := by
  rw [handleCsiU]
  by_cases h0 : initial = 0 ∧ inter = 0
  · rw [if_pos (csiCommand_inj.mpr ⟨rfl, h0.1, h0.2⟩)]
    simp only [h0.1, h0.2, true_and]
    cases arg with
    | nil => exact iff_of_true rfl (.inl rfl)
    | cons c arg =>
      have hnone : FaultyCodepoint flags c ↔
          emitCodepoint flags c
              { key with type := .keysym, modifiers := csiModifiers (c :: arg) } = none :=
        emitCodepoint_eq_none_iff.symm
      simp only [List.getElem?_cons_zero, Option.bind_eq_bind, Option.bind_some, List.head?_cons,
        Option.some.injEq, exists_eq_left', reduceCtorEq, false_or, hnone]
      cases emitCodepoint flags c
          { key with type := .keysym, modifiers := csiModifiers (c :: arg) } with
      | none => simp
      | some k => simp
  · rw [if_neg fun h ↦ h0 (csiCommand_inj.mp h).2]
    exact iff_of_false (by simp) fun h ↦ h0 ⟨h.1, h.2.1⟩

theorem handleCsiR_eq_none_iff :
    handleCsiR flags key (csiCommand 0x52 initial inter) arg = none ↔
      (initial ≠ 0 ∨ inter ≠ 0) ∧ ¬ (initial = 0x3f ∧ inter = 0) := by
  unfold handleCsiR
  by_cases hpos : initial = 0x3f ∧ inter = 0
  · rw [if_pos (csiCommand_inj.mpr ⟨rfl, hpos⟩)]
    exact iff_of_false (by split <;> simp) fun h ↦ h.2 hpos
  · rw [if_neg fun h ↦ hpos (csiCommand_inj.mp h).2, handleCsiSs3Full_eq_none_iff (by decide)]
    exact (and_iff_left hpos).symm

theorem handleCsiM_ne_none {cmd : BitVec 32} : handleCsiM flags key cmd arg ≠ none := by
  unfold handleCsiM
  repeat' split
  all_goals simp

theorem handleCsiY_ne_none {cmd : BitVec 32} : handleCsiY flags key cmd arg ≠ none := by
  unfold handleCsiY
  repeat' split
  all_goals simp

/-! ## Which of them there are -/

theorem faulty_ss3_iff (harg : arg.length ≤ 16) (hss3 : (csiSs3s cmd).sym ≠ TermKeySym.unknown) :
    Faulty flags cmd initial inter arg ↔
      (initial ≠ 0 ∨ inter ≠ 0) ∧ ¬ (cmd = 0x52 ∧ initial = 0x3f ∧ inter = 0) := by
  constructor
  · intro h
    cases h with
    | args h => omega
    | ss3 _ h hpos => exact ⟨h, hpos⟩
    | funcNone h | funcShort h | funcNegative h | unicodeNone h | unicodeNegative h =>
      subst h
      exact absurd rfl hss3
  · rintro ⟨h, hpos⟩
    exact .ss3 hss3 h hpos

theorem faulty_func_iff (harg : arg.length ≤ 16) :
    Faulty flags 0x7e initial inter arg ↔ arg = [] ∨ arg.head? = some 27 ∧
      (arg.length < 3 ∨ ∃ c, arg[2]? = some c ∧ FaultyCodepoint flags c) := by
  constructor
  · intro h
    cases h with
    | args h => omega
    | ss3 h => exact absurd rfl h
    | funcNone _ h => exact .inl h
    | funcShort _ h hlen => exact .inr ⟨h, .inl hlen⟩
    | funcNegative _ h hc hfaulty => exact .inr ⟨h, .inr ⟨_, hc, hfaulty⟩⟩
    | unicodeNone h | unicodeNegative h => cases h
  · rintro (h | ⟨h, hlen | ⟨c, hc, hfaulty⟩⟩)
    · exact .funcNone rfl h
    · exact .funcShort rfl h hlen
    · exact .funcNegative rfl h hc hfaulty

theorem faulty_unicode_iff (harg : arg.length ≤ 16) :
    Faulty flags 0x75 initial inter arg ↔ initial = 0 ∧ inter = 0 ∧
      (arg = [] ∨ ∃ c, arg.head? = some c ∧ FaultyCodepoint flags c) := by
  constructor
  · intro h
    cases h with
    | args h => omega
    | ss3 h => exact absurd rfl h
    | funcNone h | funcShort h | funcNegative h => cases h
    | unicodeNone _ hi hn h => exact ⟨hi, hn, .inl h⟩
    | unicodeNegative _ hi hn hc hfaulty => exact ⟨hi, hn, .inr ⟨_, hc, hfaulty⟩⟩
  · rintro ⟨hi, hn, h | ⟨c, hc, hfaulty⟩⟩
    · exact .unicodeNone rfl hi hn h
    · exact .unicodeNegative rfl hi hn hc hfaulty

theorem not_faulty (harg : arg.length ≤ 16) (hss3 : (csiSs3s cmd).sym = TermKeySym.unknown)
    (hfunc : cmd ≠ 0x7e) (hunicode : cmd ≠ 0x75) : ¬ Faulty flags cmd initial inter arg := by
  intro h
  cases h with
  | args h => omega
  | ss3 h => exact h hss3
  | funcNone h | funcShort h | funcNegative h => exact hfunc h
  | unicodeNone h | unicodeNegative h => exact hunicode h

/-- Only these handlers can fail. -/
theorem csiHandle_eq_none_iff (hcmd : cmd < 0x80) (harg : arg.length ≤ 16) :
    csiHandle flags key (csiCommand cmd initial inter) arg = none ↔
      Faulty flags cmd initial inter arg := by
  rw [csiHandle, csiHandlers]
  rw [final_csiCommand]
  by_cases hR : cmd = 0x52
  · subst hR
    rw [if_pos rfl, faulty_ss3_iff harg (by decide)]
    exact handleCsiR_eq_none_iff.trans (and_congr_right fun _ ↦ by simp)
  rw [if_neg hR]
  by_cases hss3 : (csiSs3s cmd).sym ≠ TermKeySym.unknown
  · rw [if_pos hss3, faulty_ss3_iff harg hss3]
    exact (handleCsiSs3Full_eq_none_iff hcmd).trans (and_iff_left fun h ↦ hR h.1).symm
  rw [if_neg hss3]
  by_cases hfunc : cmd = 0x7e
  · subst hfunc
    rw [if_pos rfl, faulty_func_iff harg]
    exact handleCsifunc_eq_none_iff
  rw [if_neg hfunc]
  by_cases hunicode : cmd = 0x75
  · subst hunicode
    rw [if_pos rfl, faulty_unicode_iff harg]
    exact handleCsiU_eq_none_iff
  rw [if_neg hunicode]
  refine iff_of_false ?_ (not_faulty harg (not_not.mp hss3) hfunc hunicode)
  by_cases hM : cmd = 0x4d ∨ cmd = 0x6d
  · rw [if_pos hM]
    exact handleCsiM_ne_none
  rw [if_neg hM]
  by_cases hY : cmd = 0x79
  · rw [if_pos hY]
    exact handleCsiY_ne_none
  · rw [if_neg hY]
    simp

/-- The parameters, the initial byte and the intermediate byte of what comes before the final
byte. -/
def FaultyBody (flags : TermKeyFlags) (body : List UInt8) (cmd : UInt8) : Prop :=
  Faulty flags cmd (csiInitial body).1 (csiParams (csiInitial body).2).2
    (csiParams (csiInitial body).2).1

theorem peekkeyCsi_final {intro body rest : List UInt8} (hbody : ∀ c ∈ body, isFinal c = false)
    (hcmd : isFinal cmd = true) :
    peekkeyCsi flags intro.length force (intro ++ body ++ cmd :: rest) p = none ↔
      FaultyBody flags body cmd := by
  have hlt : cmd < 0x80 := by
    rw [isFinal, Bool.and_eq_true, decide_eq_true_iff, decide_eq_true_iff] at hcmd
    exact hcmd.2
  rw [peekkeyCsi, FaultyBody]
  rw [parseCsi_of_final hbody hcmd]
  split
  · next hlen =>
    rw [← @csiHandle_eq_none_iff _ _ _ _ _ p.key hlt hlen]
    simp only [Option.bind_eq_bind, Option.bind_some]
    split
    · next hmouse =>
      obtain ⟨rfl, -⟩ := csiCommand_inj.mp hmouse.1
      refine iff_of_false (by simp) ?_
      rw [csiHandle_eq_none_iff hlt hlen]
      exact not_faulty hlen rfl (by decide) (by decide)
    · cases csiHandle flags p.key _ _ with
      | none => simp
      | some found =>
        refine iff_of_false ?_ (by simp)
        obtain ⟨found, key⟩ := found
        cases found <;> simp
  · next hlen => exact iff_of_true rfl (.args (by omega))

/-- **The program leaves its arrays**, or reads what it has not written, exactly for the sequences
of `Faulty` whose final byte has come. -/
theorem peekkeyCsi_eq_none_iff (flags : TermKeyFlags) (introlen : ℕ) (force : Bool) (w : List UInt8)
    (p : Peeked) :
    peekkeyCsi flags introlen force w p = none ↔
      ∃ body cmd rest, w.drop introlen = body ++ cmd :: rest ∧
        (∀ c ∈ body, isFinal c = false) ∧ isFinal cmd = true ∧ FaultyBody flags body cmd := by
  have hclosed : ∀ body cmd rest, w.drop introlen = body ++ cmd :: rest →
      (∀ c ∈ body, isFinal c = false) → isFinal cmd = true →
        (peekkeyCsi flags introlen force w p = none ↔ FaultyBody flags body cmd) := by
    intro body cmd rest hdrop hbody hcmd
    have hle : introlen ≤ w.length := by
      have hlen := congrArg List.length hdrop
      simp only [List.length_drop, List.length_append, List.length_cons] at hlen
      omega
    have hw : w = w.take introlen ++ body ++ cmd :: rest := by
      rw [List.append_assoc, ← hdrop, List.take_append_drop]
    have hlen : (w.take introlen).length = introlen := by
      rw [List.length_take, Nat.min_eq_left hle]
    rw [← @peekkeyCsi_final flags p force cmd (w.take introlen) body rest hbody hcmd, hlen, ← hw]
  constructor
  · intro hnone
    by_cases hopen : ∀ c ∈ w.drop introlen, isFinal c = false
    · exfalso
      rw [peekkeyCsi] at hnone
      rw [parseCsi_of_open hopen, Option.bind_eq_bind, Option.bind_some] at hnone
      dsimp only at hnone
      split at hnone
      · obtain ⟨q, hq, -⟩ := forcedKey_exists flags p (c := 0x5b) rfl introlen
        rw [hq] at hnone
        cases hnone
      · cases hnone
    · simp only [not_forall, Bool.not_eq_false] at hopen
      obtain ⟨c, hc, hfinal⟩ := hopen
      have hsome : ((w.drop introlen).find? isFinal).isSome := List.find?_isSome.mpr ⟨c, hc, hfinal⟩
      obtain ⟨cmd, hfind⟩ := Option.isSome_iff_exists.mp hsome
      obtain ⟨hcmd, body, rest, hdrop, hbody⟩ := List.find?_eq_some_iff_append.mp hfind
      have hbody : ∀ c ∈ body, isFinal c = false := fun c hc ↦ by simpa using hbody c hc
      exact ⟨body, cmd, rest, hdrop, hbody, hcmd, (hclosed body cmd rest hdrop hbody hcmd).mp hnone⟩
  · rintro ⟨body, cmd, rest, hdrop, hbody, hcmd, h⟩
    exact (hclosed body cmd rest hdrop hbody hcmd).mpr h

end Fault

end Rustyaxe.Termkey
