import Rustyaxe.Strtol

/-!
# Texts for serial lines

What `io.serial.c` makes of the text for a serial line, `target@115200,8n1`.  `SpecText` says what
such a text is, and `rr_serial_spec_parse` accepts just these, if the rate is one that there is
(`rrSerialSpecParse_eq_some_iff`).
-/

set_option autoImplicit false

namespace Rustyaxe.Serial

/-! ## The code -/

/-- `rr_serial_settings_t` -/
structure SerialSettings where
  baud : ℕ
  bits : ℕ
  stops : ℕ
  parity : UInt8
  deriving DecidableEq

/-- The rates with their `speed_t`. -/
def rates : List (ℕ × ℕ) :=
  [(0, 0), (1200, 0o11), (2400, 0o13), (4800, 0o14), (9600, 0o15), (19200, 0o16), (38400, 0o17),
    (57600, 0o10001), (115200, 0o10002), (230400, 0o10003), (460800, 0o10004), (921600, 0o10007)]

/-- `baud_speed` -/
def baudSpeed (baud : ℕ) : Option ℕ := (rates.find? fun r ↦ r.1 = baud).map Prod.snd

/-- `rr_serial_mode_parse` -/
def rrSerialModeParse (mode : CStr) (s : SerialSettings) : Option SerialSettings :=
  match mode with
  | [bits, letter, stops] =>
    if bits < 0x35 ∨ 0x38 < bits ∨ stops ≠ 0x31 ∧ stops ≠ 0x32 then none
    else
      let parity := tolower letter
      if parity ≠ 0x6e ∧ parity ≠ 0x65 ∧ parity ≠ 0x6f then none
      else some { s with bits := bits.toNat - 0x30, parity, stops := stops.toNat - 0x30 }
  | _ => none

/-- `rr_serial_mode_format` -/
def rrSerialModeFormat (s : SerialSettings) : CStr :=
  [UInt8.ofNat (0x30 + s.bits), s.parity, UInt8.ofNat (0x30 + s.stops)]

/-- What `rr_serial_spec_parse` makes of the text behind a rate. -/
def modeBehind (ep : CStr) (parsed : SerialSettings) : Option SerialSettings :=
  match ep with
  | [] => some parsed
  | c :: mode => if c = comma then rrSerialModeParse mode parsed else none

/-- What `rr_serial_spec_parse` makes of the text behind the last at sign, if there is one. -/
def tailParse (tail : Option CStr) (settings : SerialSettings) : Option SerialSettings :=
  match tail with
  | none => some settings
  | some tail =>
    match rrSerialModeParse tail settings with
    | some parsed => some parsed
    | none =>
      let (baud, ep, erange) := strtoull tail
      if erange ∨ ep.length = tail.length ∨ 921600 < baud then none
      else modeBehind ep { settings with baud }

/-- `rr_serial_spec_parse`: the target and the settings. -/
def rrSerialSpecParse (spec : CStr) (capacity : ℕ) (settings : SerialSettings) :
    Option (CStr × SerialSettings) :=
  let sep := strrchr atSign spec
  let len := sep.getD spec.length
  if len = 0 ∨ capacity ≤ len then none
  else
    match tailParse (sep.map fun i ↦ spec.drop (i + 1)) settings with
    | none => none
    | some parsed =>
      if (baudSpeed parsed.baud).isNone then none else some (spec.take len, parsed)

/-! ## Modes -/

/-- Settings that a line can have. -/
structure SerialSettings.HasMode (s : SerialSettings) : Prop where
  bits : 5 ≤ s.bits ∧ s.bits ≤ 8
  stops : 1 ≤ s.stops ∧ s.stops ≤ 2
  parity : s.parity = 0x6e ∨ s.parity = 0x65 ∨ s.parity = 0x6f

/-- What a text means as a mode: a number of bits, a parity in either case, and a number of stop
bits. -/
def ModeText (settings : SerialSettings) (mode : CStr) (s : SerialSettings) : Prop :=
  s.HasMode ∧ s.baud = settings.baud ∧ ∃ letter, tolower letter = s.parity ∧
    mode = [UInt8.ofNat (0x30 + s.bits), letter, UInt8.ofNat (0x30 + s.stops)]

theorem bits_of_digit : ∀ c : UInt8, ¬c < 0x35 → ¬0x38 < c →
    (5 ≤ c.toNat - 0x30 ∧ c.toNat - 0x30 ≤ 8) ∧ UInt8.ofNat (0x30 + (c.toNat - 0x30)) = c :=
  forall_byte (by decide +kernel)

theorem stops_of_digit : ∀ c : UInt8, ¬(c ≠ 0x31 ∧ c ≠ 0x32) →
    (1 ≤ c.toNat - 0x30 ∧ c.toNat - 0x30 ≤ 2) ∧ UInt8.ofNat (0x30 + (c.toNat - 0x30)) = c :=
  forall_byte (by decide +kernel)

theorem digit_of_bits : ∀ n < 9, 5 ≤ n → ¬UInt8.ofNat (0x30 + n) < 0x35 ∧
    ¬0x38 < UInt8.ofNat (0x30 + n) ∧ (UInt8.ofNat (0x30 + n)).toNat - 0x30 = n := by
  decide

theorem digit_of_stops : ∀ n < 3, 1 ≤ n →
    ¬(UInt8.ofNat (0x30 + n) ≠ 0x31 ∧ UInt8.ofNat (0x30 + n) ≠ 0x32) ∧
      (UInt8.ofNat (0x30 + n)).toNat - 0x30 = n := by
  decide

/-- A parity is a letter of its own. -/
theorem letter_of_parity : ∀ c : UInt8,
    (tolower c = 0x6e ∨ tolower c = 0x65 ∨ tolower c = 0x6f) →
      c ≠ atSign ∧ isspace c = false ∧ c ≠ minus ∧ c ≠ 0x2b ∧ isdigit c = false :=
  forall_byte (by decide +kernel)

theorem exists_of_rrSerialModeParse {mode : CStr} {settings s : SerialSettings}
    (h : rrSerialModeParse mode settings = some s) :
    ∃ bits letter stops, mode = [bits, letter, stops] := by
  obtain _ | ⟨bits, _ | ⟨letter, _ | ⟨stops, _ | ⟨c, rest⟩⟩⟩⟩ := mode
  · cases h
  · cases h
  · cases h
  · exact ⟨bits, letter, stops, rfl⟩
  · cases h

/-- **What a mode means.** -/
theorem rrSerialModeParse_eq_some_iff {mode : CStr} {settings s : SerialSettings} :
    rrSerialModeParse mode settings = some s ↔ ModeText settings mode s := by
  constructor
  · intro h
    obtain ⟨bits, letter, stops, rfl⟩ := exists_of_rrSerialModeParse h
    rw [rrSerialModeParse] at h
    split at h
    case isTrue => cases h
    case isFalse hdigits =>
    dsimp only at h
    split at h
    case isTrue => cases h
    case isFalse hparity =>
    cases h
    rw [not_or, not_or] at hdigits
    obtain ⟨hlow, hhigh, hstops⟩ := hdigits
    obtain ⟨hbits, hbitsEq⟩ := bits_of_digit bits hlow hhigh
    obtain ⟨hstops, hstopsEq⟩ := stops_of_digit stops hstops
    refine ⟨⟨hbits, hstops, ?_⟩, rfl, letter, rfl, ?_⟩
    · by_contra hnot
      rw [not_or, not_or] at hnot
      exact hparity hnot
    · dsimp only
      rw [hbitsEq, hstopsEq]
  · rintro ⟨⟨⟨hfive, height⟩, ⟨hone, htwo⟩, hparity⟩, hbaud, letter, hletter, rfl⟩
    obtain ⟨hlow, hhigh, hbits⟩ := digit_of_bits s.bits (Nat.lt_succ_of_le height) hfive
    obtain ⟨hdigit, hstops⟩ := digit_of_stops s.stops (Nat.lt_succ_of_le htwo) hone
    have hknown : ¬(s.parity ≠ 0x6e ∧ s.parity ≠ 0x65 ∧ s.parity ≠ 0x6f) := by
      rintro ⟨hn, he, ho⟩
      exact hparity.elim hn fun h ↦ h.elim he ho
    rw [rrSerialModeParse, if_neg fun h ↦ h.elim hlow fun h ↦ h.elim hhigh hdigit]
    dsimp only
    rw [hletter, if_neg hknown, hbits, hstops, ← hbaud]

theorem ModeText.length_eq {settings s : SerialSettings} {mode : CStr}
    (h : ModeText settings mode s) : mode.length = 3 := by
  obtain ⟨-, -, letter, -, rfl⟩ := h
  rfl

theorem not_atSign_of_digit : ∀ n < 9, UInt8.ofNat (0x30 + n) ≠ atSign := by decide

theorem ModeText.not_mem {settings s : SerialSettings} {mode : CStr}
    (h : ModeText settings mode s) : atSign ∉ mode := by
  obtain ⟨⟨hbits, hstops, hparity⟩, -, letter, hletter, rfl⟩ := h
  rw [← hletter] at hparity
  intro hmem
  rw [List.mem_cons, List.mem_cons, List.mem_singleton] at hmem
  obtain hbit | hlet | hstop := hmem
  · exact not_atSign_of_digit s.bits (by omega) hbit.symm
  · exact (letter_of_parity letter hparity).1 hlet.symm
  · exact not_atSign_of_digit s.stops (by omega) hstop.symm

/-- A mode is printed as one. -/
theorem modeText_rrSerialModeFormat {settings s : SerialSettings} (h : s.HasMode)
    (hbaud : s.baud = settings.baud) : ModeText settings (rrSerialModeFormat s) s := by
  refine ⟨h, hbaud, s.parity, ?_, rfl⟩
  obtain hparity | hparity | hparity := h.parity
  · rw [hparity]
    rfl
  · rw [hparity]
    rfl
  · rw [hparity]
    rfl

/-! ## Texts for serial lines -/

/-- What stands behind the at sign: a mode, a rate, or a rate and a mode. -/
inductive TailText (settings : SerialSettings) : CStr → SerialSettings → Prop where
  | mode {mode : CStr} {s : SerialSettings} : ModeText settings mode s →
      TailText settings mode s
  | baud {number : CStr} {n : ℕ} : UnsignedText number n → n ≤ 921600 →
      TailText settings number { settings with baud := n }
  | full {number mode : CStr} {n : ℕ} {s : SerialSettings} : UnsignedText number n →
      n ≤ 921600 → ModeText { settings with baud := n } mode s →
      TailText settings (number ++ comma :: mode) s

/-- **What a text for a serial line means**: a target, with the given settings or with others. -/
def SpecText (settings : SerialSettings) (spec target : CStr) (s : SerialSettings) : Prop :=
  (atSign ∉ spec ∧ target = spec ∧ s = settings) ∨
    ∃ tail, spec = target ++ atSign :: tail ∧ TailText settings tail s

theorem ne_nil_of_unsignedText {number : CStr} {n : ℕ} (h : UnsignedText number n) :
    number ≠ [] := by
  rintro rfl
  exact h.digits rfl

theorem not_mem_of_unsignedText {number : CStr} {n : ℕ} (h : UnsignedText number n) {c : UInt8}
    (hspace : isspace c = false) (hminus : c ≠ minus) (hplus : c ≠ 0x2b)
    (hdigit : isdigit c = false) : c ∉ number := by
  intro hc
  obtain h | h | h | h := h.mem hc
  · rw [hspace] at h
    cases h
  · exact hminus h
  · exact hplus h
  · rw [hdigit] at h
    cases h

/-- A number is no mode. -/
theorem rrSerialModeParse_of_unsignedText {number : CStr} {n : ℕ} (h : UnsignedText number n)
    (settings : SerialSettings) : rrSerialModeParse number settings = none := by
  cases hmode : rrSerialModeParse number settings with
  | none => rfl
  | some s =>
    obtain ⟨⟨-, -, hparity⟩, -, letter, hletter, rfl⟩ := rrSerialModeParse_eq_some_iff.mp hmode
    rw [← hletter] at hparity
    obtain ⟨-, hspace, hminus, hplus, hdigit⟩ := letter_of_parity letter hparity
    exact absurd (List.mem_cons_of_mem _ List.mem_cons_self)
      (not_mem_of_unsignedText h hspace hminus hplus hdigit)

/-- A number, and a mode, are no mode. -/
theorem rrSerialModeParse_of_full {number mode : CStr} {n : ℕ} {settings s : SerialSettings}
    (hnumber : UnsignedText number n) (hmode : ModeText { settings with baud := n } mode s) :
    rrSerialModeParse (number ++ comma :: mode) settings = none := by
  cases hparse : rrSerialModeParse (number ++ comma :: mode) settings with
  | none => rfl
  | some s =>
    have hlen := (rrSerialModeParse_eq_some_iff.mp hparse).length_eq
    have hpos := List.length_pos_iff.mpr (ne_nil_of_unsignedText hnumber)
    rw [List.length_append, List.length_cons, hmode.length_eq] at hlen
    omega

theorem TailText.not_mem {settings s : SerialSettings} {tail : CStr}
    (h : TailText settings tail s) : atSign ∉ tail := by
  cases h with
  | mode hmode => exact hmode.not_mem
  | baud hnumber hn =>
    exact not_mem_of_unsignedText hnumber (by decide) (by decide) (by decide) (by decide)
  | full hnumber hn hmode =>
    rw [List.mem_append, List.mem_cons, not_or, not_or]
    exact ⟨not_mem_of_unsignedText hnumber (by decide) (by decide) (by decide) (by decide),
      by decide, hmode.not_mem⟩

theorem tailParse_of_unsignedText {number rest : CStr} {n : ℕ} (h : UnsignedText number n)
    (hn : n ≤ 921600) (hrest : ∀ c ∈ rest.head?, isdigit c = false) {settings : SerialSettings}
    (hmode : rrSerialModeParse (number ++ rest) settings = none) :
    tailParse (some (number ++ rest)) settings = modeBehind rest { settings with baud := n } := by
  obtain ⟨-, hread⟩ := strtoull_number_iff.mpr ⟨number, rfl, h, hrest⟩
  have hpos := List.length_pos_iff.mpr (ne_nil_of_unsignedText h)
  have hok : ¬(false = true ∨ rest.length = (number ++ rest).length ∨ 921600 < n) := by
    rw [List.length_append]
    rintro (hfalse | hlen | hlarge)
    · cases hfalse
    · omega
    · omega
  rw [tailParse]
  dsimp only
  rw [hmode, hread]
  exact if_neg hok

theorem tailParse_eq_some_iff {tail : CStr} {settings s : SerialSettings} :
    tailParse (some tail) settings = some s ↔ TailText settings tail s := by
  constructor
  · intro h
    rw [tailParse] at h
    dsimp only at h
    cases hmode : rrSerialModeParse tail settings with
    | some parsed =>
      rw [hmode] at h
      cases h
      exact .mode (rrSerialModeParse_eq_some_iff.mp hmode)
    | none =>
      rcases hread : strtoull tail with ⟨n, ep, erange⟩
      rw [hmode, hread] at h
      dsimp only at h
      split at h
      case isTrue => cases h
      case isFalse hok =>
      rw [not_or, not_or, not_lt, Bool.not_eq_true] at hok
      obtain ⟨rfl, hend, hn⟩ := hok
      have hdigits : (strtoScan tail).2.1 ≠ [] := fun hnil ↦
        hend (by rw [← strtoull_end_eq_iff.mpr hnil, hread])
      obtain ⟨number, rfl, hnumber, -⟩ := strtoull_number_iff.mp ⟨hdigits, hread⟩
      rw [modeBehind.eq_def] at h
      cases ep with
      | nil =>
        cases h
        rw [List.append_nil]
        exact .baud hnumber hn
      | cons c mode =>
        dsimp only at h
        split at h
        case isFalse => cases h
        case isTrue hcomma =>
        subst hcomma
        exact .full hnumber hn (rrSerialModeParse_eq_some_iff.mp h)
  · intro h
    cases h with
    | mode hmode =>
      rw [tailParse]
      dsimp only
      rw [rrSerialModeParse_eq_some_iff.mpr hmode]
    | baud hnumber hn =>
      have hnone := rrSerialModeParse_of_unsignedText hnumber settings
      rw [← List.append_nil tail] at hnone ⊢
      exact tailParse_of_unsignedText hnumber hn (fun c hc ↦ by cases hc) hnone
    | @full number mode n _ hnumber hn hmode =>
      have hcomma : ∀ c ∈ (comma :: mode).head?, isdigit c = false := by
        rintro c ⟨⟩
        rfl
      rw [tailParse_of_unsignedText hnumber hn hcomma (rrSerialModeParse_of_full hnumber hmode),
        modeBehind, if_pos rfl]
      exact rrSerialModeParse_eq_some_iff.mpr hmode

/-- A text without an at sign means itself. -/
theorem specText_of_notMem {settings s : SerialSettings} {spec target : CStr} (h : atSign ∉ spec) :
    SpecText settings spec target s ↔ target = spec ∧ s = settings := by
  constructor
  · rintro (⟨-, htarget, hs⟩ | ⟨tail, rfl, -⟩)
    · exact ⟨htarget, hs⟩
    · exact absurd (List.mem_append_right _ List.mem_cons_self) h
  · rintro ⟨htarget, hs⟩
    exact .inl ⟨h, htarget, hs⟩

/-- A text is cut at its last at sign. -/
theorem specText_append {settings s : SerialSettings} {before after target : CStr}
    (h : atSign ∉ after) : SpecText settings (before ++ atSign :: after) target s ↔
      target = before ∧ TailText settings after s := by
  constructor
  · rintro (⟨hno, -⟩ | ⟨tail, hspec, htail⟩)
    · exact absurd (List.mem_append_right _ List.mem_cons_self) hno
    · have hplace := strrchr_append target htail.not_mem
      rw [← hspec, strrchr_append before h, Option.some.injEq] at hplace
      obtain ⟨htarget, hrest⟩ := List.append_inj hspec hplace
      exact ⟨htarget.symm, (List.cons.inj hrest).2 ▸ htail⟩
  · rintro ⟨rfl, htail⟩
    exact .inr ⟨after, rfl, htail⟩

/-- What `rr_serial_spec_parse` makes of a text that is cut at a place. -/
theorem rrSerialSpecParse_eq_some_iff_tail {spec target : CStr} {capacity : ℕ}
    {settings s : SerialSettings} {sep : Option ℕ} (hsep : strrchr atSign spec = sep) :
    rrSerialSpecParse spec capacity settings = some (target, s) ↔
      (target = spec.take (sep.getD spec.length) ∧
        tailParse (sep.map fun i ↦ spec.drop (i + 1)) settings = some s) ∧
      sep.getD spec.length ≠ 0 ∧ sep.getD spec.length < capacity ∧
        ∃ speed, baudSpeed s.baud = some speed := by
  have hbaud : (baudSpeed s.baud).isNone = false ↔ ∃ speed, baudSpeed s.baud = some speed := by
    rw [Option.isNone_eq_false_iff, Option.isSome_iff_exists]
  rw [rrSerialSpecParse, hsep, ← hbaud]
  constructor
  · intro h
    split at h
    case isTrue => cases h
    case isFalse hlen =>
    rw [not_or, not_le] at hlen
    cases htail : tailParse (sep.map fun i ↦ spec.drop (i + 1)) settings with
    | none =>
      rw [htail] at h
      cases h
    | some parsed =>
      rw [htail] at h
      dsimp only at h
      split at h
      case isTrue => cases h
      case isFalse hknown =>
      cases h
      exact ⟨⟨rfl, rfl⟩, hlen.1, hlen.2, Bool.not_eq_true _ ▸ hknown⟩
  · rintro ⟨⟨rfl, htail⟩, hne, hlt, hknown⟩
    rw [if_neg (not_or.mpr ⟨hne, not_le.mpr hlt⟩), htail]
    dsimp only
    rw [hknown]
    rfl

/-- **What `rr_serial_spec_parse` accepts**: the texts for serial lines with a target that is there
and fits, and with a rate that there is. -/
theorem rrSerialSpecParse_eq_some_iff (spec : CStr) (capacity : ℕ) (settings : SerialSettings)
    (target : CStr) (s : SerialSettings) :
    rrSerialSpecParse spec capacity settings = some (target, s) ↔
      SpecText settings spec target s ∧ target ≠ [] ∧ target.length < capacity ∧
        ∃ speed, baudSpeed s.baud = some speed := by
  cases hsep : strrchr atSign spec with
  | none =>
    rw [rrSerialSpecParse_eq_some_iff_tail hsep,
      specText_of_notMem (strrchr_eq_none_iff.mp hsep), Option.getD_none, Option.map_none,
      List.take_length, tailParse, Option.some.injEq, eq_comm (a := settings)]
    refine and_congr_right fun h ↦ ?_
    rw [h.1, ne_eq, List.length_eq_zero_iff]
  | some i =>
    obtain ⟨before, after, rfl, hafter, rfl⟩ := strrchr_eq_some hsep
    have hdrop : (before ++ atSign :: after).drop (before.length + 1) = after := by simp
    rw [rrSerialSpecParse_eq_some_iff_tail hsep, specText_append hafter, Option.getD_some,
      Option.map_some, List.take_left, hdrop, tailParse_eq_some_iff]
    refine and_congr_right fun h ↦ ?_
    rw [h.1, ne_eq, List.length_eq_zero_iff]

end Rustyaxe.Serial
