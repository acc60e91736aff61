import Rustyaxe.Serial.Spec

/-!
# The settings of a serial line

`rr_serial_settings_apply` and `rr_serial_settings_read` of `io.serial.c`.  What is set is read back
(`rrSerialSettingsRead_apply`), and a text for a serial line that is accepted can be set
(`rrSerialSpecParse_applied`).

Speeds are kept beside the flags of a `struct termios`, as POSIX has it.
-/

set_option autoImplicit false

namespace Rustyaxe.Serial

/-! ## The code -/

/-- `struct termios` -/
structure Termios where
  iflag : BitVec 32
  oflag : BitVec 32
  cflag : BitVec 32
  lflag : BitVec 32
  vmin : UInt8
  vtime : UInt8
  ispeed : ℕ
  ospeed : ℕ

/-- The flags of `c_cflag` that are read or written. -/
def csize : BitVec 32 := 0o60
@[inherit_doc csize]
def cstopb : BitVec 32 := 0o100
@[inherit_doc csize]
def cread : BitVec 32 := 0o200
@[inherit_doc csize]
def parenb : BitVec 32 := 0o400
@[inherit_doc csize]
def parodd : BitVec 32 := 0o1000
@[inherit_doc csize]
def clocal : BitVec 32 := 0o4000
@[inherit_doc csize]
def crtscts : BitVec 32 := 0o20000000000

/-- `CS5` to `CS8` -/
def sizes : List (BitVec 32) := [0, 0o20, 0o40, 0o60]

/-- `cfmakeraw` -/
def cfmakeraw (t : Termios) : Termios :=
  { t with
    -- `IGNBRK`, `BRKINT`, `PARMRK`, `ISTRIP`, `INLCR`, `IGNCR`, `ICRNL` and `IXON`
    iflag := t.iflag &&& ~~~0o2753
    -- `OPOST`
    oflag := t.oflag &&& ~~~0o1
    -- `ECHO`, `ECHONL`, `ICANON`, `ISIG` and `IEXTEN`
    lflag := t.lflag &&& ~~~0o100113
    cflag := t.cflag &&& ~~~(csize ||| parenb) ||| 0o60
    vmin := 1
    vtime := 0 }

/-- The flags that `rr_serial_settings_apply` adds. -/
def addFlags (bits stops : ℕ) (parity : UInt8) (cflag : BitVec 32) : BitVec 32 :=
  let cflag := cflag ||| (sizes.getD (bits - 5) 0 ||| clocal ||| cread)
  let cflag := if parity ≠ 0x6e then cflag ||| parenb else cflag
  let cflag := if parity = 0x6f then cflag ||| parodd else cflag
  if stops = 2 then cflag ||| cstopb else cflag

/-- `rr_serial_settings_apply`: what it gives `tcsetattr`, if `tcgetattr` says what there is. -/
def rrSerialSettingsApply (tcgetattr : Option Termios) (s : SerialSettings) : Option Termios :=
  if s.bits < 5 ∨ 8 < s.bits ∨ s.stops < 1 ∨ 2 < s.stops ∨
      s.parity ≠ 0x6e ∧ s.parity ≠ 0x65 ∧ s.parity ≠ 0x6f then none
  else
    (baudSpeed s.baud).bind fun rate ↦ tcgetattr.bind fun settings ↦
      if (rrSerialModeParse (rrSerialModeFormat s) s).isNone then none
      else
        let settings := cfmakeraw settings
        let cflag := settings.cflag &&& ~~~(csize ||| parenb ||| parodd ||| cstopb)
        let cflag := cflag &&& ~~~crtscts
        some { settings with
          cflag := addFlags s.bits s.stops s.parity cflag
          vmin := 1
          vtime := 0
          ispeed := rate
          ospeed := rate }

/-- `rr_serial_settings_read` -/
def rrSerialSettingsRead (tcgetattr : Option Termios) : Option SerialSettings :=
  tcgetattr.bind fun settings ↦
    ((rates.map Prod.fst).find? fun r ↦ baudSpeed r = some settings.ospeed).map fun baud ↦
      let size := settings.cflag &&& csize
      { baud
        bits := if size = 0 then 5 else if size = 0o20 then 6 else if size = 0o40 then 7 else 8
        stops := if settings.cflag &&& cstopb ≠ 0 then 2 else 1
        parity :=
          if settings.cflag &&& parenb ≠ 0 then
            (if settings.cflag &&& parodd ≠ 0 then 0x6f else 0x65)
          else 0x6e }

/-! ## What is set is read back -/

/-- Flags that have been taken out are gone. -/
theorem and_not_and {w : ℕ} {m k : BitVec w} (h : k &&& m = k) (x : BitVec w) :
    x &&& ~~~m &&& k = 0 := by
  rw [← h, BitVec.and_comm k m, BitVec.and_assoc, ← BitVec.and_assoc (~~~m),
    BitVec.and_comm (~~~m) m, BitVec.and_not_self]
  simp

/-- Of flags that were not there, those are read that have been added. -/
theorem addFlags_and (bits stops : ℕ) (parity : UInt8) {x k : BitVec 32} (hx : x &&& k = 0) :
    addFlags bits stops parity x &&& k = addFlags bits stops parity 0 &&& k := by
  have hor : ∀ {y z : BitVec 32}, y &&& k = z &&& k → ∀ f, (y ||| f) &&& k = (z ||| f) &&& k :=
    fun h f ↦ by rw [BitVec.and_or_distrib_right, h, ← BitVec.and_or_distrib_right]
  have hif : ∀ {y z : BitVec 32} (p : Prop) [Decidable p] (f : BitVec 32), y &&& k = z &&& k →
      (if p then y ||| f else y) &&& k = (if p then z ||| f else z) &&& k := by
    intro y z p _ f h
    split
    · exact hor h f
    · exact h
  have hbase : x &&& k = 0 &&& k := by simpa using hx
  exact hif _ _ (hif _ _ (hif _ _ (hor hbase _)))

/-- What is read of the flags that are added. -/
theorem addFlags_zero : ∀ bits ∈ [5, 6, 7, 8], ∀ stops ∈ [1, 2],
    ∀ parity ∈ ([0x6e, 0x65, 0x6f] : List UInt8),
      (addFlags bits stops parity 0 &&& csize = sizes.getD (bits - 5) 0) ∧
      ((if addFlags bits stops parity 0 &&& cstopb ≠ 0 then 2 else 1) = stops) ∧
      ((if addFlags bits stops parity 0 &&& parenb ≠ 0 then
        (if addFlags bits stops parity 0 &&& parodd ≠ 0 then 0x6f else 0x65) else 0x6e) =
          parity) := by
  decide +kernel

/-- A speed is that of one rate only. -/
theorem rates_find : ∀ r ∈ rates,
    (rates.map Prod.fst).find? (fun baud ↦ baudSpeed baud = some r.2) = some r.1 := by
  decide

theorem mem_rates_of_baudSpeed {baud speed : ℕ} (h : baudSpeed baud = some speed) :
    (baud, speed) ∈ rates := by
  rw [baudSpeed, Option.map_eq_some_iff] at h
  obtain ⟨r, hfind, rfl⟩ := h
  have hrate : r.1 = baud := by simpa using List.find?_some hfind
  rw [← hrate]
  exact List.mem_of_find?_eq_some hfind

theorem find_of_baudSpeed {baud speed : ℕ} (h : baudSpeed baud = some speed) :
    (rates.map Prod.fst).find? (fun r ↦ baudSpeed r = some speed) = some baud :=
  rates_find _ (mem_rates_of_baudSpeed h)

/-- The size of a character. -/
theorem bits_of_size : ∀ n < 9, 5 ≤ n → (if sizes.getD (n - 5) 0 = 0 then 5
    else if sizes.getD (n - 5) 0 = 0o20 then 6
    else if sizes.getD (n - 5) 0 = 0o40 then 7 else 8) = n := by
  decide

/-- **What is set is read back**, whatever was set before. -/
theorem rrSerialSettingsRead_apply {s : SerialSettings} (h : s.HasMode) {speed : ℕ}
    (hspeed : baudSpeed s.baud = some speed) (before : Termios) :
    ∃ after, rrSerialSettingsApply (some before) s = some after ∧
      rrSerialSettingsRead (some after) = some s := by
  have hprinted := modeText_rrSerialModeFormat h (rfl : s.baud = s.baud)
  obtain ⟨⟨hfive, height⟩, ⟨hone, htwo⟩, hparity⟩ := h
  have hok : ¬(s.bits < 5 ∨ 8 < s.bits ∨ s.stops < 1 ∨ 2 < s.stops ∨
      s.parity ≠ 0x6e ∧ s.parity ≠ 0x65 ∧ s.parity ≠ 0x6f) := by
    rintro (hlow | hhigh | hnone | hmany | ⟨hn, he, ho⟩)
    · omega
    · omega
    · omega
    · omega
    · exact hparity.elim hn fun h ↦ h.elim he ho
  rw [rrSerialSettingsApply, if_neg hok, hspeed, Option.bind_some, Option.bind_some,
    rrSerialModeParse_eq_some_iff.mpr hprinted]
  refine ⟨_, rfl, ?_⟩
  have hgone : ∀ k : BitVec 32, k &&& (csize ||| parenb ||| parodd ||| cstopb) = k →
      (cfmakeraw before).cflag &&& ~~~(csize ||| parenb ||| parodd ||| cstopb) &&& ~~~crtscts &&& k
        = 0 := by
    intro k hk
    rw [BitVec.and_assoc, BitVec.and_comm (~~~crtscts), ← BitVec.and_assoc, and_not_and hk]
    simp
  obtain ⟨hsize, hstops, hparity⟩ := addFlags_zero s.bits (by simp; omega) s.stops
    (by simp; omega) s.parity (by simpa using hparity)
  rw [← addFlags_and _ _ _ (hgone csize (by decide))] at hsize
  rw [← addFlags_and _ _ _ (hgone cstopb (by decide))] at hstops
  rw [← addFlags_and _ _ _ (hgone parenb (by decide)),
    ← addFlags_and _ _ _ (hgone parodd (by decide))] at hparity
  rw [rrSerialSettingsRead, Option.bind_some]
  dsimp only
  rw [find_of_baudSpeed hspeed, Option.map_some, hsize, hstops, hparity,
    bits_of_size s.bits (Nat.lt_succ_of_le height) hfive]

/-- A default mode, or the one in the text. -/
theorem SpecText.hasMode {settings s : SerialSettings} {spec target : CStr}
    (h : SpecText settings spec target s) (hsettings : settings.HasMode) : s.HasMode := by
  obtain ⟨-, -, rfl⟩ | ⟨tail, -, htail⟩ := h
  · exact hsettings
  · cases htail with
    | mode hmode => exact hmode.1
    | baud _ _ => exact ⟨hsettings.bits, hsettings.stops, hsettings.parity⟩
    | full _ _ hmode => exact hmode.1

/-- The text of settings is one for them. -/
theorem specText_format {settings s : SerialSettings} {speed : ℕ} (h : s.HasMode)
    (hspeed : baudSpeed s.baud = some speed) (target : CStr) :
    SpecText settings
      (target ++ atSign :: (decimal s.baud ++ comma :: rrSerialModeFormat s)) target s := by
  have hle : ∀ r ∈ rates, r.1 ≤ 921600 := by decide
  have hbaud : s.baud ≤ 921600 := hle _ (mem_rates_of_baudSpeed hspeed)
  have hnumber : UnsignedText (decimal s.baud) s.baud := unsignedText_decimal (by omega)
  exact .inr ⟨_, rfl, .full hnumber hbaud (modeText_rrSerialModeFormat h rfl)⟩

/-- **The texts for serial lines.**  If the settings that a text is read with have a mode, then what
is accepted are the texts for serial lines with a target that is there and fits, and with a rate
that there is.  With any of them a line can be set, whatever was set before, and reading it back
gives the settings of the text; and the text that names their rate and their mode stands for the
same again. -/
theorem rrSerialSpecParse_applied {settings : SerialSettings} (hsettings : settings.HasMode)
    (spec : CStr) (capacity : ℕ) (target : CStr) (s : SerialSettings) :
    (rrSerialSpecParse spec capacity settings = some (target, s) ↔
      SpecText settings spec target s ∧ target ≠ [] ∧ target.length < capacity ∧
        ∃ speed, baudSpeed s.baud = some speed) ∧
    (rrSerialSpecParse spec capacity settings = some (target, s) →
      ∀ (before : Termios) (others : SerialSettings),
        ∃ after, rrSerialSettingsApply (some before) s = some after ∧
          rrSerialSettingsRead (some after) = some s ∧
          rrSerialSpecParse (target ++ atSign :: (decimal s.baud ++ comma :: rrSerialModeFormat s))
            capacity others = some (target, s)) := by
  refine ⟨rrSerialSpecParse_eq_some_iff _ _ _ _ _, fun h before others ↦ ?_⟩
  obtain ⟨hspec, hne, hlt, speed, hspeed⟩ := (rrSerialSpecParse_eq_some_iff _ _ _ _ _).mp h
  have hmode := hspec.hasMode hsettings
  obtain ⟨after, hafter, hread⟩ := rrSerialSettingsRead_apply hmode hspeed before
  exact ⟨after, hafter, hread, (rrSerialSpecParse_eq_some_iff _ _ _ _ _).mpr
    ⟨specText_format hmode hspeed target, hne, hlt, speed, hspeed⟩⟩

/-- A text with a rate and a mode, for a line that was set otherwise. -/
theorem rrSerialSpecParse_applied_ttyS0 : ∃ after,
    rrSerialSettingsApply (some ⟨0, 0, 0o2060, 0, 0, 0, 0, 0⟩) ⟨115200, 7, 2, 0x65⟩ = some after ∧
      rrSerialSettingsRead (some after) = some ⟨115200, 7, 2, 0x65⟩ ∧
      rrSerialSpecParse (lit "/dev/ttyS0" ++ atSign ::
          (decimal 115200 ++ comma :: rrSerialModeFormat ⟨115200, 7, 2, 0x65⟩)) 64
        ⟨0, 8, 1, 0x6e⟩ = some (lit "/dev/ttyS0", ⟨115200, 7, 2, 0x65⟩) := by
  have hsettings : SerialSettings.HasMode ⟨9600, 8, 1, 0x6e⟩ :=
    ⟨by decide, by decide, by decide⟩
  exact (rrSerialSpecParse_applied hsettings (lit "/dev/ttyS0@115200,7E2") 64 (lit "/dev/ttyS0")
    ⟨115200, 7, 2, 0x65⟩).2 (by decide +kernel) ⟨0, 0, 0o2060, 0, 0, 0, 0, 0⟩ ⟨0, 8, 1, 0x6e⟩

end Rustyaxe.Serial
