import Rustyaxe.Termkey.Key
import Rustyaxe.Lib.LongUtf8

/-!
# UTF-8 in keys

`utf8_seqlen`, `fill_utf8` and `parse_utf8` of `termkey.c`.

What `fill_utf8` writes is the encoding of the codepoint (`fillUtf8_utf8`, `utf8Bytes_ofNat`), and
`parse_utf8` reads such an encoding back, whatever follows it (`parseUtf8_encode`).  What it reads
is such an encoding, or else the replacement character, and the bytes that it takes after the
first one are never the start of another character (`parseUtf8_sound`).
-/

set_option autoImplicit false

namespace Rustyaxe.Termkey

open LongUtf8

/-- `utf8_seqlen` -/
def utf8Seqlen (codepoint : ℤ) : ℕ :=
  if codepoint < 0x80 then 1
  else if codepoint < 0x800 then 2
  else if codepoint < 0x10000 then 3
  else if codepoint < 0x200000 then 4
  else if codepoint < 0x4000000 then 5
  else 6

/-- The conversion of a `long` to `char`. -/
def charOfLong (c : BitVec 64) : UInt8 := UInt8.ofBitVec (c.setWidth 8)

/-- The loop of `fill_utf8`, from the byte `b` back to the second one. -/
def fillUtf8Loop : (b : ℕ) → (codepoint : BitVec 64) → (utf8 : List UInt8) → BitVec 64 × List UInt8
  | 0, codepoint, utf8 => (codepoint, utf8)
  | b + 1, codepoint, utf8 =>
    fillUtf8Loop b (codepoint.sshiftRight 6)
    (utf8.set (b + 1) (charOfLong (0x80 ||| (codepoint &&& 0x3f))))

/-- The `switch` of `fill_utf8` -/
def leadByte (nbytes : ℕ) (codepoint : BitVec 64) : BitVec 64 :=
  match nbytes with
  | 1 => codepoint &&& 0x7f
  | 2 => 0xc0 ||| (codepoint &&& 0x1f)
  | 3 => 0xe0 ||| (codepoint &&& 0x0f)
  | 4 => 0xf0 ||| (codepoint &&& 0x07)
  | 5 => 0xf8 ||| (codepoint &&& 0x03)
  | _ => 0xfc ||| (codepoint &&& 0x01)

/-- `fill_utf8` -/
def fillUtf8 (key : TermKeyKey) : TermKeyKey :=
  let nbytes := utf8Seqlen key.code.toInt
  let (codepoint, utf8) := fillUtf8Loop (nbytes - 1) key.code (key.utf8.set nbytes 0)
  { key with utf8 := utf8.set 0 (charOfLong (leadByte nbytes codepoint)) }

/-- `UTF8_INVALID` -/
def utf8Invalid : ℕ := 0xfffd

/-- The result of `parse_utf8`, with `*cp` and `*nbytep`. -/
inductive Utf8Result where
  /-- `TERMKEY_RES_KEY` -/
  | key (cp nbytes : ℕ)
  /-- `TERMKEY_RES_AGAIN` -/
  | again (cp : ℕ)
  deriving DecidableEq

/-- The codepoints that are not characters. -/
def isNonCharacter (cp : ℕ) : Bool := (0xd800 ≤ cp && cp ≤ 0xdfff) || cp == 0xfffe || cp == 0xffff

/-- The loop of `parse_utf8`, with so many bytes to go, and what is done after it. -/
def parseUtf8Loop (nbytes : ℕ) : (rounds : ℕ) → (bytes : List UInt8) → (b cp : ℕ) → Utf8Result
  | 0, _, _, cp =>
    let cp := if utf8Seqlen cp < nbytes then utf8Invalid else cp
    .key (if isNonCharacter cp then utf8Invalid else cp) nbytes
  | _ + 1, [], _, cp => .again cp
  | rounds + 1, cb :: bytes, b, cp =>
    if cb < 0x80 ∨ 0xc0 ≤ cb then .key utf8Invalid b
    else parseUtf8Loop nbytes rounds bytes (b + 1) (cp <<< 6 ||| (cb.toNat &&& 0x3f))

/-- `parse_utf8` of the bytes `b0 :: bytes` -/
def parseUtf8 (b0 : UInt8) (bytes : List UInt8) : Utf8Result :=
  if b0 < 0x80 then .key b0.toNat 1
  else if b0 < 0xc0 then .key utf8Invalid 1
  else if b0 < 0xe0 then parseUtf8Loop 2 1 bytes 1 (b0.toNat &&& 0x1f)
  else if b0 < 0xf0 then parseUtf8Loop 3 2 bytes 1 (b0.toNat &&& 0x0f)
  else if b0 < 0xf8 then parseUtf8Loop 4 3 bytes 1 (b0.toNat &&& 0x07)
  else if b0 < 0xfc then parseUtf8Loop 5 4 bytes 1 (b0.toNat &&& 0x03)
  else if b0 < 0xfe then parseUtf8Loop 6 5 bytes 1 (b0.toNat &&& 0x01)
  else .key utf8Invalid 1

@[simp] theorem utf8Seqlen_natCast (c : ℕ) : utf8Seqlen c = seqlen c := by
  rw [utf8Seqlen, seqlen]
  split_ifs <;> omega

/-! ## Bits as digits -/

theorem and_mask (n k : ℕ) : n &&& (2 ^ k - 1) = n % 2 ^ k := Nat.and_two_pow_sub_one_eq_mod n k

/-- A byte that has a mark in front of the low bits of a number. -/
theorem charOfLong_mark {c a i j : ℕ} (hji : j ≤ i) (hj : j < 64) (ha : 2 ^ i * a + 2 ^ i ≤ 0x100) :
    charOfLong (BitVec.ofNat 64 (2 ^ i * a) ||| (BitVec.ofNat 64 c &&& BitVec.ofNat 64 (2 ^ j - 1)))
      = UInt8.ofNat (2 ^ i * a + c % 2 ^ j) := by
  have hpow : 2 ^ j ≤ 2 ^ i := Nat.pow_le_pow_right (by decide) hji
  have hpow' : 2 ^ j < 2 ^ 64 := Nat.pow_lt_pow_right (by decide) hj
  have hmod : c % 2 ^ j < 2 ^ j := Nat.mod_lt c (Nat.two_pow_pos j)
  have hc : c % 2 ^ 64 % 2 ^ j = c % 2 ^ j := Nat.mod_mod_of_dvd c (Nat.pow_dvd_pow 2 (by omega))
  rw [← UInt8.toNat_inj, charOfLong, UInt8.toNat_ofBitVec, BitVec.toNat_setWidth, BitVec.toNat_or,
    BitVec.toNat_and, BitVec.toNat_ofNat, BitVec.toNat_ofNat, BitVec.toNat_ofNat,
    Nat.mod_eq_of_lt (show 2 ^ i * a < 2 ^ 64 by omega),
    Nat.mod_eq_of_lt (show 2 ^ j - 1 < 2 ^ 64 by omega),
    and_mask, hc, ← Nat.two_pow_add_eq_or_of_lt (Nat.lt_of_lt_of_le hmod hpow),
    UInt8.toNat_ofNat_of_lt' (show _ < 256 by omega), Nat.mod_eq_of_lt (by omega)]

theorem sshiftRight_ofNat {c : ℕ} (hc : c < 2 ^ 63) :
    (BitVec.ofNat 64 c).sshiftRight 6 = BitVec.ofNat 64 (c / 64) := by
  have hmsb : (BitVec.ofNat 64 c).msb = false := by
    rw [BitVec.msb_eq_decide, BitVec.toNat_ofNat, Nat.mod_eq_of_lt (by omega)]
    simpa using hc
  apply BitVec.eq_of_toNat_eq
  rw [BitVec.sshiftRight_eq_of_msb_false hmsb, BitVec.toNat_ushiftRight, BitVec.toNat_ofNat,
    BitVec.toNat_ofNat, Nat.mod_eq_of_lt (by omega), Nat.mod_eq_of_lt (by omega),
    Nat.shiftRight_eq_div_pow]

/-- The bits of the next byte are the next digit. -/
theorem shift_or (cp : ℕ) (cb : UInt8) : cp <<< 6 ||| (cb.toNat &&& 0x3f) =
    cp * 64 + cb.toNat % 64 := by
  have h := and_mask cb.toNat 6
  rw [show (0x3f : ℕ) = 2 ^ 6 - 1 from rfl, h, Nat.shiftLeft_eq, Nat.mul_comm cp,
    ← Nat.two_pow_add_eq_or_of_lt (Nat.mod_lt _ (by decide)), Nat.mul_comm]

/-! ## Writing -/

/-- What is left of the codepoint after so many bytes. -/
def shiftBytes : (b : ℕ) → (codepoint : BitVec 64) → BitVec 64
  | 0, codepoint => codepoint
  | b + 1, codepoint => shiftBytes b (codepoint.sshiftRight 6)

/-- The bytes that the loop of `fill_utf8` writes. -/
def tailBytes : (b : ℕ) → (codepoint : BitVec 64) → List UInt8
  | 0, _ => []
  | b + 1, codepoint =>
    tailBytes b (codepoint.sshiftRight 6) ++ [charOfLong (0x80 ||| (codepoint &&& 0x3f))]

/-- The bytes that `fill_utf8` writes in front of the terminator. -/
def utf8Bytes (codepoint : BitVec 64) : List UInt8 :=
  let nbytes := utf8Seqlen codepoint.toInt
  charOfLong (leadByte nbytes (shiftBytes (nbytes - 1) codepoint)) :: tailBytes (nbytes - 1)
  codepoint

theorem fillUtf8Loop_eq (b : ℕ) (codepoint : BitVec 64) {utf8 : List UInt8} (hb : b < utf8.length) :
    fillUtf8Loop b codepoint utf8
      = (shiftBytes b codepoint, utf8.take 1 ++ tailBytes b codepoint ++ utf8.drop (b + 1)) := by
  induction b generalizing codepoint utf8 with
  | zero =>
    rw [fillUtf8Loop, shiftBytes, tailBytes, List.append_nil, Nat.zero_add, List.take_append_drop]
  | succ b ih =>
    have hdrop : ∀ byte, (utf8.set (b + 1) byte).drop (b + 1) = byte :: utf8.drop (b + 1 + 1) := by
      intro byte
      rw [List.set_eq_take_append_cons_drop, if_pos hb,
        List.drop_left' (by rw [List.length_take]; omega)]
    rw [fillUtf8Loop, ih _ (by rw [List.length_set]; omega), hdrop, List.take_set_of_le (by omega),
      shiftBytes, tailBytes]
    simp only [List.append_assoc, List.singleton_append]

theorem utf8Seqlen_pos (c : ℤ) : 0 < utf8Seqlen c ∧ utf8Seqlen c ≤ 6 := by
  rw [utf8Seqlen]
  split_ifs <;> decide

/-- **What `fill_utf8` writes** depends on the codepoint only, up to the terminator. -/
theorem fillUtf8_utf8 {key : TermKeyKey} (hutf8 : key.utf8.length = 7) :
    ∃ rest, (fillUtf8 key).utf8 = utf8Bytes key.code ++ 0 :: rest := by
  obtain ⟨hpos, hsix⟩ := utf8Seqlen_pos key.code.toInt
  simp only [fillUtf8, utf8Bytes]
  generalize utf8Seqlen key.code.toInt = nbytes at hpos hsix
  have hset : (key.utf8.set nbytes 0).drop nbytes = 0 :: key.utf8.drop (nbytes + 1) := by
    rw [List.set_eq_take_append_cons_drop, if_pos (by omega),
      List.drop_left' (by rw [List.length_take]; omega)]
  obtain ⟨a, utf8, hcons⟩ := List.exists_cons_of_length_pos (show 0 < key.utf8.length by omega)
  refine ⟨key.utf8.drop (nbytes + 1), ?_⟩
  rw [fillUtf8Loop_eq _ _ (by rw [List.length_set]; omega), Nat.sub_add_cancel hpos, hset,
    List.take_set_of_le hpos, hcons, List.take_succ_cons, List.take_zero]
  simp only [List.cons_append, List.nil_append, List.set_cons_zero]

theorem length_fillUtf8 (key : TermKeyKey) : (fillUtf8 key).utf8.length = key.utf8.length := by
  have hloop : ∀ (b : ℕ) (codepoint : BitVec 64) (utf8 : List UInt8),
      (fillUtf8Loop b codepoint utf8).2.length = utf8.length := by
    intro b
    induction b with
    | zero => exact fun _ _ ↦ rfl
    | succ b ih => exact fun codepoint utf8 ↦ (ih _ _).trans List.length_set
  rw [fillUtf8, List.length_set, hloop, List.length_set]

theorem shiftBytes_ofNat (b : ℕ) {c : ℕ} (hc : c < 2 ^ 63) :
    shiftBytes b (BitVec.ofNat 64 c) = BitVec.ofNat 64 (c / 64 ^ b) := by
  induction b generalizing c with
  | zero => rw [shiftBytes, Nat.pow_zero, Nat.div_one]
  | succ b ih =>
    rw [shiftBytes, sshiftRight_ofNat hc, ih (by omega), Nat.div_div_eq_div_mul, Nat.pow_succ']

theorem tailBytes_ofNat (b : ℕ) {c : ℕ} (hc : c < 2 ^ 63) : tailBytes b (BitVec.ofNat 64 c) =
    tail b c := by
  have hbyte : ∀ c, charOfLong (0x80 ||| (BitVec.ofNat 64 c &&& 0x3f)) =
    UInt8.ofNat (0x80 + c % 64) :=
    fun c ↦ charOfLong_mark (c := c) (a := 2) (i := 6) (j := 6) (by decide) (by decide) (by decide)
  induction b generalizing c with
  | zero => rfl
  | succ b ih => rw [tailBytes, sshiftRight_ofNat hc, ih (by omega), hbyte, tail]

theorem charOfLong_leadByte {c : ℕ} (hc : c < 2 ^ 31) :
    charOfLong (leadByte (seqlen c) (BitVec.ofNat 64 (c / 64 ^ (seqlen c - 1))))
      = UInt8.ofNat (mark (seqlen c) + c / 64 ^ (seqlen c - 1)) := by
  have hone : charOfLong (BitVec.ofNat 64 c &&& 0x7f) = UInt8.ofNat (c % 2 ^ 7) := by
    have h := charOfLong_mark (c := c) (a := 0) (i := 7) (j := 7) (by decide) (by decide)
      (by decide)
    rw [Nat.mul_zero, BitVec.zero_or, Nat.zero_add] at h
    exact h
  have hlead : ∀ {d : ℕ} (a i j : ℕ), j ≤ i → j < 64 → 2 ^ i * a + 2 ^ i ≤ 0x100 → d < 2 ^ j →
      charOfLong
      (BitVec.ofNat 64 (2 ^ i * a) ||| (BitVec.ofNat 64 d &&& BitVec.ofNat 64 (2 ^ j - 1)))
        = UInt8.ofNat (2 ^ i * a + d) := by
    intro d a i j hji hj ha hd
    rw [charOfLong_mark hji hj ha, Nat.mod_eq_of_lt hd]
  have hlen : (seqlen c = 1 ∧ c < 0x80) ∨ (seqlen c = 2 ∧ c < 0x800) ∨
    (seqlen c = 3 ∧ c < 0x10000) ∨
      (seqlen c = 4 ∧ c < 0x200000) ∨ (seqlen c = 5 ∧ c < 0x4000000) ∨ seqlen c = 6 := by
    rw [seqlen]
    split_ifs <;> omega
  rcases hlen with ⟨h, hlt⟩ | ⟨h, hlt⟩ | ⟨h, hlt⟩ | ⟨h, hlt⟩ | ⟨h, hlt⟩ | h <;> rw [h]
  · rw [Nat.sub_self, Nat.pow_zero, Nat.div_one, show mark 1 = 0 from rfl, Nat.zero_add]
    exact hone.trans (congrArg UInt8.ofNat (Nat.mod_eq_of_lt hlt))
  · exact hlead 3 6 5 (by decide) (by decide) (by decide) (by omega)
  · exact hlead 7 5 4 (by decide) (by decide) (by decide) (by omega)
  · exact hlead 15 4 3 (by decide) (by decide) (by decide) (by omega)
  · exact hlead 31 3 2 (by decide) (by decide) (by decide) (by omega)
  · exact hlead 63 2 1 (by decide) (by decide) (by decide) (by omega)

/-- **The bytes are the encoding of the codepoint.** -/
theorem utf8Bytes_ofNat {c : ℕ} (hc : c < 2 ^ 31) : utf8Bytes (BitVec.ofNat 64 c) = encode c := by
  have hint : (BitVec.ofNat 64 c).toInt = c := by
    rw [BitVec.toInt_ofNat', Int.bmod_eq_of_le (by omega) (by omega)]
  simp only [utf8Bytes, hint, utf8Seqlen_natCast]
  rw [shiftBytes_ofNat _ (by omega), tailBytes_ofNat _ (by omega), charOfLong_leadByte hc, encode,
    encodeLen]

/-! ## Reading -/

/-- A codepoint that is encoded and read back. -/
structure IsCodepoint (c : ℕ) : Prop where
  lt : c < 2 ^ 31
  isNonCharacter : isNonCharacter c = false

theorem isTail_iff {b : UInt8} : ¬ (b < 0x80 ∨ 0xc0 ≤ b) ↔ IsTail b := by
  rw [not_or, UInt8.not_lt, UInt8.not_le, UInt8.le_iff_toNat_le, UInt8.lt_iff_toNat_lt]
  rfl

/-- The loop after bytes that are not the first one. -/
theorem parseUtf8Loop_append (nbytes : ℕ) {tl : List UInt8} (htl : ∀ b ∈ tl, IsTail b) (rounds : ℕ)
    (bytes : List UInt8) (b cp : ℕ) :
    parseUtf8Loop nbytes (tl.length + rounds) (tl ++ bytes) b cp
      = parseUtf8Loop nbytes rounds bytes (b + tl.length) (value cp tl) := by
  induction tl generalizing b cp with
  | nil => rw [List.length_nil, Nat.zero_add, List.nil_append, value_nil, Nat.add_zero]
  | cons cb tl ih =>
    rw [List.forall_mem_cons] at htl
    rw [List.length_cons, Nat.add_right_comm, List.cons_append, parseUtf8Loop,
      if_neg (isTail_iff.mpr htl.1), ih htl.2, shift_or, value_cons, Nat.add_right_comm b,
      Nat.add_assoc b]

/-- What the loop finds: all the bytes, too few of them, or one that does not belong there. -/
theorem parseUtf8Loop_cases (nbytes rounds : ℕ) (bytes : List UInt8) (b cp : ℕ) :
    (∃ tl rest, bytes = tl ++ rest ∧ tl.length = rounds ∧ (∀ b ∈ tl, IsTail b) ∧
        parseUtf8Loop nbytes rounds bytes b cp =
        parseUtf8Loop nbytes 0 rest (b + rounds) (value cp tl)) ∨
      (bytes.length < rounds ∧ (∀ b ∈ bytes, IsTail b) ∧
        parseUtf8Loop nbytes rounds bytes b cp = .again (value cp bytes)) ∨
      ∃ tl c rest, bytes = tl ++ c :: rest ∧ tl.length < rounds ∧ (∀ b ∈ tl, IsTail b) ∧
      ¬ IsTail c ∧
        parseUtf8Loop nbytes rounds bytes b cp = .key utf8Invalid (b + tl.length) := by
  induction rounds generalizing bytes b cp with
  | zero => exact .inl ⟨[], bytes, rfl, rfl, by simp, rfl⟩
  | succ rounds ih =>
    cases bytes with
    | nil => exact .inr (.inl ⟨Nat.succ_pos rounds, by simp, rfl⟩)
    | cons cb bytes =>
      by_cases hcb : IsTail cb
      · have hstep : parseUtf8Loop nbytes (rounds + 1) (cb :: bytes) b cp
            = parseUtf8Loop nbytes rounds bytes (b + 1) (cp * 64 + cb.toNat % 64) := by
          rw [parseUtf8Loop, if_neg (isTail_iff.mpr hcb), shift_or]
        rw [hstep]
        rcases ih bytes (b + 1) (cp * 64 + cb.toNat % 64) with
          ⟨tl, rest, rfl, hlen, htl, heq⟩ | ⟨hlen, htl, heq⟩ |
          ⟨tl, c, rest, rfl, hlen, htl, hc, heq⟩
        · refine .inl ⟨cb :: tl, rest, rfl, congrArg Nat.succ hlen,
            List.forall_mem_cons.mpr ⟨hcb, htl⟩, ?_⟩
          rw [heq, value_cons, Nat.add_assoc b, Nat.add_comm 1]
        · refine .inr (.inl ⟨Nat.succ_lt_succ hlen, List.forall_mem_cons.mpr ⟨hcb, htl⟩, ?_⟩)
          rw [heq, value_cons]
        · refine .inr (.inr ⟨cb :: tl, c, rest, rfl, Nat.succ_lt_succ hlen,
            List.forall_mem_cons.mpr ⟨hcb, htl⟩, hc, ?_⟩)
          rw [heq, List.length_cons, Nat.add_assoc b, Nat.add_comm 1]
      · refine .inr (.inr ⟨[], cb, bytes, rfl, Nat.succ_pos rounds, by simp, hcb, ?_⟩)
        rw [parseUtf8Loop, if_pos (not_not.mp (mt isTail_iff.mp hcb)), List.length_nil,
          Nat.add_zero]

/-- What `parse_utf8` does with the first byte. -/
theorem parseUtf8_cases (b0 : UInt8) (bytes : List UInt8) :
    (b0 < 0x80 ∧ parseUtf8 b0 bytes = .key b0.toNat 1) ∨
      (IsTail b0 ∨ 0xfe ≤ b0) ∧ parseUtf8 b0 bytes = .key utf8Invalid 1 ∨
      ∃ len d, IsLead len d b0 ∧ parseUtf8 b0 bytes = parseUtf8Loop len (len - 1) bytes 1 d := by
  have hmask : ∀ k, b0.toNat &&& (2 ^ k - 1) = b0.toNat % 2 ^ k := and_mask b0.toNat
  have h5 : b0.toNat &&& 0x1f = b0.toNat % 32 := hmask 5
  have h4 : b0.toNat &&& 0x0f = b0.toNat % 16 := hmask 4
  have h3 : b0.toNat &&& 0x07 = b0.toNat % 8 := hmask 3
  have h2 : b0.toNat &&& 0x03 = b0.toNat % 4 := hmask 2
  have h1 : b0.toNat &&& 0x01 = b0.toNat % 2 := hmask 1
  rw [parseUtf8]
  simp only [UInt8.lt_iff_toNat_lt, UInt8.le_iff_toNat_le, IsTail, UInt8.reduceToNat, h5, h4, h3,
    h2, h1]
  split_ifs
  · exact .inl ⟨by assumption, rfl⟩
  · exact .inr (.inl ⟨.inl ⟨by omega, by omega⟩, rfl⟩)
  · exact .inr (.inr
      ⟨2, _, ⟨by decide, by decide, by rw [show mark 2 = 0xc0 from rfl]; omega, by omega⟩, rfl⟩)
  · exact .inr (.inr
      ⟨3, _, ⟨by decide, by decide, by rw [show mark 3 = 0xe0 from rfl]; omega, by omega⟩, rfl⟩)
  · exact .inr (.inr
      ⟨4, _, ⟨by decide, by decide, by rw [show mark 4 = 0xf0 from rfl]; omega, by omega⟩, rfl⟩)
  · exact .inr (.inr
      ⟨5, _, ⟨by decide, by decide, by rw [show mark 5 = 0xf8 from rfl]; omega, by omega⟩, rfl⟩)
  · exact .inr (.inr
      ⟨6, _, ⟨by decide, by decide, by rw [show mark 6 = 0xfc from rfl]; omega, by omega⟩, rfl⟩)
  · exact .inr (.inl ⟨.inr (by omega), rfl⟩)

theorem parseUtf8_lead {len d : ℕ} {b0 : UInt8} (h : IsLead len d b0) (bytes : List UInt8) :
    parseUtf8 b0 bytes = parseUtf8Loop len (len - 1) bytes 1 d := by
  obtain ⟨hlow, hhigh⟩ := h.le_toNat
  rcases parseUtf8_cases b0 bytes with ⟨hlt, -⟩ | ⟨htail | hge, -⟩ | ⟨len', d', h', heq⟩
  · exact absurd (UInt8.lt_iff_toNat_lt.mp hlt)
      (Nat.not_lt.mpr ((by decide : 0x80 ≤ 0xc0).trans hlow))
  · exact absurd hlow (Nat.not_le.mpr htail.2)
  · exact absurd hhigh (Nat.not_lt.mpr (UInt8.le_iff_toNat_le.mp hge))
  · obtain ⟨rfl, rfl⟩ := h.unique h'
    exact heq

/-- **An encoding is read back**, whatever follows it. -/
theorem parseUtf8_encode {c : ℕ} (hc : IsCodepoint c) {b0 : UInt8} {bytes t : List UInt8}
    (h : b0 :: bytes = encode c ++ t) : parseUtf8 b0 bytes = .key c (seqlen c) := by
  rcases encode_eq hc.lt with ⟨hlt, henc⟩ | ⟨b, hlead, henc⟩
  · rw [henc, List.singleton_append] at h
    obtain ⟨rfl, rfl⟩ := List.cons.inj h
    have hnat : (UInt8.ofNat c).toNat = c := UInt8.toNat_ofNat_of_lt' (show c < 256 by omega)
    rw [parseUtf8, if_pos (by rwa [UInt8.lt_iff_toNat_lt, hnat]), hnat, seqlen, if_pos hlt]
  · rw [henc, List.cons_append] at h
    obtain ⟨rfl, rfl⟩ := List.cons.inj h
    have htail : ∀ b ∈ tail (seqlen c - 1) c, IsTail b := fun _ ↦ isTail_of_mem_tail
    have hloop := parseUtf8Loop_append (seqlen c) htail 0 t 1 (c / 64 ^ (seqlen c - 1))
    rw [length_tail, Nat.add_zero, value_tail, Nat.div_add_mod'] at hloop
    rw [parseUtf8_lead hlead, hloop, parseUtf8Loop, utf8Seqlen_natCast, if_neg (Nat.lt_irrefl _),
      hc.isNonCharacter]
    rfl

/-- What the loop makes of all the bytes of an encoding, or of one that is too long. -/
theorem parseUtf8Loop_done {len d : ℕ} {b0 : UInt8} (hlead : IsLead len d b0) {tl : List UInt8}
    (htl : ∀ b ∈ tl, IsTail b) (hlen : tl.length + 1 = len) (rest : List UInt8) (b : ℕ) :
    ∃ c, parseUtf8Loop len 0 rest b (value d tl) = .key c len ∧
      (c = utf8Invalid ∨ IsCodepoint c ∧ b0 :: tl = encode c) := by
  rw [parseUtf8Loop, utf8Seqlen_natCast]
  refine ⟨_, rfl, ?_⟩
  by_cases hshort : seqlen (value d tl) < len
  · rw [if_pos hshort]
    exact .inl (by decide)
  · have hle := seqlen_value_le hlead hlen
    rw [if_neg hshort]
    cases hnon : isNonCharacter (value d tl) with
    | true => exact .inl (by rw [if_pos rfl])
    | false =>
      rw [if_neg Bool.false_ne_true]
      refine .inr ⟨⟨value_lt_two_pow hlead hlen, hnon⟩, ?_⟩
      rw [encode, show seqlen (value d tl) = len by omega, encodeLen_value hlead htl hlen]

theorem isCodepoint_ascii {b : UInt8} (h : b < 0x80) : IsCodepoint b.toNat ∧ encode b.toNat =
    [b] := by
  have hlt : b.toNat < 0x80 := UInt8.lt_iff_toNat_lt.mp h
  refine ⟨⟨by omega, ?_⟩, ?_⟩
  · simp only [isNonCharacter, Bool.or_eq_false_iff, Bool.and_eq_false_iff, decide_eq_false_iff_not,
      beq_eq_false_iff_ne]
    omega
  · rcases encode_eq (c := b.toNat) (by omega) with ⟨-, henc⟩ | ⟨b', hb', -⟩
    · rw [henc, UInt8.ofNat_toNat]
    · have hone := hb'.one_lt
      rw [seqlen, if_pos hlt] at hone
      exact absurd hone (Nat.lt_irrefl 1)

/-- **What is read is an encoding**, or the replacement character takes its place; the bytes taken
after the first one are never the start of another character. -/
theorem parseUtf8_sound {b0 : UInt8} {bytes : List UInt8} {c n : ℕ}
    (h : parseUtf8 b0 bytes = .key c n) :
    0 < n ∧ n ≤ bytes.length + 1 ∧ (∀ b ∈ bytes.take (n - 1), IsTail b) ∧
      (c = utf8Invalid ∨ IsCodepoint c ∧ (b0 :: bytes).take n = encode c) := by
  rcases parseUtf8_cases b0 bytes with ⟨hlt, heq⟩ | ⟨-, heq⟩ | ⟨len, d, hlead, heq⟩ <;> rw [heq]
    at h
  · obtain ⟨rfl, rfl⟩ := Utf8Result.key.inj h
    obtain ⟨hcp, henc⟩ := isCodepoint_ascii hlt
    exact ⟨Nat.one_pos, by omega, by simp, .inr ⟨hcp, henc.symm⟩⟩
  · obtain ⟨rfl, rfl⟩ := Utf8Result.key.inj h
    exact ⟨Nat.one_pos, by omega, by simp, .inl rfl⟩
  · have hone := hlead.one_lt
    rcases parseUtf8Loop_cases len (len - 1) bytes 1 d with
      ⟨tl, rest, rfl, hlen, htl, heq⟩ | ⟨-, -, heq⟩ | ⟨tl, b, rest, rfl, hlen, htl, -, heq⟩ <;>
      rw [heq] at h
    · have hlen' : tl.length + 1 = len := by omega
      obtain ⟨c', hdone, hc'⟩ := parseUtf8Loop_done hlead htl hlen' rest (1 + (len - 1))
      obtain ⟨rfl, rfl⟩ := Utf8Result.key.inj (hdone.symm.trans h)
      subst hlen'
      refine ⟨Nat.succ_pos _, by rw [List.length_append]; omega, ?_, ?_⟩
      · rwa [Nat.add_sub_cancel, List.take_left]
      · rwa [List.take_succ_cons, List.take_left]
    · cases h
    · obtain ⟨rfl, rfl⟩ := Utf8Result.key.inj h
      refine ⟨by omega, by rw [List.length_append, List.length_cons]; omega, ?_, .inl rfl⟩
      rwa [Nat.add_sub_cancel_left, List.take_left]

/-- More is asked for only in the middle of an encoding. -/
theorem parseUtf8_again {b0 : UInt8} {bytes : List UInt8} {c : ℕ}
    (h : parseUtf8 b0 bytes = .again c) :
    (∀ b ∈ bytes, IsTail b) ∧ ∃ len d, IsLead len d b0 ∧ bytes.length + 1 < len := by
  rcases parseUtf8_cases b0 bytes with ⟨-, heq⟩ | ⟨-, heq⟩ | ⟨len, d, hlead, heq⟩ <;> rw [heq] at h
  · cases h
  · cases h
  · rcases parseUtf8Loop_cases len (len - 1) bytes 1 d with
      ⟨tl, rest, rfl, hlen, htl, heq⟩ | ⟨hlen, htl, -⟩ | ⟨tl, b, rest, rfl, -, -, -, heq⟩
    · have hone := hlead.one_lt
      obtain ⟨c', hdone, -⟩ := parseUtf8Loop_done hlead htl (by omega) rest (1 + (len - 1))
      rw [heq, hdone] at h
      cases h
    · exact ⟨htl, len, d, hlead, by omega⟩
    · rw [heq] at h
      cases h

/-- What has been read so far of an encoding. -/
theorem parseUtf8_again_lt {b0 : UInt8} {bytes : List UInt8} {c : ℕ}
    (h : parseUtf8 b0 bytes = .again c) :
    c < 2 ^ 63 := by
  obtain ⟨htail, len, d, hlead, hlen⟩ := parseUtf8_again h
  rw [parseUtf8_lead hlead] at h
  rcases parseUtf8Loop_cases len (len - 1) bytes 1 d with
    ⟨tl, rest, rfl, hlen', -, -⟩ | ⟨-, -, heq⟩ | ⟨tl, b, rest, rfl, -, hb, hnot, -⟩
  · rw [List.length_append] at hlen
    omega
  · rw [heq] at h
    obtain rfl := Utf8Result.again.inj h
    have hlt := value_lt d bytes
    have hd : d + 1 ≤ 64 := by
      have hpow : 2 ^ 1 ≤ 2 ^ len := Nat.pow_le_pow_right (by decide) hlead.one_lt.le
      have hmul := (Nat.mul_le_mul_left d hpow).trans_lt hlead.lt
      omega
    have hpow : 64 ^ bytes.length ≤ 64 ^ 4 :=
      Nat.pow_le_pow_right (by decide) (by have := hlead.le_six; omega)
    calc value d bytes < (d + 1) * 64 ^ bytes.length := hlt
      _ ≤ 64 * 64 ^ 4 := Nat.mul_le_mul hd hpow
      _ ≤ 2 ^ 63 := by decide
  · exact absurd (htail b (by simp)) hnot

/-- **More input does not change what has been read.** -/
theorem parseUtf8_append {b0 : UInt8} {bytes : List UInt8} {c n : ℕ}
    (h : parseUtf8 b0 bytes = .key c n)
    (more : List UInt8) : parseUtf8 b0 (bytes ++ more) = .key c n := by
  rcases parseUtf8_cases b0 bytes with ⟨hlt, heq⟩ | ⟨hout, heq⟩ | ⟨len, d, hlead, heq⟩
  · rw [heq] at h
    rwa [parseUtf8, if_pos hlt]
  · rw [heq] at h
    rcases parseUtf8_cases b0 (bytes ++ more) with ⟨hlt, -⟩ | ⟨-, heq'⟩ | ⟨len, d, hlead, -⟩
    · rw [UInt8.lt_iff_toNat_lt] at hlt
      rcases hout with hout | hout
      · exact absurd hlt (Nat.not_lt.mpr hout.1)
      · exact absurd (UInt8.le_iff_toNat_le.mp hout) (Nat.not_le.mpr (hlt.trans (by decide)))
    · rw [heq', h]
    · obtain ⟨hlow, hhigh⟩ := hlead.le_toNat
      rcases hout with hout | hout
      · exact absurd hlow (Nat.not_le.mpr hout.2)
      · exact absurd hhigh (Nat.not_lt.mpr (UInt8.le_iff_toNat_le.mp hout))
  · rw [parseUtf8_lead hlead] at h ⊢
    rcases parseUtf8Loop_cases len (len - 1) bytes 1 d with
      ⟨tl, rest, rfl, hlen, htl, heq⟩ | ⟨-, -, heq⟩ | ⟨tl, b, rest, rfl, hlen, htl, hb, heq⟩
    · rw [← h, heq, List.append_assoc]
      have happend := parseUtf8Loop_append len htl 0 (rest ++ more) 1 d
      rw [Nat.add_zero, hlen] at happend
      rw [happend, parseUtf8Loop, parseUtf8Loop]
    · rw [heq] at h
      cases h
    · rw [← h, heq, List.append_assoc]
      obtain ⟨k, hk⟩ : ∃ k, len - 1 = tl.length + (k + 1) := ⟨len - 1 - tl.length - 1, by omega⟩
      rw [hk, parseUtf8Loop_append len htl (k + 1), List.cons_append, parseUtf8Loop,
        if_pos (not_not.mp (mt isTail_iff.mp hb))]

end Rustyaxe.Termkey
