import Rustyaxe.Strtol

/-!
# Durations

`time_t2dhms` and `dhms2time_t` of `util.time.c`: a number of seconds as a text such as `1h30m`, and
back.  `time_t` and `long` have 64 bits, and `int` has 32.

The way back narrows every number to `int` and multiplies in `int`, which is enough for all units
but the years: from 69 years on the round trip fails (`dhms2timeT_timeT2dhms_iff`).
-/

set_option autoImplicit false

namespace Rustyaxe

/-! ## The code -/

/-- A value of `int`: the arithmetic is modulo `2 ^ 32`. -/
def wrapInt (n : ℤ) : ℤ := Int.bmod n (2 ^ 32)

/-- A value of `time_t`. -/
def wrapTime (n : ℤ) : ℤ := Int.bmod n (2 ^ 64)

/-- What `dhms2time_t` adds for a number with its unit. -/
def unitSeconds (unit : UInt8) (value : ℤ) : ℤ :=
  if unit = 0x79 then wrapInt (value * 365 * 24 * 60 * 60)
  else if unit = 0x77 then wrapInt (value * 7 * 24 * 60 * 60)
  else if unit = 0x64 then wrapInt (value * 24 * 60 * 60)
  else if unit = 0x68 then wrapInt (value * 60 * 60)
  else if unit = 0x6d then wrapInt (value * 60)
  else if unit = 0x73 then value
  else 0

/-- The loop of `dhms2time_t`, for at most so many rounds. -/
def dhmsLoop : (fuel : ℕ) → (ptr : CStr) → (seconds : ℤ) → ℤ
  | 0, _, seconds => seconds
  | fuel + 1, ptr, seconds =>
    if ptr = [] then seconds
    else
      let value := wrapInt (strtoll ptr).1
      match (strtoll ptr).2.1 with
      | [] => seconds
      | unit :: ptr => dhmsLoop fuel ptr (wrapTime (seconds + unitSeconds unit value))

/-- `dhms2time_t`; every round takes a character at least. -/
def dhms2timeT : Option CStr → ℤ
  | none => 0
  | some str => dhmsLoop str.length str 0

/-- The units, with the seconds in them. -/
def dhmsParts : List (UInt8 × ℤ) :=
  [(0x79, 365 * 24 * 60 * 60), (0x77, 7 * 24 * 60 * 60), (0x64, 24 * 60 * 60), (0x68, 60 * 60),
    (0x6d, 60), (0x73, 1)]

/-- The loop of `time_t2dhms`. -/
def printParts : List (UInt8 × ℤ) → ℤ → CStr
  | [], _ => []
  | (unit, secs) :: parts, seconds =>
    if secs ≤ seconds then
      decimal (seconds / secs).toNat ++ unit :: printParts parts (seconds % secs)
    else printParts parts seconds

/-- `time_t2dhms`; 128 bytes are enough for any number of seconds. -/
def timeT2dhms (seconds : ℤ) : CStr :=
  if seconds ≤ 0 then lit "0s" else printParts dhmsParts seconds

/-! ## The way back -/

theorem wrapInt_of_lt {n : ℤ} (h0 : 0 ≤ n) (h : n < 2 ^ 31) : wrapInt n = n :=
  Int.bmod_eq_of_le (by omega) (by omega)

theorem wrapTime_of_lt {n : ℤ} (h0 : -2 ^ 63 ≤ n) (h : n < 2 ^ 63) : wrapTime n = n :=
  Int.bmod_eq_of_le (by omega) (by omega)

theorem wrapInt_bounds (n : ℤ) : -2 ^ 31 ≤ wrapInt n ∧ wrapInt n < 2 ^ 31 :=
  ⟨Int.le_bmod (by decide), Int.bmod_lt (by decide)⟩

theorem unitSeconds_bounds (unit : UInt8) (value : ℤ) (h : -2 ^ 31 ≤ value ∧ value < 2 ^ 31) :
    -2 ^ 31 ≤ unitSeconds unit value ∧ unitSeconds unit value < 2 ^ 31 := by
  rw [unitSeconds]
  split_ifs
  · exact wrapInt_bounds _
  · exact wrapInt_bounds _
  · exact wrapInt_bounds _
  · exact wrapInt_bounds _
  · exact wrapInt_bounds _
  · exact h
  · decide

/-- What the way back makes of the parts. -/
def readParts : List (UInt8 × ℤ) → ℤ → ℤ
  | [], _ => 0
  | (unit, secs) :: parts, seconds =>
    if secs ≤ seconds then
      unitSeconds unit (wrapInt (seconds / secs)) + readParts parts (seconds % secs)
    else readParts parts seconds

/-- **The loop reads the parts back**, one after the other. -/
theorem dhmsLoop_printParts : ∀ (parts : List (UInt8 × ℤ)) (fuel : ℕ) (acc : ℤ) {seconds : ℤ},
    (∀ p ∈ parts, isdigit p.1 = false ∧ 0 < p.2) → 0 ≤ seconds → seconds < 2 ^ 63 →
    (printParts parts seconds).length ≤ fuel →
    acc.natAbs + parts.length * 0x80000000 < 0x8000000000000000 →
    dhmsLoop fuel (printParts parts seconds) acc = acc + readParts parts seconds
  | [], fuel, acc, seconds, _, _, _, _, _ => by
    rw [printParts, readParts, Int.add_zero]
    cases fuel with
    | zero => rfl
    | succ fuel => exact if_pos rfl
  | (unit, secs) :: parts, fuel, acc, seconds, hparts, h0, hlt, hfuel, hacc => by
    obtain ⟨⟨hunit, hsecs⟩, hparts⟩ := List.forall_mem_cons.mp hparts
    rw [List.length_cons] at hacc
    rw [printParts] at hfuel ⊢
    rw [readParts]
    split_ifs at hfuel ⊢ with hle
    · have hq : 0 ≤ seconds / secs := Int.ediv_nonneg h0 hsecs.le
      have hq' : seconds / secs ≤ seconds := Int.ediv_le_self _ h0
      have hr : 0 ≤ seconds % secs := Int.emod_nonneg _ hsecs.ne'
      have hr' : seconds % secs < secs := Int.emod_lt_of_pos _ hsecs
      rw [List.length_append, List.length_cons] at hfuel
      have hread : strtoll (decimal (seconds / secs).toNat ++
          unit :: printParts parts (seconds % secs)) =
            (seconds / secs, unit :: printParts parts (seconds % secs), false) := by
        rw [strtoll_decimal (by omega) (by simpa using hunit), Int.toNat_of_nonneg hq]
      obtain ⟨fuel, rfl⟩ : ∃ f, fuel = f + 1 := ⟨fuel - 1, by omega⟩
      have hbound := unitSeconds_bounds unit (wrapInt (seconds / secs)) (wrapInt_bounds _)
      have hacc' : (acc + unitSeconds unit (wrapInt (seconds / secs))).natAbs
          + parts.length * 0x80000000 < 0x8000000000000000 := by omega
      rw [dhmsLoop, if_neg (by simp), hread]
      dsimp only
      rw [wrapTime_of_lt (by omega) (by omega),
        dhmsLoop_printParts parts fuel _ hparts hr (by omega) (by omega) hacc', Int.add_assoc]
    · have hacc' : acc.natAbs + parts.length * 0x80000000 < 0x8000000000000000 :=
        Nat.lt_of_le_of_lt (Nat.add_le_add_left (Nat.mul_le_mul_right _ (Nat.le_succ _)) _) hacc
      exact dhmsLoop_printParts parts fuel _ hparts h0 hlt hfuel hacc'

/-! ## The round trip -/

/-- The seconds that are left of the units are what is read back. -/
theorem unitSeconds_mul {unit : UInt8} {secs : ℤ} (hpart : (unit, secs) ∈ dhmsParts) {v : ℤ}
    (h0 : 0 ≤ v) (hv : v * secs < 2 ^ 31) : unitSeconds unit v = v * secs := by
  simp only [dhmsParts, List.mem_cons, Prod.mk.injEq, List.not_mem_nil, or_false] at hpart
  rcases hpart with ⟨rfl, rfl⟩ | ⟨rfl, rfl⟩ | ⟨rfl, rfl⟩ | ⟨rfl, rfl⟩ | ⟨rfl, rfl⟩ | ⟨rfl, rfl⟩
  · rw [unitSeconds, if_pos rfl, wrapInt_of_lt (by omega) (by omega)]
    omega
  · rw [unitSeconds, if_neg (by decide), if_pos rfl, wrapInt_of_lt (by omega) (by omega)]
    omega
  · rw [unitSeconds, if_neg (by decide), if_neg (by decide), if_pos rfl,
      wrapInt_of_lt (by omega) (by omega)]
    omega
  · rw [unitSeconds, if_neg (by decide), if_neg (by decide), if_neg (by decide), if_pos rfl,
      wrapInt_of_lt (by omega) (by omega)]
    omega
  · rw [unitSeconds, if_neg (by decide), if_neg (by decide), if_neg (by decide), if_neg (by decide),
      if_pos rfl, wrapInt_of_lt (by omega) (by omega)]
  · rw [unitSeconds, if_neg (by decide), if_neg (by decide), if_neg (by decide), if_neg (by decide),
      if_neg (by decide), if_pos rfl, Int.mul_one]

theorem pos_of_mem_dhmsParts {p : UInt8 × ℤ} (hp : p ∈ dhmsParts) :
    isdigit p.1 = false ∧ 0 < p.2 := by
  revert p
  decide

/-- **What fits an `int`** is read back as it is, down to the last unit. -/
theorem readParts_eq : ∀ {parts : List (UInt8 × ℤ)} {seconds : ℤ}, (∀ p ∈ parts, p ∈ dhmsParts) →
    parts.getLast?.map Prod.snd = some 1 → 0 ≤ seconds → seconds < 2 ^ 31 →
    readParts parts seconds = seconds
  | [], _, _, hlast, _, _ => by cases hlast
  | (unit, secs) :: parts, seconds, hparts, hlast, h0, hlt => by
    obtain ⟨hpart, hparts⟩ := List.forall_mem_cons.mp hparts
    have hsecs : 0 < secs := (pos_of_mem_dhmsParts hpart).2
    have hq : 0 ≤ seconds / secs := Int.ediv_nonneg h0 hsecs.le
    have hr : 0 ≤ seconds % secs := Int.emod_nonneg seconds hsecs.ne'
    have hdiv := Int.ediv_mul_add_emod seconds secs
    have hmul : 0 ≤ seconds / secs * secs := Int.mul_nonneg hq hsecs.le
    have hrest : readParts parts (seconds % secs) = seconds % secs := by
      cases parts with
      | nil =>
        obtain rfl : secs = 1 := Option.some.inj hlast
        rw [readParts, Int.emod_one]
      | cons p parts =>
        rw [List.getLast?_cons_cons] at hlast
        exact readParts_eq hparts hlast hr (by omega)
    rw [readParts]
    split_ifs with hle
    · have hq' : seconds / secs ≤ seconds := Int.ediv_le_self _ h0
      rw [wrapInt_of_lt hq (by omega), unitSeconds_mul hpart hq (by omega), hrest, hdiv]
    · rw [Int.emod_eq_of_lt h0 (by omega)] at hrest
      exact hrest

/-- **The round trip** gives the number of seconds back exactly below 69 years. -/
theorem dhms2timeT_timeT2dhms_iff {seconds : ℤ} (h0 : 0 ≤ seconds) (hlt : seconds < 2 ^ 63) :
    dhms2timeT (some (timeT2dhms seconds)) = seconds ↔ seconds < 69 * (365 * 24 * 60 * 60) := by
  rw [timeT2dhms]
  split_ifs with hzero
  · obtain rfl : seconds = 0 := by omega
    exact iff_of_true (by decide) (by decide)
  · have hread := dhmsLoop_printParts dhmsParts (printParts dhmsParts seconds).length 0
      (fun p ↦ pos_of_mem_dhmsParts) h0 hlt (Nat.le_refl _) (by decide)
    rw [Int.zero_add] at hread
    rw [dhms2timeT, hread]
    by_cases hyear : seconds < 365 * 24 * 60 * 60
    · exact iff_of_true (readParts_eq (fun _ ↦ id) rfl h0 (by omega)) (by omega)
    -- the years, and what is left of them
    have hyears : readParts dhmsParts seconds =
        unitSeconds 0x79 (wrapInt (seconds / 31536000)) + seconds % 31536000 := by
      have hrest : readParts dhmsParts.tail (seconds % 31536000) = seconds % 31536000 :=
        readParts_eq (fun _ ↦ List.mem_of_mem_tail) rfl (by omega) (by omega)
      rw [dhmsParts, List.tail_cons] at hrest
      rw [dhmsParts, readParts, if_pos (by omega)]
      exact congrArg _ hrest
    have hbound := (unitSeconds_bounds 0x79 _ (wrapInt_bounds (seconds / 31536000))).2
    rw [hyears]
    constructor
    · intro hsame
      omega
    · intro hlt
      have hmul : unitSeconds 0x79 (seconds / 31536000) = seconds / 31536000 * 31536000 :=
        unitSeconds_mul List.mem_cons_self (by omega) (by omega)
      rw [wrapInt_of_lt (by omega) (by omega), hmul]
      omega

/-- 69 years. -/
theorem dhms2timeT_ne_69y :
    dhms2timeT (some (timeT2dhms 2175984000)) ≠ 2175984000 := by
  decide +kernel

theorem dhms2timeT_iff_90 :
    dhms2timeT (some (timeT2dhms 90)) = 90 ↔ (90 : ℤ) < 69 * (365 * 24 * 60 * 60) :=
  dhms2timeT_timeT2dhms_iff (by decide) (by decide)

end Rustyaxe
