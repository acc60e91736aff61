import Mathlib.Algebra.Order.Group.Nat
import Mathlib.Data.List.Induction
import Mathlib.Tactic.Ring

/-!
# UTF-8 with up to six bytes

UTF-8 as it was first defined: a number below `2 ^ 31` is written with one to six bytes.  The
first one says how many there are, and the others carry six bits each.

`value_tail` reads the bytes after the first one back, and `tail_value` writes what has been read.
-/

set_option autoImplicit false

namespace LongUtf8

/-- The number of bytes of the encoding. -/
def seqlen (c : ℕ) : ℕ :=
  if c < 0x80 then 1
  else if c < 0x800 then 2
  else if c < 0x10000 then 3
  else if c < 0x200000 then 4
  else if c < 0x4000000 then 5
  else 6

/-- The bits of the first byte that say how many bytes there are. -/
def mark : (len : ℕ) → ℕ
  | 2 => 0xc0
  | 3 => 0xe0
  | 4 => 0xf0
  | 5 => 0xf8
  | 6 => 0xfc
  | _ => 0

/-- A byte that is not the first one. -/
def IsTail (b : UInt8) : Prop := 0x80 ≤ b.toNat ∧ b.toNat < 0xc0

instance (b : UInt8) : Decidable (IsTail b) := inferInstanceAs (Decidable (_ ∧ _))

/-- The last `n` bytes of the encoding. -/
def tail : (n : ℕ) → (c : ℕ) → List UInt8
  | 0, _ => []
  | n + 1, c => tail n (c / 64) ++ [UInt8.ofNat (0x80 + c % 64)]

/-- The encoding of `c` with `len` bytes. -/
def encodeLen (len c : ℕ) : List UInt8 :=
  UInt8.ofNat (mark len + c / 64 ^ (len - 1)) :: tail (len - 1) c

/-- The encoding of `c`. -/
def encode (c : ℕ) : List UInt8 := encodeLen (seqlen c) c

/-- What the bytes after the first one make of the bits of the first one. -/
def value (c : ℕ) (bs : List UInt8) : ℕ := bs.foldl (fun c b ↦ c * 64 + b.toNat % 64) c

@[simp] theorem value_nil (c : ℕ) : value c [] = c := rfl

@[simp] theorem value_cons (c : ℕ) (b : UInt8) (bs : List UInt8) :
    value c (b :: bs) = value (c * 64 + b.toNat % 64) bs := rfl

theorem value_concat (c : ℕ) (bs : List UInt8) (b : UInt8) :
    value c (bs ++ [b]) = value c bs * 64 + b.toNat % 64 := by
  rw [value, List.foldl_append]
  rfl

@[simp] theorem length_tail (n c : ℕ) : (tail n c).length = n := by
  induction n generalizing c with
  | zero => rfl
  | succ n ih => rw [tail, List.length_append, ih, List.length_singleton]

theorem toNat_tailByte (c : ℕ) : (UInt8.ofNat (0x80 + c % 64)).toNat = 0x80 + c % 64 :=
  UInt8.toNat_ofNat_of_lt' (show _ < 256 by omega)

theorem isTail_of_mem_tail {n c : ℕ} {b : UInt8} (h : b ∈ tail n c) : IsTail b := by
  induction n generalizing c with
  | zero => cases h
  | succ n ih =>
    rw [tail, List.mem_append, List.mem_singleton] at h
    rcases h with h | rfl
    · exact ih h
    · rw [IsTail, toNat_tailByte]
      have := Nat.mod_lt c (show 64 > 0 by decide)
      omega

/-- **Reading the tail back.** -/
theorem value_tail (n c d : ℕ) : value d (tail n c) = d * 64 ^ n + c % 64 ^ n := by
  induction n generalizing c with
  | zero => rw [tail, value_nil, Nat.pow_zero, Nat.mul_one, Nat.mod_one, Nat.add_zero]
  | succ n ih =>
    rw [tail, value_concat, ih, toNat_tailByte]
    have hlow : (0x80 + c % 64) % 64 = c % 64 := by omega
    have hsplit : c % 64 ^ (n + 1) = c / 64 % 64 ^ n * 64 + c % 64 := by
      rw [Nat.pow_succ', Nat.mod_mul, Nat.mul_comm, Nat.add_comm]
    rw [hlow, hsplit, Nat.pow_succ]
    ring

theorem le_value (d : ℕ) (bs : List UInt8) : d * 64 ^ bs.length ≤ value d bs := by
  induction bs generalizing d with
  | nil => rw [value_nil, List.length_nil, Nat.pow_zero, Nat.mul_one]
  | cons b bs ih =>
    rw [value_cons, List.length_cons, Nat.pow_succ']
    calc d * (64 * 64 ^ bs.length) = d * 64 * 64 ^ bs.length := by ring
      _ ≤ (d * 64 + b.toNat % 64) * 64 ^ bs.length := Nat.mul_le_mul_right _ (Nat.le_add_right _ _)
      _ ≤ _ := ih _

theorem value_lt (d : ℕ) (bs : List UInt8) : value d bs < (d + 1) * 64 ^ bs.length := by
  induction bs generalizing d with
  | nil => rw [value_nil, List.length_nil, Nat.pow_zero, Nat.mul_one]; exact Nat.lt_succ_self d
  | cons b bs ih =>
    rw [value_cons, List.length_cons, Nat.pow_succ']
    have hb := Nat.mod_lt b.toNat (show 64 > 0 by decide)
    calc _ < (d * 64 + b.toNat % 64 + 1) * 64 ^ bs.length := ih _
      _ ≤ (d * 64 + 64) * 64 ^ bs.length := Nat.mul_le_mul_right _ (by omega)
      _ = (d + 1) * (64 * 64 ^ bs.length) := by ring

/-- **Writing what has been read.** -/
theorem tail_value {bs : List UInt8} (h : ∀ b ∈ bs, IsTail b) (d : ℕ) :
    tail bs.length (value d bs) = bs := by
  induction bs using List.reverseRecOn with
  | nil => rfl
  | append_singleton bs b ih =>
    rw [List.forall_mem_append, List.forall_mem_singleton] at h
    obtain ⟨hlow, hhigh⟩ := h.2
    rw [List.length_append, List.length_singleton, tail, value_concat]
    have hdiv : (value d bs * 64 + b.toNat % 64) / 64 = value d bs := by omega
    have hmod : 0x80 + (value d bs * 64 + b.toNat % 64) % 64 = b.toNat := by omega
    rw [hdiv, hmod, ih h.1, UInt8.ofNat_toNat]

/-! ## The first byte -/

/-- The bits of the number in the first of `len` bytes, and what is added to them there. -/
structure IsLead (len d : ℕ) (b : UInt8) : Prop where
  one_lt : 1 < len
  le_six : len ≤ 6
  toNat_eq : b.toNat = mark len + d
  lt : d * 2 ^ len < 2 ^ 7

theorem IsLead.cases {len d : ℕ} {b : UInt8} (h : IsLead len d b) :
    len = 2 ∨ len = 3 ∨ len = 4 ∨ len = 5 ∨ len = 6 := by
  have := h.one_lt
  have := h.le_six
  omega

/-- The first byte says how many there are, and the bits that it has itself. -/
theorem IsLead.unique {len len' d d' : ℕ} {b : UInt8} (h : IsLead len d b) (h' : IsLead len' d' b) :
    len = len' ∧ d = d' := by
  have hlen := h.cases
  have hlen' := h'.cases
  obtain ⟨-, -, heq, hlt⟩ := h
  obtain ⟨-, -, heq', hlt'⟩ := h'
  rcases hlen with rfl | rfl | rfl | rfl | rfl <;> rcases hlen' with rfl | rfl | rfl | rfl | rfl <;>
    norm_num [mark] at heq heq' hlt hlt' <;> omega

theorem IsLead.le_toNat {len d : ℕ} {b : UInt8} (h : IsLead len d b) :
    0xc0 ≤ b.toNat ∧ b.toNat < 0xfe := by
  have hlen := h.cases
  obtain ⟨-, -, heq, hlt⟩ := h
  rcases hlen with rfl | rfl | rfl | rfl | rfl <;> norm_num [mark] at heq hlt <;> omega

/-- What is read from an encoding. -/
theorem value_lt_two_pow {len d : ℕ} {b : UInt8} (h : IsLead len d b) {bs : List UInt8}
    (hlen : bs.length + 1 = len) : value d bs < 2 ^ 31 := by
  have hval := value_lt d bs
  have hlt := h.lt
  rw [show bs.length = len - 1 by omega] at hval
  rcases h.cases with rfl | rfl | rfl | rfl | rfl <;> norm_num at hval hlt <;> omega

/-- What fits into `len` bytes. -/
theorem seqlen_value_le {len d : ℕ} {b : UInt8} (h : IsLead len d b) {bs : List UInt8}
    (hlen : bs.length + 1 = len) : seqlen (value d bs) ≤ len := by
  have hval := value_lt d bs
  have hlt := h.lt
  rw [show bs.length = len - 1 by omega] at hval
  generalize value d bs = c at hval
  rcases h.cases with rfl | rfl | rfl | rfl | rfl <;> norm_num at hval hlt <;> unfold seqlen <;>
    split_ifs <;> omega

/-- **Writing what has been read**, with the first byte. -/
theorem encodeLen_value {len d : ℕ} {b : UInt8} (h : IsLead len d b) {bs : List UInt8}
    (hbs : ∀ b ∈ bs, IsTail b) (hlen : bs.length + 1 = len) : encodeLen len (value d bs) =
    b :: bs := by
  have hdiv : value d bs / 64 ^ bs.length = d := by
    refine Nat.div_eq_of_lt_le ?_ ?_
    · exact le_value d bs
    · exact value_lt d bs
  subst hlen
  rw [encodeLen, Nat.add_sub_cancel, hdiv, tail_value hbs, ← h.toNat_eq, UInt8.ofNat_toNat]

/-- **The first byte of an encoding.** -/
theorem encode_eq {c : ℕ} (hc : c < 2 ^ 31) : (c < 0x80 ∧ encode c = [UInt8.ofNat c]) ∨
    ∃ b, IsLead (seqlen c) (c / 64 ^ (seqlen c - 1)) b ∧ encode c = b :: tail (seqlen c - 1) c := by
  by_cases hsmall : c < 0x80
  · refine .inl ⟨hsmall, ?_⟩
    have hlen : seqlen c = 1 := by rw [seqlen, if_pos hsmall]
    have hmark : mark 1 = 0 := rfl
    rw [encode, hlen, encodeLen, hmark, Nat.sub_self, Nat.pow_zero, Nat.div_one, Nat.zero_add, tail]
  · refine .inr ⟨UInt8.ofNat (mark (seqlen c) + c / 64 ^ (seqlen c - 1)), ?_, rfl⟩
    have hlen : (seqlen c = 2 ∧ c < 0x800) ∨ (seqlen c = 3 ∧ c < 0x10000) ∨
        (seqlen c = 4 ∧ c < 0x200000) ∨ (seqlen c = 5 ∧ c < 0x4000000) ∨ seqlen c = 6 := by
      rw [seqlen]
      split_ifs <;> omega
    have hlead : ∀ len, 1 < len → len ≤ 6 → mark len + c / 64 ^ (len - 1) < 0x100 →
        c / 64 ^ (len - 1) * 2 ^ len < 2 ^ 7 →
        IsLead len (c / 64 ^ (len - 1)) (UInt8.ofNat (mark len + c / 64 ^ (len - 1))) :=
      fun len h1 h6 hbyte hlt ↦ ⟨h1, h6, UInt8.toNat_ofNat_of_lt' hbyte, hlt⟩
    rcases hlen with ⟨h, hlt⟩ | ⟨h, hlt⟩ | ⟨h, hlt⟩ | ⟨h, hlt⟩ | h <;> rw [h] <;>
      refine hlead _ (by decide) (by decide) ?_ ?_ <;> norm_num [mark] <;> omega

end LongUtf8
