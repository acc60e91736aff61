import Mathlib.Algebra.Order.Ring.Nat
import Mathlib.Algebra.Ring.Parity
import Mathlib.Data.Nat.ModEq
import Mathlib.Tactic.Ring

/-!
# Linear congruential sequences modulo a power of two

`affine a c x = a * x + c` is one step of a linear congruential generator.  When `a` is `1` modulo
`4` and `c` is odd, the sequence runs through *every* residue modulo `2 ^ k` in `2 ^ k` steps,
whatever it starts from: this is the power-of-two case of the Hull–Dobell theorem, and it is what
makes an open-addressing probe of that shape visit every slot of its table.

The proof doubles the modulus.  `2 ^ k` steps act as `x ↦ A * x + B` with `A` equal to `1` modulo
`2 ^ (k + 1)` and `B` equal to `2 ^ k` (`affine_iterate_two_pow`), so two residues that a modulus
of `2 ^ k` confuses are `2 ^ k` steps apart.
-/

set_option autoImplicit false

namespace FullCycle

/-- One step of a linear congruential generator, before reduction. -/
def affine (a c x : ℕ) : ℕ := a * x + c

theorem affine_iterate (a c : ℕ) : ∀ n x : ℕ,
    (affine a c)^[n] x = a ^ n * x + (affine a c)^[n] 0
  | 0, x => by simp
  | n + 1, x => by
    rw [Function.iterate_succ_apply', Function.iterate_succ_apply', affine_iterate a c n x]
    simp only [affine]
    ring

theorem affine_modEq {a c m x y : ℕ} (h : x ≡ y [MOD m]) :
    ∀ n, (affine a c)^[n] x ≡ (affine a c)^[n] y [MOD m]
  | 0 => h
  | n + 1 => by
    rw [Function.iterate_succ_apply', Function.iterate_succ_apply']
    exact ((affine_modEq h n).mul_left a).add_right c

/-- Reducing after every step is the same as reducing once at the end. -/
theorem iterate_mod (a c m : ℕ) : ∀ n x : ℕ,
    (fun y ↦ affine a c y % m)^[n] x % m = (affine a c)^[n] x % m
  | 0, x => rfl
  | n + 1, x => by
    rw [Function.iterate_succ_apply, Function.iterate_succ_apply, iterate_mod a c m n]
    exact affine_modEq (Nat.mod_modEq _ _) n

section PowerOfTwo

variable {a c : ℕ}

theorem pow_mod_four (ha : a % 4 = 1) (n : ℕ) : a ^ n % 4 = 1 := by
  simp [Nat.pow_mod, ha]

/-- A residue modulo `m` splits into two modulo `2 * m`. -/
theorem modEq_or_add_of_modEq {m x t : ℕ} (hm : 0 < m) (h : x ≡ t [MOD m]) :
    x ≡ t [MOD 2 * m] ∨ x + m ≡ t [MOD 2 * m] := by
  have hx := Nat.div_add_mod x m
  have ht := Nat.div_add_mod t m
  rw [← h] at ht
  have hr : x % m < m := Nat.mod_lt _ hm
  have hsplit : ∀ q, (m * q + x % m) % (2 * m) = m * (q % 2) + x % m := by
    intro q
    rw [show m * q + x % m = (m * (q % 2) + x % m) + 2 * m * (q / 2) by
      conv_lhs => rw [← Nat.div_add_mod q 2]
      ring, Nat.add_mul_mod_self_left]
    refine Nat.mod_eq_of_lt ?_
    have h2 : q % 2 ≤ 1 := by omega
    calc m * (q % 2) + x % m < m * 1 + m := by
          have := Nat.mul_le_mul_left m h2
          omega
      _ = 2 * m := by ring
  have hadd : x + m = m * (x / m + 1) + x % m := by rw [mul_add, mul_one]; omega
  simp only [Nat.ModEq]
  rw [hadd, hsplit (x / m + 1)]
  rw [← hx, ← ht, hsplit, hsplit, hx]
  rcases Nat.mod_two_eq_zero_or_one (x / m) with h1 | h1 <;>
    rcases Nat.mod_two_eq_zero_or_one (t / m) with h2 | h2 <;>
    simp [Nat.add_mod, h1, h2]

/-- `2 ^ k` steps multiply by `1` and add `2 ^ k`, as far as the modulus `2 ^ (k + 1)` can see. -/
theorem affine_iterate_two_pow (ha : a % 4 = 1) (hc : Odd c) : ∀ k : ℕ,
    (∃ v, a ^ 2 ^ k = 2 ^ (k + 1) * v + 1) ∧ ∃ u, (affine a c)^[2 ^ k] 0 = 2 ^ k * (2 * u + 1)
  | 0 => by
    obtain ⟨u, hu⟩ := hc
    exact ⟨⟨a / 2, by simp; omega⟩, u, by simp [affine, hu]⟩
  | k + 1 => by
    obtain ⟨⟨v, hA⟩, u, hB⟩ := affine_iterate_two_pow ha hc k
    obtain ⟨w, hw⟩ : ∃ w, a ^ 2 ^ k = 4 * w + 1 :=
      ⟨a ^ 2 ^ k / 4, by have := pow_mod_four ha (2 ^ k); omega⟩
    refine ⟨⟨2 ^ k * v * v + v, ?_⟩, (2 * w + 1) * u + w, ?_⟩
    · rw [pow_succ 2 k, pow_mul, hA]
      ring
    · have htwo : 2 ^ (k + 1) = 2 ^ k + 2 ^ k := by ring
      rw [htwo, Function.iterate_add_apply, affine_iterate a c (2 ^ k), hB, hw]
      ring

/-- `2 ^ k` more steps move the sequence by `2 ^ k` modulo `2 ^ (k + 1)`. -/
theorem affine_iterate_add_two_pow (ha : a % 4 = 1) (hc : Odd c) (k n x : ℕ) :
    (affine a c)^[2 ^ k + n] x ≡ (affine a c)^[n] x + 2 ^ k [MOD 2 * 2 ^ k] := by
  obtain ⟨⟨v, hA⟩, u, hB⟩ := affine_iterate_two_pow ha hc k
  rw [Function.iterate_add_apply, affine_iterate a c (2 ^ k), hA, hB]
  generalize (affine a c)^[n] x = y
  have hsum : (2 ^ (k + 1) * v + 1) * y + 2 ^ k * (2 * u + 1)
      = (y + 2 ^ k) + 2 * 2 ^ k * (v * y + u) := by ring
  rw [hsum, Nat.ModEq, Nat.add_mul_mod_self_left]

/-- **The generator has full period.**  From any start, every residue modulo `2 ^ k` comes up
within `2 ^ k` steps. -/
theorem full_cycle (ha : a % 4 = 1) (hc : Odd c) (x t : ℕ) : ∀ k : ℕ,
    ∃ n < 2 ^ k, (affine a c)^[n] x ≡ t [MOD 2 ^ k]
  | 0 => ⟨0, by simp, Nat.modEq_one⟩
  | k + 1 => by
    obtain ⟨n, hn, hmod⟩ := full_cycle ha hc x t k
    have hpow : 2 ^ (k + 1) = 2 * 2 ^ k := by ring
    rw [hpow]
    rcases modEq_or_add_of_modEq (Nat.two_pow_pos k) hmod with h | h
    · exact ⟨n, by omega, h⟩
    · exact ⟨2 ^ k + n, by omega, (affine_iterate_add_two_pow ha hc k n x).trans h⟩

end PowerOfTwo

end FullCycle
