import Mathlib.Data.List.Infix

/-!
# Decoders of streams

A `Decoder` reads a message off the front of what has come of a stream, or waits.  Its messages do
not change when more of the stream comes, so what is decoded of a stream does not depend on where
it is cut (`Decoder.decode_append`).

`Follows s₀ input messages s queue` is what holds between the looks at a stream of which `input`
has come so far: `messages` have been read, `queue` is what is left.  It is kept when more comes
and when a message is read, in whatever order that happens, and once the decoder waits, everything
that can be decoded has been read (`Follows.of_waits`).
-/

set_option autoImplicit false

/-- Messages `β` of a stream of `α`, with a state `σ` between them. -/
structure Decoder (α β σ : Type) where
  /-- The first message, the state behind it and its length. -/
  read : σ → List α → Option (β × σ × ℕ)
  takes : ∀ {s w b s' n}, read s w = some (b, s', n) → 0 < n ∧ n ≤ w.length
  stable : ∀ {s w o}, read s w = some o → ∀ v, read s (w ++ v) = some o

namespace Decoder

variable {α β σ : Type} (d : Decoder α β σ)

/-- The messages of a stream, the state behind them and what is left. -/
def decode (s : σ) (w : List α) : List β × σ × List α :=
  match _h : d.read s w with
  | none => ([], s, w)
  | some (b, s', n) =>
    let (bs, t) := decode s' (w.drop n)
    (b :: bs, t)
termination_by w.length
decreasing_by
  have := d.takes _h
  rw [List.length_drop]
  omega

variable {d} {s s' : σ} {w : List α} {b : β} {n : ℕ}

theorem decode_of_none (h : d.read s w = none) : d.decode s w = ([], s, w) := by
  rw [decode]
  split
  · rfl
  · next h' => rw [h] at h'; cases h'

theorem decode_of_some (h : d.read s w = some (b, s', n)) :
    d.decode s w = (b :: (d.decode s' (w.drop n)).1, (d.decode s' (w.drop n)).2) := by
  rw [decode]
  split
  · next h' => rw [h] at h'; cases h'
  · next h' =>
    rw [h] at h'
    cases h'
    rfl

/-- **What is decoded does not depend on where the stream is cut.** -/
theorem decode_append (s : σ) (w v : List α) :
    d.decode s (w ++ v) =
      ((d.decode s w).1 ++ (d.decode (d.decode s w).2.1 ((d.decode s w).2.2 ++ v)).1,
        (d.decode (d.decode s w).2.1 ((d.decode s w).2.2 ++ v)).2) := by
  induction hk : w.length using Nat.strong_induction_on generalizing s w with
  | _ k ih =>
    cases hread : d.read s w with
    | none => rw [decode_of_none hread, List.nil_append]
    | some o =>
      obtain ⟨b, s', n⟩ := o
      obtain ⟨hpos, hle⟩ := d.takes hread
      have hlt : (w.drop n).length < k := by
        rw [List.length_drop]
        omega
      rw [decode_of_some hread, decode_of_some (d.stable hread v),
        List.drop_append_of_le_length hle,
        ih _ hlt s' (w.drop n) rfl]
      rfl

/-- What holds between the looks at a stream. -/
def Follows (d : Decoder α β σ) (s₀ : σ) (input : List α) (messages : List β) (s : σ)
    (queue : List α) : Prop :=
  d.decode s₀ input = (messages ++ (d.decode s queue).1, (d.decode s queue).2)

namespace Follows

variable {s₀ : σ} {input queue : List α} {messages : List β}

theorem nil (s₀ : σ) : d.Follows s₀ [] [] s₀ [] := rfl

/-- More comes. -/
theorem receive (h : d.Follows s₀ input messages s queue) (v : List α) :
    d.Follows s₀ (input ++ v) messages s (queue ++ v) := by
  rw [Follows] at h ⊢
  rw [decode_append s₀, h, decode_append s queue, List.append_assoc]

/-- A message is read. -/
theorem read (h : d.Follows s₀ input messages s queue) (hread : d.read s queue = some (b, s', n)) :
    d.Follows s₀ input (messages ++ [b]) s' (queue.drop n) := by
  rw [Follows] at h ⊢
  rw [h, decode_of_some hread, List.append_assoc]
  rfl

/-- What has been read comes first of what can be decoded. -/
theorem isPrefix (h : d.Follows s₀ input messages s queue) : messages <+: (d.decode s₀ input).1 :=
  ⟨(d.decode s queue).1, (congrArg Prod.fst h).symm⟩

/-- **Everything has been read** once the decoder waits. -/
theorem of_waits (h : d.Follows s₀ input messages s queue) (hwaits : d.read s queue = none) :
    d.decode s₀ input = (messages, s, queue) := by
  rw [h, decode_of_none hwaits, List.append_nil]

end Follows

end Decoder
