import Rustyaxe.Termkey.Emit
import Rustyaxe.Termkey.Mouse

/-!
# What a driver is asked

A driver of `termkey.c` looks at the bytes that have been received and not been eaten, its window,
and says whether a key can be read there.  What it writes besides its result, the key, `*nbytep`,
`tk->hightide` and the string that the driver for control sequences keeps, is one record here,
`Peeked`.

Two such records are alike (`Peeked.Like`) when they differ only in what the program cannot tell of
the key.
-/

set_option autoImplicit false

namespace Rustyaxe.Termkey

/-- `TermKeyResult` -/
inductive TermKeyResult where
  | none
  | key
  | eof
  | again
  | error
  deriving DecidableEq

/-- What a driver writes. -/
structure Peeked where
  key : TermKeyKey
  nbytes : ℕ
  hightide : ℕ
  savedStringId : BitVec 32
  savedString : Option CStr
  deriving DecidableEq

/-- `peekkey_mouse`, with its window. -/
def peekkeyMouse (w : List UInt8) (p : Peeked) : TermKeyResult × Peeked :=
  match w with
  | c0 :: c1 :: c2 :: _ =>
    let m0 := c0 - 0x20
    (.key, { p with
      key := { p.key.setMouse (m0 &&& 0xe3) (c1 - 0x20) (c2 - 0x20) 0 with
        type := .mouse
        modifiers := ((m0 &&& 0x1c) >>> 2).toBitVec.setWidth 32 }
      nbytes := 3 })
  | _ => (.again, p)

/-- How the drivers ask for the mouse event that follows the first `n` bytes of the window. -/
def peekkeyMouseAfter (n : ℕ) (w : List UInt8) (p : Peeked) : TermKeyResult × Peeked :=
  let o := peekkeyMouse (w.drop n) p
  (o.1, if o.1 = .key then { o.2 with nbytes := o.2.nbytes + n } else o.2)

/-! ## What does not depend on what the key held -/

/-- Records that differ in what has been left in the key. -/
structure Peeked.Like (p p' : Peeked) : Prop where
  left : p.key.utf8.length = 7
  right : p'.key.utf8.length = 7
  hightide : p.hightide = p'.hightide
  savedStringId : p.savedStringId = p'.savedStringId
  savedString : p.savedString = p'.savedString

/-- Outcomes that the program cannot tell from each other. -/
inductive SameOutcome : Option (TermKeyResult × Peeked) → Option (TermKeyResult × Peeked) →
    Prop where
  | none : SameOutcome none none
  | some {r : TermKeyResult} {q q' : Peeked} : q.Like q' →
    (r = .key → q.key.view = q'.key.view ∧ q.nbytes = q'.nbytes) →
    SameOutcome (some (r, q)) (some (r, q'))

/-- The state of the drivers is what it was. -/
structure Untouched (p q : Peeked) : Prop where
  hightide : q.hightide = p.hightide
  savedStringId : q.savedStringId = p.savedStringId
  savedString : q.savedString = p.savedString

theorem Untouched.refl (p : Peeked) : Untouched p p := ⟨rfl, rfl, rfl⟩

theorem Untouched.trans {p q r : Peeked} (h : Untouched p q) (h' : Untouched q r) : Untouched p r :=
  ⟨h'.hightide.trans h.hightide, h'.savedStringId.trans h.savedStringId,
  h'.savedString.trans h.savedString⟩

/-- What holds of a result for the window `w`: a key has bytes in it, and nothing else changes the
state of the driver. -/
structure Fits (w : List UInt8) (p : Peeked) (r : TermKeyResult) (q : Peeked) : Prop where
  key : r = .key → 0 < q.nbytes ∧ q.nbytes + q.hightide ≤ w.length
  other : r ≠ .key → Untouched p q

namespace Peeked.Like

variable {p p' : Peeked}

/-- Another key is written. -/
theorem withKey (h : p.Like p') {key key' : TermKeyKey} (hkey : key.Looks key') (n : ℕ) :
    SameOutcome (some (.key, { p with key, nbytes := n }))
    (some (.key, { p' with key := key', nbytes := n })) :=
  .some ⟨hkey.left, hkey.right, h.hightide, h.savedStringId, h.savedString⟩ fun _ ↦ ⟨hkey.view, rfl⟩

/-- Nothing is written. -/
theorem same (h : p.Like p') {r : TermKeyResult} (hr : r ≠ .key) :
    SameOutcome (some (r, p)) (some (r, p')) := .some h fun hkey ↦ absurd hkey hr

end Peeked.Like

namespace TermKeyKey

theorem sym_setMouse (key : TermKeyKey) (m0 m1 m2 m3 : UInt8) :
    (key.setMouse m0 m1 m2 m3).sym = m3.toBitVec ++ m2.toBitVec ++ m1.toBitVec ++ m0.toBitVec :=
  BitVec.setWidth_append_eq_right

/-- Keys of a type that is none for characters. -/
theorem Looks.of_sym {key key' : TermKeyKey} (htype : key.type = key'.type)
    (hsym : key.sym = key'.sym)
    (hmod : key.modifiers = key'.modifiers) (hu : key.type ≠ .unicode) (h : key.utf8.length = 7)
    (h' : key'.utf8.length = 7) : Looks key key' := ⟨view_eq_of_sym htype hsym hmod hu, h, h'⟩

end TermKeyKey

theorem peekkeyMouseAfter_same (n : ℕ) (w : List UInt8) {p p' : Peeked} (h : p.Like p') :
    SameOutcome (some (peekkeyMouseAfter n w p)) (some (peekkeyMouseAfter n w p')) := by
  have hagain : SameOutcome (some (.again, p)) (some (.again, p')) := h.same (by simp)
  have hkey : ∀ (m0 m1 m2 : UInt8) (modifiers : BitVec 32),
      TermKeyKey.Looks { p.key.setMouse m0 m1 m2 0 with type := .mouse, modifiers }
        { p'.key.setMouse m0 m1 m2 0 with type := .mouse, modifiers } := by
    refine fun m0 m1 m2 modifiers ↦ .of_sym rfl ?_ rfl (by simp) h.left h.right
    exact (TermKeyKey.sym_setMouse p.key _ _ _ _).trans
      (TermKeyKey.sym_setMouse p'.key _ _ _ _).symm
  unfold peekkeyMouseAfter
  rcases w.drop n with _ | ⟨c0, _ | ⟨c1, _ | ⟨c2, cs⟩⟩⟩
  · exact hagain
  · exact hagain
  · exact hagain
  · exact h.withKey (hkey _ _ _ _) (3 + n)

theorem peekkeyMouseAfter_fits {n : ℕ} {w : List UInt8} {p : Peeked} (hp : p.hightide = 0) :
    Fits w p (peekkeyMouseAfter n w p).1 (peekkeyMouseAfter n w p).2 := by
  have hagain : Fits w p .again p := ⟨fun h ↦ (by cases h), fun _ ↦ ⟨rfl, rfl, rfl⟩⟩
  rw [peekkeyMouseAfter]
  rcases hdrop : w.drop n with _ | ⟨c0, _ | ⟨c1, _ | ⟨c2, cs⟩⟩⟩
  · exact hagain
  · exact hagain
  · exact hagain
  · have hlen := congrArg List.length hdrop
    simp only [List.length_drop, List.length_cons] at hlen
    refine ⟨fun _ ↦ ⟨?_, ?_⟩, fun h ↦ absurd rfl h⟩
    · show 0 < 3 + n
      omega
    · show 3 + n + p.hightide ≤ w.length
      omega

theorem peekkeyMouseAfter_untouched (n : ℕ) (w : List UInt8) (p : Peeked) :
    Untouched p (peekkeyMouseAfter n w p).2 := by
  rw [peekkeyMouseAfter]
  rcases w.drop n with _ | ⟨c0, _ | ⟨c1, _ | ⟨c2, cs⟩⟩⟩
  · exact .refl p
  · exact .refl p
  · exact .refl p
  · exact ⟨rfl, rfl, rfl⟩

theorem peekkeyMouseAfter_cases (n : ℕ) (w : List UInt8) (p : Peeked) :
    (peekkeyMouseAfter n w p).1 = .key ∨ peekkeyMouseAfter n w p = (.again, p) := by
  rw [peekkeyMouseAfter]
  rcases w.drop n with _ | ⟨c0, _ | ⟨c1, _ | ⟨c2, cs⟩⟩⟩
  · exact .inr rfl
  · exact .inr rfl
  · exact .inr rfl
  · exact .inl rfl

/-- More input does not change a mouse event. -/
theorem peekkeyMouseAfter_append {n : ℕ} {w : List UInt8} {p : Peeked}
    (h : (peekkeyMouseAfter n w p).1 = .key) (v : List UInt8) :
    peekkeyMouseAfter n (w ++ v) p = peekkeyMouseAfter n w p := by
  unfold peekkeyMouseAfter at h ⊢
  rcases hdrop : w.drop n with _ | ⟨c0, _ | ⟨c1, _ | ⟨c2, cs⟩⟩⟩
  · rw [hdrop] at h
    cases h
  · rw [hdrop] at h
    cases h
  · rw [hdrop] at h
    cases h
  · have hn : n ≤ w.length := by
      have hlen := congrArg List.length hdrop
      simp only [List.length_drop, List.length_cons] at hlen
      omega
    rw [List.drop_append_of_le_length hn, hdrop]
    rfl

end Rustyaxe.Termkey
