import Rustyaxe.Termkey.Utf8

/-!
# Keys for codepoints

`emit_codepoint` and `termkey_canonicalise` of `termkey.c`.

The key that they are given may hold anything.  What the program sees of the result, its `view`,
does not depend on that (`view_emitCodepoint`).
-/

set_option autoImplicit false

namespace Rustyaxe.Termkey

open LongUtf8

/-- The flags of a `TermKey` that are read here: of `flags`, and of `canonflags`. -/
structure TermKeyFlags where
  /-- `TERMKEY_FLAG_NOINTERPRET` -/
  nointerpret : Bool
  /-- `TERMKEY_FLAG_CONVERTKP` -/
  convertkp : Bool
  /-- `TERMKEY_FLAG_UTF8` -/
  utf8 : Bool
  /-- `TERMKEY_CANON_SPACESYMBOL` -/
  spacesymbol : Bool
  /-- `TERMKEY_CANON_DELBS` -/
  delbs : Bool
  deriving DecidableEq

/-- `tk->c0[…].sym`, as `termkey_init` has left it. -/
def c0Sym (codepoint : ℕ) : BitVec 32 :=
  if codepoint = 0x09 then TermKeySym.tab
  else if codepoint = 0x0d then TermKeySym.enter
  else if codepoint = 0x1b then TermKeySym.escape
  else TermKeySym.none

/-- `termkey_canonicalise` -/
def termkeyCanonicalise (flags : TermKeyFlags) (key : TermKeyKey) : TermKeyKey :=
  let key :=
    if flags.spacesymbol then
      if key.type = .unicode ∧ key.code = 0x20 then
        { key.setSym TermKeySym.space with type := .keysym }
      else key
    else if key.type = .keysym ∧ key.sym = TermKeySym.space then
      fillUtf8 { key with type := .unicode, code := 0x20 }
    else key
  if flags.delbs ∧ key.type = .keysym ∧ key.sym =
    TermKeySym.del then key.setSym TermKeySym.backspace
  else key

/-- The branch of `emit_codepoint` for the control characters. -/
def emitC0 (flags : TermKeyFlags) (codepoint : BitVec 64) (key : TermKeyKey) : TermKeyKey :=
  let key := { key with code := 0, modifiers := 0 }
  let key := if flags.nointerpret then key else key.setSym (c0Sym codepoint.toNat)
  if key.sym = 0 then
    let upper := codepoint + 0x40
    { key with
      type := .unicode
      -- A letter is reported in lower case, so that the modifier says it all.
      code := if (0x41 : BitVec 64).sle upper ∧ upper.sle 0x5a then codepoint + 0x60 else upper
      modifiers := keymodCtrl }
  else { key with type := .keysym }

/-- The cases of `emit_codepoint`.  There is no result for a negative codepoint, with which the
program reads in front of the array `tk->c0`. -/
def emitCases (flags : TermKeyFlags) (codepoint : BitVec 64) (key : TermKeyKey) :
    Option TermKeyKey :=
  if codepoint = 0 then
    some { key.setSym TermKeySym.space with type := .keysym, modifiers := keymodCtrl }
  else if codepoint.slt 0x20 then
    if codepoint.slt 0 ∧ ¬ flags.nointerpret then none else some (emitC0 flags codepoint key)
  else if codepoint = 0x7f ∧ ¬ flags.nointerpret then
    some { key.setSym TermKeySym.del with type := .keysym, modifiers := 0 }
  else if codepoint.slt 0x80 then
    some { key with type := .unicode, code := codepoint, modifiers := 0 }
  else if codepoint.slt 0xa0 then
    some { key with
      type := .unicode, code := codepoint - 0x40, modifiers := keymodCtrl ||| keymodAlt }
  else some { key with type := .unicode, code := codepoint, modifiers := 0 }

/-- `emit_codepoint` -/
def emitCodepoint (flags : TermKeyFlags) (codepoint : BitVec 64) (key : TermKeyKey) :
    Option TermKeyKey := do
  let key := termkeyCanonicalise flags (← emitCases flags codepoint key)
  return if key.type = .unicode then fillUtf8 key else key

/-! ## What the program sees of a key -/

/-- What can be told of a key by its type. -/
structure KeyView where
  type : TermKeyType
  code : BitVec 64
  modifiers : BitVec 32
  /-- The text of a character. -/
  text : CStr
  deriving DecidableEq

/-- The member of `code` that the type of the key says has been given, which of a position are three
bytes.  The modifiers of a position and of a mode report are whatever has been there before. -/
def TermKeyKey.view (key : TermKeyKey) : KeyView where
  type := key.type
  code :=
    if key.type = .unicode then key.code
    else if key.type = .position then (key.sym >>> 8).setWidth 64
    else key.sym.setWidth 64
  modifiers := if key.type = .position ∨ key.type = .modereport then 0 else key.modifiers
  text := if key.type = .unicode then key.utf8.takeWhile (· ≠ 0) else []

namespace TermKeyKey

/-- Keys that differ in what has not been given only. -/
structure Alike (key key' : TermKeyKey) : Prop where
  type : key.type = key'.type
  modifiers : key.modifiers = key'.modifiers
  sym : key.sym = key'.sym
  code : key.type = .unicode → key.code = key'.code
  utf8 : key.utf8.length = 7 ∧ key'.utf8.length = 7

namespace Alike

variable {key key' : TermKeyKey}

theorem setSym (h : Alike key key') (hkeysym : key.type = .keysym) (sym : BitVec 32) :
    Alike (key.setSym sym) (key'.setSym sym) where
  type := h.type
  modifiers := h.modifiers
  sym := by rw [sym_setSym, sym_setSym]
  code hu := by rw [type_setSym, hkeysym] at hu; cases hu
  utf8 := h.utf8

theorem fillUtf8 (h : Alike key key') : Alike (fillUtf8 key) (fillUtf8 key') where
  type := h.type
  modifiers := h.modifiers
  sym := h.sym
  code := h.code
  utf8 := by rw [length_fillUtf8, length_fillUtf8]; exact h.utf8

theorem canonicalise (h : Alike key key') (flags : TermKeyFlags) :
    Alike (termkeyCanonicalise flags key) (termkeyCanonicalise flags key') := by
  have hspace : key.type = .unicode ∧ key.code = 0x20 ↔ key'.type = .unicode ∧ key'.code =
    0x20 := by
    rw [← h.type]
    exact and_congr_right fun hu ↦ by rw [h.code hu]
  have hdelbs : ∀ {key key' : TermKeyKey}, Alike key key' →
      Alike (if flags.delbs ∧ key.type = .keysym ∧ key.sym = TermKeySym.del then
        key.setSym TermKeySym.backspace else key)
      (if flags.delbs ∧ key'.type = .keysym ∧ key'.sym = TermKeySym.del then
        key'.setSym TermKeySym.backspace else key') := by
    intro key key' h
    rw [← h.type, ← h.sym]
    split
    · next hdel => exact h.setSym hdel.2.1 _
    · exact h
  rw [termkeyCanonicalise]
  refine hdelbs ?_
  cases flags.spacesymbol with
  | true =>
    rw [if_pos rfl, if_pos rfl]
    by_cases hu : key.type = .unicode ∧ key.code = 0x20
    · rw [if_pos hu, if_pos (hspace.mp hu)]
      exact { type := rfl
              modifiers := h.modifiers
              sym := (sym_setSym key _).trans (sym_setSym key' _).symm
              code := fun hk ↦ by cases hk
              utf8 := h.utf8 }
    · rw [if_neg hu, if_neg (mt hspace.mpr hu)]
      exact h
  | false =>
    rw [if_neg Bool.false_ne_true, if_neg Bool.false_ne_true, ← h.type, ← h.sym]
    split
    · exact Alike.fillUtf8 ⟨rfl, h.modifiers, rfl, fun _ ↦ rfl, h.utf8⟩
    · exact h

/-- Once the text of a character has been written, the program sees the same. -/
theorem view_fillUtf8 (h : Alike key key') :
    (if key.type = .unicode then Termkey.fillUtf8 key else key).view
      = (if key'.type = .unicode then Termkey.fillUtf8 key' else key').view := by
  have htype : ∀ key : TermKeyKey, (Termkey.fillUtf8 key).type = key.type := fun _ ↦ rfl
  have hcode : ∀ key : TermKeyKey, (Termkey.fillUtf8 key).code = key.code := fun _ ↦ rfl
  have hmod : ∀ key : TermKeyKey, (Termkey.fillUtf8 key).modifiers = key.modifiers := fun _ ↦ rfl
  rw [← h.type]
  by_cases hu : key.type = .unicode
  · obtain ⟨rest, hrest⟩ := fillUtf8_utf8 h.utf8.1
    obtain ⟨rest', hrest'⟩ := fillUtf8_utf8 h.utf8.2
    have htake : ∀ s t : List UInt8, (s ++ 0 :: t).takeWhile (· ≠ 0) = s.takeWhile (· ≠ 0) := by
      intro s t
      induction s with
      | nil => simp
      | cons c s ih => simp only [List.cons_append, List.takeWhile_cons, ih]
    rw [if_pos hu, if_pos hu]
    simp only [view, htype, hcode, hmod, hrest, hrest', htake, ← h.type, if_pos hu, h.code hu,
      h.modifiers]
  · rw [if_neg hu, if_neg hu]
    simp only [view, ← h.type, if_neg hu, h.sym, h.modifiers]

end Alike

end TermKeyKey

open TermKeyKey in
theorem emitC0_alike (flags : TermKeyFlags) (codepoint : BitVec 64) {key key' : TermKeyKey}
    (h : key.utf8.length = 7) (h' : key'.utf8.length = 7) :
    Alike (emitC0 flags codepoint key) (emitC0 flags codepoint key') := by
  have hkey : ∀ {k k' : TermKeyKey}, k.sym = k'.sym → k.modifiers = k'.modifiers →
      k.utf8.length = 7 ∧ k'.utf8.length = 7 →
      Alike (if k.sym = 0 then
        { k with
          type := .unicode
          code := if (0x41 : BitVec 64).sle (codepoint + 0x40) ∧ (codepoint + 0x40).sle 0x5a then
            codepoint + 0x60 else codepoint + 0x40
          modifiers := keymodCtrl } else { k with type := .keysym })
      (if k'.sym = 0 then
        { k' with
          type := .unicode
          code := if (0x41 : BitVec 64).sle (codepoint + 0x40) ∧ (codepoint + 0x40).sle 0x5a then
            codepoint + 0x60 else codepoint + 0x40
          modifiers := keymodCtrl } else { k' with type := .keysym }) := by
    intro k k' hsym hmod hlen
    rw [← hsym]
    split
    · exact ⟨rfl, rfl, rfl, fun _ ↦ rfl, hlen⟩
    · exact ⟨rfl, hmod, hsym, fun hk ↦ (by cases hk), hlen⟩
  unfold emitC0
  cases flags.nointerpret with
  | true => exact hkey rfl rfl ⟨h, h'⟩
  | false => exact hkey ((sym_setSym _ _).trans (sym_setSym _ _).symm) rfl ⟨h, h'⟩

open TermKeyKey in
theorem emitCases_alike (flags : TermKeyFlags) (codepoint : BitVec 64) {key key' : TermKeyKey}
    (h : key.utf8.length = 7) (h' : key'.utf8.length = 7) :
    emitCases flags codepoint key = none ∧ emitCases flags codepoint key' = none ∨
      ∃ k k', emitCases flags codepoint key = some k ∧ emitCases flags codepoint key' = some k' ∧
        Alike k k' := by
  have hkeysym : ∀ (sym modifiers : BitVec 32),
      Alike { key.setSym sym with type := .keysym, modifiers }
        { key'.setSym sym with type := .keysym, modifiers } := fun sym modifiers ↦
    ⟨rfl, rfl, (sym_setSym key sym).trans (sym_setSym key' sym).symm, fun hk ↦
    (by cases hk), ⟨h, h'⟩⟩
  have hchar : ∀ (code : BitVec 64) (modifiers : BitVec 32),
      Alike { key with type := .unicode, code, modifiers }
        { key' with type := .unicode, code, modifiers } := fun _ _ ↦
    ⟨rfl, rfl, rfl, fun _ ↦ rfl, ⟨h, h'⟩⟩
  unfold emitCases
  split
  · exact .inr ⟨_, _, rfl, rfl, hkeysym _ _⟩
  split
  · split
    · exact .inl ⟨rfl, rfl⟩
    · exact .inr ⟨_, _, rfl, rfl, emitC0_alike flags codepoint h h'⟩
  split
  · exact .inr ⟨_, _, rfl, rfl, hkeysym _ _⟩
  split
  · exact .inr ⟨_, _, rfl, rfl, hchar _ _⟩
  split
  · exact .inr ⟨_, _, rfl, rfl, hchar _ _⟩
  · exact .inr ⟨_, _, rfl, rfl, hchar _ _⟩

namespace TermKeyKey

/-- Keys that the program cannot tell from each other, and their texts have room for six bytes. -/
structure Looks (key key' : TermKeyKey) : Prop where
  view : key.view = key'.view
  left : key.utf8.length = 7
  right : key'.utf8.length = 7

theorem view_eq_of_sym {key key' : TermKeyKey} (htype : key.type = key'.type)
    (hsym : key.sym = key'.sym)
    (hmod : key.modifiers = key'.modifiers) (hu : key.type ≠ .unicode) : key.view = key'.view := by
  simp only [view, ← htype, if_neg hu, hsym, hmod]

variable {key key' : TermKeyKey}

/-- A modifier is added to what has been there. -/
theorem Looks.orModifiers (h : Looks key key') (modifiers : BitVec 32) :
    Looks { key with modifiers := key.modifiers ||| modifiers }
      { key' with modifiers := key'.modifiers ||| modifiers } where
  view := by
    have hview := h.view
    simp only [TermKeyKey.view, KeyView.mk.injEq] at hview ⊢
    refine ⟨hview.1, hview.2.1, ?_, hview.2.2.2⟩
    have hmod := hview.2.2.1
    rw [← hview.1] at hmod ⊢
    split
    · rfl
    · next hno =>
      rw [if_neg hno, if_neg hno] at hmod
      rw [hmod]
  left := h.left
  right := h.right

end TermKeyKey

open TermKeyKey in
/-- **What the program sees of the key for a codepoint** does not depend on what the key held. -/
theorem emitCodepoint_looks (flags : TermKeyFlags) (codepoint : BitVec 64) {key key' : TermKeyKey}
    (h : key.utf8.length = 7) (h' : key'.utf8.length = 7) :
    emitCodepoint flags codepoint key = none ∧ emitCodepoint flags codepoint key' = none ∨
      ∃ k k', emitCodepoint flags codepoint key = some k ∧
        emitCodepoint flags codepoint key' = some k' ∧ Looks k k' ∧ k.sym = k'.sym ∧
          k.modifiers = k'.modifiers := by
  obtain ⟨hnone, hnone'⟩ | ⟨k, k', hk, hk', halike⟩ := emitCases_alike flags codepoint h h'
  · exact .inl ⟨by rw [emitCodepoint, hnone]; rfl, by rw [emitCodepoint, hnone']; rfl⟩
  · have hcanon := halike.canonicalise flags
    refine .inr ⟨_, _, by rw [emitCodepoint, hk]; rfl, by rw [emitCodepoint, hk']; rfl,
      ⟨hcanon.view_fillUtf8, ?_, ?_⟩, ?_, ?_⟩
    · split
      · rw [length_fillUtf8]
        exact hcanon.utf8.1
      · exact hcanon.utf8.1
    · split
      · rw [length_fillUtf8]
        exact hcanon.utf8.2
      · exact hcanon.utf8.2
    · rw [← hcanon.type]
      split <;> exact hcanon.sym
    · rw [← hcanon.type]
      split <;> exact hcanon.modifiers

/-- The codepoints that have no key. -/
theorem emitCodepoint_eq_none_iff {flags : TermKeyFlags} {codepoint : BitVec 64}
    {key : TermKeyKey} :
    emitCodepoint flags codepoint key = none ↔ codepoint.slt 0 ∧ flags.nointerpret = false := by
  have hcases : emitCases flags codepoint key = none ↔ codepoint.slt 0 ∧ flags.nointerpret =
    false := by
    have hneg : codepoint.slt 0 = true → codepoint ≠ 0 ∧ codepoint.slt 0x20 = true := by
      intro h
      rw [BitVec.slt, decide_eq_true_iff] at h ⊢
      refine ⟨?_, ?_⟩
      · rintro rfl
        exact absurd h (by decide)
      · exact h.trans (by decide)
    rw [emitCases]
    split
    · next h0 => exact iff_of_false (by simp) fun h ↦ (hneg h.1).1 h0
    split
    · split
      · next h => exact iff_of_true rfl (by simpa using h)
      · next h => exact iff_of_false (by simp) (by simpa using h)
    · next hge =>
      refine iff_of_false ?_ fun h ↦ hge (hneg h.1).2
      split
      · simp
      · split
        · simp
        · split <;> simp
  rw [emitCodepoint, Option.bind_eq_bind, ← hcases]
  cases emitCases flags codepoint key with
  | none => simp
  | some k => simp

end Rustyaxe.Termkey
