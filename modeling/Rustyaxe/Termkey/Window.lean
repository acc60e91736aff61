import Rustyaxe.Termkey.CsiDriver
import Rustyaxe.Termkey.Terminfo

/-!
# The key at the start of a window

`peekkey` and `peekkey_simple` of `termkey.c`, for what they say of their window: the drivers are
asked in turn, and if none of them has an answer the first byte or character is a key.

What is said does not depend on what the key has held (`peekWindow_same`).  A key that has been
read is not read differently when more input comes (`peekWindow_cases`), if the driver for the
terminal database waits only where the other one does, which is what a terminal is expected to
have it do.
-/

set_option autoImplicit false

namespace Rustyaxe.Termkey

open TermKeyKey PrefixCode Trie

/-! ## Asking for a key -/

/-- The loop of `peekkey` over the drivers: `TERMKEY_RES_NONE` is what sends it to
`peekkey_simple`. -/
def peekDrivers (flags : TermKeyFlags) (root : Trie KeyInfo) (closed force : Bool)
    (w behind : List UInt8) (p : Peeked) : Option (TermKeyResult × Peeked) := do
  let (ti, p) ← peekkeyTi root closed force w p
  if ti = .key ∨ ti = .eof ∨ ti = .error then return (ti, p)
  let (csi, p) ← peekkeyCsiDriver flags closed force w behind p
  if csi = .key ∨ csi = .eof ∨ csi = .error then return (csi, p)
  return (if (ti = .again ∨ csi = .again) ∧ ¬ force then .again else .none, p)

/-- `key->utf8`, for a byte that is not read as a character. -/
def rawKey (b : UInt8) (key : TermKeyKey) : TermKeyKey where
  type := .unicode
  code := b.toBitVec.setWidth 64
  modifiers := 0
  utf8 := (key.utf8.set 0 b).set 1 0

/-- The key for a codepoint is written. -/
def emitPeeked (flags : TermKeyFlags) (r : TermKeyResult) (codepoint nbytes : ℕ) (key : TermKeyKey)
    (p : Peeked) : Option (TermKeyResult × Peeked) := do
  let key ← emitCodepoint flags (BitVec.ofNat 64 codepoint) key
  return (r, { p with key, nbytes })

/-- `peekkey_simple`, when the window does not begin with an escape. -/
def peekkeyPlain (flags : TermKeyFlags) (force : Bool) (b0 : UInt8) (rest : List UInt8)
    (p : Peeked) : Option (TermKeyResult × Peeked) :=
  if b0 < 0xa0 then emitPeeked flags .key b0.toNat 1 p.key p
  else if flags.utf8 then
    let key := { p.key with type := .unicode, modifiers := 0 }
    match parseUtf8 b0 rest with
    | .key cp nbytes => emitPeeked flags .key cp nbytes key p
    | .again cp =>
      if force then emitPeeked flags .key utf8Invalid (rest.length + 1) key p
      else emitPeeked flags .again cp p.nbytes key p
  else some (.key, { p with key := rawKey b0 p.key, nbytes := 1 })

/-- The key after an escape is the one with a modifier. -/
def altKey (r : TermKeyResult) (p : Peeked) : Peeked :=
  if r = .key then
    { p with
      key := { p.key with modifiers := p.key.modifiers ||| keymodAlt }
      nbytes := p.nbytes + 1 }
  else p

/-- `peekkey` and `peekkey_simple` -/
def peekWindow (flags : TermKeyFlags) (root : Trie KeyInfo) (closed force : Bool)
    (behind : List UInt8) : List UInt8 → Peeked → Option (TermKeyResult × Peeked)
  | [], p => some (if closed then .eof else .none, p)
  | b0 :: rest, p => do
    let (r, p) ← peekDrivers flags root closed force (b0 :: rest) behind p
    if r ≠ .none then return (r, p)
    if b0 = 0x1b then
      if rest = [] then
        if force then emitPeeked flags .key 0x1b 1 p.key p else return (.again, p)
      else
        let (r, p) ← peekWindow flags root closed force behind rest p
        return (r, altKey r p)
    else peekkeyPlain flags force b0 rest p

/-- The keys of the terminal database are none for characters. -/
def Proper (root : Trie KeyInfo) : Prop :=
  ∀ w info n, walk root w 0 = some (.word info n) → info.type ≠ .unicode

/-- The driver for the terminal database waits only where the driver for control sequences does,
or behind an escape. -/
def Settled (flags : TermKeyFlags) (root : Trie KeyInfo) : Prop :=
  ∀ w behind, w ≠ [] → w ≠ [0x1b] → ∀ p q, peekkeyTi root false false w p = some (.again, q) →
    ∃ q, peekkeyCsiDriver flags false false w behind p = some (.again, q)

/-! ## What does not depend on what the key held -/

variable {flags : TermKeyFlags} {root : Trie KeyInfo} {closed force : Bool} {p p' q : Peeked}
  {r : TermKeyResult} {w behind : List UInt8}

theorem peekkeyTi_same (hproper : Proper root) (h : p.Like p') :
    SameOutcome (peekkeyTi root closed force w p) (peekkeyTi root closed force w p') := by
  unfold peekkeyTi
  split
  · split <;> exact h.same (by simp)
  cases hwalk : walk root w 0 with
  | none => exact .none
  | some ans =>
    simp only [Option.bind_eq_bind, Option.bind_some]
    cases ans with
    | more =>
      cases force with
      | true => exact h.same (by simp)
      | false => exact h.same (by simp)
    | miss => exact h.same (by simp)
    | word info n =>
      dsimp only
      split
      · exact peekkeyMouseAfter_same n w h
      · have hlooks :
          Looks { p.key.setSym info.sym with type := info.type, modifiers := info.modifierSet }
            { p'.key.setSym info.sym with type := info.type, modifiers := info.modifierSet } := by
          refine .of_sym rfl ?_ rfl (hproper w info n hwalk) h.left h.right
          exact (sym_setSym p.key info.sym).trans (sym_setSym p'.key info.sym).symm
        exact h.withKey hlooks n

/-- The outcomes of two steps, one after the other. -/
theorem SameOutcome.bind {o o' : Option (TermKeyResult × Peeked)} (h : SameOutcome o o')
    {f : TermKeyResult × Peeked → Option (TermKeyResult × Peeked)}
    (hf : ∀ r q q', q.Like q' → (r = .key → q.key.view = q'.key.view ∧ q.nbytes = q'.nbytes) →
      SameOutcome (f (r, q)) (f (r, q'))) : SameOutcome (o.bind f) (o'.bind f) := by
  cases h with
  | none => exact .none
  | some hlike hkey => exact hf _ _ _ hlike hkey

theorem peekDrivers_same (hproper : Proper root) (h : p.Like p') :
    SameOutcome (peekDrivers flags root closed force w behind p)
      (peekDrivers flags root closed force w behind p') := by
  refine (peekkeyTi_same hproper h).bind fun ti q q' hlike hkey ↦ ?_
  dsimp only
  split
  · exact .some hlike hkey
  · refine (peekkeyCsiDriver_same closed force w behind hlike).bind fun csi q q' hlike hkey ↦ ?_
    dsimp only
    split
    · exact .some hlike hkey
    · split <;> exact .some hlike fun hr ↦ by cases hr

theorem emitPeeked_same (r : TermKeyResult) (codepoint n : ℕ) {n' : ℕ} (hn : r = .key → n = n')
    {key key' : TermKeyKey} (hkey : key.utf8.length = 7) (hkey' : key'.utf8.length = 7)
    (h : p.Like p') :
    SameOutcome (emitPeeked flags r codepoint n key p)
      (emitPeeked flags r codepoint n' key' p') := by
  unfold emitPeeked
  obtain ⟨hnone, hnone'⟩ | ⟨k, k', hk, hk', hlooks, -⟩ :=
    emitCodepoint_looks flags (BitVec.ofNat 64 codepoint) hkey hkey'
  · rw [hnone, hnone']
    exact .none
  · rw [hk, hk']
    exact .some ⟨hlooks.left, hlooks.right, h.hightide, h.savedStringId, h.savedString⟩ fun hr ↦
      ⟨hlooks.view, hn hr⟩

theorem rawKey_looks {b : UInt8} (hb : b ≠ 0) {key key' : TermKeyKey} (h : key.utf8.length = 7)
    (h' : key'.utf8.length = 7) : Looks (rawKey b key) (rawKey b key') := by
  have htext : ∀ {l : List UInt8}, l.length = 7 →
      ((l.set 0 b).set 1 0).takeWhile (· ≠ 0) = [b] := by
    rintro (_ | ⟨c, _ | ⟨d, l⟩⟩) hl
    · cases hl
    · cases hl
    · simp [hb]
  refine ⟨?_, by simp [rawKey, h], by simp [rawKey, h']⟩
  simp only [TermKeyKey.view, rawKey, htext h, htext h', if_true]
  rfl

theorem peekkeyPlain_same {b0 : UInt8} {rest : List UInt8} (h : p.Like p') :
    SameOutcome (peekkeyPlain flags force b0 rest p) (peekkeyPlain flags force b0 rest p') := by
  unfold peekkeyPlain
  split
  · exact emitPeeked_same _ _ _ (fun _ ↦ rfl) h.left h.right h
  · next hge =>
    split
    · dsimp only
      split
      · exact emitPeeked_same _ _ _ (fun _ ↦ rfl) h.left h.right h
      · split
        · exact emitPeeked_same _ _ _ (fun _ ↦ rfl) h.left h.right h
        · exact emitPeeked_same _ _ _ (fun hr ↦ by cases hr) h.left h.right h
    · refine h.withKey (rawKey_looks ?_ h.left h.right) 1
      rintro rfl
      exact hge (by decide)

/-- **What is said of a window** does not depend on what the key has held. -/
theorem peekWindow_same (hproper : Proper root) (h : p.Like p') :
    SameOutcome (peekWindow flags root closed force behind w p)
      (peekWindow flags root closed force behind w p') := by
  induction w generalizing p p' with
  | nil =>
    rw [peekWindow, peekWindow]
    split <;> exact h.same (by simp)
  | cons b0 rest ih =>
    rw [peekWindow, peekWindow]
    refine (peekDrivers_same hproper h).bind fun r q q' hlike hkey ↦ ?_
    dsimp only
    split
    · exact .some hlike hkey
    split
    · split
      · split
        · exact emitPeeked_same _ _ _ (fun _ ↦ rfl) hlike.left hlike.right hlike
        · exact hlike.same (by simp)
      · refine (ih hlike).bind fun r q q' hlike hkey ↦ ?_
        unfold altKey
        dsimp only
        split
        · next hr =>
          obtain ⟨hview, hn⟩ := hkey hr
          have hlooks := Looks.orModifiers ⟨hview, hlike.left, hlike.right⟩ keymodAlt
          exact .some ⟨hlooks.left, hlooks.right, hlike.hightide, hlike.savedStringId,
            hlike.savedString⟩ fun _ ↦ ⟨hlooks.view, congrArg (· + 1) hn⟩
        · exact .some hlike hkey
    · exact peekkeyPlain_same hlike

/-! ## The driver for the terminal database -/

/-- **What the driver for the terminal database says**: a key, which more input does not change;
that it waits; or that there is none, which more input does not change either, unless it has been
forced. -/
theorem peekkeyTi_cases (hw : w ≠ []) (hp : p.hightide = 0)
    (h : peekkeyTi root closed force w p = some (r, q)) :
    (r = .key ∧ Fits w p r q ∧ Untouched p q ∧
        ∀ v, peekkeyTi root closed force (w ++ v) p = some (r, q)) ∨
      (r = .again ∧ q = p) ∨
        (r = .none ∧ q = p ∧
          (force = false → ∀ v, peekkeyTi root closed force (w ++ v) p = some (r, q))) := by
  rw [peekkeyTi] at h
  rw [if_neg hw] at h
  obtain ⟨ans, hwalk, h⟩ := Option.bind_eq_some_iff.mp h
  have hnil : ∀ v, w ++ v ≠ [] := fun v h ↦ hw (List.append_eq_nil_iff.mp h).1
  cases ans with
  | word info n =>
    obtain ⟨hpos, hle⟩ := walk_word hwalk
    rw [Nat.zero_add] at hle
    dsimp only at h
    split at h
    · next hmouse =>
      have hout := Option.some.inj h
      rcases peekkeyMouseAfter_cases n w p with hkey | hagain
      · have hfits := peekkeyMouseAfter_fits (n := n) (w := w) hp
        have huntouched := peekkeyMouseAfter_untouched n w p
        rw [hout] at hkey hfits huntouched
        refine .inl ⟨hkey, hfits, huntouched, fun v ↦ ?_⟩
        rw [peekkeyTi]
        rw [if_neg (hnil v), walk_append hwalk (by simp) v, Option.bind_eq_bind, Option.bind_some]
        dsimp only
        rw [if_pos hmouse, peekkeyMouseAfter_append (by rw [hout]; exact hkey) v, hout]
        rfl
      · rw [hagain] at hout
        obtain ⟨rfl, rfl⟩ := Prod.mk.inj hout
        exact .inr (.inl ⟨rfl, rfl⟩)
    · next hmouse =>
      obtain ⟨rfl, rfl⟩ := Prod.mk.inj (Option.some.inj h)
      refine .inl ⟨rfl, ⟨fun _ ↦ ⟨hpos, ?_⟩, fun hr ↦ absurd rfl hr⟩, ⟨rfl, rfl, rfl⟩, fun v ↦ ?_⟩
      · show n + p.hightide ≤ w.length
        omega
      · rw [peekkeyTi]
        rw [if_neg (hnil v), walk_append hwalk (by simp) v, Option.bind_eq_bind, Option.bind_some]
        dsimp only
        rw [if_neg hmouse]
        rfl
  | more =>
    obtain ⟨hr, rfl⟩ := Prod.mk.inj (Option.some.inj h)
    cases force with
    | true => exact .inr (.inr ⟨hr.symm, rfl, fun hf ↦ by cases hf⟩)
    | false => exact .inr (.inl ⟨hr.symm, rfl⟩)
  | miss =>
    obtain ⟨rfl, rfl⟩ := Prod.mk.inj (Option.some.inj h)
    refine .inr (.inr ⟨rfl, rfl, fun _ v ↦ ?_⟩)
    rw [peekkeyTi]
    rw [if_neg (hnil v), walk_append hwalk (by simp) v]
    rfl

theorem peekkeyTi_exists (htotal : ∀ w, (walk root w 0).isSome) (w : List UInt8) :
    ∃ o, peekkeyTi root closed force w p = some o := by
  obtain ⟨ans, hwalk⟩ := Option.isSome_iff_exists.mp (htotal w)
  rw [peekkeyTi]
  split
  · exact ⟨_, rfl⟩
  rw [hwalk, Option.bind_eq_bind, Option.bind_some]
  cases ans with
  | word info n =>
    dsimp only
    split <;> exact ⟨_, rfl⟩
  | _ => exact ⟨_, rfl⟩

/-- Being forced makes no difference to the driver if it has not waited, and none to its state. -/
theorem peekkeyTi_force (hw : w ≠ []) (h : peekkeyTi root closed false w p = some (r, q)) :
    (r ≠ .again → peekkeyTi root closed true w p = some (r, q)) ∧
      (r = .again →
        ∃ r', peekkeyTi root closed true w p = some (r', p) ∧ (r' = .none ∨ r' = .again)) := by
  rw [peekkeyTi] at h ⊢
  rw [if_neg hw] at h ⊢
  obtain ⟨ans, hwalk, h⟩ := Option.bind_eq_some_iff.mp h
  rw [hwalk, Option.bind_eq_bind, Option.bind_some]
  cases ans with
  | word info n =>
    refine ⟨fun _ ↦ h, fun hr ↦ ?_⟩
    subst hr
    dsimp only at h ⊢
    split at h
    · rcases peekkeyMouseAfter_cases n w p with hkey | hagain
      · rw [Option.some.inj h] at hkey
        cases hkey
      · rename_i hmouse
        rw [if_pos hmouse, hagain]
        exact ⟨_, rfl, .inr rfl⟩
    · cases h
  | more =>
    exact ⟨fun hr ↦ absurd (Prod.mk.inj (Option.some.inj h)).1.symm hr,
      fun _ ↦ ⟨_, rfl, .inl rfl⟩⟩
  | miss =>
    obtain ⟨rfl, rfl⟩ := Prod.mk.inj (Option.some.inj h)
    exact ⟨fun _ ↦ rfl, fun hr ↦ by cases hr⟩

/-! ## The drivers -/

/-- The bytes behind an escape with which the introducer of a sequence is complete. -/
def IsIntroducer (c : UInt8) : Prop := c = 0x4f ∨ c = 0x50 ∨ c = 0x5d ∨ c = 0x5b

/-- What a driver that was asked first and another one after it say together. -/
theorem peekDrivers_of_ti {q' : Peeked} {ti csi : TermKeyResult}
    (hti : peekkeyTi root closed force w p = some (ti, q)) (hne : ti = .none ∨ ti = .again)
    (hcsi : peekkeyCsiDriver flags closed force w behind q = some (csi, q'))
    (hresult : csi = .key ∨ csi = .again ∨ csi = .none) :
    peekDrivers flags root closed force w behind p = some
      (if csi = .key then .key
        else if (ti = .again ∨ csi = .again) ∧ ¬ force then .again else .none, q') := by
  rw [peekDrivers]
  rw [hti, Option.bind_eq_bind, Option.bind_some]
  rcases hne with rfl | rfl <;> rcases hresult with rfl | rfl | rfl <;> simp [hcsi]

theorem peekDrivers_of_key (hti : peekkeyTi root closed force w p = some (.key, q)) :
    peekDrivers flags root closed force w behind p = some (.key, q) := by
  rw [peekDrivers]
  rw [hti]
  rfl

/-- The drivers do not touch their state when they have no answer. -/
theorem peekDrivers_none (hw : w ≠ []) (hp : p.hightide = 0)
    (h : peekDrivers flags root closed force w behind p = some (.none, q)) : Untouched p q := by
  obtain ⟨⟨ti, q1⟩, hti, h⟩ := Option.bind_eq_some_iff.mp h
  have hti' : Untouched p q1 ∧ (ti = .again ∨ ti = .none ∨ ti = .key) := by
    rcases peekkeyTi_cases hw hp hti with ⟨rfl, -, huntouched, -⟩ | ⟨rfl, rfl⟩ | ⟨rfl, rfl, -⟩
    · exact ⟨huntouched, .inr (.inr rfl)⟩
    · exact ⟨.refl q1, .inl rfl⟩
    · exact ⟨.refl q1, .inr (.inl rfl)⟩
  dsimp only at h
  split at h
  · next hkey =>
    obtain ⟨rfl, rfl⟩ := Prod.mk.inj (Option.some.inj h)
    exact hti'.1
  · obtain ⟨⟨csi, q2⟩, hcsi, h⟩ := Option.bind_eq_some_iff.mp h
    have hfits := peekkeyCsiDriver_fits hw (hti'.1.hightide.trans hp) hcsi
    dsimp only at h
    split at h
    · next hkey =>
      obtain ⟨rfl, rfl⟩ := Prod.mk.inj (Option.some.inj h)
      exact hti'.1.trans (hfits.other (by simp))
    · next hkey =>
      obtain ⟨-, rfl⟩ := Prod.mk.inj (Option.some.inj h)
      exact hti'.1.trans (hfits.other fun hr ↦ hkey (.inl hr))

/-- An escape alone is nothing to the driver for control sequences. -/
theorem peekkeyCsiDriver_esc : peekkeyCsiDriver flags closed force [0x1b] behind p =
    some (.none, p) := rfl

/-- What the drivers say of a window: a key, which more input does not change; that they wait, and
then the state is the same if they are forced; or that there is none, which more input does not
change unless there is only an escape. -/
inductive DriversRead (flags : TermKeyFlags) (root : Trie KeyInfo) (behind w : List UInt8)
    (p : Peeked) : TermKeyResult → Peeked → Prop where
  | key {q : Peeked} : Fits w p .key q →
      (∀ v behind', 0 ∈ behind' →
        peekDrivers flags root false false (w ++ v) behind' p = some (.key, q)) →
      DriversRead flags root behind w p .key q
  | waits {q q' : Peeked} {r' : TermKeyResult} : Untouched p q →
      (∀ c rest, w = 0x1b :: c :: rest → IsIntroducer c) →
      peekDrivers flags root false true w behind p = some (r', q') → (r' = .key ∨ r' = .none) →
      Untouched p q' → DriversRead flags root behind w p .again q
  | none {q : Peeked} : Untouched p q →
      peekDrivers flags root false true w behind p = some (.none, q) →
      (w ≠ [0x1b] → ∀ v behind', 0 ∈ behind' →
        peekDrivers flags root false false (w ++ v) behind' p = some (.none, q)) →
      DriversRead flags root behind w p .none q

/-- The driver for control sequences waits. -/
theorem DriversRead.of_waits {q' : Peeked} {tif : TermKeyResult} (hw : w ≠ [])
    (hcsi : peekkeyCsiDriver flags false false w behind p = some (.again, q'))
    (htif : peekkeyTi root false true w p = some (tif, p)) (hne : tif = .none ∨ tif = .again) :
    q' = p ∧ DriversRead flags root behind w p .again p := by
  obtain ⟨rfl, r', q', hcsi', hr', huntouched⟩ := peekkeyCsiDriver_again hw hcsi
  refine ⟨rfl, .waits (.refl _) (fun c rest hw ↦ introducer_of_again (hw ▸ hcsi))
    (peekDrivers_of_ti htif hne hcsi' (hr'.imp_right .inl)) ?_ huntouched⟩
  rcases hr' with rfl | rfl
  · exact .inl rfl
  · exact .inr (by simp)

/-- The driver for the terminal database waits. -/
theorem DriversRead.of_tiWaits (hsettled : Settled flags root) (hw : w ≠ [])
    (hti : peekkeyTi root false false w p = some (.again, p))
    (h : peekDrivers flags root false false w behind p = some (r, q)) :
    DriversRead flags root behind w p r q := by
  obtain ⟨tif, htif, hne⟩ := (peekkeyTi_force hw hti).2 rfl
  by_cases hw1 : w = [0x1b]
  · subst hw1
    have hdrivers := peekDrivers_of_ti hti (.inr rfl)
      (@peekkeyCsiDriver_esc flags false false p behind) (.inr (.inr rfl))
    obtain ⟨rfl, rfl⟩ := Prod.mk.inj (Option.some.inj (h.symm.trans hdrivers))
    exact .waits (.refl q) (fun c rest hw ↦ by simp at hw)
      (peekDrivers_of_ti htif hne (@peekkeyCsiDriver_esc flags false true q behind)
        (.inr (.inr rfl))) (.inr (by simp)) (.refl q)
  · obtain ⟨q2, hcsi⟩ := hsettled w behind hw hw1 p p hti
    have hdrivers := peekDrivers_of_ti hti (.inr rfl) hcsi (.inr (.inl rfl))
    obtain ⟨rfl, rfl⟩ := Prod.mk.inj (Option.some.inj (h.symm.trans hdrivers))
    obtain ⟨rfl, hread⟩ := DriversRead.of_waits hw hcsi htif hne
    exact hread

/-- The driver for the terminal database has no key. -/
theorem DriversRead.of_tiNone (hw : w ≠ []) (hp : p.hightide = 0)
    (hti : peekkeyTi root false false w p = some (.none, p))
    (hmore : ∀ v, peekkeyTi root false false (w ++ v) p = some (.none, p))
    (h : peekDrivers flags root false false w behind p = some (r, q)) :
    DriversRead flags root behind w p r q := by
  have htif := (peekkeyTi_force hw hti).1 (by simp)
  obtain ⟨o, hti', hrest⟩ := Option.bind_eq_some_iff.mp h
  obtain rfl := Option.some.inj (hti.symm.trans hti')
  obtain ⟨⟨csi, q2⟩, hcsi, -⟩ := Option.bind_eq_some_iff.mp hrest
  have hresult := peekkeyCsiDriver_result hw hcsi
  have hdrivers := peekDrivers_of_ti hti (.inl rfl) hcsi hresult
  obtain ⟨rfl, rfl⟩ := Prod.mk.inj (Option.some.inj (h.symm.trans hdrivers))
  have hfits := peekkeyCsiDriver_fits hw hp hcsi
  rcases hresult with rfl | rfl | rfl
  · have hw1 : w ≠ [0x1b] := by
      rintro rfl
      rw [peekkeyCsiDriver_esc] at hcsi
      cases hcsi
    refine .key hfits fun v behind' hnul ↦ ?_
    exact peekDrivers_of_ti (hmore v) (.inl rfl)
      (peekkeyCsiDriver_append hw hw1 hcsi (by simp) v hnul) (.inl rfl)
  · obtain ⟨rfl, hread⟩ := DriversRead.of_waits hw hcsi htif (.inl rfl)
    exact hread
  · refine .none (hfits.other (by simp)) ?_ fun hw1 v behind' hnul ↦ ?_
    · exact peekDrivers_of_ti htif (.inl rfl) (peekkeyCsiDriver_force hw hcsi (by simp))
        (.inr (.inr rfl))
    · exact peekDrivers_of_ti (hmore v) (.inl rfl)
        (peekkeyCsiDriver_append hw hw1 hcsi (by simp) v hnul) (.inr (.inr rfl))

/-- **What the drivers say of a window**, if the terminal is settled. -/
theorem peekDrivers_cases (hsettled : Settled flags root) (hw : w ≠ []) (hp : p.hightide = 0)
    (h : peekDrivers flags root false false w behind p = some (r, q)) :
    DriversRead flags root behind w p r q := by
  obtain ⟨⟨ti, q1⟩, hti, hrest⟩ := Option.bind_eq_some_iff.mp h
  rcases peekkeyTi_cases hw hp hti with ⟨rfl, hfits, -, hkey⟩ | ⟨rfl, rfl⟩ | ⟨rfl, rfl, hnone⟩
  · obtain ⟨rfl, rfl⟩ := Prod.mk.inj (Option.some.inj hrest)
    exact .key hfits fun v _ _ ↦ peekDrivers_of_key (hkey v)
  · exact .of_tiWaits hsettled hw hti h
  · exact .of_tiNone hw hp hti (hnone rfl) h

/-- A key of the drivers has bytes in the window, and they change nothing else. -/
theorem peekDrivers_fits (hw : w ≠ []) (hp : p.hightide = 0)
    (h : peekDrivers flags root closed force w behind p = some (r, q)) : Fits w p r q := by
  obtain ⟨⟨ti, q1⟩, hti, hrest⟩ := Option.bind_eq_some_iff.mp h
  have hcsi : Untouched p q1 → ti ≠ .key → Fits w p r q := by
    intro huntouched hne
    dsimp only at hrest
    split at hrest
    · obtain ⟨rfl, rfl⟩ := Prod.mk.inj (Option.some.inj hrest)
      exact ⟨fun hr ↦ absurd hr hne, fun _ ↦ huntouched⟩
    obtain ⟨⟨csi, q2⟩, hcsi, hrest⟩ := Option.bind_eq_some_iff.mp hrest
    have hfits := peekkeyCsiDriver_fits hw (huntouched.hightide.trans hp) hcsi
    dsimp only at hrest
    split at hrest
    · obtain ⟨rfl, rfl⟩ := Prod.mk.inj (Option.some.inj hrest)
      exact ⟨hfits.key, fun hr ↦ huntouched.trans (hfits.other hr)⟩
    next hkey =>
    obtain ⟨rfl, rfl⟩ := Prod.mk.inj (Option.some.inj hrest)
    refine ⟨fun hr ↦ ?_, fun _ ↦ huntouched.trans (hfits.other fun hr ↦ hkey (.inl hr))⟩
    split at hr <;> cases hr
  rcases peekkeyTi_cases hw hp hti with ⟨rfl, hfits, -⟩ | ⟨rfl, rfl⟩ | ⟨rfl, rfl, -⟩
  · obtain ⟨rfl, rfl⟩ := Prod.mk.inj (Option.some.inj hrest)
    exact hfits
  · exact hcsi (.refl _) (by simp)
  · exact hcsi (.refl _) (by simp)

/-- What comes behind the window matters only where no `NUL` does. -/
theorem peekDrivers_behind (h : peekDrivers flags root closed force w behind p = some (r, q))
    {behind' : List UInt8} (hnul : 0 ∈ behind') :
    peekDrivers flags root closed force w behind' p = some (r, q) := by
  obtain ⟨⟨ti, q1⟩, hti, hrest⟩ := Option.bind_eq_some_iff.mp h
  rw [peekDrivers, hti]
  dsimp only at hrest ⊢
  rw [Option.bind_eq_bind, Option.bind_some]
  split at hrest
  · next hkey =>
    rw [if_pos hkey]
    exact hrest
  next hkey =>
  obtain ⟨⟨csi, q2⟩, hcsi, hrest⟩ := Option.bind_eq_some_iff.mp hrest
  rw [if_neg hkey, peekkeyCsiDriver_behind hcsi hnul]
  exact hrest

/-! ## The first byte or character -/

theorem emitPeeked_exists (flags : TermKeyFlags) (r : TermKeyResult) {codepoint : ℕ}
    (hc : codepoint < 2 ^ 63) (n : ℕ) (key : TermKeyKey) (p : Peeked) :
    ∃ q, emitPeeked flags r codepoint n key p = some (r, q) ∧ Untouched p q ∧ q.nbytes = n := by
  rw [emitPeeked]
  cases hemit : emitCodepoint flags (BitVec.ofNat 64 codepoint) key with
  | none =>
    have hneg := (emitCodepoint_eq_none_iff.mp hemit).1
    rw [BitVec.slt, decide_eq_true_iff, BitVec.toInt_ofNat',
      Int.bmod_eq_of_le (by omega) (by omega)] at hneg
    exact absurd hneg (Int.not_lt.mpr (Int.natCast_nonneg codepoint))
  | some k => exact ⟨_, rfl, ⟨rfl, rfl, rfl⟩, rfl⟩

/-- **What is said of the first byte or character**: a key, which more input does not change
unless it had to be given, or that the rest of the character has not come. -/
theorem peekkeyPlain_cases (flags : TermKeyFlags) (force : Bool) (b0 : UInt8) (rest : List UInt8)
    (p : Peeked) (hp : p.hightide = 0) :
    ∃ r q, peekkeyPlain flags force b0 rest p = some (r, q) ∧ Untouched p q ∧
      (r = .key ∧ Fits (b0 :: rest) p r q ∧
          (force = false → ∀ v, peekkeyPlain flags force b0 (rest ++ v) p = some (r, q)) ∨
        r = .again ∧ force = false) := by
  have hfits : ∀ {q : Peeked} {n : ℕ}, q.nbytes = n → 0 < n → n ≤ rest.length + 1 → Untouched p q →
      Fits (b0 :: rest) p .key q := by
    intro q n hq hpos hle huntouched
    refine ⟨fun _ ↦ ?_, fun hr ↦ absurd rfl hr⟩
    rw [hq, huntouched.hightide, hp, List.length_cons]
    exact ⟨hpos, hle⟩
  have hone : 1 ≤ rest.length + 1 := by omega
  unfold peekkeyPlain
  by_cases hlow : b0 < 0xa0
  · simp only [if_pos hlow]
    obtain ⟨q, hq, huntouched, hn⟩ := emitPeeked_exists flags .key
      (b0.toNat_lt.trans (by decide : 2 ^ 8 < 2 ^ 63)) 1 p.key p
    exact ⟨_, q, hq, huntouched, .inl ⟨rfl, hfits hn Nat.one_pos hone huntouched, fun _ _ ↦ hq⟩⟩
  simp only [if_neg hlow]
  cases flags.utf8 with
  | false =>
    refine ⟨_, _, rfl, ⟨rfl, rfl, rfl⟩,
      .inl ⟨rfl, hfits rfl Nat.one_pos hone ⟨rfl, rfl, rfl⟩, fun _ _ ↦ rfl⟩⟩
  | true =>
    simp only [if_true]
    cases hparse : parseUtf8 b0 rest with
    | key cp n =>
      obtain ⟨hpos, hle, -, hcp⟩ := parseUtf8_sound hparse
      have hlt : cp < 2 ^ 63 := by
        rcases hcp with rfl | hcp
        · decide
        · exact hcp.1.lt.trans (by decide)
      obtain ⟨q, hq, huntouched, hn⟩ := emitPeeked_exists flags .key hlt n
        { p.key with type := .unicode, modifiers := 0 } p
      refine ⟨_, q, hq, huntouched, .inl ⟨rfl, hfits hn hpos hle huntouched, fun _ v ↦ ?_⟩⟩
      simp only [parseUtf8_append hparse v, hq]
    | again cp =>
      dsimp only
      cases force with
      | true =>
        obtain ⟨q, hq, huntouched, hn⟩ := emitPeeked_exists flags .key
          (by decide : utf8Invalid < 2 ^ 63) (rest.length + 1)
          { p.key with type := .unicode, modifiers := 0 } p
        exact ⟨_, q, hq, huntouched,
          .inl ⟨rfl, hfits hn (Nat.succ_pos _) (Nat.le_refl _) huntouched, fun hf ↦ by cases hf⟩⟩
      | false =>
        obtain ⟨q, hq, huntouched, -⟩ :=
          emitPeeked_exists flags .again (parseUtf8_again_lt hparse) p.nbytes
          { p.key with type := .unicode, modifiers := 0 } p
        exact ⟨_, q, hq, huntouched, .inr ⟨rfl, rfl⟩⟩

/-! ## The whole window -/

/-- The drivers have a key, or wait. -/
theorem peekWindow_of_drivers {b0 : UInt8} {rest : List UInt8} (hr : r ≠ .none)
    (h : peekDrivers flags root closed force (b0 :: rest) behind p = some (r, q)) :
    peekWindow flags root closed force behind (b0 :: rest) p = some (r, q) := by
  rw [peekWindow, h]
  exact if_pos hr

/-- The drivers have no key. -/
theorem peekWindow_of_none {b0 : UInt8} {rest : List UInt8}
    (h : peekDrivers flags root closed force (b0 :: rest) behind p = some (.none, q)) :
    peekWindow flags root closed force behind (b0 :: rest) p =
      if b0 = 0x1b then
        if rest = [] then if force then emitPeeked flags .key 0x1b 1 q.key q else some (.again, q)
        else (peekWindow flags root closed force behind rest q).bind fun o ↦
          some (o.1, altKey o.1 o.2)
      else peekkeyPlain flags force b0 rest q := by
  rw [peekWindow, h]
  rfl

/-- A window that begins with an introducer's second byte is read whatever it is. -/
theorem peekWindow_introducer (htotal : ∀ w, (walk root w 0).isSome) {b0 : UInt8}
    (hb0 : IsIntroducer b0) (rest : List UInt8) (hp : p.hightide = 0) :
    ∃ r q, peekWindow flags root false true behind (b0 :: rest) p = some (r, q) ∧
      Untouched p q := by
  have hletter : b0 < 0x80 ∧ b0 ≠ 0x1b := by
    rcases hb0 with rfl | rfl | rfl | rfl <;> decide
  obtain ⟨⟨ti, q1⟩, hti⟩ := @peekkeyTi_exists root false true p htotal (b0 :: rest)
  have hcsi : ∀ q, peekkeyCsiDriver flags false true (b0 :: rest) behind q = some (.none, q) :=
    fun q ↦ peekkeyCsiDriver_letter hletter.1 hletter.2 rest
  obtain ⟨r, q, hplain, huntouched, -⟩ := peekkeyPlain_cases flags true b0 rest p hp
  have hgo : peekDrivers flags root false true (b0 :: rest) behind p = some (.none, p) →
      ∃ r q, peekWindow flags root false true behind (b0 :: rest) p = some (r, q) ∧
        Untouched p q := by
    intro hdrivers
    exact ⟨r, q, by rw [peekWindow_of_none hdrivers, if_neg hletter.2, hplain], huntouched⟩
  rcases peekkeyTi_cases (List.cons_ne_nil b0 rest) hp hti with
    ⟨rfl, -, huntouched', -⟩ | ⟨rfl, rfl⟩ | ⟨rfl, rfl, -⟩
  · exact ⟨.key, q1, peekWindow_of_drivers (by simp) (peekDrivers_of_key hti), huntouched'⟩
  · exact hgo (peekDrivers_of_ti hti (.inr rfl) (hcsi q1) (.inr (.inr rfl)))
  · exact hgo (peekDrivers_of_ti hti (.inl rfl) (hcsi q1) (.inr (.inr rfl)))

/-- The key behind an escape. -/
theorem altKey_fits {b0 : UInt8} {rest : List UInt8} (h : Fits rest p .key q) :
    Fits (b0 :: rest) p' .key (altKey .key q) := by
  obtain ⟨hpos, hle⟩ := h.key rfl
  refine ⟨fun _ ↦ ⟨Nat.succ_pos _, ?_⟩, fun hr ↦ absurd rfl hr⟩
  show q.nbytes + 1 + q.hightide ≤ rest.length + 1
  omega

theorem altKey_untouched (r : TermKeyResult) (q : Peeked) : Untouched q (altKey r q) := by
  rw [altKey]
  split <;> exact ⟨rfl, rfl, rfl⟩

/-- What is said of a window: a key, which more input does not change, or that the input is not
enough, and then being forced does not change the state of the drivers. -/
inductive WindowRead (flags : TermKeyFlags) (root : Trie KeyInfo) (behind w : List UInt8)
    (p : Peeked) : TermKeyResult → Peeked → Prop where
  | key {q : Peeked} : Fits w p .key q →
      (∀ v behind', 0 ∈ behind' →
        peekWindow flags root false false behind' (w ++ v) p = some (.key, q)) →
      WindowRead flags root behind w p .key q
  | waits {q q' : Peeked} {r' : TermKeyResult} : Untouched p q →
      peekWindow flags root false true behind w p = some (r', q') → Untouched p q' →
      WindowRead flags root behind w p .again q

/-- The drivers wait. -/
theorem WindowRead.of_waits (htotal : ∀ w, (walk root w 0).isSome) {b0 : UInt8} {rest : List UInt8}
    {q' : Peeked} {r' : TermKeyResult} (hp : p.hightide = 0) (huntouched : Untouched p q)
    (hintro : ∀ c rest', b0 :: rest = 0x1b :: c :: rest' → IsIntroducer c)
    (hforced : peekDrivers flags root false true (b0 :: rest) behind p = some (r', q'))
    (hr' : r' = .key ∨ r' = .none) (huntouched' : Untouched p q') :
    WindowRead flags root behind (b0 :: rest) p .again q := by
  rcases hr' with rfl | rfl
  · exact .waits huntouched (peekWindow_of_drivers (by simp) hforced) huntouched'
  have hp' : q'.hightide = 0 := huntouched'.hightide.trans hp
  have hstep := peekWindow_of_none hforced
  by_cases hesc : b0 = 0x1b
  · subst hesc
    rw [if_pos rfl] at hstep
    cases rest with
    | nil =>
      obtain ⟨q'', hq'', huntouched'', -⟩ :=
        emitPeeked_exists flags .key (by decide : 0x1b < 2 ^ 63) 1 q'.key q'
      exact .waits huntouched (hstep.trans hq'') (huntouched'.trans huntouched'')
    | cons c rest =>
      obtain ⟨r'', q'', hinner, huntouched''⟩ :=
        @peekWindow_introducer flags root q' behind htotal c (hintro c rest rfl) rest hp'
      rw [if_neg (List.cons_ne_nil c rest), hinner] at hstep
      exact .waits huntouched hstep
        ((huntouched'.trans huntouched'').trans (altKey_untouched r'' q''))
  · rw [if_neg hesc] at hstep
    obtain ⟨r'', q'', hplain, huntouched'', -⟩ := peekkeyPlain_cases flags true b0 rest q' hp'
    exact .waits huntouched (hstep.trans hplain) (huntouched'.trans huntouched'')

/-- The drivers have no key, and what is behind an escape is read. -/
theorem WindowRead.of_escape {rest : List UInt8} {q1 : Peeked} (hrest : rest ≠ [])
    (huntouched : Untouched p q1)
    (hforced : peekDrivers flags root false true (0x1b :: rest) behind p = some (.none, q1))
    (hmore : ∀ v behind', 0 ∈ behind' →
      peekDrivers flags root false false (0x1b :: rest ++ v) behind' p = some (.none, q1))
    (h : WindowRead flags root behind rest q1 r q) :
    WindowRead flags root behind (0x1b :: rest) p r (altKey r q) := by
  cases h with
  | key hfits hinner =>
    refine .key (altKey_fits hfits) fun v behind' hnul ↦ ?_
    have hrestv : rest ++ v ≠ [] := fun hnil ↦ hrest (List.append_eq_nil_iff.mp hnil).1
    have hstep : peekWindow flags root false false behind' (0x1b :: (rest ++ v)) p = _ :=
      peekWindow_of_none (hmore v behind' hnul)
    rw [List.cons_append, hstep, if_pos rfl, if_neg hrestv, hinner v behind' hnul]
    rfl
  | @waits _ q' r' huntouched' hinner huntouched'' =>
    have hstep := peekWindow_of_none hforced
    rw [if_pos rfl, if_neg hrest, hinner] at hstep
    exact .waits ((huntouched.trans huntouched').trans (altKey_untouched _ _)) hstep
      ((huntouched.trans huntouched'').trans (altKey_untouched r' q'))

/-- The drivers have no key, and the first byte or character is one. -/
theorem WindowRead.of_plain {b0 : UInt8} {rest : List UInt8} {q1 : Peeked} (hesc : b0 ≠ 0x1b)
    (hp : p.hightide = 0) (huntouched : Untouched p q1)
    (hforced : peekDrivers flags root false true (b0 :: rest) behind p = some (.none, q1))
    (hmore : ∀ v behind', 0 ∈ behind' →
      peekDrivers flags root false false (b0 :: rest ++ v) behind' p = some (.none, q1))
    (h : peekkeyPlain flags false b0 rest q1 = some (r, q)) :
    WindowRead flags root behind (b0 :: rest) p r q := by
  have hp1 : q1.hightide = 0 := huntouched.hightide.trans hp
  obtain ⟨r', q', hplain, huntouched', hcase⟩ := peekkeyPlain_cases flags false b0 rest q1 hp1
  obtain ⟨rfl, rfl⟩ := Prod.mk.inj (Option.some.inj (h.symm.trans hplain))
  rcases hcase with ⟨rfl, hfits, hmore'⟩ | ⟨rfl, -⟩
  · refine .key ⟨hfits.key, fun hr ↦ absurd rfl hr⟩ fun v behind' hnul ↦ ?_
    have hstep : peekWindow flags root false false behind' (b0 :: (rest ++ v)) p = _ :=
      peekWindow_of_none (hmore v behind' hnul)
    rw [List.cons_append, hstep, if_neg hesc, hmore' rfl v]
  · obtain ⟨r'', q'', hplain', huntouched'', -⟩ := peekkeyPlain_cases flags true b0 rest q1 hp1
    have hstep := peekWindow_of_none hforced
    rw [if_neg hesc, hplain'] at hstep
    exact .waits (huntouched.trans huntouched') hstep (huntouched.trans huntouched'')

/-- **What is said of a window**, if the terminal is settled. -/
theorem peekWindow_cases (htotal : ∀ w, (walk root w 0).isSome) (hsettled : Settled flags root)
    (hw : w ≠ []) (hp : p.hightide = 0)
    (h : peekWindow flags root false false behind w p = some (r, q)) :
    WindowRead flags root behind w p r q := by
  induction w generalizing p q r with
  | nil => exact absurd rfl hw
  | cons b0 rest ih =>
    have hpeek := h
    rw [peekWindow] at hpeek
    obtain ⟨⟨rd, q1⟩, hdrivers, hpeek⟩ := Option.bind_eq_some_iff.mp hpeek
    cases peekDrivers_cases hsettled hw hp hdrivers with
    | key hfits hmore =>
      obtain ⟨rfl, rfl⟩ := Prod.mk.inj (Option.some.inj hpeek)
      exact .key hfits fun v behind' hnul ↦
        peekWindow_of_drivers (by simp) (hmore v behind' hnul)
    | waits huntouched hintro hforced hr' huntouched' =>
      obtain ⟨rfl, rfl⟩ := Prod.mk.inj (Option.some.inj hpeek)
      exact .of_waits htotal hp huntouched hintro hforced hr' huntouched'
    | none huntouched hforced hmore =>
      rw [peekWindow_of_none hdrivers] at h
      by_cases hesc : b0 = 0x1b
      · subst hesc
        rw [if_pos rfl] at h
        by_cases hrest : rest = []
        · -- an escape alone is waited for, and is a key when one must be given
          rw [if_pos hrest, if_neg Bool.false_ne_true] at h
          obtain ⟨rfl, rfl⟩ := Prod.mk.inj (Option.some.inj h)
          exact .of_waits htotal hp huntouched (fun c rest' hw ↦ by simp [hrest] at hw) hforced
            (.inr rfl) huntouched
        · rw [if_neg hrest] at h
          obtain ⟨⟨ri, qi⟩, hinner, h⟩ := Option.bind_eq_some_iff.mp h
          obtain ⟨rfl, rfl⟩ := Prod.mk.inj (Option.some.inj h)
          exact .of_escape hrest huntouched hforced
            (hmore fun h ↦ hrest (List.cons.inj h).2)
            (ih hrest (huntouched.hightide.trans hp) hinner)
      · rw [if_neg hesc] at h
        exact .of_plain hesc hp huntouched hforced (hmore fun h ↦ hesc (List.cons.inj h).1) h

/-- **A key has bytes in the window**, and nothing else changes the state of the drivers. -/
theorem peekWindow_fits (hp : p.hightide = 0)
    (h : peekWindow flags root closed force behind w p = some (r, q)) : Fits w p r q := by
  induction w generalizing p q r with
  | nil =>
    obtain ⟨rfl, rfl⟩ := Prod.mk.inj (Option.some.inj h)
    exact fits_self _ (by split <;> simp)
  | cons b0 rest ih =>
    have hpeek := h
    rw [peekWindow] at hpeek
    obtain ⟨⟨rd, q1⟩, hdrivers, hpeek⟩ := Option.bind_eq_some_iff.mp hpeek
    have hfits := peekDrivers_fits (List.cons_ne_nil b0 rest) hp hdrivers
    by_cases hrd : rd = .none
    swap
    · rw [peekWindow_of_drivers hrd hdrivers] at h
      obtain ⟨rfl, rfl⟩ := Prod.mk.inj (Option.some.inj h)
      exact hfits
    subst hrd
    have huntouched : Untouched p q1 := hfits.other (by simp)
    have hp1 : q1.hightide = 0 := huntouched.hightide.trans hp
    rw [peekWindow_of_none hdrivers] at h
    split at h
    · split at h
      · split at h
        · obtain ⟨q', hq', huntouched', hn⟩ :=
            emitPeeked_exists flags .key (by decide : 0x1b < 2 ^ 63) 1 q1.key q1
          obtain ⟨rfl, rfl⟩ := Prod.mk.inj (Option.some.inj (hq'.symm.trans h))
          refine ⟨fun _ ↦ ?_, fun hr ↦ absurd rfl hr⟩
          rw [hn, huntouched'.hightide, hp1, List.length_cons]
          exact ⟨Nat.one_pos, by omega⟩
        · obtain ⟨rfl, rfl⟩ := Prod.mk.inj (Option.some.inj h)
          exact ⟨fun hr ↦ (by cases hr), fun _ ↦ huntouched⟩
      · obtain ⟨⟨ri, qi⟩, hinner, h⟩ := Option.bind_eq_some_iff.mp h
        obtain ⟨rfl, rfl⟩ := Prod.mk.inj (Option.some.inj h)
        have hfits := ih hp1 hinner
        refine ⟨fun hr ↦ ?_, fun hr ↦ ?_⟩
        · subst hr
          have halt : Fits (b0 :: rest) p .key (altKey .key qi) := altKey_fits hfits
          exact halt.key rfl
        · exact (huntouched.trans (hfits.other hr)).trans (altKey_untouched ri qi)
    · obtain ⟨r', q', hplain, huntouched', hcase⟩ :=
        peekkeyPlain_cases flags force b0 rest q1 hp1
      obtain ⟨rfl, rfl⟩ := Prod.mk.inj (Option.some.inj (hplain.symm.trans h))
      refine ⟨fun hr ↦ ?_, fun _ ↦ huntouched.trans huntouched'⟩
      rcases hcase with ⟨-, hfits, -⟩ | ⟨rfl, -⟩
      · exact hfits.key hr
      · cases hr

/-- What comes behind the window matters only where no `NUL` does. -/
theorem peekWindow_behind (h : peekWindow flags root closed force behind w p = some (r, q))
    {behind' : List UInt8} (hnul : 0 ∈ behind') :
    peekWindow flags root closed force behind' w p = some (r, q) := by
  induction w generalizing p q r with
  | nil => exact h
  | cons b0 rest ih =>
    have hpeek := h
    rw [peekWindow] at hpeek
    obtain ⟨⟨rd, q1⟩, hdrivers, hpeek⟩ := Option.bind_eq_some_iff.mp hpeek
    have hdrivers' := peekDrivers_behind hdrivers hnul
    by_cases hrd : rd = .none
    swap
    · rw [peekWindow_of_drivers hrd hdrivers] at h
      rw [peekWindow_of_drivers hrd hdrivers', h]
    subst hrd
    rw [peekWindow_of_none hdrivers] at h
    rw [peekWindow_of_none hdrivers']
    split at h
    · next hesc =>
      rw [if_pos hesc]
      split at h
      · next hrest => rw [if_pos hrest, h]
      · next hrest =>
        obtain ⟨⟨ri, qi⟩, hinner, h⟩ := Option.bind_eq_some_iff.mp h
        rw [if_neg hrest, ih hinner, ← h]
        rfl
    · next hesc => rw [if_neg hesc, h]

end Rustyaxe.Termkey
