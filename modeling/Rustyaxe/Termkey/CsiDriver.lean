import Rustyaxe.Termkey.Csi

/-!
# What the driver for control sequences says

For `peekkey` of `tui.driver-csi.c`: what it says does not depend on what the key has held
(`peekkeyCsiDriver_same`), a key has bytes in the window (`peekkeyCsiDriver_fits`), and more input
does not change it (`peekkeyCsiDriver_append`).
-/

set_option autoImplicit false

namespace Rustyaxe.Termkey

open TermKeyKey

/-! ## Parsing with more input -/

/-- A sequence that has been parsed ends in the window, and more input does not change it. -/
theorem parseCsi_some {cap introlen : ℕ} {w : List UInt8} {parse : CsiParse}
    (h : parseCsi cap introlen w = some (some parse)) :
    introlen < parse.len ∧ parse.len ≤ w.length ∧
      ∀ v, parseCsi cap introlen (w ++ v) = some (some parse) := by
  unfold parseCsi at h ⊢
  dsimp only at h ⊢
  cases hdrop : (w.drop introlen).dropWhile (!isFinal ·) with
  | nil => rw [hdrop] at h; cases h
  | cons cmd rest =>
    rw [hdrop] at h
    have hsplit : w.drop introlen = (w.drop introlen).takeWhile (!isFinal ·) ++ cmd :: rest := by
      rw [← hdrop, List.takeWhile_append_dropWhile]
    have hlen := congrArg List.length hsplit
    simp only [List.length_drop, List.length_append, List.length_cons] at hlen
    obtain ⟨⟨args, inter⟩, hargs, hparse⟩ := Option.map_eq_some_iff.mp h
    have hparselen : parse.len =
      introlen + ((w.drop introlen).takeWhile (!isFinal ·)).length + 1 := by
      rw [← Option.some.inj hparse]
    refine ⟨by omega, by omega, fun v ↦ ?_⟩
    have hne : (w.drop introlen).dropWhile (!isFinal ·) ≠ [] := by
      rw [hdrop]
      exact List.cons_ne_nil cmd rest
    have happ : ∀ (l : List UInt8), l.dropWhile (!isFinal ·) ≠ [] →
        (l ++ v).dropWhile (!isFinal ·) = l.dropWhile (!isFinal ·) ++ v ∧
          (l ++ v).takeWhile (!isFinal ·) = l.takeWhile (!isFinal ·) := by
      intro l hl
      induction l with
      | nil => exact absurd rfl hl
      | cons c l ih =>
        rw [List.cons_append, List.dropWhile_cons, List.dropWhile_cons, List.takeWhile_cons,
          List.takeWhile_cons]
        rw [List.dropWhile_cons] at hl
        split
        · next hc =>
          rw [if_pos hc] at hl
          rw [(ih hl).1, (ih hl).2]
          exact ⟨rfl, rfl⟩
        · exact ⟨rfl, rfl⟩
    rw [List.drop_append_of_le_length (by omega), (happ _ hne).1, (happ _ hne).2, hdrop,
      List.cons_append]
    exact h

/-! ## What does not depend on what the key held -/

variable {flags : TermKeyFlags} {p p' : Peeked}

theorem forcedKey_same (c : BitVec 64) (n : ℕ) (h : p.Like p') :
    SameOutcome (forcedKey flags c n p) (forcedKey flags c n p') := by
  unfold forcedKey
  obtain ⟨hnone, hnone'⟩ | ⟨k, k', hk, hk', hlooks, -⟩ := emitCodepoint_looks flags c h.left h.right
  · rw [hnone, hnone']
    exact .none
  · rw [hk, hk']
    exact h.withKey (hlooks.orModifiers keymodAlt) n

theorem peekkeyCsi_same (introlen : ℕ) (force : Bool) (w : List UInt8) (h : p.Like p') :
    SameOutcome (peekkeyCsi flags introlen force w p) (peekkeyCsi flags introlen force w p') := by
  unfold peekkeyCsi
  cases parseCsi 16 introlen w with
  | none => exact .none
  | some parse =>
    simp only [Option.bind_eq_bind, Option.bind_some]
    cases parse with
    | none =>
      dsimp only
      split
      · exact forcedKey_same _ _ h
      · exact h.same (by simp)
    | some parse =>
      dsimp only
      split
      · exact peekkeyMouseAfter_same _ _ h
      · have hsame := csiHandle_steady flags parse.command parse.args h.left h.right
        generalize csiHandle flags p.key parse.command parse.args = o at hsame ⊢
        generalize csiHandle flags p'.key parse.command parse.args = o' at hsame ⊢
        cases hsame with
        | none => exact .none
        | found hlooks => exact h.withKey hlooks _
        | lost hleft hright =>
          refine .some ⟨hleft, hright, rfl, h.savedStringId, h.savedString⟩ fun _ ↦ ⟨?_, rfl⟩
          exact view_eq_of_sym rfl ((sym_setSym _ _).trans (sym_setSym _ _).symm) rfl
            (by simp [unknownCsi])

theorem peekkeySs3_same (introlen : ℕ) (force : Bool) (w : List UInt8) (h : p.Like p') :
    SameOutcome (peekkeySs3 flags introlen force w p) (peekkeySs3 flags introlen force w p') := by
  unfold peekkeySs3
  split
  · split
    · exact forcedKey_same _ _ h
    · exact h.same (by simp)
  · next cmd _ =>
    split
    · exact h.same (by simp)
    · obtain ⟨hsym, hleft, hright, hlooks⟩ := ss3Key_looks flags cmd h.left h.right
      dsimp only
      rw [← hsym]
      split
      · exact .some ⟨hleft, hright, h.hightide, h.savedStringId, h.savedString⟩ fun hr ↦ by cases hr
      · next hne => exact h.withKey (hlooks hne) _

theorem peekkeyCtrlstring_same (introlen : ℕ) (w behind : List UInt8) (h : p.Like p') :
    SameOutcome (peekkeyCtrlstring introlen w behind p) (peekkeyCtrlstring introlen w behind p') := by
  unfold peekkeyCtrlstring
  split
  · exact h.same (by simp)
  split
  · unfold ctrlstringKey
    rw [h.savedStringId]
    refine .some ⟨h.left, h.right, h.hightide, rfl, rfl⟩ fun _ ↦ ⟨?_, rfl⟩
    refine view_eq_of_sym rfl ((sym_setSym _ _).trans (sym_setSym _ _).symm) rfl ?_
    dsimp only
    split <;> simp
  · exact .none

/-- **What the driver says** does not depend on what the key has held. -/
theorem peekkeyCsiDriver_same (closed force : Bool) (w behind : List UInt8) (h : p.Like p') :
    SameOutcome (peekkeyCsiDriver flags closed force w behind p)
      (peekkeyCsiDriver flags closed force w behind p') := by
  unfold peekkeyCsiDriver
  split
  · split <;> exact h.same (by simp)
  · split
    · split
      · exact h.same (by simp)
      · split
        · exact peekkeySs3_same _ _ _ h
        split
        · exact peekkeyCtrlstring_same _ _ _ h
        split
        · exact peekkeyCsi_same _ _ _ h
        · exact h.same (by simp)
    split
    · exact peekkeySs3_same _ _ _ h
    split
    · exact peekkeyCtrlstring_same _ _ _ h
    split
    · exact peekkeyCsi_same _ _ _ h
    · exact h.same (by simp)

/-! ## Control strings -/

/-- Where a control string ends, and that more input does not change it. -/
theorem ctrlstringEnd_some {l : List UInt8} {n : ℕ} (h : ctrlstringEnd l = some n) :
    (∃ c rest, l.drop n = c :: rest ∧ (c = 0x9c ∨ c = 0x1b ∧ rest.head? = some 0x5c)) ∧
      ∀ v, ctrlstringEnd (l ++ v) = some n := by
  induction l generalizing n with
  | nil => cases h
  | cons c l ih =>
    rw [ctrlstringEnd] at h
    split at h
    · next hend =>
      obtain rfl := Option.some.inj h
      refine ⟨⟨c, l, rfl, hend⟩, fun v ↦ ?_⟩
      rw [List.cons_append, ctrlstringEnd, if_pos]
      refine hend.imp_right fun h ↦ ⟨h.1, ?_⟩
      rw [List.head?_append, h.2]
      rfl
    · next hnot =>
      obtain ⟨m, hm, rfl⟩ := Option.map_eq_some_iff.mp h
      obtain ⟨hfound, hmore⟩ := ih hm
      refine ⟨by rwa [List.drop_succ_cons], fun v ↦ ?_⟩
      rw [List.cons_append, ctrlstringEnd, hmore, if_neg]
      · rfl
      cases l with
      | nil => cases hm
      | cons d l => exact hnot

/-- The end of a control string is one byte, or two. -/
theorem ctrlstring_bytes {introlen n : ℕ} {w : List UInt8}
    (h : ctrlstringEnd (w.drop introlen) = some n) :
    introlen + n + (if w[introlen + n]? = some 0x1b then 2 else 1) ≤ w.length := by
  obtain ⟨⟨c, rest, hdrop, hend⟩, -⟩ := ctrlstringEnd_some h
  rw [List.drop_drop] at hdrop
  have hget : w[introlen + n]? = some c := by
    rw [← List.head?_drop, hdrop]
    rfl
  have hlen := congrArg List.length hdrop
  simp only [List.length_drop, List.length_cons] at hlen
  rw [hget]
  split
  · next hc =>
    rcases hend with rfl | ⟨rfl, hhead⟩
    · cases hc
    · cases rest with
      | nil => cases hhead
      | cons d rest =>
        simp only [List.length_cons] at hlen
        omega
  · omega

/-! ## A key has bytes in the window -/

variable {w behind : List UInt8} {r : TermKeyResult} {q : Peeked} {introlen : ℕ} {force : Bool}

theorem fits_self (p : Peeked) (hr : r ≠ .key) : Fits w p r p :=
    ⟨fun h ↦ absurd h hr, fun _ ↦ ⟨rfl, rfl, rfl⟩⟩

/-- What is said when a key must be given for a sequence without an end. -/
theorem forcedKey_eq {c : BitVec 64} {n : ℕ} (h : forcedKey flags c n p = some (r, q)) :
    r = .key ∧ ∃ key, q = { p with key, nbytes := n } := by
  obtain ⟨key, -, hq⟩ := Option.bind_eq_some_iff.mp h
  obtain ⟨rfl, rfl⟩ := Prod.mk.inj (Option.some.inj hq)
  exact ⟨rfl, _, rfl⟩

theorem forcedKey_fits {c : BitVec 64} {n : ℕ} (hn : 0 < n ∧ n ≤ w.length) (hp : p.hightide = 0)
    (h : forcedKey flags c n p = some (r, q)) : Fits w p r q := by
  obtain ⟨rfl, key, rfl⟩ := forcedKey_eq h
  exact ⟨fun _ ↦ ⟨hn.1, by rw [hp]; exact hn.2⟩, fun h ↦ absurd rfl h⟩

theorem peekkeyCsi_fits (hintro : 0 < introlen ∧ introlen ≤ w.length) (hp : p.hightide = 0)
    (h : peekkeyCsi flags introlen force w p = some (r, q)) : Fits w p r q := by
  obtain ⟨parse, hparse, h⟩ := Option.bind_eq_some_iff.mp h
  cases parse with
  | none =>
    dsimp only at h
    split at h
    · exact forcedKey_fits hintro hp h
    · obtain ⟨rfl, rfl⟩ := Prod.mk.inj (Option.some.inj h)
      exact fits_self _ (by simp)
  | some parse =>
    obtain ⟨hlt, hle, -⟩ := parseCsi_some hparse
    dsimp only at h
    split at h
    · have hmouse := peekkeyMouseAfter_fits (n := parse.len) (w := w) hp
      rw [Option.some.inj h] at hmouse
      exact hmouse
    · obtain ⟨⟨found, key⟩, -, h⟩ := Option.bind_eq_some_iff.mp h
      cases found with
      | true =>
        obtain ⟨rfl, rfl⟩ := Prod.mk.inj (Option.some.inj h)
        refine ⟨fun _ ↦ ⟨Nat.zero_lt_of_lt hlt, ?_⟩, fun h ↦ absurd rfl h⟩
        show parse.len + p.hightide ≤ w.length
        omega
      | false =>
        obtain ⟨rfl, rfl⟩ := Prod.mk.inj (Option.some.inj h)
        refine ⟨fun _ ↦ ⟨hintro.1, ?_⟩, fun h ↦ absurd rfl h⟩
        show introlen + (parse.len - introlen) ≤ w.length
        omega

theorem peekkeySs3_fits (hintro : 0 < introlen ∧ introlen ≤ w.length) (hp : p.hightide = 0)
    (h : peekkeySs3 flags introlen force w p = some (r, q)) : Fits w p r q := by
  rw [peekkeySs3] at h
  split at h
  · split at h
    · exact forcedKey_fits ⟨by omega, Nat.le_refl _⟩ hp h
    · obtain ⟨rfl, rfl⟩ := Prod.mk.inj (Option.some.inj h)
      exact fits_self _ (by simp)
  · next cmd hcmd =>
    have hlt := (List.getElem?_eq_some_iff.mp hcmd).1
    dsimp only at h
    split at h
    · obtain ⟨rfl, rfl⟩ := Prod.mk.inj (Option.some.inj h)
      exact fits_self _ (by simp)
    · split at h
      · obtain ⟨rfl, rfl⟩ := Prod.mk.inj (Option.some.inj h)
        exact ⟨fun h ↦ (by cases h), fun _ ↦ ⟨rfl, rfl, rfl⟩⟩
      · obtain ⟨rfl, rfl⟩ := Prod.mk.inj (Option.some.inj h)
        refine ⟨fun _ ↦ ⟨Nat.succ_pos _, ?_⟩, fun h ↦ absurd rfl h⟩
        show introlen + 1 + p.hightide ≤ w.length
        omega

/-- The ways through `peekkey_ctrlstring`. -/
theorem peekkeyCtrlstring_cases (h : peekkeyCtrlstring introlen w behind p = some (r, q)) :
    (ctrlstringEnd (w.drop introlen) = none ∧ r = .again ∧ q = p) ∨
      ∃ len, ctrlstringEnd (w.drop introlen) = some len ∧ 0 ∈ w.drop introlen ++ behind ∧
        r = .key ∧ q = ctrlstringKey introlen len w p := by
  rw [peekkeyCtrlstring] at h
  split at h
  · next hend =>
    obtain ⟨rfl, rfl⟩ := Prod.mk.inj (Option.some.inj h)
    exact .inl ⟨hend, rfl, rfl⟩
  · next len hend =>
    split at h
    · next hnul =>
      obtain ⟨rfl, rfl⟩ := Prod.mk.inj (Option.some.inj h)
      exact .inr ⟨len, hend, hnul, rfl, rfl⟩
    · cases h

theorem peekkeyCtrlstring_fits (hintro : 0 < introlen) (hp : p.hightide = 0)
    (h : peekkeyCtrlstring introlen w behind p = some (r, q)) : Fits w p r q := by
  obtain ⟨-, rfl, rfl⟩ | ⟨len, hend, -, rfl, rfl⟩ := peekkeyCtrlstring_cases h
  · exact fits_self _ (by simp)
  · have hle := ctrlstring_bytes hend
    refine ⟨fun _ ↦ ⟨?_, ?_⟩, fun h ↦ absurd rfl h⟩
    · show 0 < introlen + len + _
      omega
    · show introlen + len + _ + p.hightide ≤ w.length
      omega

/-! ## The introducers -/

/-- What the introducer of a sequence, of this length, makes the driver do. -/
inductive CsiRoute where
  | ss3 (introlen : ℕ)
  | ctrlstring (introlen : ℕ)
  | csi (introlen : ℕ)
  | pass

/-- The length of the introducer. -/
def CsiRoute.len : CsiRoute → ℕ
  | ss3 n => n
  | ctrlstring n => n
  | csi n => n
  | pass => 1

def CsiRoute.peek (flags : TermKeyFlags) (force : Bool) (w behind : List UInt8) (p : Peeked) :
    CsiRoute → Option (TermKeyResult × Peeked)
  | ss3 n => peekkeySs3 flags n force w p
  | ctrlstring n => peekkeyCtrlstring n w behind p
  | csi n => peekkeyCsi flags n force w p
  | pass => some (.none, p)

/-- **The driver goes by the introducer**, which more input does not change unless it is the first
byte of one. -/
theorem exists_route (hw : w ≠ []) :
    ∃ route : CsiRoute, (0 < route.len ∧ route.len ≤ w.length) ∧
      (∀ flags closed force behind p,
        peekkeyCsiDriver flags closed force w behind p = route.peek flags force w behind p) ∧
      (w ≠ [0x1b] → ∀ v flags closed force behind p,
        peekkeyCsiDriver flags closed force (w ++ v) behind p =
          route.peek flags force (w ++ v) behind p) := by
  cases w with
  | nil => exact absurd rfl hw
  | cons c0 rest =>
    by_cases hesc : c0 = 0x1b
    · subst hesc
      cases rest with
      | nil =>
        exact ⟨.pass, ⟨Nat.one_pos, Nat.le_refl 1⟩, fun _ _ _ _ _ ↦ rfl, fun hne ↦ absurd rfl hne⟩
      | cons c1 rest =>
        have hlen : 2 ≤ (0x1b :: c1 :: rest).length := by simp
        have hpos : (0 : ℕ) < 2 := by decide
        by_cases h1 : c1 = 0x4f
        · subst h1
          exact ⟨.ss3 2, ⟨hpos, hlen⟩, fun _ _ _ _ _ ↦ rfl, fun _ _ _ _ _ _ _ ↦ rfl⟩
        by_cases h2 : c1 = 0x50 ∨ c1 = 0x5d
        · refine ⟨.ctrlstring 2, ⟨hpos, hlen⟩, fun _ _ _ _ _ ↦ ?_, fun _ _ _ _ _ _ _ ↦ ?_⟩
          · rw [peekkeyCsiDriver, if_pos rfl]
            simp only [if_neg h1, if_pos h2, CsiRoute.peek]
          · rw [List.cons_append, List.cons_append, peekkeyCsiDriver, if_pos rfl]
            simp only [if_neg h1, if_pos h2, CsiRoute.peek]
        by_cases h3 : c1 = 0x5b
        · subst h3
          exact ⟨.csi 2, ⟨hpos, hlen⟩, fun _ _ _ _ _ ↦ rfl, fun _ _ _ _ _ _ _ ↦ rfl⟩
        · refine ⟨.pass, ⟨Nat.one_pos, Nat.le_of_succ_le hlen⟩, fun _ _ _ _ _ ↦ ?_,
            fun _ _ _ _ _ _ _ ↦ ?_⟩
          · rw [peekkeyCsiDriver, if_pos rfl]
            simp only [if_neg h1, if_neg h2, if_neg h3, CsiRoute.peek]
          · rw [List.cons_append, List.cons_append, peekkeyCsiDriver, if_pos rfl]
            simp only [if_neg h1, if_neg h2, if_neg h3, CsiRoute.peek]
    · have hlen : 1 ≤ (c0 :: rest).length := by simp
      have hdriver : ∀ rest flags closed force behind p,
          peekkeyCsiDriver flags closed force (c0 :: rest) behind p =
            if c0 = 0x8f then peekkeySs3 flags 1 force (c0 :: rest) p
            else if c0 = 0x90 ∨ c0 = 0x9d then peekkeyCtrlstring 1 (c0 :: rest) behind p
            else if c0 = 0x9b then peekkeyCsi flags 1 force (c0 :: rest) p
            else some (.none, p) := by
        intro rest flags closed force behind p
        rw [peekkeyCsiDriver.eq_def]
        simp only [if_neg hesc]
      by_cases h1 : c0 = 0x8f
      · refine ⟨.ss3 1, ⟨Nat.one_pos, hlen⟩, fun _ _ _ _ _ ↦ ?_, fun _ _ _ _ _ _ _ ↦ ?_⟩
        · rw [hdriver, if_pos h1, CsiRoute.peek]
        · rw [List.cons_append, hdriver, if_pos h1, CsiRoute.peek]
      by_cases h2 : c0 = 0x90 ∨ c0 = 0x9d
      · refine ⟨.ctrlstring 1, ⟨Nat.one_pos, hlen⟩, fun _ _ _ _ _ ↦ ?_, fun _ _ _ _ _ _ _ ↦ ?_⟩
        · rw [hdriver, if_neg h1, if_pos h2, CsiRoute.peek]
        · rw [List.cons_append, hdriver, if_neg h1, if_pos h2, CsiRoute.peek]
      by_cases h3 : c0 = 0x9b
      · refine ⟨.csi 1, ⟨Nat.one_pos, hlen⟩, fun _ _ _ _ _ ↦ ?_, fun _ _ _ _ _ _ _ ↦ ?_⟩
        · rw [hdriver, if_neg h1, if_neg h2, if_pos h3, CsiRoute.peek]
        · rw [List.cons_append, hdriver, if_neg h1, if_neg h2, if_pos h3, CsiRoute.peek]
      · refine ⟨.pass, ⟨Nat.one_pos, hlen⟩, fun _ _ _ _ _ ↦ ?_, fun _ _ _ _ _ _ _ ↦ ?_⟩
        · rw [hdriver, if_neg h1, if_neg h2, if_neg h3, CsiRoute.peek]
        · rw [List.cons_append, hdriver, if_neg h1, if_neg h2, if_neg h3, CsiRoute.peek]

/-- **A key has bytes in the window**, and a sequence that is reported lies in it. -/
theorem peekkeyCsiDriver_fits {closed : Bool} (hw : w ≠ []) (hp : p.hightide = 0)
    (h : peekkeyCsiDriver flags closed force w behind p = some (r, q)) : Fits w p r q := by
  obtain ⟨route, hintro, hroute, -⟩ := exists_route hw
  rw [hroute] at h
  cases route with
  | ss3 n => exact peekkeySs3_fits hintro hp h
  | ctrlstring n => exact peekkeyCtrlstring_fits hintro.1 hp h
  | csi n => exact peekkeyCsi_fits hintro hp h
  | pass =>
    obtain ⟨rfl, rfl⟩ := Prod.mk.inj (Option.some.inj h)
    exact fits_self _ (by simp)

/-! ## More input -/

theorem peekkeyCsi_append (h : peekkeyCsi flags introlen false w p = some (r, q)) (hr : r ≠ .again)
    (v : List UInt8) : peekkeyCsi flags introlen false (w ++ v) p = some (r, q) := by
  obtain ⟨parse, hparse, h⟩ := Option.bind_eq_some_iff.mp h
  cases parse with
  | none =>
    obtain ⟨rfl, rfl⟩ := Prod.mk.inj (Option.some.inj h)
    exact absurd rfl hr
  | some parse =>
    rw [peekkeyCsi, (parseCsi_some hparse).2.2 v, Option.bind_eq_bind, Option.bind_some]
    dsimp only at h ⊢
    split at h
    · next hmouse =>
      have hout := Option.some.inj h
      have hkey : (peekkeyMouseAfter parse.len w p).1 = .key := by
        rcases peekkeyMouseAfter_cases parse.len w p with hkey | hagain
        · exact hkey
        · rw [hagain] at hout
          exact absurd (congrArg Prod.fst hout).symm hr
      rw [if_pos hmouse, peekkeyMouseAfter_append hkey, h]
    · next hmouse =>
      rw [if_neg hmouse, h]

theorem peekkeySs3_append (h : peekkeySs3 flags introlen false w p = some (r, q)) (hr : r ≠ .again)
    (v : List UInt8) : peekkeySs3 flags introlen false (w ++ v) p = some (r, q) := by
  rw [peekkeySs3] at h ⊢
  cases hget : w[introlen]? with
  | none =>
    rw [hget] at h
    obtain ⟨rfl, rfl⟩ := Prod.mk.inj (Option.some.inj h)
    exact absurd rfl hr
  | some cmd =>
    have hlt := (List.getElem?_eq_some_iff.mp hget).1
    rw [hget] at h
    rw [List.getElem?_append_left hlt, hget]
    exact h

/-- What is written of a string does not depend on what comes behind it. -/
theorem ctrlstringKey_append {len : ℕ} (hpos : 0 < introlen)
    (hend : ctrlstringEnd (w.drop introlen) = some len) (v : List UInt8) :
    ctrlstringEnd ((w ++ v).drop introlen) = some len ∧
      ctrlstringKey introlen len (w ++ v) p = ctrlstringKey introlen len w p := by
  have hbytes := ctrlstring_bytes hend
  have hlt : introlen + len < w.length := by
    split at hbytes <;> omega
  have hintro : introlen ≤ w.length := by omega
  have htake : ((w ++ v).drop introlen).take len = (w.drop introlen).take len := by
    rw [List.drop_append_of_le_length hintro, List.take_append_of_le_length]
    rw [List.length_drop]
    omega
  refine ⟨by rw [List.drop_append_of_le_length hintro, (ctrlstringEnd_some hend).2 v], ?_⟩
  unfold ctrlstringKey
  rw [htake, List.getElem?_append_left hlt,
    List.getElem?_append_left (by omega : introlen - 1 < w.length)]

/-- The end of a string that has been found is there with more input as well. -/
theorem peekkeyCtrlstring_append (hpos : 0 < introlen)
    (h : peekkeyCtrlstring introlen w behind p = some (r, q)) (hr : r ≠ .again) (v : List UInt8)
    {behind' : List UInt8} (hnul : 0 ∈ behind') :
    peekkeyCtrlstring introlen (w ++ v) behind' p = some (r, q) := by
  obtain ⟨-, rfl, -⟩ | ⟨len, hend, -, rfl, rfl⟩ := peekkeyCtrlstring_cases h
  · exact absurd rfl hr
  · obtain ⟨hend', hkey⟩ := @ctrlstringKey_append p w introlen len hpos hend v
    rw [peekkeyCtrlstring]
    rw [hend']
    dsimp only
    rw [if_pos (List.mem_append_right _ hnul), hkey]

/-- **More input does not change what has been said**, unless the driver has waited for it, or the
first byte of an introducer is all there is. -/
theorem peekkeyCsiDriver_append {closed : Bool} (hw : w ≠ []) (hesc : w ≠ [0x1b])
    (h : peekkeyCsiDriver flags closed false w behind p = some (r, q)) (hr : r ≠ .again)
    (v : List UInt8) {behind' : List UInt8} (hnul : 0 ∈ behind') :
    peekkeyCsiDriver flags closed false (w ++ v) behind' p = some (r, q) := by
  obtain ⟨route, hintro, hroute, hmore⟩ := exists_route hw
  rw [hroute] at h
  rw [hmore hesc]
  cases route with
  | ss3 n => exact peekkeySs3_append h hr v
  | ctrlstring n => exact peekkeyCtrlstring_append hintro.1 h hr v hnul
  | csi n => exact peekkeyCsi_append h hr v
  | pass => exact h

/-- What comes behind the window matters only where no `NUL` does. -/
theorem peekkeyCsiDriver_behind {closed : Bool}
    (h : peekkeyCsiDriver flags closed force w behind p = some (r, q)) {behind' : List UInt8}
    (hnul : 0 ∈ behind') : peekkeyCsiDriver flags closed force w behind' p = some (r, q) := by
  by_cases hw : w = []
  · subst hw
    exact h
  obtain ⟨route, -, hroute, -⟩ := exists_route hw
  rw [hroute] at h ⊢
  cases route with
  | ctrlstring n =>
    simp only [CsiRoute.peek] at h ⊢
    obtain ⟨hend, rfl, rfl⟩ | ⟨len, hend, -, rfl, rfl⟩ := peekkeyCtrlstring_cases h
    · rw [peekkeyCtrlstring, hend]
    · rw [peekkeyCtrlstring, hend]
      exact if_pos (List.mem_append_right _ hnul)
  | _ => exact h

/-! ## Waiting, and being forced -/

theorem forcedKey_exists (flags : TermKeyFlags) (p : Peeked) {c : BitVec 64} (hc : c.slt 0 = false)
    (n : ℕ) :
    ∃ q, forcedKey flags c n p = some (.key, q) ∧ Untouched p q := by
  rw [forcedKey]
  cases hemit : emitCodepoint flags c p.key with
  | none =>
    have hneg := (emitCodepoint_eq_none_iff.mp hemit).1
    rw [hc] at hneg
    cases hneg
  | some key => exact ⟨_, rfl, ⟨rfl, rfl, rfl⟩⟩

/-- **When the driver has waited, being forced does not change its state**, and it writes nothing
when it waits. -/
theorem peekkeyCsiDriver_again {closed : Bool} (hw : w ≠ [])
    (h : peekkeyCsiDriver flags closed false w behind p = some (.again, q)) :
    q = p ∧ ∃ r' q', peekkeyCsiDriver flags closed true w behind p = some (r', q') ∧
      (r' = .key ∨ r' = .again) ∧ Untouched p q' := by
  obtain ⟨route, -, hroute, -⟩ := exists_route hw
  rw [hroute] at h
  rw [hroute]
  cases route with
  | ss3 n =>
    simp only [CsiRoute.peek] at h ⊢
    rw [peekkeySs3] at h ⊢
    cases hget : w[n]? with
    | none =>
      rw [hget] at h
      obtain ⟨q', hq', huntouched⟩ := forcedKey_exists flags p (c := 0x4f) rfl w.length
      exact ⟨(Prod.mk.inj (Option.some.inj h)).2.symm, _, q', hq', .inl rfl, huntouched⟩
    | some cmd =>
      rw [hget] at h
      dsimp only at h
      split at h
      · cases h
      · split at h <;> cases h
  | ctrlstring n =>
    obtain ⟨-, -, rfl⟩ | ⟨-, -, -, hr, -⟩ := peekkeyCtrlstring_cases h
    · exact ⟨rfl, .again, q, h, .inr rfl, .refl q⟩
    · cases hr
  | csi n =>
    simp only [CsiRoute.peek] at h ⊢
    rw [peekkeyCsi] at h ⊢
    cases hparse : parseCsi 16 n w with
    | none => rw [hparse] at h; cases h
    | some parse =>
      rw [hparse] at h
      simp only [Option.bind_eq_bind, Option.bind_some] at h ⊢
      cases parse with
      | none =>
        obtain ⟨q', hq', huntouched⟩ := forcedKey_exists flags p (c := 0x5b) rfl n
        exact ⟨(Prod.mk.inj (Option.some.inj h)).2.symm, _, q', hq', .inl rfl, huntouched⟩
      | some parse =>
        dsimp only at h ⊢
        split at h
        · next hmouse =>
          rw [if_pos hmouse]
          rcases peekkeyMouseAfter_cases parse.len w p with hkey | hagain
          · rw [Option.some.inj h] at hkey
            cases hkey
          · rw [hagain] at h ⊢
            exact ⟨(Prod.mk.inj (Option.some.inj h)).2.symm, _, _, rfl, .inr rfl, .refl p⟩
        · exfalso
          obtain ⟨⟨found, key⟩, -, h⟩ := Option.bind_eq_some_iff.mp h
          cases found <;> cases h
  | pass => cases h

/-- Being forced makes no difference to a driver that has not waited. -/
theorem peekkeyCsiDriver_force {closed : Bool} (hw : w ≠ [])
    (h : peekkeyCsiDriver flags closed false w behind p = some (r, q)) (hr : r ≠ .again) :
    peekkeyCsiDriver flags closed true w behind p = some (r, q) := by
  obtain ⟨route, -, hroute, -⟩ := exists_route hw
  rw [hroute] at h
  rw [hroute]
  cases route with
  | ss3 n =>
    simp only [CsiRoute.peek] at h ⊢
    rw [peekkeySs3] at h ⊢
    cases hget : w[n]? with
    | none =>
      rw [hget] at h
      exact absurd (Prod.mk.inj (Option.some.inj h)).1.symm hr
    | some cmd =>
      rw [hget] at h
      exact h
  | ctrlstring n => exact h
  | csi n =>
    simp only [CsiRoute.peek] at h ⊢
    rw [peekkeyCsi] at h ⊢
    cases hparse : parseCsi 16 n w with
    | none => rw [hparse] at h; cases h
    | some parse =>
      rw [hparse] at h
      cases parse with
      | none => exact absurd (Prod.mk.inj (Option.some.inj h)).1.symm hr
      | some parse => exact h
  | pass => exact h

/-- The sequences for which the driver waits begin with an introducer. -/
theorem introducer_of_again {closed : Bool} {c1 : UInt8} {rest : List UInt8}
    (h : peekkeyCsiDriver flags closed false (0x1b :: c1 :: rest) behind p = some (.again, q)) :
    c1 = 0x4f ∨ c1 = 0x50 ∨ c1 = 0x5d ∨ c1 = 0x5b := by
  rw [peekkeyCsiDriver, if_pos rfl] at h
  split at h
  · next h1 => exact .inl h1
  split at h
  · next h2 => exact .inr (h2.imp_right .inl)
  split at h
  · next h3 => exact .inr (.inr (.inr h3))
  · cases h

/-- A window that begins with none of the introducers. -/
theorem peekkeyCsiDriver_letter {closed : Bool} {c0 : UInt8} (hc0 : c0 < 0x80) (hesc : c0 ≠ 0x1b)
    (rest : List UInt8) :
    peekkeyCsiDriver flags closed force (c0 :: rest) behind p = some (.none, p) := by
  have hne : ∀ c : UInt8, 0x80 ≤ c → c0 ≠ c := by
    rintro c hc rfl
    exact absurd hc0 (UInt8.not_lt.mpr hc)
  rw [peekkeyCsiDriver.eq_def]
  simp only [if_neg hesc, if_neg (hne 0x8f (by decide)), if_neg (hne 0x9b (by decide)),
    hne 0x90 (by decide), hne 0x9d (by decide), or_self, if_false]

/-- The results of the driver for a window with bytes in it. -/
theorem peekkeyCsiDriver_result {closed : Bool} (hw : w ≠ [])
    (h : peekkeyCsiDriver flags closed force w behind p = some (r, q)) :
    r = .key ∨ r = .again ∨ r = .none := by
  obtain ⟨route, -, hroute, -⟩ := exists_route hw
  rw [hroute] at h
  cases route with
  | ss3 n =>
    simp only [CsiRoute.peek] at h
    rw [peekkeySs3] at h
    split at h
    · split at h
      · exact .inl (forcedKey_eq h).1
      · exact .inr (.inl (Prod.mk.inj (Option.some.inj h)).1.symm)
    · dsimp only at h
      split at h
      · exact .inr (.inr (Prod.mk.inj (Option.some.inj h)).1.symm)
      · split at h
        · exact .inr (.inr (Prod.mk.inj (Option.some.inj h)).1.symm)
        · exact .inl (Prod.mk.inj (Option.some.inj h)).1.symm
  | ctrlstring n =>
    obtain ⟨-, rfl, -⟩ | ⟨-, -, -, rfl, -⟩ := peekkeyCtrlstring_cases h
    · exact .inr (.inl rfl)
    · exact .inl rfl
  | csi n =>
    obtain ⟨parse, -, h⟩ := Option.bind_eq_some_iff.mp h
    cases parse with
    | none =>
      dsimp only at h
      split at h
      · exact .inl (forcedKey_eq h).1
      · exact .inr (.inl (Prod.mk.inj (Option.some.inj h)).1.symm)
    | some parse =>
      dsimp only at h
      split at h
      · rcases peekkeyMouseAfter_cases parse.len w p with hkey | hagain
        · rw [Option.some.inj h] at hkey
          exact .inl hkey
        · rw [hagain] at h
          exact .inr (.inl (Prod.mk.inj (Option.some.inj h)).1.symm)
      · obtain ⟨⟨found, key⟩, -, h⟩ := Option.bind_eq_some_iff.mp h
        cases found <;> exact .inl (Prod.mk.inj (Option.some.inj h)).1.symm
  | pass => exact .inr (.inr (Prod.mk.inj (Option.some.inj h)).1.symm)

end Rustyaxe.Termkey
