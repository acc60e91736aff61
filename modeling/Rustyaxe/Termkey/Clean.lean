import Rustyaxe.Termkey.CsiFaults
import Rustyaxe.Termkey.Getkey

/-!
# Input that the program can bear

Not every input can be read.  Two escapes in a row can put the window in front of the buffer, some
control sequences make the program leave its arrays, or have numbers that are none to it, and where
a control string ends, the program goes on to a `NUL` that does not have to be there.  There is an
answer for every window in which none of that occurs (`peekWindow_clean`).
-/

set_option autoImplicit false

namespace Rustyaxe.Termkey

open TermKey

/-- The bytes that begin a control string. -/
def stringIntros : List (List UInt8) := [[0x1b, 0x50], [0x1b, 0x5d], [0x90], [0x9d]]

/-- The bytes that end one. -/
def stringEnds : List (List UInt8) := [[0x9c], [0x1b, 0x5c]]

/-- What is expected of an input. -/
structure Clean (flags : TermKeyFlags) (input : List UInt8) : Prop where
  /-- No escape follows another one. -/
  single : ¬ [0x1b, 0x1b] <:+: input
  /-- No control sequence is faulty, or has a number that is no `long`. -/
  sequences : ∀ intro ∈ [[0x1b, 0x5b], [0x9b]], ∀ body cmd, (∀ c ∈ body, isFinal c = false) →
    isFinal cmd = true → FaultyBody flags body cmd ∨ Overflowing body →
      ¬ intro ++ body ++ [cmd] <:+: input
  /-- No control string has come to its end without a `NUL` in it. -/
  strings : ∀ intro ∈ stringIntros, ∀ stop ∈ stringEnds, ∀ body, 0 ∉ body →
    ¬ intro ++ body ++ stop <:+: input

variable {flags : TermKeyFlags} {root : Trie KeyInfo} {w : List UInt8} {p : Peeked}

theorem Clean.mono {input v : List UInt8} (h : Clean flags input) (hv : v <:+: input) :
    Clean flags v where
  single hinf := h.single (hinf.trans hv)
  sequences intro hi body cmd hb hc hf hinf := h.sequences intro hi body cmd hb hc hf (hinf.trans hv)
  strings intro hi stop hs body hb hinf := h.strings intro hi stop hs body hb (hinf.trans hv)

/-- There is at most one escape at the start of a window. -/
theorem Clean.escapes_le_one (h : Clean flags w) : escapes w ≤ 1 := by
  rw [escapes]
  rcases w with _ | ⟨a, _ | ⟨b, w⟩⟩
  · exact Nat.zero_le 1
  · exact (List.takeWhile_prefix _).length_le
  · by_cases ha : a = 0x1b
    · have hb : b ≠ 0x1b := by
        rintro rfl
        exact h.single ⟨[], w, by rw [ha]; rfl⟩
      rw [List.takeWhile_cons_of_pos (by simpa using ha),
        List.takeWhile_cons_of_neg (by simpa using hb)]
      exact Nat.le_refl 1
    · rw [List.takeWhile_cons_of_neg (by simpa using ha)]
      exact Nat.zero_le 1

/-! ## The driver for control sequences -/

theorem peekkeyCsi_clean (hclean : Clean flags w) (intro : List UInt8) {rest : List UInt8}
    (hintro : intro ∈ [[0x1b, 0x5b], [0x9b]]) (hw : w = intro ++ rest) (force : Bool)
    (p : Peeked) : ∃ o, peekkeyCsi flags intro.length force w p = some o := by
  refine Option.ne_none_iff_exists'.mp fun hnone ↦ ?_
  obtain ⟨body, cmd, rest', hdrop, hbody, hcmd, hfaulty⟩ := (peekkeyCsi_eq_none_iff ..).mp hnone
  rw [hw, List.drop_left] at hdrop
  refine hclean.sequences intro hintro body cmd hbody hcmd (.inl hfaulty) ⟨[], rest', ?_⟩
  rw [hw, hdrop]
  simp

theorem peekkeySs3_exists (flags : TermKeyFlags) (n : ℕ) (force : Bool) (w : List UInt8)
    (p : Peeked) : ∃ o, peekkeySs3 flags n force w p = some o := by
  rw [peekkeySs3]
  split
  · split
    · obtain ⟨q, hq, -⟩ := forcedKey_exists flags p (c := 0x4f) rfl w.length
      exact ⟨_, hq⟩
    · exact ⟨_, rfl⟩
  · dsimp only
    split
    · exact ⟨_, rfl⟩
    · split <;> exact ⟨_, rfl⟩

/-- A control string that has come to its end. -/
theorem ctrlstringEnd_split {l : List UInt8} {len : ℕ} (h : ctrlstringEnd l = some len) :
    ∃ stop ∈ stringEnds, ∃ rest, l = l.take len ++ stop ++ rest := by
  induction l generalizing len with
  | nil => cases h
  | cons c l ih =>
    rw [ctrlstringEnd] at h
    split at h
    · next hc =>
      obtain rfl := Option.some.inj h
      rcases hc with rfl | ⟨rfl, hhead⟩
      · exact ⟨[0x9c], by simp [stringEnds], l, rfl⟩
      · obtain ⟨rest, rfl⟩ := List.head?_eq_some_iff.mp hhead
        exact ⟨[0x1b, 0x5c], by simp [stringEnds], rest, rfl⟩
    · obtain ⟨n, hn, rfl⟩ := Option.map_eq_some_iff.mp h
      obtain ⟨stop, hstop, rest, hl⟩ := ih hn
      refine ⟨stop, hstop, rest, ?_⟩
      rw [List.take_succ_cons, List.cons_append, List.cons_append, ← hl]

theorem peekkeyCtrlstring_clean (hclean : Clean flags w) (intro : List UInt8) {rest : List UInt8}
    (hintro : intro ∈ stringIntros) (hw : w = intro ++ rest) (behind : List UInt8) (p : Peeked) :
    ∃ o, peekkeyCtrlstring intro.length w behind p = some o := by
  rw [peekkeyCtrlstring]
  cases hend : ctrlstringEnd (w.drop intro.length) with
  | none => exact ⟨_, rfl⟩
  | some len =>
    rw [hw, List.drop_left] at hend ⊢
    obtain ⟨stop, hstop, rest', hrest⟩ := ctrlstringEnd_split hend
    have hnul : 0 ∈ rest.take len := by
      refine Classical.byContradiction fun hno ↦ ?_
      refine hclean.strings intro hintro stop hstop _ hno ⟨[], rest', ?_⟩
      rw [List.nil_append, List.append_assoc, List.append_assoc, ← List.append_assoc _ stop rest',
        ← hrest, hw]
    dsimp only
    rw [if_pos (List.mem_append_left _ (List.mem_of_mem_take hnul))]
    exact ⟨_, rfl⟩

theorem peekkeyCsiDriver_clean (hclean : Clean flags w) (closed force : Bool)
    (behind : List UInt8) (p : Peeked) :
    ∃ o, peekkeyCsiDriver flags closed force w behind p = some o := by
  unfold peekkeyCsiDriver
  split
  · exact ⟨_, rfl⟩
  next c0 rest =>
  split
  · next hesc =>
    subst hesc
    split
    · exact ⟨_, rfl⟩
    next c1 rest =>
    split
    · exact peekkeySs3_exists flags 2 force _ p
    split
    · next h =>
      rcases h with rfl | rfl
      · exact peekkeyCtrlstring_clean hclean [0x1b, 0x50] (by simp [stringIntros]) rfl behind p
      · exact peekkeyCtrlstring_clean hclean [0x1b, 0x5d] (by simp [stringIntros]) rfl behind p
    split
    · next h =>
      subst h
      exact peekkeyCsi_clean hclean [0x1b, 0x5b] (by simp) rfl force p
    · exact ⟨_, rfl⟩
  split
  · exact peekkeySs3_exists flags 1 force _ p
  split
  · next h =>
    rcases h with rfl | rfl
    · exact peekkeyCtrlstring_clean hclean [0x90] (by simp [stringIntros]) rfl behind p
    · exact peekkeyCtrlstring_clean hclean [0x9d] (by simp [stringIntros]) rfl behind p
  split
  · next h =>
    subst h
    exact peekkeyCsi_clean hclean [0x9b] (by simp) rfl force p
  · exact ⟨_, rfl⟩

/-! ## The window -/

theorem peekDrivers_clean (hterm : Terminal flags root) (hclean : Clean flags w)
    (closed force : Bool) (behind : List UInt8) (p : Peeked) :
    ∃ o, peekDrivers flags root closed force w behind p = some o := by
  obtain ⟨⟨ti, q⟩, hti⟩ := @peekkeyTi_exists root closed force p hterm.total w
  obtain ⟨⟨csi, q'⟩, hcsi⟩ := peekkeyCsiDriver_clean hclean closed force behind q
  rw [peekDrivers]
  rw [hti, Option.bind_eq_bind, Option.bind_some]
  dsimp only
  split
  · exact ⟨_, rfl⟩
  · rw [hcsi, Option.bind_some]
    dsimp only
    split <;> exact ⟨_, rfl⟩

/-- **Something is said of every clean window.** -/
theorem peekWindow_clean (hterm : Terminal flags root) (hclean : Clean flags w)
    (closed force : Bool) (behind : List UInt8) (hp : p.hightide = 0) :
    ∃ o, peekWindow flags root closed force behind w p = some o := by
  induction w generalizing p with
  | nil => exact ⟨_, rfl⟩
  | cons b0 rest ih =>
    obtain ⟨⟨r, q⟩, hdrivers⟩ := peekDrivers_clean hterm hclean closed force behind p
    by_cases hr : r = .none
    swap
    · exact ⟨_, peekWindow_of_drivers hr hdrivers⟩
    subst hr
    have hq : q.hightide = 0 :=
      (peekDrivers_none (List.cons_ne_nil b0 rest) hp hdrivers).hightide.trans hp
    rw [peekWindow_of_none hdrivers]
    split
    · split
      · split
        · obtain ⟨q', hq', -⟩ :=
            emitPeeked_exists flags .key (by decide : 0x1b < 2 ^ 63) 1 q.key q
          exact ⟨_, hq'⟩
        · exact ⟨_, rfl⟩
      · obtain ⟨o, ho⟩ := ih (hclean.mono (List.suffix_cons b0 rest).isInfix) hq
        rw [ho]
        exact ⟨_, rfl⟩
    · obtain ⟨r, q', hplain, -⟩ := peekkeyPlain_cases flags force b0 rest q hq
      exact ⟨_, hplain⟩

namespace TermKey

variable {tk : TermKey} {key : TermKeyKey}

/-- A call comes back if the queue is clean. -/
theorem exists_getkey (hterm : Terminal tk.flags tk.root) (hstarted : tk.isStarted = true)
    (h : tk.Carries w) (hplaced : tk.Placed) (hclean : Clean tk.flags w)
    (hkey : key.utf8.length = 7) : ∃ o, tk.termkeyGetkey key = some o := by
  refine Option.ne_none_iff_exists'.mp fun hnone ↦ ?_
  have hget := termkeyGetkey_spec hterm hstarted h hkey
  rw [hnone] at hget
  cases hget with
  | lost hno => exact hno hplaced
  | faulty hfaulty =>
    obtain ⟨o, ho⟩ := peekWindow_clean hterm hclean false false tk.dropHightide.behind
      (p := fresh tk.saved) rfl
    rw [hfaulty] at ho
    cases ho

theorem exists_getkeyForce (hterm : Terminal tk.flags tk.root) (hstarted : tk.isStarted = true)
    (h : tk.Carries w) (hplaced : tk.Placed) (hclean : Clean tk.flags w) (key : TermKeyKey) :
    ∃ o, tk.termkeyGetkeyForce key = some o := by
  refine Option.ne_none_iff_exists'.mp fun hnone ↦ ?_
  have hget := termkeyGetkeyForce_spec hstarted h key
  rw [hnone] at hget
  cases hget with
  | lost hno => exact hno hplaced
  | faulty hp hfaulty =>
    obtain ⟨o, ho⟩ := peekWindow_clean hterm hclean tk.isClosed true tk.dropHightide.behind hp
    rw [hfaulty] at ho
    cases ho

end TermKey

end Rustyaxe.Termkey
