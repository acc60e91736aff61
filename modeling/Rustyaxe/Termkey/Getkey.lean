import Rustyaxe.Lib.Decoder
import Rustyaxe.Termkey.Queue
import Rustyaxe.Termkey.Terminal

/-!
# Asking for a key

What `termkey_getkey` and `termkey_getkey_force` of `termkey.c` do with the bytes that are still to
be read: the first returns the key that they begin with, if the bytes are enough for one
(`termkeyGetkey_spec`), the second gives one in any case (`termkeyGetkeyForce_spec`).

The keys of a stream of bytes are read by a `Decoder`, as what is read of the start of a stream does
not change when more of it comes (`keyDecoder`).
-/

set_option autoImplicit false

namespace Rustyaxe.Termkey

open TermKey

/-- What the driver for control sequences keeps. -/
abbrev Saved := BitVec 32 × Option CStr

/-- A key that nothing has been written to. -/
def zeroKey : TermKeyKey where
  type := .unicode
  code := 0
  modifiers := 0
  utf8 := List.replicate 7 0

theorem length_utf8_zeroKey : zeroKey.utf8.length = 7 := rfl

/-- What the drivers see of such a key. -/
def fresh (s : Saved) : Peeked := ⟨zeroKey, 0, 0, s.1, s.2⟩

/-- The key at the start of the bytes `w`, and how many of them are done with. -/
def readKey (flags : TermKeyFlags) (root : Trie KeyInfo) (s : Saved) (w : List UInt8) :
    Option (KeyView × Saved × ℕ) :=
  match peekWindow flags root false false [0] w (fresh s) with
  | some (.key, q) => some (q.key.view, (q.savedStringId, q.savedString), q.nbytes + q.hightide)
  | _ => none

variable {flags : TermKeyFlags} {root : Trie KeyInfo} {s : Saved} {w behind : List UInt8}
  {q : Peeked}

theorem readKey_eq_some {o : KeyView × Saved × ℕ} :
    readKey flags root s w = some o ↔
      ∃ q, peekWindow flags root false false [0] w (fresh s) = some (.key, q) ∧
        o = (q.key.view, (q.savedStringId, q.savedString), q.nbytes + q.hightide) := by
  rw [readKey]
  split
  · next q hq =>
    rw [hq]
    constructor
    · intro h
      exact ⟨q, rfl, (Option.some.inj h).symm⟩
    · rintro ⟨q', hq', rfl⟩
      cases hq'
      rfl
  · next hno =>
    refine iff_of_false (by simp) ?_
    rintro ⟨q, hq, -⟩
    exact hno q hq

/-- A key that is found in a window is the one that is read. -/
theorem readKey_of_key (h : peekWindow flags root false false behind w (fresh s) = some (.key, q)) :
    readKey flags root s w =
      some (q.key.view, (q.savedStringId, q.savedString), q.nbytes + q.hightide) :=
  readKey_eq_some.mpr ⟨q, peekWindow_behind h (List.mem_singleton_self 0), rfl⟩

theorem readKey_of_again
    (h : peekWindow flags root false false behind w (fresh s) = some (.again, q)) :
    readKey flags root s w = none := by
  rw [readKey]
  rw [peekWindow_behind h (List.mem_singleton_self 0)]

/-- **The decoder of a terminal.** -/
def keyDecoder (hterm : Terminal flags root) : Decoder UInt8 KeyView Saved where
  read := readKey flags root
  takes {s w b s' n} h := by
    obtain ⟨q, hpeek, hq⟩ := readKey_eq_some.mp h
    have hw : w ≠ [] := by
      rintro rfl
      cases hpeek
    obtain ⟨-, hq⟩ := Prod.mk.inj hq
    obtain ⟨-, rfl⟩ := Prod.mk.inj hq
    cases peekWindow_cases hterm.total hterm.settled hw rfl hpeek with
    | key hfits _ =>
      obtain ⟨hpos, hle⟩ := hfits.key rfl
      exact ⟨Nat.add_pos_left hpos _, hle⟩
  stable {s w o} h v := by
    obtain ⟨q, hpeek, hq⟩ := readKey_eq_some.mp h
    have hw : w ≠ [] := by
      rintro rfl
      cases hpeek
    cases peekWindow_cases hterm.total hterm.settled hw rfl hpeek with
    | key _ hmore => exact readKey_eq_some.mpr ⟨q, hmore v [0] (List.mem_singleton_self 0), hq⟩

/-- Being closed is noticed only when nothing is left. -/
theorem peekWindow_closed (hw : w ≠ []) (closed force : Bool) (p : Peeked) :
    peekWindow flags root closed force behind w p = peekWindow flags root false force behind w p := by
  induction w generalizing p with
  | nil => exact absurd rfl hw
  | cons b0 rest ih =>
    have hdrivers : peekDrivers flags root closed force (b0 :: rest) behind p =
        peekDrivers flags root false force (b0 :: rest) behind p := by
      unfold peekDrivers peekkeyTi
      rw [if_neg hw, if_neg hw]
      rfl
    rw [peekWindow, peekWindow, hdrivers]
    refine Option.bind_congr fun o _ ↦ ?_
    dsimp only
    by_cases hrest : rest = []
    · simp only [if_pos hrest]
    · rw [ih hrest]

namespace TermKey

variable {tk tk' : TermKey} {key key' : TermKeyKey}

/-- What the driver for control sequences has kept. -/
def saved (tk : TermKey) : Saved := (tk.savedStringId, tk.savedString)

theorem Kept.saved (h : Kept tk tk') : tk'.saved = tk.saved :=
  congrArg₂ Prod.mk h.savedStringId h.savedString

theorem Peeks.sameTerminal {r : TermKeyResult} (h : Peeks tk.dropHightide w r q tk') :
    SameTerminal tk tk' where
  flags := h.flags
  root := h.root
  isStarted := h.isStarted
  buffsize := h.buffsize

theorem Peeks.saved {r : TermKeyResult} (h : Peeks tk w r q tk') :
    tk'.saved = (q.savedStringId, q.savedString) :=
  congrArg₂ Prod.mk h.savedStringId h.savedString

theorem Peeks.count_le {r : TermKeyResult} (h : Peeks tk.dropHightide w r q tk') :
    tk'.buffcount ≤ tk.buffcount := by
  rw [h.buffcount]
  exact Nat.sub_le _ _

theorem Carries.even_dropHightide (h : tk.Carries w) : Even tk.dropHightide.buffsize := h.even

theorem eatBytes_sameTerminal (tk : TermKey) (n : ℕ) : SameTerminal tk (tk.eatBytes n) := by
  rw [eatBytes]
  split <;> exact ⟨rfl, rfl, rfl, rfl⟩

theorem saved_eatBytes (tk : TermKey) (n : ℕ) : (tk.eatBytes n).saved = tk.saved := by
  rw [eatBytes]
  split <;> rfl

theorem eatBytes_count_le (tk : TermKey) (n : ℕ) : (tk.eatBytes n).buffcount ≤ tk.buffcount := by
  rw [eatBytes]
  split
  · exact Nat.zero_le _
  · exact Nat.sub_le _ _

/-! ## One look -/

/-- What the window says to a key that nothing has been written to, and what a look at the buffer
comes back with. -/
inductive LookedLike (tk : TermKey) (w : List UInt8) : Option (TermKeyResult × Peeked) →
    Option (TermKeyResult × TermKey × TermKeyKey × ℕ) → Prop where
  | none : LookedLike tk w none none
  | some {r : TermKeyResult} {q q' : Peeked} {tk' : TermKey} : Peeks tk w r q' tk' → q.Like q' →
    (r = .key → q.key.view = q'.key.view ∧ q.nbytes = q'.nbytes) →
    LookedLike tk w (some (r, q)) (some (r, tk', q'.key, q'.nbytes))

/-- The keys do not depend on what the caller's key has held. -/
theorem like_fresh (tk : TermKey) (hkey : key.utf8.length = 7) (n : ℕ) :
    Peeked.Like (fresh tk.saved) (tk.dropHightide.peeked key n) :=
  ⟨rfl, hkey, rfl, rfl, rfl⟩

/-- A look at the buffer says what its window says to a key that nothing has been written to. -/
theorem peekkey_like (hproper : Proper tk.root) (hstarted : tk.isStarted = true)
    (hwindow : tk.dropHightide.window = some w) (hw : w ≠ []) (hkey : key.utf8.length = 7)
    (force : Bool) (n : ℕ) :
    LookedLike tk.dropHightide w
      (peekWindow tk.flags tk.root false force tk.dropHightide.behind w (fresh tk.saved))
      (tk.peekkey key force n) := by
  have hsame : SameOutcome
      (peekWindow tk.flags tk.root false force tk.dropHightide.behind w (fresh tk.saved))
      (peekWindow tk.flags tk.root false force tk.dropHightide.behind w
        (tk.dropHightide.peeked key n)) := peekWindow_same hproper (tk.like_fresh hkey n)
  have hlooked := peekkey_eq hstarted hwindow key force n
  rw [peekWindow_closed hw] at hlooked
  generalize peekWindow tk.flags tk.root false force tk.dropHightide.behind w
    (tk.dropHightide.peeked key n) = o at hsame hlooked
  generalize peekWindow tk.flags tk.root false force tk.dropHightide.behind w (fresh tk.saved) = o'
    at hsame ⊢
  generalize tk.peekkey key force n = out at hlooked ⊢
  cases hlooked with
  | none =>
    cases hsame
    exact .none
  | some hpeeks =>
    cases hsame with
    | some hlike hview => exact .some hpeeks hlike hview

/-! ## `termkey_getkey` -/

/-- What `termkey_getkey` comes back with: nothing if the window is in front of the buffer, or if
the program leaves its arrays; the key at the start of the window; or that there is none. -/
inductive Getkey (tk : TermKey) (w : List UInt8) :
    Option (TermKeyResult × TermKey × TermKeyKey) → Prop where
  | lost : ¬ tk.Placed → Getkey tk w none
  | faulty :
      peekWindow tk.flags tk.root false false tk.dropHightide.behind w (fresh tk.saved) = none →
      Getkey tk w none
  | key {tk' : TermKey} {key' : TermKeyKey} {n : ℕ} : SameTerminal tk tk' →
      tk'.buffcount ≤ tk.buffcount → key'.utf8.length = 7 →
      readKey tk.flags tk.root tk.saved w = some (key'.view, tk'.saved, n) →
      tk'.Carries (w.drop n) → tk'.Placed → Getkey tk w (some (.key, tk', key'))
  | waits {tk' : TermKey} {key' : TermKeyKey} {r : TermKeyResult} : SameTerminal tk tk' →
      tk'.buffcount ≤ tk.buffcount → key'.utf8.length = 7 →
      r = .again ∨ w = [] ∧ (r = .eof ∨ r = .none) → readKey tk.flags tk.root tk.saved w = none →
      tk'.saved = tk.saved → tk'.Carries w → (escapes w ≤ 1 → tk'.Placed) →
      Getkey tk w (some (r, tk', key'))

theorem termkeyGetkey_of_none (h : tk.peekkey key false 0 = none) :
    tk.termkeyGetkey key = none := by
  rw [termkeyGetkey]
  rw [h]
  rfl

theorem termkeyGetkey_of_key {n : ℕ} (h : tk.peekkey key false 0 = some (.key, tk', key', n)) :
    tk.termkeyGetkey key = some (.key, tk'.eatBytes n, key') := by
  rw [termkeyGetkey]
  rw [h]
  rfl

/-- The second look, at what is there when there is not enough of it. -/
theorem termkeyGetkey_of_again {n : ℕ} (h : tk.peekkey key false 0 = some (.again, tk', key', n)) :
    tk.termkeyGetkey key =
      (tk'.peekkey key' true n).bind fun o ↦ some (.again, o.2.1, o.2.2.1) := by
  rw [termkeyGetkey]
  rw [h]
  rfl

/-- A call with nothing in the queue. -/
theorem getkey_nil (hstarted : tk.isStarted = true) (h : tk.Carries []) (hplaced : tk.Placed)
    (hkey : key.utf8.length = 7) : Getkey tk [] (tk.termkeyGetkey key) := by
  obtain ⟨hplaced', hwindow⟩ := h.queue hplaced
  have hlooked := peekkey_eq hstarted hwindow key false 0
  rw [peekWindow] at hlooked
  generalize hread : some (if tk.isClosed = true then TermKeyResult.eof else .none,
    tk.dropHightide.peeked key 0) = o at hlooked
  generalize hlook : tk.peekkey key false 0 = out at hlooked
  cases hlooked with
  | none => cases hread
  | @some r q tk1 hpeeks =>
    obtain ⟨hr, rfl⟩ := Prod.mk.inj (Option.some.inj hread)
    have hr' : r = .eof ∨ r = .none := by
      rw [← hr]
      split
      · exact .inl rfl
      · exact .inr rfl
    have hne : r ≠ .key ∧ r ≠ .again := by rcases hr' with rfl | rfl <;> simp
    have hget : tk.termkeyGetkey key = some (r, tk1, key) := by
      rw [termkeyGetkey]
      rw [hlook, Option.bind_eq_bind, Option.bind_some]
      dsimp only
      rw [if_neg hne.1, if_neg hne.2]
      rfl
    obtain ⟨hcarries, hplaced1⟩ := hpeeks.carries h.even_dropHightide hplaced' hwindow rfl
    rw [hget]
    exact .waits hpeeks.sameTerminal hpeeks.count_le hkey (.inr ⟨rfl, hr'⟩) rfl hpeeks.saved
      hcarries fun _ ↦ hplaced1 (.inl hne.1)

/-- A key has been found. -/
theorem getkey_of_key {q q' : Peeked} (h : tk.Carries w) (hplaced : tk.Placed)
    (hwindow : tk.dropHightide.window = some w)
    (hpeek : peekWindow tk.flags tk.root false false tk.dropHightide.behind w (fresh tk.saved) =
      some (.key, q))
    (hlook : tk.peekkey key false 0 = some (.key, tk', q'.key, q'.nbytes))
    (hpeeks : Peeks tk.dropHightide w .key q' tk') (hlike : q.Like q')
    (hview : q.key.view = q'.key.view ∧ q.nbytes = q'.nbytes) :
    Getkey tk w (tk.termkeyGetkey key) := by
  have hle := ((peekWindow_fits rfl hpeek).key rfl).2
  rw [hview.2, hlike.hightide] at hle
  obtain ⟨hcarries, hplaced'⟩ := hpeeks.eat h.even_dropHightide (h.queue hplaced).1 hwindow hle
  rw [termkeyGetkey_of_key hlook]
  refine .key (hpeeks.sameTerminal.trans (eatBytes_sameTerminal _ _))
    ((eatBytes_count_le _ _).trans hpeeks.count_le) hlike.right ?_ hcarries hplaced'
  rw [readKey_of_key hpeek, saved_eatBytes, hpeeks.saved, hview.1, hview.2, hlike.hightide,
    hlike.savedStringId, hlike.savedString]

/-- There is not enough for a key: the second look is of no consequence, unless it puts the window
in front of the buffer. -/
theorem getkey_of_again {q q' : Peeked} (hterm : Terminal tk.flags tk.root)
    (hstarted : tk.isStarted = true) (h : tk.Carries w) (hplaced : tk.Placed)
    (hwindow : tk.dropHightide.window = some w) (hw : w ≠ [])
    (hpeek : peekWindow tk.flags tk.root false false tk.dropHightide.behind w (fresh tk.saved) =
      some (.again, q))
    (hlook : tk.peekkey key false 0 = some (.again, tk', q'.key, q'.nbytes))
    (hpeeks : Peeks tk.dropHightide w .again q' tk') (hlike : q.Like q') :
    Getkey tk w (tk.termkeyGetkey key) := by
  obtain ⟨r2, q2, huntouched, hforced, huntouched2⟩ : ∃ r2 q2, Untouched (fresh tk.saved) q ∧
      peekWindow tk.flags tk.root false true tk.dropHightide.behind w (fresh tk.saved) =
        some (r2, q2) ∧ Untouched (fresh tk.saved) q2 := by
    cases peekWindow_cases hterm.total hterm.settled hw rfl hpeek with
    | waits huntouched hforced huntouched2 => exact ⟨_, _, huntouched, hforced, huntouched2⟩
  have hzero : q'.hightide = 0 := hlike.hightide.symm.trans huntouched.hightide
  have hsame := hpeeks.sameTerminal
  have hsaved : tk'.saved = tk.saved := by
    rw [hpeeks.saved, ← hlike.savedStringId, ← hlike.savedString, huntouched.savedStringId,
      huntouched.savedString]
    rfl
  obtain ⟨hcarries, hplaced'⟩ := hpeeks.carries h.even_dropHightide (h.queue hplaced).1 hwindow hzero
  obtain ⟨hplaced1, hwindow1⟩ := hcarries.queue (hplaced' (.inl (by simp)))
  have hdrop : tk'.dropHightide = tk' := dropHightide_of_zero (hpeeks.hightide.trans hzero)
  have hbehind : tk'.dropHightide.behind = tk.dropHightide.behind := by
    rw [hdrop, hpeeks.behind (by simp)]
  have hsecond := peekkey_like (hsame.root ▸ hterm.proper) (hsame.isStarted.trans hstarted) hwindow1
    hw hlike.right true q'.nbytes
  rw [hsame.flags, hsame.root, hsaved, hbehind, hforced] at hsecond
  rw [termkeyGetkey_of_again hlook]
  generalize tk'.peekkey q'.key true q'.nbytes = out at hsecond
  cases hsecond with
  | @some _ _ q2' tk2 hpeeks2 hlike2 _ =>
    have hzero2 : q2'.hightide = 0 := hlike2.hightide.symm.trans huntouched2.hightide
    obtain ⟨hcarries2, hplaced2⟩ := hpeeks2.carries hcarries.even_dropHightide hplaced1 hwindow1 hzero2
    refine .waits (hsame.trans hpeeks2.sameTerminal) (hpeeks2.count_le.trans hpeeks.count_le)
      hlike2.right (.inl rfl) (readKey_of_again hpeek) ?_ hcarries2 fun hone ↦ hplaced2 (.inr hone)
    rw [hpeeks2.saved, ← hlike2.savedStringId, ← hlike2.savedString, huntouched2.savedStringId,
      huntouched2.savedString]
    rfl

/-- **A key that is asked for** is the first one of the queue and is taken off it. -/
theorem termkeyGetkey_spec (hterm : Terminal tk.flags tk.root) (hstarted : tk.isStarted = true)
    (h : tk.Carries w) (hkey : key.utf8.length = 7) : Getkey tk w (tk.termkeyGetkey key) := by
  by_cases hplaced : tk.Placed
  swap
  · have hdrop : tk.dropHightide = tk := dropHightide_of_zero (h.front.resolve_left hplaced)
    have hlook : tk.peekkey key false 0 = none := by
      rw [peekkey, if_pos hstarted, hdrop, not_placed hplaced]
      rfl
    rw [termkeyGetkey_of_none hlook]
    exact .lost hplaced
  by_cases hw : w = []
  · subst hw
    exact getkey_nil hstarted h hplaced hkey
  obtain ⟨-, hwindow⟩ := h.queue hplaced
  have hlooked := peekkey_like hterm.proper hstarted hwindow hw hkey false 0
  generalize hpeek : peekWindow tk.flags tk.root false false tk.dropHightide.behind w
    (fresh tk.saved) = o at hlooked
  generalize hlook : tk.peekkey key false 0 = out at hlooked
  cases hlooked with
  | none =>
    rw [termkeyGetkey_of_none hlook]
    exact .faulty hpeek
  | some hpeeks hlike hview =>
    cases peekWindow_cases hterm.total hterm.settled hw rfl hpeek with
    | key _ _ => exact getkey_of_key h hplaced hwindow hpeek hlook hpeeks hlike (hview rfl)
    | waits _ _ _ =>
      exact getkey_of_again hterm hstarted h hplaced hwindow hw hpeek hlook hpeeks hlike

/-! ## `termkey_getkey_force` -/

/-- What `termkey_getkey_force` comes back with. -/
inductive GetkeyForce (tk : TermKey) (w : List UInt8) :
    Option (TermKeyResult × TermKey × TermKeyKey) → Prop where
  | lost : ¬ tk.Placed → GetkeyForce tk w none
  | faulty {p : Peeked} : p.hightide = 0 →
      peekWindow tk.flags tk.root tk.isClosed true tk.dropHightide.behind w p = none →
      GetkeyForce tk w none
  | key {tk' : TermKey} {key' : TermKeyKey} {n : ℕ} : SameTerminal tk tk' →
      tk'.buffcount ≤ tk.buffcount → 0 < n → n ≤ w.length → tk'.Carries (w.drop n) → tk'.Placed →
      GetkeyForce tk w (some (.key, tk', key'))
  | waits {tk' : TermKey} {key' : TermKeyKey} {r : TermKeyResult} : SameTerminal tk tk' →
      tk'.buffcount ≤ tk.buffcount → r ≠ .key → tk'.Carries w → tk'.Placed →
      GetkeyForce tk w (some (r, tk', key'))

/-- **A key that is demanded** is taken off the queue, whatever it is. -/
theorem termkeyGetkeyForce_spec (hstarted : tk.isStarted = true) (h : tk.Carries w)
    (key : TermKeyKey) : GetkeyForce tk w (tk.termkeyGetkeyForce key) := by
  rw [termkeyGetkeyForce]
  by_cases hplaced : tk.Placed
  swap
  · have hdrop : tk.dropHightide = tk := dropHightide_of_zero (h.front.resolve_left hplaced)
    rw [peekkey, if_pos hstarted, hdrop, not_placed hplaced]
    exact .lost hplaced
  obtain ⟨hplaced', hwindow⟩ := h.queue hplaced
  have hlooked := peekkey_eq hstarted hwindow key true 0
  generalize hpeek : peekWindow tk.flags tk.root tk.isClosed true tk.dropHightide.behind w
    (tk.dropHightide.peeked key 0) = o at hlooked
  generalize tk.peekkey key true 0 = out at hlooked ⊢
  cases hlooked with
  | none => exact .faulty (p := tk.dropHightide.peeked key 0) rfl hpeek
  | @some r q tk1 hpeeks =>
    have hfits := peekWindow_fits rfl hpeek
    rw [Option.bind_eq_bind, Option.bind_some]
    dsimp only
    by_cases hr : r = .key
    · subst hr
      obtain ⟨hpos, hle⟩ := hfits.key rfl
      obtain ⟨hcarries, hplaced1⟩ := hpeeks.eat h.even_dropHightide hplaced' hwindow hle
      rw [if_pos rfl]
      exact .key (hpeeks.sameTerminal.trans (eatBytes_sameTerminal _ _))
        ((eatBytes_count_le _ _).trans hpeeks.count_le) (Nat.add_pos_left hpos _) hle hcarries
        hplaced1
    · have hzero : q.hightide = 0 := (hfits.other hr).hightide
      obtain ⟨hcarries, hplaced1⟩ := hpeeks.carries h.even_dropHightide hplaced' hwindow hzero
      rw [if_neg hr]
      exact .waits hpeeks.sameTerminal hpeeks.count_le hr hcarries (hplaced1 (.inl hr))

end TermKey

end Rustyaxe.Termkey
