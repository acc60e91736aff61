import Rustyaxe.Termkey.Window

/-!
# Ordinary terminals

The terminal database has to be such that the driver for it waits only where the driver for
control sequences does (`Terminal`).  That is so when its sequences are single bytes and control
sequences as the other driver reads them (`Ordinary`), and none of them begins another one
(`terminal_of_ordinary`).  It is not so for every terminal: the function keys of the Linux console
go on where the other driver has found the end of a control sequence (`not_settled_linuxConsole`).
-/

set_option autoImplicit false

namespace Rustyaxe.Termkey

open PrefixCode

/-- What the program expects of a terminal. -/
structure Terminal (flags : TermKeyFlags) (root : Trie KeyInfo) : Prop where
  total : ∀ w, (root.walk w 0).isSome
  proper : Proper root
  settled : Settled flags root

/-- A sequence of a terminal, as the driver for control sequences reads it. -/
inductive Ordinary : CStr → KeyInfo → Prop where
  | byte {info : KeyInfo} (c : UInt8) (h : info.type ≠ .mouse) : Ordinary [c] info
  | ss3 {info : KeyInfo} (c : UInt8) (h : info.type ≠ .mouse) : Ordinary [0x1b, 0x4f, c] info
  | csi {info : KeyInfo} (body : List UInt8) (cmd : UInt8) (hbody : ∀ c ∈ body, isFinal c = false)
    (h : info.type ≠ .mouse) : Ordinary ([0x1b, 0x5b] ++ body ++ [cmd]) info
  | mouse (info : KeyInfo) : Ordinary [0x1b, 0x5b, 0x4d] info

variable {flags : TermKeyFlags} {w behind : List UInt8} {p : Peeked}

/-- An open control sequence is waited for. -/
theorem peekkeyCsiDriver_open {body : List UInt8} (hbody : ∀ c ∈ body, isFinal c = false) :
    peekkeyCsiDriver flags false false ([0x1b, 0x5b] ++ body) behind p = some (.again, p) := by
  show peekkeyCsi flags 2 false ([0x1b, 0x5b] ++ body) p = _
  have hopen : ∀ c ∈ ([0x1b, 0x5b] ++ body).drop 2, isFinal c = false := hbody
  rw [peekkeyCsi]
  rw [parseCsi_of_open hopen]
  rfl

/-- What begins an ordinary sequence is waited for. -/
theorem Ordinary.again {u : CStr} {info : KeyInfo} (h : Ordinary u info) (hw : w ≠ [])
    (hesc : w ≠ [0x1b]) (hpre : w <+: u) (hne : w ≠ u) :
    peekkeyCsiDriver flags false false w behind p = some (.again, p) := by
  -- What begins a sequence of three bytes, and is neither the first nor all of them.
  have hthree : ∀ b1 b2 : UInt8, u = [0x1b, b1, b2] → w = [0x1b, b1] := by
    rintro b1 b2 rfl
    rcases w with _ | ⟨c0, _ | ⟨c1, _ | ⟨c2, w⟩⟩⟩
    · exact absurd rfl hw
    · exact absurd (by rw [(List.cons_prefix_cons.mp hpre).1]) hesc
    · obtain ⟨rfl, hpre1⟩ := List.cons_prefix_cons.mp hpre
      rw [(List.cons_prefix_cons.mp hpre1).1]
    · exact absurd (hpre.eq_of_length_le (by simp)) hne
  cases h with
  | byte c =>
    cases w with
    | nil => exact absurd rfl hw
    | cons c0 w => exact absurd (hpre.eq_of_length_le (by simp)) hne
  | ss3 c =>
    rw [hthree 0x4f c rfl]
    rfl
  | csi body cmd hbody =>
    have hlt : w.length < ([0x1b, 0x5b] ++ body ++ [cmd]).length :=
      Nat.lt_of_not_le fun hle ↦ hne (hpre.eq_of_length_le hle)
    have hpre' : w <+: [0x1b, 0x5b] ++ body := by
      refine List.prefix_of_prefix_length_le hpre (List.prefix_append _ _) ?_
      rw [List.length_append, List.length_singleton] at hlt
      omega
    rcases w with _ | ⟨c0, _ | ⟨c1, w⟩⟩
    · exact absurd rfl hw
    · exact absurd (by rw [(List.cons_prefix_cons.mp hpre').1]) hesc
    · obtain ⟨rfl, hpre1⟩ := List.cons_prefix_cons.mp hpre'
      obtain ⟨rfl, hpre2⟩ := List.cons_prefix_cons.mp hpre1
      exact peekkeyCsiDriver_open fun c hc ↦ hbody c (hpre2.subset hc)
  | mouse info =>
    rw [hthree 0x5b 0x4d rfl]
    rfl

/-- The bytes of a mouse event are waited for by either driver. -/
theorem peekkeyCsiDriver_mouse (v : List UInt8) :
    peekkeyCsiDriver flags false false ([0x1b, 0x5b, 0x4d] ++ v) behind p =
      some (peekkeyMouseAfter 3 ([0x1b, 0x5b, 0x4d] ++ v) p) := rfl

variable {tigetstr : CStr → Option CStr}

/-- **Ordinary terminals** are as the program expects them. -/
theorem terminal_of_ordinary (hsep : Separate tigetstr)
    (hordinary : ∀ u info, Sequence tigetstr u info → Ordinary u info) (flags : TermKeyFlags) :
    ∃ root, loadTerminfo tigetstr = some root ∧ Terminal flags root := by
  rcases loadTerminfo_cases tigetstr with ⟨-, hno⟩ | ⟨root, code, hroot, -, hsound, -, hreads⟩
  · exact absurd hsep hno
  refine ⟨root, hroot, ?_, ?_, ?_⟩
  · intro w
    cases w with
    | nil => rw [Trie.walk]; rfl
    | cons b w =>
      obtain ⟨ans, hwalk, -⟩ := hreads (b :: w) (List.cons_ne_nil b w)
      rw [hwalk]
      rfl
  · intro w info n hwalk
    have hw : w ≠ [] := by
      rintro rfl
      rw [Trie.walk] at hwalk
      cases hwalk
    obtain ⟨ans, hwalk', hans⟩ := hreads w hw
    obtain rfl := Option.some.inj (hwalk'.symm.trans hwalk)
    obtain ⟨u, v, -, -, hu⟩ := hans
    obtain ⟨-, name, hasked, -⟩ := hsound u info hu
    exact hasked.type_ne_unicode
  · intro w behind hw hesc p q hti
    obtain ⟨ans, hwalk, hans⟩ := hreads w hw
    rw [peekkeyTi] at hti
    rw [if_neg hw, hwalk, Option.bind_eq_bind, Option.bind_some] at hti
    cases ans with
    | miss => cases hti
    | more =>
      obtain ⟨v, hv, hpre, hne⟩ := hans
      obtain ⟨info, hv⟩ := Option.isSome_iff_exists.mp hv
      exact ⟨p, (hordinary v info (hsound v info hv)).again hw hesc hpre hne⟩
    | word info n =>
      obtain ⟨u, v, rfl, rfl, hu⟩ := hans
      dsimp only at hti
      split at hti
      swap
      · cases hti
      next hmouse =>
      have hord := hordinary u info (hsound u info hu)
      have hu : u = [0x1b, 0x5b, 0x4d] := by
        cases hord with
        | mouse => rfl
        | _ => contradiction
      subst hu
      exact ⟨q, (peekkeyCsiDriver_mouse v).trans hti⟩

theorem ordinary_cursorTerminal {u : CStr} {info : KeyInfo} (h : Sequence cursorTerminal u info) :
    Ordinary u info := by
  obtain ⟨rfl | rfl | rfl, htype⟩ := sequence_cursorTerminal h
  · exact .ss3 0x41 htype
  · exact .ss3 0x42 htype
  · exact .csi [0x35] 0x7e (by decide) htype

/-- What the Linux console has for its first function key. -/
def linuxConsole (name : CStr) : Option CStr :=
  if name = lit "key_f1" then some [0x1b, 0x5b, 0x5b, 0x41] else none

/-- The Linux console is no terminal of this kind: where its `ESC [ [ A` has come up to the second
bracket, the other driver has read a control sequence to its end. -/
theorem not_settled_linuxConsole (flags : TermKeyFlags) :
    ∃ root, loadTerminfo linuxConsole = some root ∧ ¬ Settled flags root := by
  obtain ⟨root, hroot⟩ := Option.isSome_iff_exists.mp
    (by decide +kernel : (loadTerminfo linuxConsole).isSome = true)
  refine ⟨root, hroot, fun hsettled ↦ ?_⟩
  have hwaits : (loadTerminfo linuxConsole).bind (·.walk [0x1b, 0x5b, 0x5b] 0) = some .more := by
    decide +kernel
  rw [hroot, Option.bind_some] at hwaits
  let p : Peeked := ⟨⟨.unicode, 0, 0, []⟩, 0, 0, 0, none⟩
  have hti : peekkeyTi root false false [0x1b, 0x5b, 0x5b] p = some (.again, p) := by
    rw [peekkeyTi, if_neg (by simp), hwaits]
    rfl
  obtain ⟨q, hcsi⟩ := hsettled [0x1b, 0x5b, 0x5b] [] (by simp) (by simp) p p hti
  cases hcsi

end Rustyaxe.Termkey
