import Rustyaxe.Termkey.Peek
import Rustyaxe.Termkey.Trie

/-!
# The keys of the terminal database

`load_terminfo` and `peekkey` of `tui.driver-ti.c`.  The database, with the hook of the program in
front of it, is a parameter: the text that it gives for the name of a capability, if that is a
text at all and not an empty one.

A trie that has been loaded holds no other sequences than the database does, and each of these, or
a longer one that it begins (`loadTerminfo_cases`).  The driver reads the sequences that it holds.
-/

set_option autoImplicit false

namespace Rustyaxe.Termkey

open PrefixCode Trie

/-- A row of `funcs`: the name of the key, its symbol and its modifiers. -/
structure Func where
  funcname : String
  sym : BitVec 32
  mods : BitVec 32

/-- `funcs`; all of them are of the type `TERMKEY_TYPE_KEYSYM`. -/
def funcs : List Func := [
  ⟨"backspace", TermKeySym.backspace, 0⟩,
  ⟨"begin", TermKeySym.begin, 0⟩,
  ⟨"beg", TermKeySym.begin, 0⟩,
  ⟨"btab", TermKeySym.tab, keymodShift⟩,
  ⟨"cancel", TermKeySym.cancel, 0⟩,
  ⟨"clear", TermKeySym.clear, 0⟩,
  ⟨"close", TermKeySym.close, 0⟩,
  ⟨"command", TermKeySym.command, 0⟩,
  ⟨"copy", TermKeySym.copy, 0⟩,
  ⟨"dc", TermKeySym.delete, 0⟩,
  ⟨"down", TermKeySym.down, 0⟩,
  ⟨"end", TermKeySym.end, 0⟩,
  ⟨"enter", TermKeySym.enter, 0⟩,
  ⟨"exit", TermKeySym.exit, 0⟩,
  ⟨"find", TermKeySym.find, 0⟩,
  ⟨"help", TermKeySym.help, 0⟩,
  ⟨"home", TermKeySym.home, 0⟩,
  ⟨"ic", TermKeySym.insert, 0⟩,
  ⟨"left", TermKeySym.left, 0⟩,
  ⟨"mark", TermKeySym.mark, 0⟩,
  ⟨"message", TermKeySym.message, 0⟩,
  ⟨"move", TermKeySym.move, 0⟩,
  ⟨"next", TermKeySym.pagedown, 0⟩,
  ⟨"npage", TermKeySym.pagedown, 0⟩,
  ⟨"open", TermKeySym.open, 0⟩,
  ⟨"options", TermKeySym.options, 0⟩,
  ⟨"ppage", TermKeySym.pageup, 0⟩,
  ⟨"previous", TermKeySym.pageup, 0⟩,
  ⟨"print", TermKeySym.print, 0⟩,
  ⟨"redo", TermKeySym.redo, 0⟩,
  ⟨"reference", TermKeySym.reference, 0⟩,
  ⟨"refresh", TermKeySym.refresh, 0⟩,
  ⟨"replace", TermKeySym.replace, 0⟩,
  ⟨"restart", TermKeySym.restart, 0⟩,
  ⟨"resume", TermKeySym.resume, 0⟩,
  ⟨"right", TermKeySym.right, 0⟩,
  ⟨"save", TermKeySym.save, 0⟩,
  ⟨"select", TermKeySym.select, 0⟩,
  ⟨"suspend", TermKeySym.suspend, 0⟩,
  ⟨"undo", TermKeySym.undo, 0⟩,
  ⟨"up", TermKeySym.up, 0⟩]

section Load

-- The text of a capability, from the database and the hook: none for `NULL` and `-1`.
variable (tigetstr : CStr → Option CStr)

/-- `try_load_terminfo_key`: whether there is a text, and the trie; no result if the program is
aborted. -/
def tryLoadTerminfoKey (root : Trie KeyInfo) (name : CStr) (info : KeyInfo) :
    Option (Bool × Trie KeyInfo) :=
  match tigetstr name with
  | none => some (false, root)
  | some [] => some (false, root)
  | some value => (insertSeq info root value).map (true, ·)

/-- The keys of a row of `funcs`: `shifted` tells the second one. -/
def Func.info (f : Func) (shifted : Bool) : KeyInfo where
  type := .keysym
  sym := f.sym
  modifierMask := if shifted then f.mods ||| keymodShift else f.mods
  modifierSet := if shifted then f.mods ||| keymodShift else f.mods

def Func.name (f : Func) (shifted : Bool) : CStr :=
  (if shifted then lit "key_s" else lit "key_") ++ lit f.funcname

/-- The first loop of `load_terminfo`. -/
def loadFuncs : List Func → Trie KeyInfo → Option (Trie KeyInfo)
  | [], root => some root
  | f :: fs, root => do
    let (loaded, root) ← tryLoadTerminfoKey tigetstr root (f.name false) (f.info false)
    if loaded then
      let (_, root) ← tryLoadTerminfoKey tigetstr root (f.name true) (f.info true)
      loadFuncs fs root
    else loadFuncs fs root

/-- The key of the capability `key_f<i>`. -/
def functionInfo (i : ℕ) : KeyInfo := ⟨.function, BitVec.ofNat 32 i, 0, 0⟩

def functionName (i : ℕ) : CStr := lit "key_f" ++ decimal i

/-- The second loop of `load_terminfo`, from the function key `i`, with `rounds` of them left. -/
def loadFunctionKeys : (rounds i : ℕ) → Trie KeyInfo → Option (Trie KeyInfo)
  | 0, _, root => some root
  | rounds + 1, i, root => do
    let (loaded, root) ← tryLoadTerminfoKey tigetstr root (functionName i) (functionInfo i)
    if loaded then loadFunctionKeys rounds (i + 1) root else some root

/-- The key of the capability `key_mouse`. -/
def mouseInfo : KeyInfo := ⟨.mouse, 0, 0, 0⟩

/-- `load_terminfo`: the trie; no result if the program is aborted. -/
def loadTerminfo : Option (Trie KeyInfo) := do
  let root ← loadFuncs tigetstr funcs (newNodeArr 0 0xff)
  let root ← loadFunctionKeys tigetstr 254 1 root
  let (_, root) ← tryLoadTerminfoKey tigetstr root (lit "key_mouse") mouseInfo
  return root.compressTrie

end Load

/-- `peekkey`, with the window `w`: no result if the program is aborted. -/
def peekkeyTi (root : Trie KeyInfo) (closed force : Bool) (w : List UInt8) (p : Peeked) :
    Option (TermKeyResult × Peeked) :=
  if w = [] then some (if closed then .eof else .none, p)
  else do
    match ← walk root w 0 with
    | .word info pos =>
      if info.type = .mouse then
        return peekkeyMouseAfter pos w p
      else
        return (.key, { p with
          key := { p.key.setSym info.sym with type := info.type, modifiers := info.modifierSet }
          nbytes := pos })
    | .more => return (if force then .none else .again, p)
    | .miss => return (.none, p)

/-! ## What is loaded -/

section Spec

variable (tigetstr : CStr → Option CStr)

/-- The database has a text for the capability. -/
def Present (name : CStr) : Prop := ∃ u, tigetstr name = some u ∧ u ≠ []

/-- The capabilities that the database is asked for, and their keys. -/
inductive Asked : CStr → KeyInfo → Prop where
  | func {f : Func} (h : f ∈ funcs) : Asked (f.name false) (f.info false)
  | shifted {f : Func} (h : f ∈ funcs) (hpresent : Present tigetstr (f.name false)) :
    Asked (f.name true) (f.info true)
  | function {i : ℕ} (h : 1 ≤ i ∧ i < 255)
    (hpresent : ∀ j, 1 ≤ j → j < i → Present tigetstr (functionName j)) :
    Asked (functionName i) (functionInfo i)
  | mouse : Asked (lit "key_mouse") mouseInfo

/-- The sequences of the terminal, with their keys. -/
def Sequence (u : CStr) (info : KeyInfo) : Prop :=
  u ≠ [] ∧ ∃ name, Asked tigetstr name info ∧ tigetstr name = some u

/-- No sequence begins another one. -/
def Separate : Prop := ∀ u v info info', Sequence tigetstr u info → Sequence tigetstr v info' →
  u <+: v → u = v

/-- A trie that can be inserted to, which holds sequences of the terminal, and all those of the
capabilities `seen`, or longer ones. -/
structure Loaded (seen : CStr → KeyInfo → Prop) (root : Trie KeyInfo) : Prop where
  isNull : root.isNull = false
  full : Full root
  live : LiveBelow root
  sound : ∀ u info, words root u = some info → Sequence tigetstr u info
  complete : ∀ name info u, seen name info → tigetstr name = some u → u ≠ [] →
    ∃ v, (words root v).isSome ∧ u <+: v

/-- What loading comes to: a trie that holds the sequences of the capabilities `seen`, unless one
sequence begins another one. -/
def Goes (seen : CStr → KeyInfo → Prop) (result : Option (Trie KeyInfo)) : Prop :=
  (result = none ∧ ¬ Separate tigetstr) ∨ ∃ root, result = some root ∧ Loaded tigetstr seen root

variable {tigetstr} {seen : CStr → KeyInfo → Prop} {root : Trie KeyInfo}

theorem Loaded.mono (h : Loaded tigetstr seen root) {seen' : CStr → KeyInfo → Prop}
    (hseen : ∀ n i, seen' n i → seen n i) : Loaded tigetstr seen' root :=
  ⟨h.isNull, h.full, h.live, h.sound, fun n i u hn ↦ h.complete n i u (hseen n i hn)⟩

/-- The node below which everything is loaded. -/
theorem Loaded.exists_arr (h : Loaded tigetstr seen root) :
    ∃ min max child, root = arr min max child := by
  cases hroot : root with
  | null =>
    have hnull := h.isNull
    rw [hroot] at hnull
    cases hnull
  | key k => exact absurd rfl (h.sound [] k (by rw [hroot, words_key, if_pos rfl])).1
  | arr min max child => exact ⟨min, max, child, rfl⟩

theorem loaded_newNodeArr :
    Loaded tigetstr (fun _ _ ↦ False) (newNodeArr 0 0xff : Trie KeyInfo) where
  isNull := rfl
  full := ⟨rfl, rfl, fun _ ↦ trivial⟩
  live := fun _ ↦ trivial
  sound u info h := by
    cases u with
    | nil => simp [newNodeArr] at h
    | cons b u => simp [newNodeArr, words] at h
  complete _ _ _ h := h.elim

/-- **One more capability.** -/
theorem tryLoadTerminfoKey_spec (h : Loaded tigetstr seen root) {name : CStr} {info : KeyInfo}
    (hasked : Asked tigetstr name info) :
    (tryLoadTerminfoKey tigetstr root name info = none ∧ ¬ Separate tigetstr) ∨
      ∃ loaded root', tryLoadTerminfoKey tigetstr root name info = some (loaded, root') ∧
        (loaded = true ↔ Present tigetstr name) ∧
        Loaded tigetstr (fun n i ↦ seen n i ∨ n = name ∧ i = info) root' := by
  have hskip : ¬ Present tigetstr name →
      Loaded tigetstr (fun n i ↦ seen n i ∨ n = name ∧ i = info) root := by
    refine fun hno ↦ ⟨h.isNull, h.full, h.live, h.sound, ?_⟩
    rintro n i u (hseen | ⟨rfl, rfl⟩) htext hne
    · exact h.complete n i u hseen htext hne
    · exact absurd ⟨u, htext, hne⟩ hno
  rw [tryLoadTerminfoKey]
  split
  · next htext =>
    have hno : ¬ Present tigetstr name := by
      rintro ⟨u, hu, -⟩
      rw [htext] at hu
      cases hu
    exact .inr ⟨false, root, rfl, by simpa using hno, hskip hno⟩
  · next htext =>
    have hno : ¬ Present tigetstr name := by
      rintro ⟨u, hu, hne⟩
      rw [htext] at hu
      exact hne (Option.some.inj hu).symm
    exact .inr ⟨false, root, rfl, by simpa using hno, hskip hno⟩
  · next u hne htext =>
    have hne : u ≠ [] := hne
    have hsequence : Sequence tigetstr u info := ⟨hne, name, hasked, htext⟩
    rcases insertSeq_spec info h.isNull h.full h.live (u := u) fun hnil ↦ absurd hnil hne with
      ⟨hnone, v, hv, hpre, hvu⟩ | ⟨root', hsome, hins⟩
    · obtain ⟨info', hv⟩ := Option.isSome_iff_exists.mp hv
      refine .inl ⟨by rw [hnone]; rfl, fun hsep ↦ hvu ?_⟩
      exact hsep v u info' info (h.sound v info' hv) hsequence hpre
    · refine .inr ⟨true, root', by rw [hsome]; rfl, by simpa using ⟨u, htext, hne⟩, ?_⟩
      refine ⟨hins.isNull, hins.full, hins.live.below, fun v i hv ↦ ?_, ?_⟩
      · rcases hins.assign with ⟨-, -, hsame⟩ | ⟨-, -, hu, hother⟩
        · exact h.sound v i (hsame v ▸ hv)
        · by_cases hvu : v = u
          · subst hvu
            obtain rfl := Option.some.inj (hv.symm.trans hu)
            exact hsequence
          · exact h.sound v i (hother v hvu ▸ hv)
      · rintro n i v (hseen | ⟨rfl, rfl⟩) hv hvne
        · obtain ⟨v', hv', hpre⟩ := h.complete n i v hseen hv hvne
          obtain ⟨l, hl⟩ := Option.isSome_iff_exists.mp hv'
          exact ⟨v', hins.assign.mono hl ▸ rfl, hpre⟩
        · obtain rfl := Option.some.inj (hv.symm.trans htext)
          exact hins.assign.exists_word

/-- A row of `funcs` stands for a capability that the database is asked for. -/
def OfFuncs (tigetstr : CStr → Option CStr) (fs : List Func) (n : CStr) (i : KeyInfo) : Prop :=
  ∃ f ∈ fs, n = f.name false ∧ i = f.info false ∨
    Present tigetstr (f.name false) ∧ n = f.name true ∧ i = f.info true

theorem loadFuncs_goes {fs : List Func} (hfs : ∀ f ∈ fs, f ∈ funcs)
    (h : Loaded tigetstr seen root) :
    Goes tigetstr (fun n i ↦ seen n i ∨ OfFuncs tigetstr fs n i)
      (loadFuncs tigetstr fs root) := by
  induction fs generalizing seen root with
  | nil =>
    refine .inr ⟨root, rfl, h.mono ?_⟩
    rintro n i (hn | ⟨f, hf, -⟩)
    · exact hn
    · cases hf
  | cons f fs ih =>
    have hf : f ∈ funcs := hfs f List.mem_cons_self
    have hrest : ∀ {seen' : CStr → KeyInfo → Prop} {root' : Trie KeyInfo},
      Loaded tigetstr seen' root' →
        (∀ n i, seen n i ∨ n = f.name false ∧ i = f.info false ∨
          Present tigetstr (f.name false) ∧ n = f.name true ∧ i = f.info true → seen' n i) →
        Goes tigetstr (fun n i ↦ seen n i ∨ OfFuncs tigetstr (f :: fs) n i)
          (loadFuncs tigetstr fs root') := by
      intro seen' root' h' hseen
      rcases ih (fun g hg ↦ hfs g (List.mem_cons_of_mem f hg)) h' with hnone | ⟨r, hr, hl⟩
      · exact .inl hnone
      · refine .inr ⟨r, hr, hl.mono ?_⟩
        rintro n i (hn | ⟨g, hg, hgn⟩)
        · exact .inl (hseen n i (.inl hn))
        · rcases List.mem_cons.mp hg with rfl | hg
          · exact .inl (hseen n i (.inr hgn))
          · exact .inr ⟨g, hg, hgn⟩
    rw [loadFuncs]
    rcases tryLoadTerminfoKey_spec h (.func hf)
      with ⟨hnone, hsep⟩ | ⟨loaded, root1, hsome, hpresent, h1⟩
    · exact .inl ⟨by rw [hnone]; rfl, hsep⟩
    rw [hsome, Option.bind_eq_bind, Option.bind_some]
    cases loaded with
    | false =>
      have hno : ¬ Present tigetstr (f.name false) := fun hp ↦ Bool.false_ne_true (hpresent.mpr hp)
      refine hrest h1 ?_
      rintro n i (hn | hn | ⟨hp, -⟩)
      · exact .inl hn
      · exact .inr hn
      · exact absurd hp hno
    | true =>
      have hp := hpresent.mp rfl
      dsimp only
      rw [if_pos rfl]
      rcases tryLoadTerminfoKey_spec h1 (.shifted hf hp)
        with ⟨hnone, hsep⟩ | ⟨loaded, root2, hsome, -, h2⟩
      · exact .inl ⟨by rw [hnone]; rfl, hsep⟩
      rw [hsome, Option.bind_some]
      refine hrest h2 ?_
      rintro n i (hn | hn | ⟨-, hn⟩)
      · exact .inl (.inl hn)
      · exact .inl (.inr hn)
      · exact .inr hn

theorem loadFunctionKeys_goes {rounds i : ℕ} (hi : 1 ≤ i) (hrounds : i + rounds = 255)
    (hbelow : ∀ j, 1 ≤ j → j < i → Present tigetstr (functionName j))
    (h : Loaded tigetstr seen root) :
    Goes tigetstr (fun n k ↦ seen n k ∨ ∃ j, i ≤ j ∧ j < 255 ∧
        (∀ l, 1 ≤ l → l < j → Present tigetstr (functionName l)) ∧ n = functionName j ∧
          k = functionInfo j)
      (loadFunctionKeys tigetstr rounds i root) := by
  induction rounds generalizing seen root i with
  | zero =>
    refine .inr ⟨root, rfl, h.mono ?_⟩
    rintro n k (hn | ⟨j, hij, hj, -⟩)
    · exact hn
    · omega
  | succ rounds ih =>
    rw [loadFunctionKeys]
    rcases tryLoadTerminfoKey_spec h (.function ⟨hi, by omega⟩ hbelow) with
      ⟨hnone, hsep⟩ | ⟨loaded, root1, hsome, hpresent, h1⟩
    · exact .inl ⟨by rw [hnone]; rfl, hsep⟩
    rw [hsome, Option.bind_eq_bind, Option.bind_some]
    cases loaded with
    | false =>
      refine .inr ⟨root1, rfl, h1.mono ?_⟩
      rintro n k (hn | ⟨j, hij, -, hall, hn⟩)
      · exact .inl hn
      · by_cases hji : j = i
        · exact .inr (hji ▸ hn)
        · exact absurd (hpresent.mpr (hall i hi (by omega))) Bool.false_ne_true
    | true =>
      have hbelow' : ∀ j, 1 ≤ j → j < i + 1 → Present tigetstr (functionName j) := by
        intro j h1j hj
        by_cases hji : j = i
        · exact hji ▸ hpresent.mp rfl
        · exact hbelow j h1j (by omega)
      rcases ih (by omega) (by omega) hbelow' h1 with hnone | ⟨r, hr, hl⟩
      · exact .inl hnone
      · refine .inr ⟨r, hr, hl.mono ?_⟩
        rintro n k (hn | ⟨j, hij, hj, hall, hn⟩)
        · exact .inl (.inl hn)
        · by_cases hji : j = i
          · exact .inl (.inr (hji ▸ hn))
          · exact .inr ⟨j, by omega, hj, hall, hn⟩

/-- **What the driver loads**, and reads then: the sequences of the terminal, or longer ones that
they begin. The program is aborted only if one sequence begins another one. -/
theorem loadTerminfo_cases (tigetstr : CStr → Option CStr) :
    (loadTerminfo tigetstr = none ∧ ¬ Separate tigetstr) ∨
      ∃ root code, loadTerminfo tigetstr = some root ∧ PrefixFree code ∧
        (∀ u info, code u = some info → Sequence tigetstr u info) ∧
        (∀ u info, Sequence tigetstr u info → ∃ v, (code v).isSome ∧ u <+: v) ∧
        ∀ w, w ≠ [] → ∃ ans, walk root w 0 = some ans ∧ PrefixCode.Reads code w ans := by
  rw [loadTerminfo]
  rcases loadFuncs_goes (fun f hf ↦ hf) (@loaded_newNodeArr tigetstr) with
    ⟨hnone, hsep⟩ | ⟨root1, hsome, h1⟩
  · exact .inl ⟨by rw [hnone]; rfl, hsep⟩
  rw [hsome, Option.bind_eq_bind, Option.bind_some]
  have hrounds : 1 + 254 = 255 := rfl
  rcases loadFunctionKeys_goes (Nat.le_refl 1) hrounds (fun j hj hj' ↦ by omega) h1 with
    ⟨hnone, hsep⟩ | ⟨root2, hsome, h2⟩
  · exact .inl ⟨by rw [hnone]; rfl, hsep⟩
  rw [hsome, Option.bind_eq_bind, Option.bind_some]
  rcases tryLoadTerminfoKey_spec h2 .mouse with ⟨hnone, hsep⟩ | ⟨loaded, root3, hsome, -, h3⟩
  · exact .inl ⟨by rw [hnone]; rfl, hsep⟩
  rw [hsome, Option.bind_some]
  refine .inr ⟨root3.compressTrie, root3.words, rfl, root3.words_prefixFree, h3.sound, ?_,
    fun w hw ↦ ?_⟩
  · rintro u info ⟨hne, name, hasked, htext⟩
    refine h3.complete name info u ?_ htext hne
    cases hasked with
    | func hf => exact .inl (.inl (.inr ⟨_, hf, .inl ⟨rfl, rfl⟩⟩))
    | shifted hf hp => exact .inl (.inl (.inr ⟨_, hf, .inr ⟨hp, rfl, rfl⟩⟩))
    | function hi hall => exact .inl (.inr ⟨_, hi.1, hi.2, hall, rfl, rfl⟩)
    | mouse => exact .inr ⟨rfl, rfl⟩
  · obtain ⟨min, max, child, hroot⟩ := h3.exists_arr
    obtain ⟨ans, hwalk, hreads⟩ := walk_reads hroot h3.live (fun hnil ↦ absurd hnil hw) 0
    refine ⟨ans, ?_, hreads⟩
    rw [walk_compressTrie h3.full, hwalk]
    cases ans with
    | word k n => rw [Answer.after, Nat.zero_add]
    | _ => rfl

/-- What the driver says of a key that the first `n` bytes of the window `w` stand for. -/
def tiKey (info : KeyInfo) (n : ℕ) (w : List UInt8) (p : Peeked) : TermKeyResult × Peeked :=
  if info.type = .mouse then peekkeyMouseAfter n w p
  else
    (.key, { p with
      key := { p.key.setSym info.sym with type := info.type, modifiers := info.modifierSet }
      nbytes := n })

/-- **What the driver for the terminal database says**, if no sequence of the terminal begins
another one: the program is not aborted, a window that begins with a sequence is a key, and of the
others the driver waits for those that begin a sequence, unless it is forced. -/
theorem peekkeyTi_loadTerminfo {tigetstr : CStr → Option CStr} (hsep : Separate tigetstr) :
    ∃ root, loadTerminfo tigetstr = some root ∧
    ∀ (closed force : Bool) (w : List UInt8) (p : Peeked),
      w ≠ [] →
        (∀ u info, Sequence tigetstr u info → u <+: w → ∃ info, Sequence tigetstr u info ∧
          peekkeyTi root closed force w p = some (tiKey info u.length w p)) ∧
        ((∀ u info, Sequence tigetstr u info → ¬ u <+: w) →
          ((∃ u info, Sequence tigetstr u info ∧ w <+: u) →
            peekkeyTi root closed force w p = some (if force then .none else .again, p)) ∧
          ((∀ u info, Sequence tigetstr u info → ¬ w <+: u) →
            peekkeyTi root closed force w p = some (.none, p))) := by
  rcases loadTerminfo_cases tigetstr
    with ⟨-, hno⟩ | ⟨root, code, hroot, hfree, hsound, hcomplete, hreads⟩
  · exact absurd hsep hno
  refine ⟨root, hroot, fun closed force w p hw ↦ ?_⟩
  have hword : ∀ u info, Sequence tigetstr u info → ∃ info, code u = some info := by
    intro u info hu
    obtain ⟨v, hv, huv⟩ := hcomplete u info hu
    obtain ⟨l, hl⟩ := Option.isSome_iff_exists.mp hv
    obtain rfl := hsep u v info l hu (hsound v l hl) huv
    exact ⟨l, hl⟩
  obtain ⟨ans, hwalk, hans⟩ := hreads w hw
  rw [peekkeyTi]
  rw [if_neg hw, hwalk, Option.bind_eq_bind, Option.bind_some]
  refine ⟨fun u info hu huw ↦ ?_, fun hnone ↦ ⟨?_, fun hnot ↦ ?_⟩⟩
  · obtain ⟨l, hl⟩ := hword u info hu
    obtain ⟨rest, rfl⟩ := huw
    have hread : PrefixCode.Reads code (u ++ rest) (.word l u.length) := ⟨u, rest, rfl, rfl, hl⟩
    obtain rfl := hans.unique hfree hread
    refine ⟨l, hsound u l hl, ?_⟩
    rw [tiKey]
    dsimp only
    split <;> rfl
  · rintro ⟨u, info, hu, hwu⟩
    obtain ⟨l, hl⟩ := hword u info hu
    have hread : PrefixCode.Reads code w .more :=
      ⟨u, hl ▸ rfl, hwu, fun hwu ↦ hnone u info hu (hwu ▸ List.prefix_refl u)⟩
    obtain rfl := hans.unique hfree hread
    rfl
  · have hread : PrefixCode.Reads code w .miss := by
      refine ⟨fun ⟨v, hv, hwv, _⟩ ↦ ?_, fun u hu ↦ ?_⟩
      · obtain ⟨l, hl⟩ := Option.isSome_iff_exists.mp hv
        exact hnot v l (hsound v l hl) hwv
      · cases hcode : code u with
        | none => rfl
        | some l => exact absurd hu (hnone u l (hsound u l hcode))
    obtain rfl := hans.unique hfree hread
    rfl

theorem Asked.type_ne_unicode {tigetstr : CStr → Option CStr} {name : CStr} {info : KeyInfo}
    (h : Asked tigetstr name info) : info.type ≠ .unicode := by
  cases h with
  | func hf => simp [Func.info]
  | shifted hf _ => simp [Func.info]
  | function _ _ => simp [functionInfo]
  | mouse => simp [mouseInfo]

theorem Asked.type_ne_mouse {tigetstr : CStr → Option CStr} {name : CStr} {info : KeyInfo}
    (h : Asked tigetstr name info) (hname : name ≠ lit "key_mouse") : info.type ≠ .mouse := by
  cases h with
  | func hf => simp [Func.info]
  | shifted hf _ => simp [Func.info]
  | function _ _ => simp [functionInfo]
  | mouse => exact absurd rfl hname

/-- A terminal that has sequences for three keys, two of which begin alike. -/
def cursorTerminal (name : CStr) : Option CStr :=
  if name = lit "key_up" then some [0x1b, 0x4f, 0x41]
  else if name = lit "key_down" then some [0x1b, 0x4f, 0x42]
  else if name = lit "key_ppage" then some [0x1b, 0x5b, 0x35, 0x7e]
  else none

theorem sequence_cursorTerminal {u : CStr} {info : KeyInfo} (h : Sequence cursorTerminal u info) :
    (u = [0x1b, 0x4f, 0x41] ∨ u = [0x1b, 0x4f, 0x42] ∨ u = [0x1b, 0x5b, 0x35, 0x7e]) ∧
      info.type ≠ .mouse := by
  obtain ⟨-, name, hasked, htext⟩ := h
  refine ⟨?_, hasked.type_ne_mouse fun hname ↦ ?_⟩
  · rw [cursorTerminal] at htext
    split_ifs at htext
    · exact .inl (Option.some.inj htext).symm
    · exact .inr (.inl (Option.some.inj htext).symm)
    · exact .inr (.inr (Option.some.inj htext).symm)
  · subst hname
    cases htext

theorem separate_cursorTerminal : Separate cursorTerminal := by
  intro u v info info' hu hv hpre
  rcases (sequence_cursorTerminal hu).1 with rfl | rfl | rfl <;>
    rcases (sequence_cursorTerminal hv).1 with rfl | rfl | rfl <;>
    first
    | rfl
    | exact absurd hpre (by decide)

/-- What begins two sequences is waited for, and one of them is read at its end. -/
theorem peekkeyTi_cursorTerminal :
    ∃ root, loadTerminfo cursorTerminal = some root ∧ ∀ p,
      peekkeyTi root false false [0x1b, 0x4f] p = some (.again, p) ∧
        (∃ key, peekkeyTi root false false [0x1b, 0x4f, 0x42, 0x61] p =
          some (.key, { p with key, nbytes := 3 })) ∧
        peekkeyTi root false false [0x1b, 0x5a] p = some (.none, p) := by
  obtain ⟨root, hroot, h⟩ := peekkeyTi_loadTerminfo separate_cursorTerminal
  have hdown : ∃ info, Sequence cursorTerminal [0x1b, 0x4f, 0x42] info :=
    ⟨_, by simp, lit "key_down", .func (f := ⟨"down", TermKeySym.down, 0⟩) (by simp [funcs]), rfl⟩
  obtain ⟨info, hdown⟩ := hdown
  have hno : ∀ w : List UInt8, w.length = 2 → ∀ u info, Sequence cursorTerminal u info →
      ¬ u <+: w := by
    intro w hw u info hu hpre
    have hlen := hpre.length_le
    rcases (sequence_cursorTerminal hu).1 with rfl | rfl | rfl <;> simp [hw] at hlen
  refine ⟨root, hroot, fun p ↦ ⟨?_, ?_, ?_⟩⟩
  · exact ((h false false [0x1b, 0x4f] p (by simp)).2 (hno _ rfl)).1 ⟨_, info, hdown, ⟨[0x42], rfl⟩⟩
  · obtain ⟨info, hinfo, hkey⟩ := (h false false [0x1b, 0x4f, 0x42, 0x61] p (by simp)).1 _ info
      hdown ⟨[0x61], rfl⟩
    rw [hkey, tiKey, if_neg (sequence_cursorTerminal hinfo).2]
    exact ⟨_, rfl⟩
  · refine ((h false false [0x1b, 0x5a] p (by simp)).2 (hno _ rfl)).2 fun u info hu hpre ↦ ?_
    rcases (sequence_cursorTerminal hu).1 with rfl | rfl | rfl <;> exact absurd hpre (by decide)

end Spec

end Rustyaxe.Termkey
