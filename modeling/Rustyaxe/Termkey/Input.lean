import Rustyaxe.Termkey.Stream

/-!
# Keys for the screen

`stdin_ev_cb` of `tui.keys.c`, as far as it reads keys: what it does with them is in `Tui.Keys`.

It hands over every key of the bytes that have been read so far (`stdinEvCb_keys`).  But there is
input after which it never hands over anything again: what fills the buffer and is still waited
for (`jammed`).  `termkey_getkey_force` would take it off the buffer, and `termkey_set_buffer_size`
would make room for more, but the callback calls neither.
-/

set_option autoImplicit false

namespace Rustyaxe.Termkey

open Runs TermKey

/-- The loop of `stdin_ev_cb`, with the key that it hands over each time. -/
def stdinKeys : (fuel : ℕ) → TermKey → TermKeyKey → Option (List TermKeyKey × TermKey)
  | 0, _, _ => none
  | fuel + 1, tk, key => do
    let (res, tk, key) ← tk.termkeyGetkey key
    if res = .none ∨ res = .eof ∨ res = .again then return ([], tk)
    let (keys, tk) ← stdinKeys fuel tk key
    return (key :: keys, tk)

/-- `stdin_ev_cb`, with what `read` comes back with and what is in its `key`. -/
def stdinEvCb (tk : TermKey) (reads : List ReadResult) (key : TermKeyKey) :
    Option (List TermKeyKey × TermKey) := do
  let (_, tk) ← tk.termkeyAdvisereadable reads
  -- There cannot be more keys than bytes.
  stdinKeys (tk.buffcount + 1) tk key

/-- A call of `stdin_ev_cb`. -/
structure StdinEvent where
  reads : List ReadResult
  key : TermKeyKey
  utf8_length : key.utf8.length = 7

def Session.stdinStep (s : Session) (e : StdinEvent) : Option Session := do
  let (keys, tk) ← stdinEvCb s.tk e.reads e.key
  return ⟨tk, s.received ++ s.tk.readBytes e.reads, s.reported ++ keys.map (·.view)⟩

variable {flags : TermKeyFlags} {root : Trie KeyInfo} {hterm : Terminal flags root}
  {s s' : Session} {queue : List UInt8} {tk' : TermKey}

/-- **The loop** takes all the keys there are. -/
theorem stdinKeys_inv (h : s.Inv hterm queue) {fuel : ℕ} {key : TermKeyKey}
    (hkey : key.utf8.length = 7) {keys : List TermKeyKey}
    (hkeys : stdinKeys fuel s.tk key = some (keys, tk')) :
    ∃ queue', Session.Inv hterm ⟨tk', s.received, s.reported ++ keys.map (·.view)⟩ queue' ∧
      readKey flags root tk'.saved queue' = none := by
  induction fuel generalizing s key keys queue with
  | zero => cases hkeys
  | succ fuel ih =>
    obtain ⟨⟨res, tk1, key1⟩, hget, hrest⟩ := Option.bind_eq_some_iff.mp hkeys
    obtain ⟨hkey1, -, queue1, hsound1, heffect, hcase⟩ := h.getkey hterm hkey hget
    have h1 := h.effect hsound1 heffect
    rcases hcase with ⟨rfl, -⟩ | ⟨hres, hread⟩
    · obtain ⟨⟨keys1, tk2⟩, hmore, hrest⟩ := Option.bind_eq_some_iff.mp hrest
      obtain ⟨rfl, rfl⟩ := Prod.mk.inj (Option.some.inj hrest)
      obtain ⟨queue', h', hread'⟩ := ih h1 hkey1 hmore
      refine ⟨queue', ?_, hread'⟩
      have hreported : (s.report .key tk1 key1).reported = s.reported ++ [key1.view] := rfl
      rw [hreported, List.append_assoc] at h'
      exact h'
    · have hstop : res = .none ∨ res = .eof ∨ res = .again := by
        rcases hres with rfl | rfl | rfl <;> simp
      have hne : res ≠ .key := by rcases hres with rfl | rfl | rfl <;> simp
      dsimp only at hrest
      rw [if_pos hstop] at hrest
      obtain ⟨rfl, rfl⟩ := Prod.mk.inj (Option.some.inj hrest)
      refine ⟨queue1, ?_, hread⟩
      rw [Session.report, if_neg hne] at h1
      rw [List.map_nil, List.append_nil]
      exact h1

/-- The loop ends, if what has been received is clean. -/
theorem stdinKeys_exists (h : s.Inv hterm queue) (hclean : Clean flags s.received) {fuel : ℕ}
    (hfuel : queue.length < fuel) {key : TermKeyKey} (hkey : key.utf8.length = 7) :
    (stdinKeys fuel s.tk key).isSome := by
  induction fuel generalizing s key queue with
  | zero => exact absurd hfuel (Nat.not_lt_zero _)
  | succ fuel ih =>
    obtain ⟨res, tk1, key1, hget, -⟩ := h.exists_answer hterm hclean hkey
    rw [stdinKeys, hget, Option.bind_eq_bind, Option.bind_some]
    dsimp only
    split
    · rfl
    next hgo =>
    obtain ⟨hkey1, -, queue1, hsound1, heffect, hcase⟩ := h.getkey hterm hkey hget
    rcases hcase with ⟨rfl, hlt⟩ | ⟨hres, -⟩
    · obtain ⟨o, ho⟩ := Option.isSome_iff_exists.mp
        (ih (h.effect hsound1 heffect) hclean (by omega) hkey1)
      have ho' : stdinKeys fuel tk1 key1 = some o := ho
      rw [ho']
      rfl
    · refine absurd ?_ hgo
      rcases hres with rfl | rfl | rfl <;> simp

/-- Reading is an event of the session. -/
theorem step_readable {reads : List ReadResult} {r : TermKeyResult} {tk1 : TermKey}
    (hread : s.tk.termkeyAdvisereadable reads = some (r, tk1)) :
    s.step (.readable reads) = some ⟨tk1, s.received ++ s.tk.readBytes reads, s.reported⟩ := by
  rw [Session.step, hread]
  rfl

theorem not_forced_readable (reads : List ReadResult) : ¬ (TermEvent.readable reads).Forced := by
  rintro ⟨key, hkey, h⟩
  cases h

/-- **A call of the callback** takes all the keys there are. -/
theorem stdinStep_inv (h : s.Inv hterm queue) {e : StdinEvent} (hstep : s.stdinStep e = some s') :
    ∃ queue', s'.Inv hterm queue' ∧ readKey flags root s'.tk.saved queue' = none := by
  obtain ⟨⟨keys, tk'⟩, hcall, hstep⟩ := Option.bind_eq_some_iff.mp hstep
  obtain rfl := Option.some.inj hstep
  obtain ⟨⟨r, tk1⟩, hread, hkeys⟩ := Option.bind_eq_some_iff.mp hcall
  obtain ⟨queue1, h1⟩ := h.step (not_forced_readable e.reads) (step_readable hread)
  exact stdinKeys_inv h1 e.utf8_length hkeys

/-- A call comes back if `read` does and what has been received is clean. -/
theorem stdinStep_exists (h : s.Inv hterm queue) (e : StdinEvent)
    (hreads : (readRetry s.tk.flagEintr e.reads).isSome)
    (hclean : Clean flags (s.received ++ s.tk.readBytes e.reads)) :
    ∃ s', s.stdinStep e = some s' ∧ s'.received = s.received ++ s.tk.readBytes e.reads := by
  have hplaced := h.placed (hclean.mono (List.prefix_append _ _).isInfix)
  obtain ⟨⟨r, tk1⟩, hread⟩ := termkeyAdvisereadable_exists h.carries hplaced hreads
  obtain ⟨queue1, h1⟩ := h.step (not_forced_readable e.reads) (step_readable hread)
  have hfuel : queue1.length < tk1.buffcount + 1 := by
    have hlen : queue1.length + tk1.hightide = tk1.buffcount := h1.carries.length
    omega
  obtain ⟨⟨keys, tk'⟩, hkeys⟩ :=
    Option.isSome_iff_exists.mp (stdinKeys_exists h1 hclean hfuel e.utf8_length)
  have hkeys' : stdinKeys (tk1.buffcount + 1) tk1 e.key = some (keys, tk') := hkeys
  have hcall : stdinEvCb s.tk e.reads e.key = some (keys, tk') := by
    rw [stdinEvCb, hread]
    exact hkeys'
  refine ⟨⟨tk', s.received ++ s.tk.readBytes e.reads, s.reported ++ keys.map (·.view)⟩, ?_, rfl⟩
  rw [Session.stdinStep, hcall]
  rfl

/-- **The keys that are handed over** are all those of the bytes that have been read, after every
call, however the bytes were cut into pieces. -/
theorem stdinEvCb_keys (hterm : Terminal flags root) (flagEintr hasFd : Bool)
    (memory : Vector UInt8 256) (events : List StdinEvent) (s : Session)
    (hrun : runSteps Session.stdinStep (.new flags flagEintr hasFd root memory) events = some s) :
    s.reported = ((keyDecoder hterm).decode (0, none) s.received).1 := by
  have hnil : readKey flags root (0, none) [] = none := rfl
  obtain ⟨queue, h, hread⟩ := inv_of_runSteps
    (I := fun s ↦ ∃ queue, s.Inv hterm queue ∧ readKey flags root s.tk.saved queue = none)
    ⟨[], Session.inv_new hterm flagEintr hasFd memory, hnil⟩
    (fun _ _ _ ⟨_, h, _⟩ hstep ↦ stdinStep_inv h hstep) events s hrun
  rw [h.follows.of_waits hread]

/-- A call in which `read` is interrupted once. -/
def cursorRead : StdinEvent := ⟨[.eintr, .data cursorInput], zeroKey, length_utf8_zeroKey⟩

theorem stdinEvCb_keys_cursorTerminal : ∃ root, ∃ hterm : Terminal tuiFlags root, ∃ s,
    loadTerminfo cursorTerminal = some root ∧
      runSteps Session.stdinStep (.new tuiFlags false true root zeroMemory) [cursorRead] = some s ∧
        s.reported = ((keyDecoder hterm).decode (0, none) s.received).1 ∧
          s.received = cursorInput ∧ s.reported = cursorKeys := by
  generalize zeroMemory = memory
  obtain ⟨root, hterm, hroot, hdecode⟩ := decode_cursorInput
  have h0 := Session.inv_new hterm false true memory
  have hsize : (termkeyNew tuiFlags false true root memory).buffsize = 256 := memory.length_toList
  have hbytes : (termkeyNew tuiFlags false true root memory).readBytes cursorRead.reads =
      cursorInput := by
    show (termkeyNew tuiFlags false true root memory).accepted cursorInput = cursorInput
    refine List.take_of_length_le ?_
    rw [hsize]
    exact (by decide : cursorInput.length ≤ 256 - 0)
  obtain ⟨s, hs, hreceived⟩ := stdinStep_exists h0 cursorRead rfl (by
    rw [Session.new, hbytes]
    exact clean_cursorInput)
  have hreceived' : s.received = cursorInput := by
    rw [hreceived, Session.new, hbytes]
    rfl
  have hrun : runSteps Session.stdinStep (.new tuiFlags false true root memory) [cursorRead] =
      some s := congrArg (Option.bind · _) hs
  have hkeys := stdinEvCb_keys hterm false true memory [cursorRead] s hrun
  refine ⟨root, hterm, s, hroot, hrun, hkeys, hreceived', ?_⟩
  rw [hkeys, hreceived', hdecode]

/-! ## Input that jams -/

/-- The bytes `queue` fill the buffer, and are waited for. -/
structure Jammed (flags : TermKeyFlags) (root : Trie KeyInfo) (s : Session) (queue : List UInt8) :
    Prop extends s.Sound flags root queue where
  full : queue.length = s.tk.buffsize
  waits : readKey flags root s.tk.saved queue = none

/-- Nothing happens any more. -/
theorem Jammed.step (hterm : Terminal flags root) (h : Jammed flags root s queue) {e : TermEvent}
    (he : ¬ e.Forced) (hstep : s.step e = some s') :
    Jammed flags root s' queue ∧ s'.received = s.received ∧ s'.reported = s.reported := by
  obtain ⟨hsame, queue', hsound, heffect⟩ := h.toSound.step hterm hstep
  have hfull : queue.length = s'.tk.buffsize := h.full.trans hsame.buffsize.symm
  cases heffect he with
  | receives bytes hle hreceived hreported hsaved =>
    have hlen := h.carries.length
    have hnil : bytes = [] := by
      rw [← List.length_eq_zero_iff]
      have hfull' := h.full
      omega
    subst hnil
    rw [List.append_nil] at hreceived hsound
    exact ⟨⟨hsound, hfull, hsaved ▸ h.waits⟩, hreceived, hreported⟩
  | key hread _ _ =>
    rw [h.flags_eq, h.root_eq, h.waits] at hread
    cases hread
  | waits _ hreceived hreported hsaved =>
    exact ⟨⟨hsound, hfull, hsaved ▸ h.waits⟩, hreceived, hreported⟩

/-- **Input that fills the buffer and is still waited for**, such as a long control string, is the
last that is ever taken, and no key is returned any more, as long as none is demanded. -/
theorem jammed (hterm : Terminal flags root) (h : Jammed flags root s queue)
    (events : List TermEvent) (hevents : ∀ e ∈ events, ¬ e.Forced)
    (hrun : runSteps Session.step s events = some s') :
    s'.received = s.received ∧ s'.reported = s.reported ∧ s'.tk.Carries queue := by
  obtain ⟨hjam, hreceived, hreported⟩ := inv_of_noStep
    (I := fun t ↦ Jammed flags root t queue ∧ t.received = s.received ∧ t.reported = s.reported)
    ⟨h, rfl, rfl⟩ (fun t e t' ⟨hjam, hreceived, hreported⟩ he hstep ↦ by
      obtain ⟨hjam', hreceived', hreported'⟩ := hjam.step hterm he hstep
      exact ⟨hjam', hreceived'.trans hreceived, hreported'.trans hreported⟩)
    (Session.noStep_forced hevents s) events s' (List.prefix_refl events) hrun
  exact ⟨hreceived, hreported, hjam.carries⟩

/-- A string of 254 bytes that has not ended. -/
def longString : List UInt8 := 0x1b :: 0x50 :: List.replicate 254 0x61

theorem mem_longString {c : UInt8} (h : c ∈ longString) : c = 0x1b ∨ c = 0x50 ∨ c = 0x61 := by
  rw [longString, List.mem_cons, List.mem_cons] at h
  exact h.imp_right (Or.imp_right List.eq_of_mem_replicate)

theorem clean_longString : Clean tuiFlags longString where
  single := by decide +kernel
  sequences intro hintro body cmd _ _ _ hinf := by
    have hmem : ∀ c ∈ intro, c ∈ longString := fun c hc ↦ hinf.subset (by simp [hc])
    rw [List.mem_cons, List.mem_singleton] at hintro
    rcases hintro with rfl | rfl
    · exact absurd (mem_longString (hmem 0x5b (by simp))) (by decide)
    · exact absurd (mem_longString (hmem 0x9b (by simp))) (by decide)
  strings intro _ stop hstop body _ hinf := by
    have hmem : ∀ c ∈ stop, c ∈ longString := fun c hc ↦ hinf.subset (by simp [hc])
    rw [stringEnds, List.mem_cons, List.mem_singleton] at hstop
    rcases hstop with rfl | rfl
    · exact absurd (mem_longString (hmem 0x9c (by simp))) (by decide)
    · exact absurd (mem_longString (hmem 0x5c (by simp))) (by decide)

theorem jammed_longString : ∃ root, ∃ _ : Terminal tuiFlags root, ∃ s s',
    loadTerminfo cursorTerminal = some root ∧
      Session.step (.new tuiFlags false true root zeroMemory) (.push longString) = some s ∧
        Jammed tuiFlags root s longString ∧
          runSteps Session.step s [.push [0x9c], .getkey zeroKey length_utf8_zeroKey] = some s' ∧
            s'.received = longString ∧ s'.reported = [] ∧ s'.tk.Carries longString := by
  generalize zeroMemory = memory
  obtain ⟨root, hterm, hroot, -⟩ := readKey_cursorTerminal
  have hwaits : (loadTerminfo cursorTerminal).bind (readKey tuiFlags · (0, none) longString) =
    none := by decide +kernel
  rw [hroot, Option.bind_some] at hwaits
  have h0 := Session.sound_new tuiFlags false true root memory
  have hsize : (termkeyNew tuiFlags false true root memory).buffsize = 256 := memory.length_toList
  have hlen : longString.length = 256 := by
    rw [longString, List.length_cons, List.length_cons, List.length_replicate]
  obtain ⟨tk1, hstep1, hsize1, hsaved1, h1⟩ := h0.exists_push
    (clean_longString.mono List.nil_infix) longString (by
      show 0 + longString.length ≤ (termkeyNew tuiFlags false true root memory).buffsize
      rw [hsize, hlen])
  have hjam : Jammed tuiFlags root ⟨tk1, longString, []⟩ longString :=
    ⟨h1, hlen.trans (hsize.symm.trans hsize1.symm), by rw [hsaved1]; exact hwaits⟩
  obtain ⟨s2, hstep2⟩ := Option.isSome_iff_exists.mp
    (h1.exists_step hterm clean_longString (e := .push [0x9c]) fun _ he ↦ by cases he)
  have hpush : ¬ (TermEvent.push [0x9c]).Forced := by simp [TermEvent.Forced]
  obtain ⟨hjam2, hreceived2, -⟩ := hjam.step hterm hpush hstep2
  obtain ⟨s3, hstep3⟩ := Option.isSome_iff_exists.mp
    (hjam2.exists_step hterm (hreceived2 ▸ clean_longString)
      (e := .getkey zeroKey length_utf8_zeroKey) fun _ he ↦ by cases he)
  have hrun : runSteps Session.step ⟨tk1, longString, []⟩
      [.push [0x9c], .getkey zeroKey length_utf8_zeroKey] = some s3 := by
    rw [runSteps, List.foldlM_cons]
    have hstep2' : Session.step ⟨tk1, longString, []⟩ (.push [0x9c]) = some s2 := hstep2
    rw [hstep2', Option.bind_eq_bind, Option.bind_some, List.foldlM_cons, hstep3]
    rfl
  exact ⟨root, hterm, _, s3, hroot, hstep1, hjam, hrun, jammed hterm hjam
    [.push [0x9c], .getkey zeroKey length_utf8_zeroKey] (by simp [TermEvent.Forced]) hrun⟩

end Rustyaxe.Termkey
