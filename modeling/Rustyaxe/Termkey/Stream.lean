import Rustyaxe.Lib.Runs
import Rustyaxe.Termkey.Clean

/-!
# Keys of a stream of bytes

What `termkey_getkey` returns is decoded from the bytes that have been received, one after the
other, by the `Decoder` of the terminal: it does not matter how they were cut into pieces, when
they came between the calls, or what the key has held that a call is given (`keys_of_run`).
`termkey_getkey_force` takes bytes off the buffer that are no key yet, and what comes after them is
read on its own then.  But the calls go on to come back, as long as the input is clean
(`run_goes_on`).
-/

set_option autoImplicit false

namespace Rustyaxe.Termkey

open Runs TermKey

/-- What happens to a `TermKey`: bytes are pushed, or read from the terminal, and a key is asked
for, or demanded, with a key that has held anything. -/
inductive TermEvent where
  | push (bytes : List UInt8)
  | readable (reads : List ReadResult)
  | getkey (key : TermKeyKey) (hkey : key.utf8.length = 7)
  | force (key : TermKeyKey) (hkey : key.utf8.length = 7)

/-- A key is demanded. -/
def TermEvent.Forced (e : TermEvent) : Prop := ∃ key hkey, e = .force key hkey

/-- A `TermKey` with what it has received and the keys that it has returned. -/
structure Session where
  tk : TermKey
  received : List UInt8
  reported : List KeyView

namespace Session

/-- What a call has returned is reported if it is a key. -/
def report (s : Session) (r : TermKeyResult) (tk : TermKey) (key : TermKeyKey) : Session :=
  { s with tk, reported := if r = .key then s.reported ++ [key.view] else s.reported }

def step (s : Session) : TermEvent → Option Session
  | .push bytes => do
    let (n, tk) ← s.tk.termkeyPushBytes bytes
    return { s with tk, received := s.received ++ bytes.take (n.getD 0) }
  | .readable reads => do
    let (_, tk) ← s.tk.termkeyAdvisereadable reads
    return { s with tk, received := s.received ++ s.tk.readBytes reads }
  | .getkey key _ => do
    let (r, tk, key) ← s.tk.termkeyGetkey key
    return s.report r tk key
  | .force key _ => do
    let (r, tk, key) ← s.tk.termkeyGetkeyForce key
    return s.report r tk key

/-- What holds between the events: `queue` is what is still to be read. -/
structure Sound (flags : TermKeyFlags) (root : Trie KeyInfo) (s : Session) (queue : List UInt8) :
    Prop where
  flags_eq : s.tk.flags = flags
  root_eq : s.tk.root = root
  isStarted : s.tk.isStarted = true
  carries : s.tk.Carries queue
  suffix : queue <:+ s.received
  count : s.tk.buffcount ≤ s.received.length
  placed : Clean flags s.received → s.tk.Placed

variable {flags : TermKeyFlags} {root : Trie KeyInfo} {s s' : Session} {queue queue' : List UInt8}
  {key key' : TermKeyKey} {tk' : TermKey} {r : TermKeyResult}

/-! ## One event -/

/-- Nothing has been received. -/
theorem Sound.next (h : s.Sound flags root queue) (hsame : SameTerminal s.tk tk')
    (hcount : tk'.buffcount ≤ s.tk.buffcount) (hcarries : tk'.Carries queue')
    (hsuffix : queue' <:+ queue) (hplaced : Clean flags s.received → tk'.Placed)
    (reported : List KeyView) : Sound flags root ⟨tk', s.received, reported⟩ queue' where
  flags_eq := hsame.flags.trans h.flags_eq
  root_eq := hsame.root.trans h.root_eq
  isStarted := hsame.isStarted.trans h.isStarted
  carries := hcarries
  suffix := hsuffix.trans h.suffix
  count := hcount.trans h.count
  placed := hplaced

/-- Bytes have been received. -/
theorem Sound.receive (h : s.Sound flags root queue) {bytes : List UInt8} (hkept : Kept s.tk tk')
    (hcarries : tk'.Carries (queue ++ bytes)) (hplaced : s.tk.Placed → tk'.Placed) :
    Sound flags root ⟨tk', s.received ++ bytes, s.reported⟩ (queue ++ bytes) where
  flags_eq := hkept.flags.trans h.flags_eq
  root_eq := hkept.root.trans h.root_eq
  isStarted := hkept.isStarted.trans h.isStarted
  carries := hcarries
  suffix := by
    obtain ⟨pre, hpre⟩ := h.suffix
    rw [← hpre, List.append_assoc]
    exact List.suffix_append _ _
  count := by
    have hlen := h.carries.length
    have hlen' := hcarries.length
    have hcount := h.count
    have hhigh := hkept.hightide
    rw [List.length_append] at hlen' ⊢
    show tk'.buffcount ≤ s.received.length + bytes.length
    omega
  placed hclean := hplaced (h.placed (hclean.mono (List.prefix_append _ _).isInfix))

/-- What an event does in which no key is demanded. -/
inductive Effect (s s' : Session) (queue : List UInt8) : List UInt8 → Prop where
  | receives (bytes : List UInt8) : bytes.length ≤ s.tk.buffsize - s.tk.buffcount →
    s'.received = s.received ++ bytes → s'.reported = s.reported → s'.tk.saved = s.tk.saved →
      Effect s s' queue (queue ++ bytes)
  | key {view : KeyView} {n : ℕ} :
    readKey s.tk.flags s.tk.root s.tk.saved queue = some (view, s'.tk.saved, n) →
      s'.received = s.received → s'.reported = s.reported ++ [view] →
        Effect s s' queue (queue.drop n)
  | waits : readKey s.tk.flags s.tk.root s.tk.saved queue = none → s'.received = s.received →
    s'.reported = s.reported → s'.tk.saved = s.tk.saved → Effect s s' queue queue

/-- **A key that is asked for**: the first one of the queue, or there is none. -/
theorem Sound.getkey (hterm : Terminal flags root) (h : s.Sound flags root queue)
    (hkey : key.utf8.length = 7) (hget : s.tk.termkeyGetkey key = some (r, tk', key')) :
    key'.utf8.length = 7 ∧ SameTerminal s.tk tk' ∧ ∃ queue',
      (s.report r tk' key').Sound flags root queue' ∧ Effect s (s.report r tk' key') queue queue' ∧
        (r = .key ∧ queue'.length < queue.length ∨
          (r = .again ∨ r = .eof ∨ r = .none) ∧ readKey flags root tk'.saved queue' = none) := by
  have hterm' : Terminal s.tk.flags s.tk.root := by
    rw [h.flags_eq, h.root_eq]
    exact hterm
  have hspec := termkeyGetkey_spec hterm' h.isStarted h.carries hkey
  rw [hget] at hspec
  cases hspec with
  | key hsame hcount hkey' hread hcarries hplaced =>
    obtain ⟨hpos, hle⟩ := (keyDecoder hterm').takes hread
    refine ⟨hkey', hsame, _, h.next hsame hcount hcarries (List.drop_suffix _ _)
      (fun _ ↦ hplaced) _, .key hread rfl rfl, .inl ⟨rfl, ?_⟩⟩
    rw [List.length_drop]
    omega
  | waits hsame hcount hkey' hr hread hsaved hcarries hplaced =>
    have hr' : r = .again ∨ r = .eof ∨ r = .none := hr.imp_right And.right
    have hne : r ≠ .key := by rcases hr' with rfl | rfl | rfl <;> simp
    refine ⟨hkey', hsame, queue, h.next hsame hcount hcarries (List.suffix_refl _)
      (fun hclean ↦ ?_) _, .waits hread rfl (if_neg hne) hsaved, .inr ⟨hr', ?_⟩⟩
    · exact hplaced (hclean.mono h.suffix.isInfix).escapes_le_one
    · rw [hsaved, ← h.flags_eq, ← h.root_eq]
      exact hread

/-- A key that is demanded. -/
theorem Sound.force (h : s.Sound flags root queue)
    (hget : s.tk.termkeyGetkeyForce key = some (r, tk', key')) :
    SameTerminal s.tk tk' ∧ ∃ queue', (s.report r tk' key').Sound flags root queue' := by
  have hspec := termkeyGetkeyForce_spec h.isStarted h.carries key
  rw [hget] at hspec
  cases hspec with
  | key hsame hcount _ _ hcarries hplaced =>
    exact ⟨hsame, _, h.next hsame hcount hcarries (List.drop_suffix _ _) (fun _ ↦ hplaced) _⟩
  | waits hsame hcount _ hcarries hplaced =>
    exact ⟨hsame, queue, h.next hsame hcount hcarries (List.suffix_refl _) (fun _ ↦ hplaced) _⟩

/-- **What an event does.** -/
theorem Sound.step (hterm : Terminal flags root) (h : s.Sound flags root queue) {e : TermEvent}
    (hstep : s.step e = some s') :
    SameTerminal s.tk s'.tk ∧ ∃ queue', s'.Sound flags root queue' ∧
      (¬ e.Forced → Effect s s' queue queue') := by
  cases e with
  | push bytes =>
    rcases termkeyPushBytes_spec h.carries bytes with
      ⟨-, hnone⟩ | ⟨n, tk', hsome, hbytes, hcarries, hplaced, hkept, -⟩
    · rw [Session.step, hnone] at hstep
      cases hstep
    · rw [Session.step, hsome] at hstep
      obtain rfl := Option.some.inj hstep
      rw [hbytes]
      exact ⟨hkept.toSameTerminal, _, h.receive hkept hcarries fun _ ↦ hplaced, fun _ ↦
        .receives _ (length_accepted_le _ _) rfl rfl hkept.saved⟩
  | readable reads =>
    obtain ⟨⟨r, tk'⟩, hread, hstep⟩ :=
      Option.bind_eq_some_iff.mp (id hstep : Option.bind _ _ = some s')
    obtain rfl := Option.some.inj hstep
    obtain ⟨hcarries, hplaced, hkept⟩ := termkeyAdvisereadable_spec h.carries hread
    exact ⟨hkept.toSameTerminal, _, h.receive hkept hcarries hplaced, fun _ ↦
      .receives _ (length_readBytes_le _ _) rfl rfl hkept.saved⟩
  | getkey key hkey =>
    obtain ⟨⟨r, tk', key'⟩, hget, hstep⟩ :=
      Option.bind_eq_some_iff.mp (id hstep : Option.bind _ _ = some s')
    obtain rfl := Option.some.inj hstep
    obtain ⟨-, hsame, queue', hsound, heffect, -⟩ := h.getkey hterm hkey hget
    exact ⟨hsame, queue', hsound, fun _ ↦ heffect⟩
  | force key hkey =>
    obtain ⟨⟨r, tk', key'⟩, hget, hstep⟩ :=
      Option.bind_eq_some_iff.mp (id hstep : Option.bind _ _ = some s')
    obtain rfl := Option.some.inj hstep
    obtain ⟨hsame, queue', hsound⟩ := h.force hget
    exact ⟨hsame, queue', hsound, fun hno ↦ absurd ⟨key, hkey, rfl⟩ hno⟩

/-- An event has an outcome if what has been received is clean. -/
theorem Sound.exists_step (hterm : Terminal flags root) (h : s.Sound flags root queue)
    (hclean : Clean flags s.received) {e : TermEvent}
    (hreads : ∀ reads, e = .readable reads → (readRetry s.tk.flagEintr reads).isSome) :
    (s.step e).isSome := by
  have hplaced := h.placed hclean
  have hqueue : Clean s.tk.flags queue := by
    rw [h.flags_eq]
    exact hclean.mono h.suffix.isInfix
  have hterm' : Terminal s.tk.flags s.tk.root := by
    rw [h.flags_eq, h.root_eq]
    exact hterm
  cases e with
  | push bytes =>
    rcases termkeyPushBytes_spec h.carries bytes with ⟨hno, -⟩ | ⟨n, tk', hsome, -⟩
    · exact absurd hplaced hno
    · rw [Session.step, hsome]
      rfl
  | readable reads =>
    obtain ⟨o, ho⟩ := termkeyAdvisereadable_exists h.carries hplaced (hreads reads rfl)
    rw [Session.step, ho]
    rfl
  | getkey key hkey =>
    obtain ⟨o, ho⟩ := exists_getkey hterm' h.isStarted h.carries hplaced hqueue hkey
    rw [Session.step, ho]
    rfl
  | force key hkey =>
    obtain ⟨o, ho⟩ := exists_getkeyForce hterm' h.isStarted h.carries hplaced hqueue key
    rw [Session.step, ho]
    rfl

/-- Bytes that there is room for can be pushed. -/
theorem Sound.exists_push (h : s.Sound flags root queue) (hclean : Clean flags s.received)
    (bytes : List UInt8) (hroom : s.received.length + bytes.length ≤ s.tk.buffsize) :
    ∃ tk', s.step (.push bytes) = some ⟨tk', s.received ++ bytes, s.reported⟩ ∧
      tk'.buffsize = s.tk.buffsize ∧ tk'.saved = s.tk.saved ∧
        Sound flags root ⟨tk', s.received ++ bytes, s.reported⟩ (queue ++ bytes) := by
  have hcount := h.count
  have hall : s.tk.accepted bytes = bytes := List.take_of_length_le (by omega)
  rcases termkeyPushBytes_spec h.carries bytes with
    ⟨hno, -⟩ | ⟨n, tk', hsome, hbytes, hcarries, hplaced, hkept, -⟩
  · exact absurd (h.placed hclean) hno
  rw [hall] at hbytes hcarries
  refine ⟨tk', ?_, hkept.buffsize, hkept.saved, h.receive hkept hcarries fun _ ↦ hplaced⟩
  rw [Session.step, hsome]
  exact congrArg (fun l ↦ some (Session.mk tk' (s.received ++ l) s.reported)) hbytes

/-- The outcome of asking for a key, if what has been received is clean. -/
theorem Sound.exists_answer (hterm : Terminal flags root) (h : s.Sound flags root queue)
    (hclean : Clean flags s.received) (hkey : key.utf8.length = 7) :
    ∃ r tk' key', s.tk.termkeyGetkey key = some (r, tk', key') ∧
      Getkey s.tk queue (some (r, tk', key')) := by
  have hterm' : Terminal s.tk.flags s.tk.root := by
    rw [h.flags_eq, h.root_eq]
    exact hterm
  have hqueue : Clean s.tk.flags queue := by
    rw [h.flags_eq]
    exact hclean.mono h.suffix.isInfix
  obtain ⟨⟨r, tk', key'⟩, ho⟩ :=
    exists_getkey hterm' h.isStarted h.carries (h.placed hclean) hqueue hkey
  exact ⟨r, tk', key', ho, ho ▸ termkeyGetkey_spec hterm' h.isStarted h.carries hkey⟩

/-- The first key of the queue can be asked for. -/
theorem Sound.exists_key (hterm : Terminal flags root) (h : s.Sound flags root queue)
    (hclean : Clean flags s.received) (hkey : key.utf8.length = 7) {view : KeyView} {saved : Saved}
    {n : ℕ} (hread : readKey flags root s.tk.saved queue = some (view, saved, n)) :
    ∃ tk', s.step (.getkey key hkey) = some ⟨tk', s.received, s.reported ++ [view]⟩ ∧
      tk'.buffsize = s.tk.buffsize ∧ tk'.saved = saved ∧
        Sound flags root ⟨tk', s.received, s.reported ++ [view]⟩ (queue.drop n) := by
  obtain ⟨r, tk', key', hget, hspec⟩ := h.exists_answer hterm hclean hkey
  rw [← h.flags_eq, ← h.root_eq] at hread
  cases hspec with
  | key hsame hcount _ hread' hcarries hplaced =>
    obtain ⟨rfl, htail⟩ := Prod.mk.inj (Option.some.inj (hread.symm.trans hread'))
    obtain ⟨rfl, rfl⟩ := Prod.mk.inj htail
    refine ⟨tk', ?_, hsame.buffsize, rfl,
      h.next hsame hcount hcarries (List.drop_suffix _ _) (fun _ ↦ hplaced) _⟩
    rw [Session.step, hget]
    rfl
  | waits _ _ _ _ hread' _ _ _ =>
    rw [hread] at hread'
    cases hread'

/-- No key is reported if there is none. -/
theorem Sound.exists_wait (hterm : Terminal flags root) (h : s.Sound flags root queue)
    (hclean : Clean flags s.received) (hkey : key.utf8.length = 7)
    (hread : readKey flags root s.tk.saved queue = none) :
    ∃ tk', s.step (.getkey key hkey) = some ⟨tk', s.received, s.reported⟩ ∧
      tk'.buffsize = s.tk.buffsize ∧ tk'.saved = s.tk.saved ∧
        Sound flags root ⟨tk', s.received, s.reported⟩ queue := by
  obtain ⟨r, tk', key', hget, hspec⟩ := h.exists_answer hterm hclean hkey
  rw [← h.flags_eq, ← h.root_eq] at hread
  cases hspec with
  | key _ _ _ hread' _ _ =>
    rw [hread] at hread'
    cases hread'
  | waits hsame hcount _ hr _ hsaved hcarries hplaced =>
    have hne : r ≠ .key := by rcases hr with rfl | ⟨-, rfl | rfl⟩ <;> simp
    refine ⟨tk', ?_, hsame.buffsize, hsaved, h.next hsame hcount hcarries (List.suffix_refl _)
      (fun hclean ↦ hplaced (hclean.mono h.suffix.isInfix).escapes_le_one) _⟩
    rw [Session.step, hget]
    show some (s.report r tk' key') = _
    rw [report, if_neg hne]

/-! ## Runs -/

/-- A session that begins with a new `TermKey`. -/
def new (flags : TermKeyFlags) (flagEintr hasFd : Bool) (root : Trie KeyInfo)
    (memory : Vector UInt8 256) : Session :=
  ⟨termkeyNew flags flagEintr hasFd root memory, [], []⟩

theorem sound_new (flags : TermKeyFlags) (flagEintr hasFd : Bool) (root : Trie KeyInfo)
    (memory : Vector UInt8 256) : (new flags flagEintr hasFd root memory).Sound flags root [] := by
  have hsize : buffsize (termkeyNew flags flagEintr hasFd root memory) = 256 := memory.length_toList
  have hplaced : Placed (termkeyNew flags flagEintr hasFd root memory) :=
    ⟨Int.le_refl 0, Nat.zero_le _⟩
  refine ⟨rfl, rfl, rfl, ⟨?_, Nat.zero_le _, rfl, .inl hplaced, fun v hv ↦ ?_⟩,
    List.suffix_refl [], Nat.le_refl 0, fun _ ↦ hplaced⟩
  · show Even (buffsize (termkeyNew flags flagEintr hasFd root memory))
    rw [hsize]
    decide
  · obtain rfl := List.length_eq_zero_iff.mp (length_window hv)
    rfl

theorem sound_of_run (hterm : Terminal flags root) (h : s.Sound flags root queue)
    {events : List TermEvent} (hrun : runSteps Session.step s events = some s') :
    ∃ queue', s'.Sound flags root queue' :=
  inv_of_runSteps (I := fun s ↦ ∃ queue, s.Sound flags root queue) ⟨queue, h⟩
    (fun _ _ _ ⟨_, ht⟩ hstep ↦ by
      obtain ⟨-, queue', ht', -⟩ := ht.step hterm hstep
      exact ⟨queue', ht'⟩) events s' hrun

/-- The keys follow the decoder of the terminal. -/
structure Inv (hterm : Terminal flags root) (s : Session) (queue : List UInt8) : Prop
    extends Sound flags root s queue where
  follows : (keyDecoder hterm).Follows (0, none) s.received s.reported s.tk.saved queue

theorem inv_new (hterm : Terminal flags root) (flagEintr hasFd : Bool)
    (memory : Vector UInt8 256) : (new flags flagEintr hasFd root memory).Inv hterm [] :=
  ⟨sound_new flags flagEintr hasFd root memory, .nil _⟩

/-- What an event does is what the decoder does. -/
theorem Inv.effect {hterm : Terminal flags root} (h : s.Inv hterm queue)
    (hsound : s'.Sound flags root queue') (heffect : Effect s s' queue queue') :
    s'.Inv hterm queue' := by
  refine ⟨hsound, ?_⟩
  cases heffect with
  | receives bytes _ hreceived hreported hsaved =>
    rw [hreceived, hreported, hsaved]
    exact h.follows.receive bytes
  | key hread hreceived hreported =>
    rw [h.flags_eq, h.root_eq] at hread
    rw [hreceived, hreported]
    exact h.follows.read hread
  | waits _ hreceived hreported hsaved =>
    rw [hreceived, hreported, hsaved]
    exact h.follows

theorem Inv.step {hterm : Terminal flags root} (h : s.Inv hterm queue) {e : TermEvent}
    (he : ¬ e.Forced) (hstep : s.step e = some s') : ∃ queue', s'.Inv hterm queue' := by
  obtain ⟨-, queue', hsound, heffect⟩ := h.toSound.step hterm hstep
  exact ⟨queue', h.effect hsound (heffect he)⟩

/-- Events none of which demands a key. -/
theorem noStep_forced {events : List TermEvent} (hevents : ∀ e ∈ events, ¬ e.Forced) (s : Session) :
    NoStep Session.step s events fun _ e ↦ e.Forced := fun pre e _ hpre _ ↦
  hevents e (hpre.subset (List.mem_append_right pre (List.mem_singleton_self e)))

theorem inv_of_run {hterm : Terminal flags root} (h : s.Inv hterm queue) {events : List TermEvent}
    (hevents : ∀ e ∈ events, ¬ e.Forced) (hrun : runSteps Session.step s events = some s') :
    ∃ queue', s'.Inv hterm queue' :=
  inv_of_noStep (I := fun s ↦ ∃ queue, s.Inv hterm queue) ⟨queue, h⟩
    (fun _ _ _ ⟨_, ht⟩ he hstep ↦ ht.step he hstep) (noStep_forced hevents s) events s'
    (List.prefix_refl events) hrun

end Session

/-! ## A terminal of cursor keys -/

/-- The flags of `tui_keys_init`. -/
def tuiFlags : TermKeyFlags := ⟨false, false, false, false, true⟩

/-- Memory for the buffer. -/
def zeroMemory : Vector UInt8 256 := Vector.replicate 256 0

/-- Up and page up. -/
def cursorInput : List UInt8 := [0x1b, 0x4f, 0x41, 0x1b, 0x5b, 0x35, 0x7e]

def cursorKeys : List KeyView :=
  [⟨.keysym, TermKeySym.up.setWidth 64, 0, []⟩, ⟨.keysym, TermKeySym.pageup.setWidth 64, 0, []⟩]

/-- The only control sequence is the one of page up. -/
theorem csi_cursorInput {pre body post : List UInt8} {cmd : UInt8}
    (hbody : ∀ c ∈ body, isFinal c = false) (hcmd : isFinal cmd = true)
    (h : pre ++ ([0x1b, 0x5b] ++ body ++ [cmd]) ++ post = cursorInput) :
    body = [0x35] ∧ cmd = 0x7e := by
  have htail : body ++ cmd :: post = [0x35, 0x7e] := by
    rw [cursorInput] at h
    rcases pre with _ | ⟨_, _ | ⟨_, _ | ⟨_, _ | ⟨_, pre⟩⟩⟩⟩
    · simp at h
    · simp at h
    · simp at h
    · simp only [List.cons_append, List.nil_append, List.append_assoc, List.cons.injEq] at h
      exact h.2.2.2.2.2
    · have hmem : (0x1b : UInt8) ∈ [0x5b, 0x35, 0x7e] := by
        rw [← (List.cons.inj (List.cons.inj (List.cons.inj (List.cons.inj h).2).2).2).2]
        simp
      exact absurd hmem (by decide)
  rcases body with _ | ⟨b, _ | ⟨c, body⟩⟩
  · rw [(List.cons.inj htail).1] at hcmd
    cases hcmd
  · obtain ⟨rfl, hlast⟩ := List.cons.inj htail
    have hlast' : cmd :: post = [0x7e] := hlast
    exact ⟨rfl, (List.cons.inj hlast').1⟩
  · have hfinal := hbody c (by simp)
    rw [(List.cons.inj (List.cons.inj htail).2).1] at hfinal
    cases hfinal

theorem clean_cursorInput : Clean tuiFlags cursorInput where
  single := by decide
  sequences intro hintro body cmd hbody hcmd hfaulty := by
    rintro ⟨pre, post, hinput⟩
    rw [List.mem_cons, List.mem_singleton] at hintro
    rcases hintro with rfl | rfl
    · obtain ⟨rfl, rfl⟩ := csi_cursorInput hbody hcmd hinput
      rcases hfaulty with hfaulty | ⟨n, hn, hle⟩
      · have hnone := (@peekkeyCsi_final tuiFlags (fresh (0, none)) false 0x7e [0x1b, 0x5b] [0x35] []
          hbody hcmd).mpr hfaulty
        exact absurd hnone (by decide +kernel)
      · have hnumbers : csiNumbers ((csiInitial [0x35]).2.takeWhile (!isInter ·)) none = [some 5] :=
          by decide
        rw [hnumbers, List.mem_singleton] at hn
        rw [Option.some.inj hn] at hle
        exact absurd hle (by decide)
    · have hmem : (0x9b : UInt8) ∈ cursorInput := by
        rw [← hinput]
        simp
      exact absurd hmem (by decide)
  strings intro hintro stop hstop body _ := by
    rintro ⟨pre, post, hinput⟩
    have hmem : ∀ c ∈ stop, c ∈ cursorInput := fun c hc ↦ by
      rw [← hinput]
      simp [hc]
    rw [stringEnds, List.mem_cons, List.mem_singleton] at hstop
    rcases hstop with rfl | rfl
    · exact absurd (hmem 0x9c (by simp)) (by decide)
    · exact absurd (hmem 0x5c (by simp)) (by decide)

/-- The keys of a terminal of cursor keys. -/
theorem readKey_cursorTerminal : ∃ root, ∃ _ : Terminal tuiFlags root,
    loadTerminfo cursorTerminal = some root ∧
      readKey tuiFlags root (0, none) [0x1b, 0x4f] = none ∧
      readKey tuiFlags root (0, none) cursorInput =
        some (⟨.keysym, TermKeySym.up.setWidth 64, 0, []⟩, (0, none), 3) ∧
      readKey tuiFlags root (0, none) (cursorInput.drop 3) =
        some (⟨.keysym, TermKeySym.pageup.setWidth 64, 0, []⟩, (0, none), 4) := by
  obtain ⟨root, hroot, hterm⟩ :=
    terminal_of_ordinary separate_cursorTerminal (fun _ _ ↦ ordinary_cursorTerminal) tuiFlags
  have hread : ∀ w o, (loadTerminfo cursorTerminal).bind (readKey tuiFlags · (0, none) w) = o →
      readKey tuiFlags root (0, none) w = o := by
    intro w o h
    rw [hroot] at h
    exact h
  exact ⟨root, hterm, hroot, hread _ _ (by decide +kernel), hread _ _ (by decide +kernel),
    hread _ _ (by decide +kernel)⟩

/-- What `cursorInput` is read as does not depend on where it is cut. -/
theorem decode_cursorInput : ∃ root, ∃ hterm : Terminal tuiFlags root,
    loadTerminfo cursorTerminal = some root ∧
      ((keyDecoder hterm).decode (0, none) cursorInput).1 = cursorKeys := by
  obtain ⟨root, hterm, hroot, -, hup, hpage⟩ := readKey_cursorTerminal
  refine ⟨root, hterm, hroot, ?_⟩
  rw [Decoder.decode_of_some (d := keyDecoder hterm) hup,
    Decoder.decode_of_some (d := keyDecoder hterm) hpage,
    Decoder.decode_of_none (d := keyDecoder hterm) rfl]
  rfl

/-- The keys are asked for while the input comes, cut in the middle of the first one. -/
def cursorEvents : List TermEvent :=
  [.push [0x1b, 0x4f], .getkey zeroKey length_utf8_zeroKey, .push [0x41, 0x1b, 0x5b, 0x35, 0x7e],
    .getkey zeroKey length_utf8_zeroKey, .getkey zeroKey length_utf8_zeroKey]

theorem run_cursorTerminal (memory : Vector UInt8 256) : ∃ root, ∃ _ : Terminal tuiFlags root,
    ∃ s, loadTerminfo cursorTerminal = some root ∧
      runSteps Session.step (.new tuiFlags false true root memory) cursorEvents = some s ∧
        s.received = cursorInput ∧ s.reported = cursorKeys ∧ s.Sound tuiFlags root [] := by
  obtain ⟨root, hterm, hroot, hwait, hup, hpage⟩ := readKey_cursorTerminal
  have h0 := Session.sound_new tuiFlags false true root memory
  have hsize : (termkeyNew tuiFlags false true root memory).buffsize = 256 := memory.length_toList
  have hclean0 : Clean tuiFlags [] := clean_cursorInput.mono List.nil_infix
  have hclean1 : Clean tuiFlags [0x1b, 0x4f] := clean_cursorInput.mono (by decide)
  obtain ⟨tk1, hstep1, hsize1, hsaved1, h1⟩ :=
    h0.exists_push hclean0 [0x1b, 0x4f] (hsize.ge.trans' (by decide : 2 ≤ 256))
  obtain ⟨tk2, hstep2, hsize2, hsaved2, h2⟩ :=
    h1.exists_wait hterm hclean1 length_utf8_zeroKey (by rw [hsaved1]; exact hwait)
  have hsize2' : tk2.buffsize = 256 := hsize2.trans (hsize1.trans hsize)
  have hsaved2' : tk2.saved = (0, none) := hsaved2.trans hsaved1
  obtain ⟨tk3, hstep3, hsize3, hsaved3, h3⟩ := h2.exists_push hclean1
    [0x41, 0x1b, 0x5b, 0x35, 0x7e] (hsize2'.ge.trans' (by decide : 7 ≤ 256))
  have hsaved3' : tk3.saved = (0, none) := hsaved3.trans hsaved2'
  obtain ⟨tk4, hstep4, -, hsaved4, h4⟩ := h3.exists_key hterm clean_cursorInput
    length_utf8_zeroKey (by rw [hsaved3']; exact hup)
  obtain ⟨tk5, hstep5, -, -, h5⟩ := h4.exists_key hterm clean_cursorInput
    length_utf8_zeroKey (by rw [hsaved4]; exact hpage)
  refine ⟨root, hterm, ⟨tk5, cursorInput, cursorKeys⟩, hroot, ?_, rfl, rfl, h5⟩
  rw [cursorEvents]
  rw [runSteps, List.foldlM_cons, hstep1, Option.bind_eq_bind, Option.bind_some]
  rw [List.foldlM_cons, hstep2, Option.bind_eq_bind, Option.bind_some]
  rw [List.foldlM_cons, hstep3, Option.bind_eq_bind, Option.bind_some]
  rw [List.foldlM_cons, hstep4, Option.bind_eq_bind, Option.bind_some]
  rw [List.foldlM_cons, hstep5, Option.bind_eq_bind, Option.bind_some]
  rfl

/-! ## Every run -/

variable {flags : TermKeyFlags} {root : Trie KeyInfo}

/-- **The keys of a run** in which none is demanded are those of the bytes that have been received,
however these were cut into pieces and whenever keys were asked for, and all of them once a call
has no key to return. -/
theorem keys_of_run (hterm : Terminal flags root) (flagEintr hasFd : Bool)
    (memory : Vector UInt8 256) (events : List TermEvent) (hevents : ∀ e ∈ events, ¬ e.Forced)
    (s : Session)
    (hrun : runSteps Session.step (.new flags flagEintr hasFd root memory) events = some s) :
    s.reported <+: ((keyDecoder hterm).decode (0, none) s.received).1 ∧
      ∀ key r tk' key', key.utf8.length = 7 → s.tk.termkeyGetkey key = some (r, tk', key') →
        r ≠ .key → s.reported = ((keyDecoder hterm).decode (0, none) s.received).1 := by
  obtain ⟨queue, h⟩ := Session.inv_of_run (Session.inv_new hterm flagEintr hasFd memory) hevents hrun
  refine ⟨h.follows.isPrefix, fun key r tk' key' hkey hget hr ↦ ?_⟩
  obtain ⟨-, -, queue', hsound, heffect, hcase⟩ := h.getkey hterm hkey hget
  obtain ⟨-, hread⟩ := hcase.resolve_left fun hkey ↦ hr hkey.1
  have hdecoded := congrArg Prod.fst ((h.effect hsound heffect).follows.of_waits hread)
  have hreported : (s.report r tk' key').reported = s.reported := if_neg hr
  rw [hreported] at hdecoded
  exact hdecoded.symm

theorem keys_of_run_cursorTerminal : ∃ root, ∃ hterm : Terminal tuiFlags root, ∃ s,
    loadTerminfo cursorTerminal = some root ∧
      runSteps Session.step (.new tuiFlags false true root zeroMemory) cursorEvents = some s ∧
        s.reported = cursorKeys ∧ s.reported <+: ((keyDecoder hterm).decode (0, none) cursorInput).1 ∧
          ∃ r tk' key', s.tk.termkeyGetkey zeroKey = some (r, tk', key') ∧ r ≠ .key ∧
            s.reported = ((keyDecoder hterm).decode (0, none) cursorInput).1 := by
  obtain ⟨root, hterm, s, hroot, hrun, hreceived, hreported, hsound⟩ := run_cursorTerminal zeroMemory
  have hkeys := keys_of_run hterm false true zeroMemory cursorEvents
    (by simp [cursorEvents, TermEvent.Forced]) s hrun
  have hclean : Clean tuiFlags s.received := hreceived ▸ clean_cursorInput
  rw [hreceived] at hkeys
  obtain ⟨r, tk', key', hget, hspec⟩ :=
    hsound.exists_answer hterm hclean length_utf8_zeroKey
  have hne : r ≠ .key := by
    cases hspec with
    | key _ _ _ hread _ _ => cases hread
    | waits _ _ _ hr _ _ _ _ => rcases hr with rfl | ⟨-, rfl | rfl⟩ <;> simp
  exact ⟨root, hterm, s, hroot, hrun, hreported, hkeys.1, r, tk', key', hget, hne,
    hkeys.2 zeroKey r tk' key' rfl hget hne⟩

/-- **A run goes on** as long as what has been received is clean: a key can be asked for or
demanded, bytes can be pushed, and read if `read` comes back. -/
theorem run_goes_on (hterm : Terminal flags root) (flagEintr hasFd : Bool)
    (memory : Vector UInt8 256) (events : List TermEvent) (s : Session)
    (hrun : runSteps Session.step (.new flags flagEintr hasFd root memory) events = some s)
    (hclean : Clean flags s.received) (e : TermEvent)
    (hreads : ∀ reads, e = .readable reads → (readRetry s.tk.flagEintr reads).isSome) :
    (s.step e).isSome := by
  obtain ⟨queue, h⟩ :=
    Session.sound_of_run hterm (Session.sound_new flags flagEintr hasFd root memory) hrun
  exact h.exists_step hterm hclean hreads

theorem run_goes_on_cursorTerminal : ∃ root, ∃ _ : Terminal tuiFlags root, ∃ s,
    loadTerminfo cursorTerminal = some root ∧
      runSteps Session.step (.new tuiFlags false true root zeroMemory) cursorEvents = some s ∧
        (s.step (.force zeroKey length_utf8_zeroKey)).isSome := by
  obtain ⟨root, hterm, s, hroot, hrun, hreceived, -, -⟩ := run_cursorTerminal zeroMemory
  exact ⟨root, hterm, s, hroot, hrun, run_goes_on hterm false true zeroMemory cursorEvents s hrun
    (hreceived ▸ clean_cursorInput) (.force zeroKey length_utf8_zeroKey) fun _ he ↦ by cases he⟩

end Rustyaxe.Termkey
