import Rustyaxe.Termkey.Window

/-!
# The buffer of a `TermKey`

`peekkey`, `peekkey_simple`, `eat_bytes`, `termkey_getkey`, `termkey_getkey_force`,
`termkey_advisereadable` and `termkey_push_bytes` of `termkey.c`, with the buffer that they keep.

The start of the window is an integer: looking for a key behind escapes moves the window, and what
moves the bytes down in the middle of that can leave the start in front of the buffer.  There is
no result where the program reads there.
-/

set_option autoImplicit false

namespace Rustyaxe.Termkey

open TermKeyKey PrefixCode Trie

/-- `struct TermKey`, with what its drivers keep. -/
structure TermKey where
  flags : TermKeyFlags
  /-- `TERMKEY_FLAG_EINTR` -/
  flagEintr : Bool
  /-- `fd != -1` -/
  hasFd : Bool
  buffer : List UInt8
  buffstart : ℤ
  buffcount : ℕ
  hightide : ℕ
  isClosed : Bool
  isStarted : Bool
  root : Trie KeyInfo
  savedStringId : BitVec 32
  savedString : Option CStr

/-- What `termkey_new` makes, for the memory that it is given for the buffer. -/
def termkeyNew (flags : TermKeyFlags) (flagEintr hasFd : Bool) (root : Trie KeyInfo)
    (memory : Vector UInt8 256) : TermKey where
  flags := flags
  flagEintr := flagEintr
  hasFd := hasFd
  buffer := memory.toList
  buffstart := 0
  buffcount := 0
  hightide := 0
  isClosed := false
  isStarted := true
  root := root
  savedStringId := 0
  savedString := none

namespace TermKey

/-- `tk->buffsize` -/
def buffsize (tk : TermKey) : ℕ := tk.buffer.length

/-- The bytes that have been received and not been eaten: none if the program would look for them
outside of the buffer. -/
def window (tk : TermKey) : Option (List UInt8) :=
  if 0 ≤ tk.buffstart ∧ tk.buffstart.toNat + tk.buffcount ≤ tk.buffer.length then
    some ((tk.buffer.drop tk.buffstart.toNat).take tk.buffcount)
  else none

/-- What is in the buffer behind the window. -/
def behind (tk : TermKey) : List UInt8 := tk.buffer.drop (tk.buffstart.toNat + tk.buffcount)

/-- What the drivers see and write besides the bytes of the buffer. -/
def peeked (tk : TermKey) (key : TermKeyKey) (nbytes : ℕ) : Peeked :=
  ⟨key, nbytes, tk.hightide, tk.savedStringId, tk.savedString⟩

def put (tk : TermKey) (p : Peeked) : TermKey :=
  { tk with hightide := p.hightide, savedStringId := p.savedStringId, savedString := p.savedString }

/-- `eat_bytes` -/
def eatBytes (tk : TermKey) (count : ℕ) : TermKey :=
  if tk.buffcount ≤ count then { tk with buffstart := 0, buffcount := 0 }
  else { tk with buffstart := tk.buffstart + count, buffcount := tk.buffcount - count }

/-- What `peekkey` does with the bytes of a sequence that has been reported. -/
def dropHightide (tk : TermKey) : TermKey :=
  { tk with
    buffstart := tk.buffstart + tk.hightide
    buffcount := tk.buffcount - tk.hightide
    hightide := 0 }

/-- What `peekkey` does when a driver has found a key: the data slides down. -/
def slide (tk : TermKey) : TermKey :=
  let halfsize := tk.buffsize / 2
  if (halfsize : ℤ) < tk.buffstart then
    { tk with
      buffer := (tk.buffer.drop halfsize).take halfsize ++ tk.buffer.drop halfsize
      buffstart := tk.buffstart - halfsize }
  else tk

mutual

/-- `peekkey` -/
def peekkey (tk : TermKey) (key : TermKeyKey) (force : Bool) (nbytes : ℕ) :
    Option (TermKeyResult × TermKey × TermKeyKey × ℕ) :=
  if tk.isStarted then do
    let w ← tk.dropHightide.window
    let (r, p) ← peekDrivers tk.flags tk.root tk.isClosed force w tk.dropHightide.behind
      (tk.dropHightide.peeked key nbytes)
    if r = .key then return (r, (tk.dropHightide.put p).slide, p.key, p.nbytes)
    if r ≠ .none then return (r, tk.dropHightide.put p, p.key, p.nbytes)
    peekkeySimple (tk.dropHightide.put p) p.key force p.nbytes
  else some (.error, tk, key, nbytes)
termination_by (tk.buffcount, 1)
decreasing_by
  simp only [Prod.lex_def]
  exact (Nat.sub_le tk.buffcount tk.hightide).lt_or_eq.imp_right fun h ↦ ⟨h, Nat.one_pos⟩

/-- `peekkey_simple` -/
def peekkeySimple (tk : TermKey) (key : TermKeyKey) (force : Bool) (nbytes : ℕ) :
    Option (TermKeyResult × TermKey × TermKeyKey × ℕ) :=
  if _h0 : tk.buffcount = 0 then some (if tk.isClosed then .eof else .none, tk, key, nbytes)
  else do
    match ← tk.window with
    | 0x1b :: _ =>
      if tk.buffcount = 1 then
        if force then
          let key ← emitCodepoint tk.flags 0x1b key
          return (.key, tk, key, 1)
        else return (.again, tk, key, nbytes)
      else
        let (r, tk, key, nbytes) ← peekkey
          { tk with buffstart := tk.buffstart + 1, buffcount := tk.buffcount - 1 } key force nbytes
        let tk := { tk with buffstart := tk.buffstart - 1, buffcount := tk.buffcount + 1 }
        if r = .key then
          return (r, tk, { key with modifiers := key.modifiers ||| keymodAlt }, nbytes + 1)
        else return (r, tk, key, nbytes)
    | b0 :: rest =>
      let (r, p) ← peekkeyPlain tk.flags force b0 rest (tk.peeked key nbytes)
      return (r, tk.put p, p.key, p.nbytes)
    | [] => none
termination_by (tk.buffcount, 0)
decreasing_by
  simp only [Prod.lex_def]
  exact .inl (by omega)

end

/-- `termkey_getkey` -/
def termkeyGetkey (tk : TermKey) (key : TermKeyKey) :
    Option (TermKeyResult × TermKey × TermKeyKey) := do
  let (ret, tk, key, nbytes) ← tk.peekkey key false 0
  let tk := if ret = .key then tk.eatBytes nbytes else tk
  if ret = .again then
    -- What is found is not eaten.
    let (_, tk, key, _) ← tk.peekkey key true nbytes
    return (ret, tk, key)
  return (ret, tk, key)

/-- `termkey_getkey_force` -/
def termkeyGetkeyForce (tk : TermKey) (key : TermKeyKey) :
    Option (TermKeyResult × TermKey × TermKeyKey) := do
  let (ret, tk, key, nbytes) ← tk.peekkey key true 0
  return (ret, if ret = .key then tk.eatBytes nbytes else tk, key)

/-- The window is moved to the start of the buffer. -/
def compact (tk : TermKey) : Option TermKey :=
  if tk.buffstart = 0 then some tk
  else do
    let w ← tk.window
    return { tk with buffer := w ++ tk.buffer.drop w.length, buffstart := 0 }

/-- Bytes are written behind the window, which starts where the buffer does. -/
def append (tk : TermKey) (bytes : List UInt8) : TermKey :=
  { tk with
    buffer := tk.buffer.take tk.buffcount ++ bytes ++ tk.buffer.drop (tk.buffcount + bytes.length)
    buffcount := tk.buffcount + bytes.length }

/-- The bytes that there is room for. -/
def accepted (tk : TermKey) (bytes : List UInt8) : List UInt8 :=
  bytes.take (tk.buffsize - tk.buffcount)

/-- `termkey_push_bytes`: how many bytes it has taken, or `ENOMEM`. -/
def termkeyPushBytes (tk : TermKey) (bytes : List UInt8) : Option (Option ℕ × TermKey) := do
  let tk ← tk.compact
  if tk.buffsize ≤ tk.buffcount then return (none, tk)
  let bytes := tk.accepted bytes
  return (some bytes.length, tk.append bytes)

/-- What `read` comes back with: `-1` with an `errno`, or bytes, none of which are the end of the
file. -/
inductive ReadResult where
  | eagain
  | eintr
  | error
  | data (bytes : List UInt8)
  deriving DecidableEq

/-- The `retry` of `termkey_advisereadable`: it has not come back when the results are used up. -/
def readRetry (flagEintr : Bool) : List ReadResult → Option ReadResult
  | [] => none
  | .eintr :: reads => if flagEintr then some .error else readRetry flagEintr reads
  | result :: _ => some result

/-- `termkey_advisereadable`, with what its `read` comes back with.  No more is read than there is
room for. -/
def termkeyAdvisereadable (tk : TermKey) (reads : List ReadResult) :
    Option (TermKeyResult × TermKey) :=
  if tk.hasFd then do
    let tk ← tk.compact
    if tk.buffsize ≤ tk.buffcount then return (.error, tk)
    match ← readRetry tk.flagEintr reads with
    | .eagain => return (.none, tk)
    | .eintr | .error => return (.error, tk)
    | .data bytes =>
      if tk.accepted bytes = [] then return (.none, { tk with isClosed := true })
      return (.again, tk.append (tk.accepted bytes))
  else some (.error, tk)

/-! ## The window -/

variable {tk : TermKey} {w : List UInt8}

theorem window_eq_some (h : tk.window = some w) :
    0 ≤ tk.buffstart ∧ tk.buffstart.toNat + tk.buffcount ≤ tk.buffer.length ∧
      w = (tk.buffer.drop tk.buffstart.toNat).take tk.buffcount := by
  rw [window] at h
  split at h
  · next hin => exact ⟨hin.1, hin.2, (Option.some.inj h).symm⟩
  · cases h

theorem length_window (h : tk.window = some w) : w.length = tk.buffcount := by
  obtain ⟨-, hle, rfl⟩ := window_eq_some h
  rw [List.length_take, List.length_drop]
  omega

/-- `tk` without the first byte of its window. -/
def tail (tk : TermKey) : TermKey :=
  { tk with buffstart := tk.buffstart + 1, buffcount := tk.buffcount - 1 }

/-- The window behind the first byte. -/
theorem window_tail {b0 : UInt8} {rest : List UInt8} (h : tk.window = some (b0 :: rest)) :
    tk.tail.window = some rest ∧ tk.tail.behind = tk.behind := by
  have hlen := length_window h
  rw [List.length_cons] at hlen
  obtain ⟨h0, hle, hw⟩ := window_eq_some h
  have hnat : (tk.buffstart + 1).toNat = tk.buffstart.toNat + 1 := by omega
  refine ⟨?_, ?_⟩
  swap
  · show tk.buffer.drop ((tk.buffstart + 1).toNat + (tk.buffcount - 1)) = _
    rw [hnat, behind]
    congr 1
    omega
  rw [window, tail]
  dsimp only
  rw [if_pos (by omega), hnat, ← List.drop_drop, List.drop_one]
  obtain ⟨c, hc⟩ : ∃ c, tk.buffcount = c + 1 := ⟨rest.length, hlen.symm⟩
  rw [hc] at hw ⊢
  cases hdrop : tk.buffer.drop tk.buffstart.toNat with
  | nil => rw [hdrop] at hw; cases hw
  | cons d ds =>
    rw [hdrop, List.take_succ_cons] at hw
    rw [List.tail_cons, (List.cons.inj hw).2]
    rfl

/-- How often the window begins with an escape. -/
def escapes (w : List UInt8) : ℕ := (w.takeWhile (· = 0x1b)).length

/-- What a look at the window leaves: the drivers have written their state, and the data may have
slid down when a driver has found a key behind `d` escapes. -/
structure Peeks (tk : TermKey) (w : List UInt8) (r : TermKeyResult) (q : Peeked) (tk' : TermKey) :
    Prop where
  flags : tk'.flags = tk.flags
  hasFd : tk'.hasFd = tk.hasFd
  isClosed : tk'.isClosed = tk.isClosed
  isStarted : tk'.isStarted = tk.isStarted
  root : tk'.root = tk.root
  hightide : tk'.hightide = q.hightide
  savedStringId : tk'.savedStringId = q.savedStringId
  savedString : tk'.savedString = q.savedString
  buffcount : tk'.buffcount = tk.buffcount
  place : (tk'.buffer = tk.buffer ∧ tk'.buffstart = tk.buffstart) ∨
    r = .key ∧ ∃ d, d ≤ escapes w ∧ d ≤ q.nbytes ∧ (tk.buffsize / 2 : ℕ) < tk.buffstart + d ∧
      tk'.buffer = (tk.buffer.drop (tk.buffsize / 2)).take (tk.buffsize / 2) ++
        tk.buffer.drop (tk.buffsize / 2) ∧
      tk'.buffstart = tk.buffstart - (tk.buffsize / 2 : ℕ)

theorem Peeks.put (tk : TermKey) (w : List UInt8) (r : TermKeyResult) (q : Peeked) :
    Peeks tk w r q (tk.put q) :=
  ⟨rfl, rfl, rfl, rfl, rfl, rfl, rfl, rfl, rfl, .inl ⟨rfl, rfl⟩⟩

theorem Peeks.slide (tk : TermKey) (w : List UInt8) (q : Peeked) :
    Peeks tk w .key q (tk.put q).slide := by
  unfold TermKey.slide
  dsimp only
  split
  · next h =>
    refine ⟨rfl, rfl, rfl, rfl, rfl, rfl, rfl, rfl, rfl,
      .inr ⟨rfl, 0, Nat.zero_le _, Nat.zero_le _, ?_, rfl, rfl⟩⟩
    rw [Int.natCast_zero, Int.add_zero]
    exact h
  · exact .put tk w .key q

theorem dropHightide_of_zero (h : tk.hightide = 0) : tk.dropHightide = tk := by
  rw [dropHightide]
  rw [h, Int.natCast_zero, Int.add_zero, Nat.sub_zero, ← h]

/-- The window behind an escape, and what is done with the key that is found there. -/
theorem Peeks.escape {tk tk' : TermKey} {rest : List UInt8} {p q : Peeked} {r : TermKeyResult}
    (hcount : 0 < tk.buffcount) (h : Peeks (tk.put p).tail rest r q tk') :
    Peeks tk (0x1b :: rest) r (altKey r q)
      { tk' with buffstart := tk'.buffstart - 1, buffcount := tk'.buffcount + 1 } where
  flags := h.flags
  hasFd := h.hasFd
  isClosed := h.isClosed
  isStarted := h.isStarted
  root := h.root
  hightide := h.hightide.trans (altKey_untouched r q).hightide.symm
  savedStringId := h.savedStringId.trans (altKey_untouched r q).savedStringId.symm
  savedString := h.savedString.trans (altKey_untouched r q).savedString.symm
  buffcount := by
    have hc : tk'.buffcount = tk.buffcount - 1 := h.buffcount
    show tk'.buffcount + 1 = tk.buffcount
    omega
  place := by
    rcases h.place with ⟨hbuffer, hstart⟩ | ⟨rfl, d, hd, hn, hlt, hbuffer, hstart⟩
    · have hs : tk'.buffstart = tk.buffstart + 1 := hstart
      exact .inl ⟨hbuffer, show tk'.buffstart - 1 = tk.buffstart by omega⟩
    · have hs : tk'.buffstart = tk.buffstart + 1 - (tk.buffsize / 2 : ℕ) := hstart
      have hlt' : ((tk.buffsize / 2 : ℕ) : ℤ) < tk.buffstart + 1 + d := hlt
      refine .inr ⟨rfl, d + 1, ?_, Nat.succ_le_succ hn, ?_, hbuffer,
        show tk'.buffstart - 1 = tk.buffstart - (tk.buffsize / 2 : ℕ) by omega⟩
      · rw [escapes, List.takeWhile_cons_of_pos (by simp), List.length_cons]
        exact Nat.succ_le_succ hd
      · omega

/-- A look that finds no key leaves the bytes of the buffer where they are. -/
theorem Peeks.behind {tk tk' : TermKey} {r : TermKeyResult} {q : Peeked} (h : Peeks tk w r q tk')
    (hr : r ≠ .key) : tk'.behind = tk.behind := by
  rcases h.place with ⟨hbuffer, hstart⟩ | ⟨hkey, -⟩
  · rw [TermKey.behind, TermKey.behind, hbuffer, hstart, h.buffcount]
  · exact absurd hkey hr

/-! ## A look at the buffer -/

/-- What the window says, and what a look at the buffer comes back with. -/
inductive Looked (tk : TermKey) (w : List UInt8) : Option (TermKeyResult × Peeked) →
    Option (TermKeyResult × TermKey × TermKeyKey × ℕ) → Prop where
  | none : Looked tk w none none
  | some {r : TermKeyResult} {q : Peeked} {tk' : TermKey} : Peeks tk w r q tk' →
    Looked tk w (some (r, q)) (some (r, tk', q.key, q.nbytes))

variable {key : TermKeyKey} {force : Bool} {nbytes : ℕ}

/-- An escape alone. -/
theorem peekkeySimple_esc (hw : tk.window = some [0x1b]) :
    tk.peekkeySimple key force nbytes =
      if force then (emitCodepoint tk.flags 0x1b key).bind fun key ↦ some (.key, tk, key, 1)
      else some (.again, tk, key, nbytes) := by
  have hcount : tk.buffcount = 1 := (length_window hw).symm
  rw [peekkeySimple, dif_neg (by omega), hw, Option.bind_eq_bind, Option.bind_some]
  dsimp only
  rw [if_pos hcount]
  rfl

/-- An escape with something behind it. -/
theorem peekkeySimple_alt {rest : List UInt8} (hw : tk.window = some (0x1b :: rest))
    (hrest : rest ≠ []) :
    tk.peekkeySimple key force nbytes =
      (tk.tail.peekkey key force nbytes).bind fun (r, tk, key, nbytes) ↦
        let tk := { tk with buffstart := tk.buffstart - 1, buffcount := tk.buffcount + 1 }
        if r = .key then
          some (r, tk, { key with modifiers := key.modifiers ||| keymodAlt }, nbytes + 1)
        else some (r, tk, key, nbytes) := by
  have hcount : rest.length + 1 = tk.buffcount := length_window hw
  have hpos := List.length_pos_iff.mpr hrest
  rw [peekkeySimple, dif_neg (by omega), hw, Option.bind_eq_bind, Option.bind_some]
  dsimp only
  rw [if_neg (by omega)]
  rfl

/-- Another byte. -/
theorem peekkeySimple_plain {b0 : UInt8} {rest : List UInt8} (hw : tk.window = some (b0 :: rest))
    (hesc : b0 ≠ 0x1b) :
    tk.peekkeySimple key force nbytes =
      (peekkeyPlain tk.flags force b0 rest (tk.peeked key nbytes)).bind fun o ↦
        some (o.1, tk.put o.2, o.2.key, o.2.nbytes) := by
  have hcount : rest.length + 1 = tk.buffcount := length_window hw
  rw [peekkeySimple, dif_neg (by omega), hw, Option.bind_eq_bind, Option.bind_some]
  split
  · next h => exact absurd (List.cons.inj h).1 hesc
  · next h =>
    obtain ⟨rfl, rfl⟩ := List.cons.inj h
    rfl
  · next h => cases h

/-- A look at an empty window. -/
theorem peekkey_nil (hstarted : tk.isStarted = true) (hw : tk.dropHightide.window = some [])
    (key : TermKeyKey) (force : Bool) (nbytes : ℕ) :
    Looked tk.dropHightide []
      (peekWindow tk.flags tk.root tk.isClosed force tk.dropHightide.behind []
        (tk.dropHightide.peeked key nbytes)) (tk.peekkey key force nbytes) := by
  have hcount : tk.dropHightide.buffcount = 0 := (length_window hw).symm
  rw [peekkey, if_pos hstarted, hw, Option.bind_eq_bind, Option.bind_some, peekWindow]
  generalize hp : tk.dropHightide.peeked key nbytes = p
  cases hclosed : tk.isClosed with
  | true => exact .some (.put _ _ _ _)
  | false =>
    have hsimple : (tk.dropHightide.put p).peekkeySimple p.key force p.nbytes =
        some (.none, tk.dropHightide.put p, p.key, p.nbytes) := by
      have hcount' : (tk.dropHightide.put p).buffcount = 0 := hcount
      have hclosed' : (tk.dropHightide.put p).isClosed = false := hclosed
      rw [peekkeySimple, dif_pos hcount', hclosed']
      rfl
    have hlooked : Looked tk.dropHightide [] (some (.none, p))
        ((tk.dropHightide.put p).peekkeySimple p.key force p.nbytes) := by
      rw [hsimple]
      exact .some (.put _ _ _ _)
    exact hlooked

/-- What `peekkey_simple` says of a window of which the drivers say nothing. -/
theorem looked_simple {b0 : UInt8} {rest : List UInt8} {p : Peeked}
    (hw : (tk.put p).window = some (b0 :: rest))
    (hinner : rest ≠ [] → Looked (tk.put p).tail rest
      (peekWindow tk.flags tk.root tk.isClosed force tk.behind rest p)
      ((tk.put p).tail.peekkey p.key force p.nbytes)) :
    Looked tk (b0 :: rest)
      (if b0 = 0x1b then
        if rest = [] then if force then emitPeeked tk.flags .key 0x1b 1 p.key p else some (.again, p)
        else (peekWindow tk.flags tk.root tk.isClosed force tk.behind rest p).bind fun o ↦
          some (o.1, altKey o.1 o.2)
      else peekkeyPlain tk.flags force b0 rest p)
      ((tk.put p).peekkeySimple p.key force p.nbytes) := by
  by_cases hesc : b0 = 0x1b
  · subst hesc
    rw [if_pos rfl]
    by_cases hrest : rest = []
    · subst hrest
      rw [if_pos rfl, peekkeySimple_esc hw]
      cases force with
      | false => exact .some (.put tk _ _ p)
      | true =>
        rw [if_pos rfl, if_pos rfl]
        rw [emitPeeked]
        have hflags : (tk.put p).flags = tk.flags := rfl
        rw [hflags]
        cases hemit : emitCodepoint tk.flags (BitVec.ofNat 64 0x1b) p.key with
        | none => exact .none
        | some key => exact .some (Peeks.put tk _ _ { p with key, nbytes := 1 })
    · rw [if_neg hrest, peekkeySimple_alt hw hrest]
      have hcount : rest.length + 1 = tk.buffcount := length_window hw
      generalize hread : peekWindow tk.flags tk.root tk.isClosed force tk.behind rest p = o at *
      generalize hlook : (tk.put p).tail.peekkey p.key force p.nbytes = o' at *
      cases hinner hrest with
      | none => exact .none
      | @some r q tk' hpeeks =>
        have hout := Looked.some (hpeeks.escape (by omega : 0 < tk.buffcount))
        refine Eq.mp (congrArg (Looked tk _ _) ?_) hout
        rw [Option.bind_some]
        rw [altKey]
        dsimp only
        split <;> rfl
  · rw [if_neg hesc, peekkeySimple_plain hw hesc]
    have hpeeked : (tk.put p).peeked p.key p.nbytes = p := rfl
    have hflags : (tk.put p).flags = tk.flags := rfl
    rw [hpeeked, hflags]
    cases peekkeyPlain tk.flags force b0 rest p with
    | none => exact .none
    | some o =>
      obtain ⟨r, q⟩ := o
      exact .some (.put tk _ _ q)

/-- **A look at the buffer** says what its window says. -/
theorem peekkey_eq (hstarted : tk.isStarted = true) (hw : tk.dropHightide.window = some w)
    (key : TermKeyKey) (force : Bool) (nbytes : ℕ) :
    Looked tk.dropHightide w
      (peekWindow tk.flags tk.root tk.isClosed force tk.dropHightide.behind w
        (tk.dropHightide.peeked key nbytes)) (tk.peekkey key force nbytes) := by
  induction w generalizing tk key nbytes with
  | nil => exact peekkey_nil hstarted hw key force nbytes
  | cons b0 rest ih =>
    rw [peekkey, if_pos hstarted, hw, Option.bind_eq_bind, Option.bind_some, peekWindow]
    generalize hp0 : tk.dropHightide.peeked key nbytes = p0
    have hzero : p0.hightide = 0 := by
      rw [← hp0]
      rfl
    cases hdrivers : peekDrivers tk.flags tk.root tk.isClosed force (b0 :: rest)
        tk.dropHightide.behind p0 with
    | none => exact .none
    | some o =>
      obtain ⟨r, p⟩ := o
      simp only [Option.bind_eq_bind, Option.bind_some]
      by_cases hkey : r = .key
      · subst hkey
        exact .some (.slide tk.dropHightide (b0 :: rest) p)
      by_cases hnone : r ≠ .none
      · rw [if_pos hnone, if_neg hkey, if_pos hnone]
        exact .some (.put tk.dropHightide (b0 :: rest) r p)
      rw [if_neg hnone, if_neg hkey, if_neg hnone]
      rw [ne_eq, not_not] at hnone
      subst hnone
      have huntouched : Untouched p0 p := peekDrivers_none (List.cons_ne_nil b0 rest) hzero hdrivers
      have hphigh : p.hightide = 0 := huntouched.hightide.trans hzero
      refine looked_simple hw fun _ ↦ ?_
      -- behind the first byte there is nothing that has been reported already
      have htail := window_tail (hw : (tk.dropHightide.put p).window = some (b0 :: rest))
      have hdrop : (tk.dropHightide.put p).tail.dropHightide = (tk.dropHightide.put p).tail :=
        dropHightide_of_zero hphigh
      have hinner := @ih (tk.dropHightide.put p).tail hstarted (by rw [hdrop]; exact htail.1)
        p.key p.nbytes
      have hbehind : (tk.dropHightide.put p).tail.behind = tk.dropHightide.behind := htail.2
      rw [hdrop, hbehind] at hinner
      exact hinner

end TermKey

end Rustyaxe.Termkey
