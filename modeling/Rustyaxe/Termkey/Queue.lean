import Mathlib.Algebra.Group.Even
import Rustyaxe.Termkey.Buffer

/-!
# The bytes that are still to be read

Seen from outside, the buffer of a `TermKey` is a queue of bytes, the window without the bytes of
the sequence that has been reported last (`TermKey.Carries`).  Bytes that are received come behind
it, as far as there is room, the bytes of a key that is returned are taken off it, and nothing
else changes it.

The buffer has to be of even length for that.  Two escapes in a row can put its window in front of
the buffer, where nothing more is read (`TermKey.Placed`).
-/

set_option autoImplicit false

namespace Rustyaxe.Termkey

open TermKeyKey PrefixCode Trie

namespace TermKey

variable {tk tk' : TermKey} {w : List UInt8}

/-- The window is in the buffer. -/
def Placed (tk : TermKey) : Prop :=
  0 ≤ tk.buffstart ∧ tk.buffstart.toNat + tk.buffcount ≤ tk.buffsize

/-- The window of `tk` without the bytes that have been reported is `w`, if it is in the buffer. -/
structure Carries (tk : TermKey) (w : List UInt8) : Prop where
  even : Even tk.buffsize
  fits : tk.buffcount ≤ tk.buffsize
  length : w.length + tk.hightide = tk.buffcount
  front : tk.Placed ∨ tk.hightide = 0
  window : ∀ v, tk.window = some v → v.drop tk.hightide = w

theorem window_of_placed (h : tk.Placed) :
    tk.window = some ((tk.buffer.drop tk.buffstart.toNat).take tk.buffcount) := if_pos h

theorem not_placed (h : ¬ tk.Placed) : tk.window = none := if_neg h

/-- The window behind its first `n` bytes. -/
theorem window_drop {n : ℕ} (h : tk.Placed) (hn : n ≤ tk.buffcount) :
    Placed { tk with buffstart := tk.buffstart + n, buffcount := tk.buffcount - n } ∧
      window { tk with buffstart := tk.buffstart + n, buffcount := tk.buffcount - n } =
        some (((tk.buffer.drop tk.buffstart.toNat).take tk.buffcount).drop n) := by
  obtain ⟨h0, hle⟩ := h
  have hnat : (tk.buffstart + n).toNat = tk.buffstart.toNat + n := by omega
  have hplaced :
      Placed { tk with buffstart := tk.buffstart + n, buffcount := tk.buffcount - n } := by
    refine ⟨by show 0 ≤ tk.buffstart + n; omega, ?_⟩
    show (tk.buffstart + n).toNat + (tk.buffcount - n) ≤ tk.buffsize
    omega
  refine ⟨hplaced, (window_of_placed hplaced).trans ?_⟩
  rw [List.drop_take, List.drop_drop, ← hnat]

theorem Carries.hightide (h : tk.Carries w) : tk.hightide ≤ tk.buffcount :=
  h.length ▸ Nat.le_add_left _ _

theorem Carries.queue (h : tk.Carries w) (hplaced : tk.Placed) :
    tk.dropHightide.Placed ∧ tk.dropHightide.window = some w := by
  obtain ⟨hplaced', hwindow⟩ := window_drop hplaced h.hightide
  refine ⟨hplaced', hwindow.trans (congrArg some ?_)⟩
  exact h.window _ (window_of_placed hplaced)

/-! ## The slide -/

/-- The data behind the middle of a buffer of even length has slid down. -/
theorem drop_slide {buffer : List UInt8} {half : ℕ} (hsize : buffer.length = half + half)
    {start count : ℕ} (hle : half + start + count ≤ buffer.length) :
    (((buffer.drop half).take half ++ buffer.drop half).drop start).take count =
      (buffer.drop (half + start)).take count := by
  have hlen : ((buffer.drop half).take half).length = half := by
    rw [List.length_take, List.length_drop]
    omega
  have hall : (buffer.drop half).take half = buffer.drop half :=
    List.take_of_length_le (by rw [List.length_drop]; omega)
  rw [List.drop_append_of_le_length (by omega), hall, List.drop_drop, List.take_append_of_le_length]
  rw [List.length_drop]
  omega

theorem Peeks.buffsize {r : TermKeyResult} {q : Peeked} (h : Peeks tk w r q tk') :
    tk'.buffsize = tk.buffsize := by
  unfold TermKey.buffsize
  rcases h.place with ⟨hbuffer, -⟩ | ⟨-, d, -, -, -, hbuffer, -⟩
  · rw [hbuffer]
  · rw [hbuffer, List.length_append, List.length_take, List.length_drop, TermKey.buffsize]
    omega

/-- What a look leaves of the window behind its first `n` bytes. -/
theorem Peeks.window_drop {r : TermKeyResult} {q : Peeked} (heven : Even tk.buffsize)
    (hplaced : tk.Placed) (hwindow : tk.window = some w) (h : Peeks tk w r q tk') {n : ℕ}
    (hpos : 0 ≤ tk'.buffstart + n) (hle : n ≤ tk.buffcount) :
    Placed { tk' with buffstart := tk'.buffstart + n, buffcount := tk'.buffcount - n } ∧
      window { tk' with buffstart := tk'.buffstart + n, buffcount := tk'.buffcount - n } =
        some (w.drop n) := by
  obtain ⟨-, hsize, hw⟩ := window_eq_some hwindow
  obtain ⟨h0, -⟩ := hplaced
  have hcount := h.buffcount
  rcases h.place with ⟨hbuffer, hstart⟩ | ⟨-, d, -, hd, hlt, hbuffer, hstart⟩
  · have hplaced' : tk'.Placed := by
      refine ⟨by omega, ?_⟩
      rw [TermKey.buffsize, hbuffer, hstart, hcount]
      exact hsize
    obtain ⟨hp, hd⟩ := TermKey.window_drop hplaced' (hcount ▸ hle)
    refine ⟨hp, hd.trans ?_⟩
    rw [hbuffer, hstart, hcount, ← hw]
  · obtain ⟨half, hhalf⟩ := heven
    have hdiv : tk.buffsize / 2 = half := by omega
    have hbufflen : tk.buffer.length = half + half := hhalf
    have hlen' : tk'.buffer.length = tk.buffer.length := h.buffsize
    have hplaced' :
        Placed { tk' with buffstart := tk'.buffstart + n, buffcount := tk'.buffcount - n } := by
      refine ⟨hpos, ?_⟩
      show (tk'.buffstart + n).toNat + (tk'.buffcount - n) ≤ tk'.buffer.length
      omega
    refine ⟨hplaced', (window_of_placed hplaced').trans (congrArg some ?_)⟩
    show (tk'.buffer.drop (tk'.buffstart + n).toNat).take (tk'.buffcount - n) = w.drop n
    have hdrop : half + (tk'.buffstart + n).toNat = tk.buffstart.toNat + n := by omega
    rw [hw, List.drop_take, List.drop_drop, hbuffer, hdiv, hcount, ← hdrop]
    exact drop_slide hbufflen (by omega)

/-- The bytes of a key that is returned are taken off the window. -/
theorem Peeks.eat {q : Peeked} (heven : Even tk.buffsize) (hplaced : tk.Placed)
    (hwindow : tk.window = some w) (h : Peeks tk w .key q tk')
    (hfits : q.nbytes + q.hightide ≤ w.length) :
    (tk'.eatBytes q.nbytes).Carries (w.drop (q.nbytes + q.hightide)) ∧
      (tk'.eatBytes q.nbytes).Placed := by
  have hlen := length_window hwindow
  have hcount := h.buffcount
  have hhigh := h.hightide
  have hsize := h.buffsize
  have hle : tk.buffcount ≤ tk.buffsize := (Nat.le_add_left _ _).trans hplaced.2
  have hpos : 0 ≤ tk'.buffstart + q.nbytes := by
    obtain ⟨h0, -⟩ := hplaced
    rcases h.place with ⟨-, hstart⟩ | ⟨-, d, -, hd, hlt, -, hstart⟩
    · omega
    · omega
  obtain ⟨hplaced', hwindow'⟩ := h.window_drop heven hplaced hwindow hpos (by omega)
  rw [eatBytes]
  split
  · next hall =>
    have hzero : tk'.hightide = 0 := by omega
    have hp : Placed { tk' with buffstart := 0, buffcount := 0 } := ⟨Int.le_refl 0, Nat.zero_le _⟩
    refine ⟨⟨hsize ▸ heven, Nat.zero_le _, ?_, .inl hp, fun v hv ↦ ?_⟩, hp⟩
    · show (w.drop (q.nbytes + q.hightide)).length + tk'.hightide = 0
      rw [List.length_drop]
      omega
    · have hv' : v = [] := List.length_eq_zero_iff.mp (length_window hv)
      rw [hv', List.drop_nil, List.drop_eq_nil_of_le (by omega)]
  · next hsome =>
    refine ⟨⟨hsize ▸ heven, ?_, ?_, .inl hplaced', fun v hv ↦ ?_⟩, hplaced'⟩
    · show tk'.buffcount - q.nbytes ≤ tk'.buffsize
      omega
    · show (w.drop (q.nbytes + q.hightide)).length + tk'.hightide = tk'.buffcount - q.nbytes
      rw [List.length_drop]
      omega
    · obtain rfl := Option.some.inj (hwindow'.symm.trans hv)
      show (w.drop q.nbytes).drop tk'.hightide = _
      rw [List.drop_drop, hhigh]

/-- A look at the window leaves it what it is, unless it is in front of the buffer then. -/
theorem Peeks.carries {r : TermKeyResult} {q : Peeked} (heven : Even tk.buffsize)
    (hplaced : tk.Placed) (hwindow : tk.window = some w) (h : Peeks tk w r q tk')
    (hq : q.hightide = 0) :
    tk'.Carries w ∧ (r ≠ .key ∨ escapes w ≤ 1 → tk'.Placed) := by
  have hcount := h.buffcount
  have hlen := length_window hwindow
  have hhigh := h.hightide.trans hq
  have hsize := h.buffsize
  have hle : tk.buffcount ≤ tk.buffsize := (Nat.le_add_left _ _).trans hplaced.2
  have hzero : ({ tk' with
      buffstart := tk'.buffstart + (0 : ℕ), buffcount := tk'.buffcount - 0 } : TermKey) = tk' := by
    rw [Int.natCast_zero, Int.add_zero, Nat.sub_zero]
  have hself : 0 ≤ tk'.buffstart → tk'.Placed ∧ tk'.window = some w := by
    intro hpos
    have hdrop := h.window_drop heven hplaced hwindow (n := 0) (by omega) (Nat.zero_le _)
    rw [hzero] at hdrop
    exact hdrop
  refine ⟨⟨hsize ▸ heven, by omega, by omega, .inr hhigh, fun v hv ↦ ?_⟩, fun hcase ↦ (hself ?_).1⟩
  · rw [(hself (window_eq_some hv).1).2] at hv
    rw [hhigh, ← Option.some.inj hv, List.drop_zero]
  · obtain ⟨h0, -⟩ := hplaced
    rcases h.place with ⟨-, hstart⟩ | ⟨hr, d, hd, -, hlt, -, hstart⟩
    · omega
    · rcases hcase with hne | hone
      · exact absurd hr hne
      · omega

/-! ## Receiving -/

/-- The window is moved to the start of the buffer unless it is in front of it. -/
theorem compact_cases (h : tk.Carries w) :
    (¬ tk.Placed ∧ tk.compact = none) ∨ tk.Placed ∧ ∃ buffer, buffer.length = tk.buffsize ∧
      tk.compact = some { tk with buffer, buffstart := 0 } ∧
      Carries { tk with buffer, buffstart := 0 } w ∧
      Placed { tk with buffer, buffstart := 0 } := by
  rw [compact]
  by_cases hstart : tk.buffstart = 0
  · have hself : { tk with buffer := tk.buffer, buffstart := 0 } = tk := by rw [← hstart]
    have hplaced : tk.Placed := ⟨hstart.ge, by rw [hstart]; simpa using h.fits⟩
    rw [if_pos hstart]
    refine .inr ⟨hplaced, tk.buffer, rfl, ?_⟩
    rw [hself]
    exact ⟨rfl, h, hplaced⟩
  rw [if_neg hstart]
  by_cases hplaced : tk.Placed
  · have hwindow := window_of_placed hplaced
    generalize (tk.buffer.drop tk.buffstart.toNat).take tk.buffcount = v at hwindow
    have hlen := length_window hwindow
    have hsize : (v ++ tk.buffer.drop v.length).length = tk.buffsize := by
      rw [List.length_append, List.length_drop, hlen]
      exact Nat.add_sub_cancel' h.fits
    rw [hwindow]
    have hplaced' : Placed { tk with buffer := v ++ tk.buffer.drop v.length, buffstart := 0 } := by
      refine ⟨Int.le_refl 0, ?_⟩
      show (0 : ℤ).toNat + tk.buffcount ≤ (v ++ tk.buffer.drop v.length).length
      rw [hsize, Int.toNat_zero, Nat.zero_add]
      exact h.fits
    refine .inr ⟨hplaced, v ++ tk.buffer.drop v.length, hsize, rfl,
      ⟨?_, ?_, h.length, .inl hplaced', fun u hu ↦ ?_⟩, hplaced'⟩
    · show Even (v ++ tk.buffer.drop v.length).length
      rw [hsize]
      exact h.even
    · show tk.buffcount ≤ (v ++ tk.buffer.drop v.length).length
      rw [hsize]
      exact h.fits
    · have hu' : u = v := by
        obtain ⟨-, -, hu⟩ := window_eq_some hu
        rw [hu]
        show ((v ++ tk.buffer.drop v.length).drop 0).take tk.buffcount = v
        rw [List.drop_zero, ← hlen, List.take_left']
        rfl
      rw [hu']
      exact h.window v hwindow
  · rw [not_placed hplaced]
    exact .inl ⟨hplaced, rfl⟩

/-- Bytes that there is room for come behind the queue. -/
theorem Carries.append (h : tk.Carries w) (hstart : tk.buffstart = 0) (bytes : List UInt8)
    (hroom : tk.buffcount + bytes.length ≤ tk.buffsize) :
    (tk.append bytes).Carries (w ++ bytes) ∧ (tk.append bytes).Placed ∧
      (tk.append bytes).buffsize = tk.buffsize := by
  have hfits := h.fits
  have htake : (tk.buffer.take tk.buffcount).length = tk.buffcount := by
    rw [List.length_take]
    exact Nat.min_eq_left hfits
  have hsize : (tk.append bytes).buffsize = tk.buffsize := by
    show (tk.buffer.take tk.buffcount ++ bytes ++
      tk.buffer.drop (tk.buffcount + bytes.length)).length = _
    rw [List.length_append, List.length_append, htake, List.length_drop]
    exact Nat.add_sub_cancel' hroom
  have hplaced : tk.Placed := ⟨hstart.ge, by rw [hstart]; simpa using h.fits⟩
  have hplaced' : (tk.append bytes).Placed := by
    refine ⟨hstart.ge, ?_⟩
    rw [hsize]
    show tk.buffstart.toNat + (tk.buffcount + bytes.length) ≤ tk.buffsize
    omega
  refine ⟨⟨hsize ▸ h.even, hsize ▸ hroom, ?_, .inl hplaced', fun v hv ↦ ?_⟩,
    hplaced', hsize⟩
  · show (w ++ bytes).length + tk.hightide = tk.buffcount + bytes.length
    have hlen := h.length
    rw [List.length_append]
    omega
  have hqueue := h.window _ (window_of_placed hplaced)
  rw [hstart, Int.toNat_zero, List.drop_zero] at hqueue
  obtain ⟨-, -, hv⟩ := window_eq_some hv
  have hv' : v = tk.buffer.take tk.buffcount ++ bytes := by
    rw [hv]
    show ((tk.buffer.take tk.buffcount ++ bytes ++
      tk.buffer.drop (tk.buffcount + bytes.length)).drop
      tk.buffstart.toNat).take (tk.buffcount + bytes.length) = _
    rw [hstart, Int.toNat_zero, List.drop_zero, List.take_left']
    rw [List.length_append, htake]
  show v.drop tk.hightide = w ++ bytes
  rw [hv', List.drop_append_of_le_length (by rw [htake]; exact h.hightide), hqueue]

/-- What no call touches. -/
structure SameTerminal (tk tk' : TermKey) : Prop where
  flags : tk'.flags = tk.flags
  root : tk'.root = tk.root
  isStarted : tk'.isStarted = tk.isStarted
  buffsize : tk'.buffsize = tk.buffsize

theorem SameTerminal.refl (tk : TermKey) : SameTerminal tk tk := ⟨rfl, rfl, rfl, rfl⟩

theorem SameTerminal.trans {tk'' : TermKey} (h : SameTerminal tk tk')
    (h' : SameTerminal tk' tk'') : SameTerminal tk tk'' where
  flags := h'.flags.trans h.flags
  root := h'.root.trans h.root
  isStarted := h'.isStarted.trans h.isStarted
  buffsize := h'.buffsize.trans h.buffsize

/-- What receiving does not touch. -/
structure Kept (tk tk' : TermKey) : Prop extends SameTerminal tk tk' where
  hightide : tk'.hightide = tk.hightide
  savedStringId : tk'.savedStringId = tk.savedStringId
  savedString : tk'.savedString = tk.savedString

theorem length_accepted_le (tk : TermKey) (bytes : List UInt8) :
    (tk.accepted bytes).length ≤ tk.buffsize - tk.buffcount := List.length_take_le _ _

/-- **Bytes that are pushed** come behind the queue as far as there is room. -/
theorem termkeyPushBytes_spec (h : tk.Carries w) (bytes : List UInt8) :
    (¬ tk.Placed ∧ tk.termkeyPushBytes bytes = none) ∨
      ∃ n tk', tk.termkeyPushBytes bytes = some (n, tk') ∧
        bytes.take (n.getD 0) = tk.accepted bytes ∧ tk'.Carries (w ++ tk.accepted bytes) ∧
        tk'.Placed ∧ Kept tk tk' ∧ tk'.isClosed = tk.isClosed := by
  unfold termkeyPushBytes
  rcases compact_cases h with ⟨hplaced, hnone⟩ | ⟨hplaced, buffer, hsize, hsome, hcarries, hplaced'⟩
  · rw [hnone]
    exact .inl ⟨hplaced, rfl⟩
  rw [hsome, Option.bind_eq_bind, Option.bind_some]
  have hsize' : buffsize { tk with buffer, buffstart := 0 } = tk.buffsize := hsize
  have haccepted : accepted { tk with buffer, buffstart := 0 } bytes = tk.accepted bytes := by
    unfold accepted
    rw [hsize']
  rw [hsize', haccepted]
  dsimp only
  split
  · next hfull =>
    have hnil : tk.accepted bytes = [] := by
      rw [accepted, Nat.sub_eq_zero_of_le hfull, List.take_zero]
    rw [hnil, List.append_nil]
    exact .inr ⟨none, _, rfl, rfl, hcarries, hplaced', ⟨⟨rfl, rfl, rfl, hsize'⟩, rfl, rfl, rfl⟩, rfl⟩
  · next hroom =>
    have hle := length_accepted_le tk bytes
    obtain ⟨hcarries, hplaced', hsize''⟩ := hcarries.append rfl (tk.accepted bytes)
      (by rw [hsize']; show tk.buffcount + _ ≤ _; omega)
    refine .inr ⟨_, _, rfl, ?_, hcarries, hplaced',
      ⟨⟨rfl, rfl, rfl, hsize''.trans hsize'⟩, rfl, rfl, rfl⟩, rfl⟩
    show bytes.take (tk.accepted bytes).length = tk.accepted bytes
    rw [accepted, List.length_take, List.take_eq_take_iff]
    omega

/-- The bytes that `termkey_advisereadable` takes. -/
def readBytes (tk : TermKey) (reads : List ReadResult) : List UInt8 :=
  match readRetry tk.flagEintr reads with
  | some (.data bytes) => if tk.hasFd then tk.accepted bytes else []
  | _ => []

theorem length_readBytes_le (tk : TermKey) (reads : List ReadResult) :
    (tk.readBytes reads).length ≤ tk.buffsize - tk.buffcount := by
  rw [readBytes]
  split
  · split
    · exact length_accepted_le tk _
    · exact Nat.zero_le _
  · exact Nat.zero_le _

/-- **Bytes that are read** come behind the queue as far as there is room.  Nothing comes back if
`read` does not. -/
theorem termkeyAdvisereadable_spec (h : tk.Carries w) {reads : List ReadResult} {r : TermKeyResult}
    (hread : tk.termkeyAdvisereadable reads = some (r, tk')) :
    tk'.Carries (w ++ tk.readBytes reads) ∧ (tk.Placed → tk'.Placed) ∧ Kept tk tk' := by
  have hsame : tk.readBytes reads = [] → tk' = tk →
      tk'.Carries (w ++ tk.readBytes reads) ∧ (tk.Placed → tk'.Placed) ∧ Kept tk tk' := by
    rintro hnil rfl
    rw [hnil, List.append_nil]
    exact ⟨h, id, .refl _, rfl, rfl, rfl⟩
  unfold termkeyAdvisereadable at hread
  split at hread
  swap
  · next hfd =>
    refine hsame ?_ (Prod.mk.inj (Option.some.inj hread)).2.symm
    unfold readBytes
    split
    · exact if_neg hfd
    · rfl
  next hfd =>
  rcases compact_cases h with ⟨-, hnone⟩ | ⟨-, buffer, hsize, hsome, hcarries, hplaced⟩
  · rw [hnone] at hread
    cases hread
  rw [hsome, Option.bind_eq_bind, Option.bind_some] at hread
  have hsize' : buffsize { tk with buffer, buffstart := 0 } = tk.buffsize := hsize
  have haccepted : ∀ bytes,
      accepted { tk with buffer, buffstart := 0 } bytes = tk.accepted bytes := by
    intro bytes
    unfold accepted
    rw [hsize']
  have hmoved : tk.readBytes reads = [] →
      tk' = { tk with buffer, buffstart := 0, isClosed := tk'.isClosed } →
      tk'.Carries (w ++ tk.readBytes reads) ∧ (tk.Placed → tk'.Placed) ∧ Kept tk tk' := by
    intro hnil htk
    rw [hnil, List.append_nil, htk]
    exact ⟨⟨hcarries.even, hcarries.fits, hcarries.length, .inl hplaced, hcarries.window⟩,
      fun _ ↦ hplaced, ⟨⟨rfl, rfl, rfl, hsize'⟩, rfl, rfl, rfl⟩⟩
  rw [hsize'] at hread
  dsimp only at hread
  split at hread
  · next hfull =>
    obtain ⟨-, rfl⟩ := Prod.mk.inj (Option.some.inj hread)
    refine hmoved ?_ rfl
    unfold readBytes accepted
    rw [Nat.sub_eq_zero_of_le hfull]
    split
    · rw [if_pos hfd, List.take_zero]
    · rfl
  obtain ⟨result, hretry, hread⟩ := Option.bind_eq_some_iff.mp hread
  cases result with
  | data bytes =>
    have hbytes : tk.readBytes reads = tk.accepted bytes := by
      unfold readBytes
      rw [hretry]
      exact if_pos hfd
    dsimp only at hread
    rw [haccepted] at hread
    split at hread
    · next hnil =>
      obtain ⟨-, rfl⟩ := Prod.mk.inj (Option.some.inj hread)
      exact hmoved (hbytes.trans hnil) rfl
    · next hroom =>
      obtain ⟨-, rfl⟩ := Prod.mk.inj (Option.some.inj hread)
      have hle := length_accepted_le tk bytes
      obtain ⟨hcarries, hplaced', hsize''⟩ := hcarries.append rfl (tk.accepted bytes)
        (by rw [hsize']; show tk.buffcount + _ ≤ _; omega)
      rw [hbytes]
      exact ⟨hcarries, fun _ ↦ hplaced', ⟨⟨rfl, rfl, rfl, hsize''.trans hsize'⟩, rfl, rfl, rfl⟩⟩
  | _ =>
    obtain ⟨-, rfl⟩ := Prod.mk.inj (Option.some.inj hread)
    refine hmoved ?_ rfl
    unfold readBytes
    rw [hretry]

/-- The call comes back if `read` does. -/
theorem termkeyAdvisereadable_exists (h : tk.Carries w) (hplaced : tk.Placed)
    {reads : List ReadResult} (hreads : (readRetry tk.flagEintr reads).isSome) :
    ∃ o, tk.termkeyAdvisereadable reads = some o := by
  rw [termkeyAdvisereadable]
  split
  · rcases compact_cases h with ⟨hno, -⟩ | ⟨-, buffer, -, hsome, -⟩
    · exact absurd hplaced hno
    obtain ⟨result, hresult⟩ := Option.isSome_iff_exists.mp hreads
    rw [hsome, Option.bind_eq_bind, Option.bind_some]
    dsimp only
    split
    · exact ⟨_, rfl⟩
    rw [hresult, Option.bind_eq_bind, Option.bind_some]
    cases result with
    | data bytes =>
      dsimp only
      split <;> exact ⟨_, rfl⟩
    | _ => exact ⟨_, rfl⟩
  · exact ⟨_, rfl⟩

end TermKey

end Rustyaxe.Termkey
