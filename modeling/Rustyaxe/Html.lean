import Mathlib.Data.List.Find
import Rustyaxe.CString
import Rustyaxe.Lib.TextBuffer

/-!
# HTML escapes

`escape_html` and `unescape_html` of `util.string.c`, on the bytes of their buffers.

`escape_html` writes a chunk for each byte of its input, which is an entity or the byte itself
(`escapedText`), and every chunk fits.  `unescape_html` works in place: it has read at least as much
as it has written, so the text it still has to read is as it was.  It reads the chunks one by one,
and `'&'` is only ever the first byte of one.
-/

set_option autoImplicit false

namespace Rustyaxe

open TextBuffer

/-! ## The code -/

/-- `'&'` -/
def ampersand : UInt8 := 0x26

/-- `'<'` -/
def lessThan : UInt8 := 0x3c

/-- `'>'` -/
def greaterThan : UInt8 := 0x3e

/-- The `switch` of `escape_html`. -/
def entity (c : UInt8) : Option CStr :=
  if c = lessThan then some (lit "&lt;")
  else if c = greaterThan then some (lit "&gt;")
  else if c = ampersand then some (lit "&amp;")
  else if c = quote then some (lit "&quot;")
  else if c = apostrophe then some (lit "&#39;")
  else none

/-- `snprintf(&buf[p], size, text)`, for a text without conversions.  It returns the length of the
text, however much of it there was room for. -/
def snprintf (buf : List UInt8) (p size : ℕ) (text : CStr) : Option (List UInt8 × ℕ) :=
  if size = 0 then some (buf, text.length)
  else do return (← memcpy buf p (text.take (size - 1) ++ [0]), text.length)

/-- What the loop of `escape_html` does with a byte: the buffer, and `p` as an index into it. -/
def escapeHtmlByte (output : List UInt8) (p : ℕ) (c : UInt8) : Option (List UInt8 × ℕ) :=
  match entity c with
  | some text => do
    let (output, n) ← snprintf output p (output.length - p) text
    return (output, p + n)
  | none => do return (← store output p c, p + 1)

/-- The loop of `escape_html`. -/
def escapeHtmlLoop : (input : CStr) → (output : List UInt8) → (p : ℕ) → Option (List UInt8 × ℕ)
  | [], output, p => some (output, p)
  | c :: input, output, p => do
    let (output, p) ← escapeHtmlByte output p c
    if output.length ≤ p then some (output, output.length - 1)
    else escapeHtmlLoop input output p

/-- `escape_html`, with the memory that `malloc` gives for a size.  What is returned may be `NULL`;
there is no result where the code would write outside the buffer. -/
def escapeHtml (malloc : ℕ → Option (List UInt8)) (input : Option CStr) :
    Option (Option (List UInt8)) :=
  match input with
  | none => some none
  | some input =>
    match malloc (input.length * 6 + 1) with
    | none => some none
    | some output => do
      let (output, p) ← escapeHtmlLoop input output 0
      return some (← store output p 0)

/-- What `unescape_html` compares with, in this order, and what it writes for each. -/
def entities : List (CStr × UInt8) :=
  [(lit "&lt;", lessThan), (lit "&gt;", greaterThan), (lit "&amp;", ampersand),
    (lit "&quot;", quote), (lit "&#39;", apostrophe), (lit "&nbsp;", space)]

/-- The byte that a round of `unescape_html` writes when `*r` is `c`, and how many it reads. -/
def unescapeAt (r : List UInt8) (c : UInt8) : UInt8 × ℕ :=
  if c = ampersand then
    match entities.find? fun e ↦ startsWith e.1 r with
    | some (e, d) => (d, e.length)
    | none => (c, 1)
  else (c, 1)

/-- An entity is an `'&'`, and no byte behind that is one that is escaped. -/
theorem entities_spec {e : CStr × UInt8} (he : e ∈ entities) : ∃ name, e.1 = ampersand :: name ∧
    ∀ c ∈ name, c ∉ [0, lessThan, greaterThan, quote, apostrophe, ampersand] := by
  simp only [entities, List.mem_cons, List.not_mem_nil, or_false] at he
  rcases he with rfl | rfl | rfl | rfl | rfl | rfl <;> exact ⟨_, rfl, by decide +kernel⟩

theorem unescapeAt_cases (r : List UInt8) (c : UInt8) :
    unescapeAt r c = (c, 1) ∨ ∃ e ∈ entities, e.1 <+: r ∧ unescapeAt r c = (e.2, e.1.length) := by
  rw [unescapeAt]
  split_ifs with hc
  · cases hfind : entities.find? fun e ↦ startsWith e.1 r with
    | none => exact .inl rfl
    | some e =>
      refine .inr ⟨e, List.mem_of_find?_eq_some hfind, ?_, rfl⟩
      have hprefix : startsWith e.1 r = true :=
        List.find?_some (p := fun e : CStr × UInt8 ↦ startsWith e.1 r) hfind
      exact List.isPrefixOf_iff_prefix.mp hprefix
  · exact .inl rfl

theorem unescapeAt_pos (r : List UInt8) (c : UInt8) : 0 < (unescapeAt r c).2 := by
  obtain h | ⟨e, hmem, -, h⟩ := unescapeAt_cases r c
  · rw [h]
    exact Nat.one_pos
  · rw [h]
    obtain ⟨name, hname, -⟩ := entities_spec hmem
    rw [hname]
    exact Nat.succ_pos _

theorem lt_of_load {s : List UInt8} {r : ℕ} {c : UInt8} (h : load s r = some c) : r < s.length := by
  rw [load_natCast] at h
  exact (List.getElem?_eq_some_iff.mp h).1

/-- The loop of `unescape_html`, with `r` and `w` as indices into the buffer. -/
def unescapeHtmlLoop (s : List UInt8) (r w : ℕ) : Option (List UInt8) :=
  match _hload : load s r with
  | none => none
  | some c =>
    if c = 0 then store s w 0
    else
      match _hstore : store s w (unescapeAt (s.drop r) c).1 with
      | none => none
      | some s' => unescapeHtmlLoop s' (r + (unescapeAt (s.drop r) c).2) (w + 1)
termination_by s.length - r
decreasing_by
  have hr := lt_of_load ‹load s r = some c›
  have hpos := unescapeAt_pos (s.drop r) c
  rw [store_length ‹_ = some s'›]
  omega

/-- `unescape_html` -/
def unescapeHtml (s : List UInt8) : Option (List UInt8) := unescapeHtmlLoop s 0 0

/-! ## Texts -/

/-- What `escape_html` writes for a byte. -/
def chunk (c : UInt8) : CStr := (entity c).getD [c]

/-- The text that `escape_html` makes of another. -/
def escapedText (s : CStr) : CStr := s.flatMap chunk

/-- The text that `unescape_html` makes of another. -/
def unescapedText (s : CStr) : CStr :=
  match s with
  | [] => []
  | c :: s =>
    (unescapeAt (c :: s) c).1 :: unescapedText (s.drop ((unescapeAt (c :: s) c).2 - 1))
termination_by s.length
decreasing_by
  rw [List.length_drop, List.length_cons]
  omega

@[simp] theorem escapedText_nil : escapedText [] = [] := rfl

theorem escapedText_cons (c : UInt8) (s : CStr) : escapedText (c :: s) = chunk c ++ escapedText s :=
  List.flatMap_cons

/-- An entity is no prefix of another, so it is read where it was written. -/
theorem find?_entities {e : CStr × UInt8} (he : e ∈ entities) (s : CStr) :
    entities.find? (fun e' ↦ startsWith e'.1 (e.1 ++ s)) = some e := by
  simp only [entities, List.mem_cons, List.not_mem_nil, or_false] at he
  rcases he with rfl | rfl | rfl | rfl | rfl | rfl <;> rfl

theorem entity_cases (c : UInt8) :
    entity c = none ∧ c ∉ [lessThan, greaterThan, quote, apostrophe, ampersand] ∨
      ∃ e, entity c = some e ∧ (e, c) ∈ entities := by
  rw [entity]
  split_ifs with h h h h h
  · exact .inr ⟨_, rfl, by subst h; decide +kernel⟩
  · exact .inr ⟨_, rfl, by subst h; decide +kernel⟩
  · exact .inr ⟨_, rfl, by subst h; decide +kernel⟩
  · exact .inr ⟨_, rfl, by subst h; decide +kernel⟩
  · exact .inr ⟨_, rfl, by subst h; decide +kernel⟩
  · refine .inl ⟨rfl, ?_⟩
    simp [*]

theorem chunk_cases (c : UInt8) :
    chunk c = [c] ∧ c ∉ [lessThan, greaterThan, quote, apostrophe, ampersand] ∨
      (chunk c, c) ∈ entities := by
  rw [chunk]
  obtain ⟨h, hc⟩ | ⟨e, h, he⟩ := entity_cases c
  · rw [h]
    exact .inl ⟨rfl, hc⟩
  · rw [h]
    exact .inr he

/-- A round of `unescape_html` reads one chunk. -/
theorem unescapedText_chunk (c : UInt8) (s : CStr) :
    unescapedText (chunk c ++ s) = c :: unescapedText s := by
  obtain ⟨hchunk, hc⟩ | he := chunk_cases c
  · have hamp : c ≠ ampersand := by
      rintro rfl
      exact hc (by simp)
    rw [hchunk, List.singleton_append, unescapedText, unescapeAt, if_neg hamp]
    rfl
  · obtain ⟨name, hname, -⟩ := entities_spec he
    have hfind := find?_entities he s
    dsimp only at hname hfind
    rw [hname] at hfind ⊢
    rw [List.cons_append, unescapedText, unescapeAt, if_pos rfl, ← List.cons_append, hfind]
    simp only [List.length_cons, Nat.add_sub_cancel, List.drop_left]

/-- **What was escaped is unescaped again.** -/
theorem unescapedText_escapedText (s : CStr) : unescapedText (escapedText s) = s := by
  induction s with
  | nil => rw [escapedText_nil, unescapedText]
  | cons c s ih => rw [escapedText_cons, unescapedText_chunk, ih]

/-! ## The buffer of `escape_html` -/

theorem length_chunk_le (c : UInt8) : (chunk c).length ≤ 6 := by
  have hentities : ∀ e ∈ entities, e.1.length ≤ 6 := by decide +kernel
  obtain ⟨hchunk, -⟩ | he := chunk_cases c
  · rw [hchunk, List.length_singleton]
    omega
  · exact hentities _ he

/-- Where there is room, `snprintf` writes the text and the terminator. -/
theorem snprintf_append (out gap : List UInt8) {text : CStr} (h : text.length < gap.length) :
    snprintf (out ++ gap) out.length gap.length text =
      some (out ++ text ++ 0 :: gap.drop (text.length + 1), text.length) := by
  have hcopy := memcpy_append out (gap.take (text.length + 1)) (gap.drop (text.length + 1))
    (text ++ [0]) (by rw [List.length_take, List.length_append, List.length_singleton]; omega) rfl
  rw [List.append_assoc, List.take_append_drop] at hcopy
  rw [snprintf, if_neg (by omega), List.take_of_length_le (by omega), hcopy]
  simp

/-- A byte takes its chunk, and nothing before it is touched. -/
theorem escapeHtmlByte_append (out gap : List UInt8) {c : UInt8}
    (h : (chunk c).length < gap.length) : ∃ gap', gap'.length + (chunk c).length = gap.length ∧
      escapeHtmlByte (out ++ gap) out.length c =
        some (out ++ chunk c ++ gap', (out ++ chunk c).length) := by
  rw [chunk] at h ⊢
  rw [escapeHtmlByte]
  cases hentity : entity c with
  | none =>
    cases gap with
    | nil => cases h
    | cons x gap =>
      have hstore := store_append out gap x c rfl
      rw [List.append_assoc, List.singleton_append] at hstore
      refine ⟨gap, rfl, ?_⟩
      simp only [Option.getD_none, hstore]
      simp
  | some text =>
    rw [hentity, Option.getD_some] at h
    have hsize : (out ++ gap).length - out.length = gap.length := by simp
    refine ⟨0 :: gap.drop (text.length + 1), ?_, ?_⟩
    · simp only [Option.getD_some, List.length_cons, List.length_drop]
      omega
    · simp only [hsize, snprintf_append out gap h]
      simp

/-- **There is room for every chunk**, and for the terminator. -/
theorem escapeHtmlLoop_append (s : CStr) : ∀ out gap : List UInt8, 6 * s.length < gap.length →
    ∃ gap', gap' ≠ [] ∧ gap'.length + (escapedText s).length = gap.length ∧
      escapeHtmlLoop s (out ++ gap) out.length =
        some (out ++ escapedText s ++ gap', (out ++ escapedText s).length) := by
  induction s with
  | nil =>
    intro out gap h
    refine ⟨gap, List.ne_nil_of_length_pos (by omega), rfl, ?_⟩
    rw [escapeHtmlLoop, escapedText_nil, List.append_nil]
  | cons c s ih =>
    intro out gap h
    have hchunk := length_chunk_le c
    rw [List.length_cons] at h
    obtain ⟨gap₁, hlen₁, hbyte⟩ := escapeHtmlByte_append out gap (c := c) (by omega)
    obtain ⟨gap₂, hne, hlen₂, hloop⟩ := ih (out ++ chunk c) gap₁ (by omega)
    refine ⟨gap₂, hne, ?_, ?_⟩
    · rw [escapedText_cons, List.length_append]
      omega
    · have hroom : ¬(out ++ chunk c ++ gap₁).length ≤ (out ++ chunk c).length := by
        rw [List.length_append]
        omega
      rw [escapeHtmlLoop, hbyte, Option.bind_eq_bind, Option.bind_some]
      dsimp only
      rw [if_neg hroom, hloop, escapedText_cons, ← List.append_assoc]

theorem zero_notMem_entity {e : CStr × UInt8} (he : e ∈ entities) : 0 ∉ e.1 := by
  obtain ⟨name, hname, hall⟩ := entities_spec he
  rw [hname, List.mem_cons]
  rintro (h | h)
  · exact absurd h (by decide)
  · exact hall 0 h List.mem_cons_self

theorem zero_notMem_escapedText {s : CStr} (hs : 0 ∉ s) : 0 ∉ escapedText s := by
  intro h
  obtain ⟨c, hc, hmem⟩ := List.mem_flatMap.mp h
  obtain ⟨hchunk, -⟩ | he := chunk_cases c
  · rw [hchunk, List.mem_singleton] at hmem
    exact hs (hmem ▸ hc)
  · exact zero_notMem_entity he hmem

/-- **`escape_html` makes the whole text**, in a buffer of the size it asks for. -/
theorem escapeHtml_eq {malloc : ℕ → Option (List UInt8)} {s : CStr} (hs : 0 ∉ s)
    {output : List UInt8} (halloc : malloc (s.length * 6 + 1) = some output)
    (hsize : output.length = s.length * 6 + 1) :
    ∃ buf, escapeHtml malloc (some s) = some (some buf) ∧
      HoldsText 0 (s.length * 6 + 1) buf (escapedText s) := by
  obtain ⟨gap, hne, hlen, hloop⟩ := escapeHtmlLoop_append s [] output (by omega)
  obtain ⟨x, gap, rfl⟩ := List.exists_cons_of_ne_nil hne
  rw [List.nil_append, List.nil_append, List.length_nil] at hloop
  have hstore := store_append (escapedText s) gap x 0 rfl
  refine ⟨escapedText s ++ [0] ++ gap, ?_, ?_, ⟨gap, rfl⟩, zero_notMem_escapedText hs⟩
  · simp only [escapeHtml, halloc, hloop, Option.bind_eq_bind, Option.bind_some]
    rw [List.append_assoc, List.singleton_append] at hstore
    rw [hstore]
    rfl
  · rw [List.length_cons] at hlen
    rw [List.length_append, List.length_append, List.length_singleton]
    omega

/-! ## The buffer of `unescape_html` -/

/-- An entity does not go past the terminator. -/
theorem startsWith_append_nul {e : CStr} (he : 0 ∉ e) (s rest : List UInt8) :
    startsWith e (s ++ 0 :: rest) = startsWith e s := by
  induction e generalizing s with
  | nil => rfl
  | cons x e ih =>
    rw [List.mem_cons, not_or] at he
    cases s with
    | nil =>
      have hx : (x == 0) = false := beq_eq_false_iff_ne.mpr (Ne.symm he.1)
      simp only [startsWith, List.nil_append, List.isPrefixOf, hx, Bool.false_and]
    | cons y s => exact congrArg ((x == y) && ·) (ih he.2 s)

theorem unescapeAt_append_nul (s rest : List UInt8) (c : UInt8) :
    unescapeAt (s ++ 0 :: rest) c = unescapeAt s c := by
  rw [unescapeAt, unescapeAt, List.find?_congr fun e he ↦
    startsWith_append_nul (zero_notMem_entity he) s rest]

theorem unescapeAt_le {c : UInt8} {s : CStr} :
    (unescapeAt (c :: s) c).2 ≤ (c :: s).length := by
  obtain h | ⟨e, -, hprefix, h⟩ := unescapeAt_cases (c :: s) c
  · rw [h]
    exact Nat.succ_le_succ (Nat.zero_le _)
  · rw [h]
    exact hprefix.length_le

theorem unescapeHtmlLoop_nul {s : List UInt8} {r : ℕ} (h : load s r = some 0) (w : ℕ) :
    unescapeHtmlLoop s r w = store s w 0 := by
  rw [unescapeHtmlLoop]
  split
  · next hd => cases h.symm.trans hd
  · next d hd =>
    obtain rfl : 0 = d := Option.some.inj (h.symm.trans hd)
    rw [if_pos rfl]

theorem unescapeHtmlLoop_byte {s s' : List UInt8} {r w : ℕ} {c : UInt8} (h : load s r = some c)
    (hc : c ≠ 0) (hstore : store s w (unescapeAt (s.drop r) c).1 = some s') :
    unescapeHtmlLoop s r w =
      unescapeHtmlLoop s' (r + (unescapeAt (s.drop r) c).2) (w + 1) := by
  rw [unescapeHtmlLoop]
  split
  · next hd => cases h.symm.trans hd
  · next d hd =>
    obtain rfl : c = d := Option.some.inj (h.symm.trans hd)
    rw [if_neg hc]
    split
    · next hnone => cases hstore.symm.trans hnone
    · next t ht => rw [Option.some.inj (hstore.symm.trans ht)]

/-- A round writes a byte behind what has been written, and the gap ends behind what it reads. -/
theorem unescapeHtmlLoop_round (written gap rest : List UInt8) {c : UInt8} (hc : c ≠ 0)
    (s : CStr) : ∃ gap' : List UInt8,
      gap'.length + 1 = gap.length + (unescapeAt (c :: s) c).2 ∧
      unescapeHtmlLoop (written ++ gap ++ (c :: s ++ 0 :: rest)) (written ++ gap).length
          written.length =
        unescapeHtmlLoop (written ++ [(unescapeAt (c :: s) c).1] ++ gap' ++
            (s.drop ((unescapeAt (c :: s) c).2 - 1) ++ 0 :: rest))
          (written ++ [(unescapeAt (c :: s) c).1] ++ gap').length
          (written ++ [(unescapeAt (c :: s) c).1]).length := by
  obtain ⟨n, hn⟩ : ∃ n, (unescapeAt (c :: s) c).2 = n + 1 :=
    ⟨_, (Nat.sub_add_cancel (unescapeAt_pos (c :: s) c)).symm⟩
  have hle : n + 1 ≤ (c :: s).length := hn ▸ unescapeAt_le
  have htaken : (c :: s.take n).length = n + 1 := by
    rw [List.length_cons] at hle ⊢
    rw [List.length_take_of_le (by omega)]
  obtain ⟨gap', hlen, hstore⟩ := store_gap written gap (c :: s.take n) (s.drop n ++ 0 :: rest)
    (List.cons_ne_nil _ _) (unescapeAt (c :: s) c).1
  have hbuf : c :: s.take n ++ (s.drop n ++ 0 :: rest) = c :: s ++ 0 :: rest := by
    rw [← List.append_assoc, List.cons_append, List.take_append_drop]
  have hload : load (written ++ gap ++ (c :: s ++ 0 :: rest)) (written ++ gap).length = some c := by
    rw [load_natCast, List.getElem?_append_right (Nat.le_refl _), Nat.sub_self]
    rfl
  have hread : unescapeAt ((written ++ gap ++ (c :: s ++ 0 :: rest)).drop
      (written ++ gap).length) c = unescapeAt (c :: s) c := by
    rw [List.drop_left, unescapeAt_append_nul]
  rw [hbuf, ← hread] at hstore
  rw [htaken] at hlen
  refine ⟨gap', hlen.trans (by rw [hn]), ?_⟩
  rw [unescapeHtmlLoop_byte hload hc hstore, hread, hn, Nat.add_sub_cancel]
  congr 1
  · simp only [List.length_append, List.length_singleton]
    omega
  · rw [List.length_append, List.length_singleton]

/-- **The text is unescaped in place**: what is written ends where the gap begins, and what is to be
read begins where it ends. -/
theorem unescapeHtmlLoop_append (text : CStr) : ∀ written gap rest : List UInt8, 0 ∉ text →
    ∃ rest', (written ++ unescapedText text ++ 0 :: rest').length =
        (written ++ gap ++ (text ++ 0 :: rest)).length ∧
      unescapeHtmlLoop (written ++ gap ++ (text ++ 0 :: rest)) (written ++ gap).length
        written.length = some (written ++ unescapedText text ++ 0 :: rest') := by
  induction text using unescapedText.induct with
  | case1 =>
    intro written gap rest _
    obtain ⟨gap', hlen, hstore⟩ := store_gap written gap [0] rest (List.cons_ne_nil _ _) 0
    have hload := load_append (written ++ gap) rest (0 : UInt8) rfl
    rw [List.append_assoc (written ++ gap)] at hload
    refine ⟨gap' ++ rest, ?_, ?_⟩
    · rw [unescapedText]
      simp only [List.length_append, List.length_cons, List.length_nil] at hlen ⊢
      omega
    · rw [List.nil_append, unescapedText]
      refine (unescapeHtmlLoop_nul hload _).trans (hstore.trans ?_)
      simp
  | case2 c s ih =>
    intro written gap rest htext
    have hc : c ≠ 0 := fun h ↦ htext (h ▸ List.mem_cons_self)
    have hle := unescapeAt_le (c := c) (s := s)
    have hpos := unescapeAt_pos (c :: s) c
    obtain ⟨gap', hlen, hround⟩ := unescapeHtmlLoop_round written gap rest hc s
    obtain ⟨rest', hlength, hloop⟩ := ih (written ++ [(unescapeAt (c :: s) c).1]) gap' rest
      (fun hmem ↦ htext (List.mem_cons_of_mem _ (List.mem_of_mem_drop hmem)))
    rw [unescapedText, hround, hloop]
    refine ⟨rest', ?_, by simp⟩
    simp only [List.length_append, List.length_cons, List.length_nil, List.length_drop]
      at hlength hle ⊢
    omega

theorem zero_notMem_unescapedText (text : CStr) : 0 ∉ text → 0 ∉ unescapedText text := by
  induction text using unescapedText.induct with
  | case1 =>
    rw [unescapedText]
    exact id
  | case2 c s ih =>
    intro htext
    have hwritten : ∀ e ∈ entities, e.2 ≠ 0 := by decide +kernel
    rw [List.mem_cons, not_or] at htext
    rw [unescapedText, List.mem_cons, not_or]
    refine ⟨?_, ih fun hmem ↦ htext.2 (List.mem_of_mem_drop hmem)⟩
    obtain h | ⟨e, he, -, h⟩ := unescapeAt_cases (c :: s) c
    · rw [h]
      exact htext.1
    · rw [h]
      exact (hwritten e he).symm

/-- **`unescape_html` leaves the unescaped text in the buffer.** -/
theorem unescapeHtml_eq {size : ℕ} {buf : List UInt8} {text : CStr}
    (h : HoldsText 0 size buf text) :
    ∃ buf', unescapeHtml buf = some buf' ∧ HoldsText 0 size buf' (unescapedText text) := by
  obtain ⟨rest, rfl⟩ := h.exists_rest
  obtain ⟨rest', hlength, hloop⟩ := unescapeHtmlLoop_append text [] [] rest h.no_nul
  exact ⟨_, hloop, hlength.trans h.length_eq, ⟨rest', by simp⟩,
    zero_notMem_unescapedText text h.no_nul⟩

/-! ## Escaped texts -/

/-- The text is made of all the chunks of another, and a byte that is escaped only occurs in it as
the first one of an entity. -/
structure IsEscaped (s text : CStr) : Prop where
  chunks : text = escapedText s
  notMem : ∀ c ∈ [lessThan, greaterThan, quote, apostrophe], c ∉ text
  ampersand : ∀ pre post, text = pre ++ ampersand :: post →
    ∃ s₁ c s₂ e, s = s₁ ++ c :: s₂ ∧ pre = escapedText s₁ ∧ entity c = some e ∧
      e <+: ampersand :: post

/-- No byte that is escaped is left, but for the `'&'` of an entity. -/
theorem mem_escapedText {s : CStr} {c : UInt8}
    (hc : c ∈ [lessThan, greaterThan, quote, apostrophe]) : c ∉ escapedText s := by
  intro h
  obtain ⟨d, hd, hmem⟩ := List.mem_flatMap.mp h
  obtain ⟨hchunk, hplain⟩ | he := chunk_cases d
  · rw [hchunk, List.mem_singleton] at hmem
    subst hmem
    exact hplain (List.mem_append_left [ampersand] hc)
  · obtain ⟨name, hname, hall⟩ := entities_spec he
    dsimp only at hname
    rw [hname, List.mem_cons] at hmem
    rcases hmem with rfl | hmem
    · exact absurd hc (by decide)
    · exact hall c hmem (List.mem_cons_of_mem 0 (List.mem_append_left [ampersand] hc))

/-- In a chunk, an `'&'` is the first byte of an entity. -/
theorem ampersand_chunk {c : UInt8} {pre post : CStr} (h : chunk c = pre ++ ampersand :: post) :
    pre = [] ∧ entity c = some (chunk c) := by
  have hmem : ampersand ∈ chunk c := h ▸ List.mem_append_right _ List.mem_cons_self
  obtain ⟨hentity, hc⟩ | ⟨e, hentity, he⟩ := entity_cases c
  · rw [chunk, hentity, Option.getD_none, List.mem_singleton] at hmem
    exact absurd hmem fun hc' ↦ hc (by simp [hc'])
  · have hchunk : chunk c = e := by rw [chunk, hentity, Option.getD_some]
    refine ⟨?_, hentity.trans (congrArg some hchunk.symm)⟩
    obtain ⟨name, rfl, hall⟩ := entities_spec he
    cases pre with
    | nil => rfl
    | cons x pre =>
      have hname : name = pre ++ ampersand :: post :=
        (List.cons.inj (hchunk.symm.trans h)).2
      exact absurd (by simp) (hall ampersand (by simp [hname]))

/-- **An `'&'` is the first byte of an entity**, which stands for a byte of the text. -/
theorem ampersand_escapedText {s pre post : CStr} (h : escapedText s = pre ++ ampersand :: post) :
    ∃ s₁ c s₂ e, s = s₁ ++ c :: s₂ ∧ pre = escapedText s₁ ∧ entity c = some e ∧
      e <+: ampersand :: post := by
  induction s generalizing pre with
  | nil => cases pre <;> cases h
  | cons c s ih =>
    rw [escapedText_cons] at h
    have hchunk : chunk c <+: pre ++ ampersand :: post := ⟨_, h⟩
    have hpre : pre <+: chunk c ++ escapedText s := ⟨_, h.symm⟩
    by_cases hlen : (chunk c).length ≤ pre.length
    · -- the byte is further on
      obtain ⟨pre', rfl⟩ := List.prefix_of_prefix_length_le hchunk (List.prefix_append _ _) hlen
      rw [List.append_assoc] at h
      obtain ⟨s₁, d, s₂, e, rfl, rfl, hentity, he⟩ := ih (List.append_cancel_left h)
      exact ⟨c :: s₁, d, s₂, e, rfl, (escapedText_cons c s₁).symm, hentity, he⟩
    · obtain ⟨tail, htail⟩ :=
        List.prefix_of_prefix_length_le hpre (List.prefix_append _ _) (Nat.le_of_not_le hlen)
      rw [← htail, List.append_assoc] at h
      have hrest := List.append_cancel_left h
      cases tail with
      | nil => simp [← htail] at hlen
      | cons x tail =>
        obtain ⟨rfl, hpost⟩ := List.cons.inj hrest
        obtain ⟨rfl, hentity⟩ := ampersand_chunk htail.symm
        exact ⟨[], c, s, chunk c, rfl, rfl, hentity, escapedText s, by rw [← htail, ← hpost]; rfl⟩

/-- **Escaping is reversible and safe**: there is room for the whole of the escaped text, which is
unescaped to the text it was made of. -/
theorem unescapeHtml_escapeHtml {malloc : ℕ → Option (List UInt8)} {s : CStr} (hs : 0 ∉ s)
    {output : List UInt8} (halloc : malloc (s.length * 6 + 1) = some output)
    (hsize : output.length = s.length * 6 + 1) :
    ∃ buf text buf', escapeHtml malloc (some s) = some (some buf) ∧
      HoldsText 0 (s.length * 6 + 1) buf text ∧ IsEscaped s text ∧
      unescapeHtml buf = some buf' ∧ HoldsText 0 (s.length * 6 + 1) buf' s := by
  obtain ⟨buf, hescape, hholds⟩ := escapeHtml_eq hs halloc hsize
  obtain ⟨buf', hunescape, hholds'⟩ := unescapeHtml_eq hholds
  rw [unescapedText_escapedText] at hholds'
  exact ⟨buf, escapedText s, buf', hescape, hholds,
    ⟨rfl, fun c hc ↦ mem_escapedText hc, fun pre post h ↦ ampersand_escapedText h⟩,
    hunescape, hholds'⟩

/-- A text that looks escaped already. -/
def nestedEntities : CStr := lit "<&lt;&am&amp;p;&nbsp;>" ++ [quote, apostrophe]

theorem unescapeHtml_escapeHtml_nested :
    ∃ buf text buf',
      escapeHtml (fun n ↦ some (List.replicate n 0xff)) (some nestedEntities) = some (some buf) ∧
      HoldsText 0 (nestedEntities.length * 6 + 1) buf text ∧ IsEscaped nestedEntities text ∧
      unescapeHtml buf = some buf' ∧
      HoldsText 0 (nestedEntities.length * 6 + 1) buf' nestedEntities :=
  unescapeHtml_escapeHtml (by decide +kernel) rfl List.length_replicate

example : escapedText (lit "&lt;") = lit "&amp;lt;" := by decide +kernel

end Rustyaxe
