import Rustyaxe.CString
import Rustyaxe.Lib.Words

/-!
# Splitting a line into arguments

`split_args` of `util.string.c`, which cuts a line in its place: the arguments are pointers into it,
and NULs are written behind them.  When it is done, what the pointers point to are the words of the
line (`splitArgs_words`): no later cut reaches into an earlier argument.

There is memory for the array of pointers, which `split_args` never asks to hold more than `2 ^ 30`
of them.
-/

set_option autoImplicit false

namespace Rustyaxe

open Words

/-! ## The code -/

/-- The loop of `split_args`, with the memory from `line` on and `p` and `argv` as places in it. -/
def splitArgsLoop : (fuel : ℕ) → CStr → ℕ → List ℕ → CStr × List ℕ
  | 0, memory, _, argv => (memory, argv)
  | fuel + 1, memory, p, argv =>
    if memory.getD p 0 = 0 then (memory, argv)
    else
      let p := p + ((memory.drop p).takeWhile fun c ↦ c ≠ 0 && isspace c).length
      if memory.getD p 0 = 0 then (memory, argv)
      else
        let stop := p + ((memory.drop p).takeWhile fun c ↦ c ≠ 0 && !isspace c).length
        if memory.getD stop 0 = 0 then splitArgsLoop fuel memory stop (argv ++ [p])
        else splitArgsLoop fuel (memory.set stop 0) (stop + 1) (argv ++ [p])

/-- `split_args`: the memory it leaves and `argv`. -/
def splitArgs (memory : CStr) : CStr × List ℕ := splitArgsLoop memory.length memory 0 []

/-- The string that a pointer points to. -/
def stringAt (memory : CStr) (p : ℕ) : CStr := (memory.drop p).takeWhile (· ≠ 0)

/-! ## One argument -/

theorem stringAt_append (l memory : CStr) (p : ℕ) :
    stringAt (l ++ memory) (l.length + p) = stringAt memory p := by
  rw [stringAt, List.drop_append, List.drop_of_length_le (Nat.le_add_right _ _),
    Nat.add_sub_cancel_left]
  rfl

theorem map_stringAt_append (l memory : CStr) (args : List ℕ) :
    (args.map (l.length + ·)).map (stringAt (l ++ memory)) = args.map (stringAt memory) := by
  rw [List.map_map]
  exact List.map_congr_left fun p _ ↦ stringAt_append l memory p

theorem stringAt_word {word : CStr} (h : 0 ∉ word) (lead memory : CStr) :
    stringAt (lead ++ (word ++ 0 :: memory)) lead.length = word := by
  have hword : ∀ c ∈ word, decide (c ≠ 0) = true :=
    fun c hc ↦ decide_eq_true fun hzero ↦ h (hzero ▸ hc)
  rw [← Nat.add_zero lead.length, stringAt_append, stringAt, List.drop_zero,
    List.takeWhile_append_of_pos hword, List.takeWhile_cons_of_neg (by simp), List.append_nil]

theorem getD_append_length (l : CStr) (c : UInt8) (memory : CStr) :
    (l ++ c :: memory).getD l.length 0 = c := by
  rw [List.getD_eq_getElem?_getD, List.getElem?_append_right (Nat.le_refl _), Nat.sub_self]
  rfl

theorem set_append_length (l : CStr) (c : UInt8) (memory : CStr) :
    (l ++ c :: memory).set l.length 0 = l ++ 0 :: memory := by
  rw [List.set_append_right _ _ (Nat.le_refl _), Nat.sub_self, List.set_cons_zero]

/-- What a scan for some characters finds, from a place in the line. -/
theorem scan_eq (p : UInt8 → Bool) (part rest : CStr)
    (hpart : ∀ c ∈ part, c ≠ 0 ∧ p c = true) (hrest : ∀ c ∈ rest.head?, p c = false)
    (l memory : CStr) :
    ((l ++ (part ++ (rest ++ 0 :: memory))).drop l.length).takeWhile (fun c ↦ c ≠ 0 && p c) =
      part := by
  have hin : ∀ c ∈ part, (decide (c ≠ 0) && p c) = true :=
    fun c hc ↦ by rw [decide_eq_true (hpart c hc).1, (hpart c hc).2]; rfl
  rw [List.drop_left, List.takeWhile_append_of_pos hin]
  cases rest with
  | nil => rw [List.nil_append, List.takeWhile_cons_of_neg (by simp), List.append_nil]
  | cons c rest =>
    rw [List.cons_append, List.takeWhile_cons_of_neg (by simp [hrest c rfl]), List.append_nil]

theorem getD_ne_zero {s : CStr} (hne : s ≠ []) (hs : 0 ∉ s) (l memory : CStr) :
    (l ++ (s ++ memory)).getD l.length 0 ≠ 0 := by
  obtain ⟨c, s, rfl⟩ := List.exists_cons_of_ne_nil hne
  rw [List.cons_append, getD_append_length]
  exact fun hc ↦ hs (hc ▸ List.mem_cons_self)

/-- An argument is found behind blanks. -/
theorem splitArgsLoop_word {fuel : ℕ} {before lead word rest after : CStr} {argv : List ℕ}
    (hline : 0 ∉ lead ++ (word ++ rest)) (hlead : ∀ c ∈ lead, isspace c = true) (hne : word ≠ [])
    (hword : ∀ c ∈ word, isspace c = false) (hrest : ∀ c ∈ rest.head?, isspace c = true) :
    splitArgsLoop (fuel + 1) (before ++ (lead ++ (word ++ rest) ++ 0 :: after)) before.length argv =
      let memory := before ++ lead ++ word ++ (rest ++ 0 :: after)
      let stop := (before ++ lead ++ word).length
      if memory.getD stop 0 = 0 then
        splitArgsLoop fuel memory stop (argv ++ [before.length + lead.length])
      else
        splitArgsLoop fuel (memory.set stop 0) (stop + 1)
          (argv ++ [before.length + lead.length]) := by
  have hnonzero : ∀ c ∈ lead ++ (word ++ rest), c ≠ 0 := fun c hc hzero ↦ hline (hzero ▸ hc)
  have hstart : ∀ c ∈ (word ++ rest).head?, isspace c = false := by
    obtain ⟨c, word, rfl⟩ := List.exists_cons_of_ne_nil hne
    rintro d ⟨⟩
    exact hword _ List.mem_cons_self
  have hblanks := scan_eq isspace lead (word ++ rest)
    (fun c hc ↦ ⟨hnonzero c (List.mem_append_left _ hc), hlead c hc⟩) hstart before after
  have hscan := scan_eq (fun c ↦ !isspace c) word rest
    (fun c hc ↦ ⟨hnonzero c (by simp [hc]), by rw [hword c hc]; rfl⟩)
    (fun c hc ↦ by rw [hrest c hc]; rfl) (before ++ lead) after
  have hplace : before.length + lead.length = (before ++ lead).length :=
    List.length_append.symm
  have hmemory : before ++ (lead ++ (word ++ rest) ++ 0 :: after) =
      before ++ (lead ++ ((word ++ rest) ++ 0 :: after)) := by rw [List.append_assoc]
  have hmemory' : before ++ (lead ++ ((word ++ rest) ++ 0 :: after)) =
      before ++ lead ++ (word ++ (rest ++ 0 :: after)) := by simp only [List.append_assoc]
  have hfirst := getD_ne_zero (s := lead ++ (word ++ rest)) (by simp [hne]) hline before
    (0 :: after)
  have hsecond := getD_ne_zero (s := word ++ rest) (by simp [hne])
    (fun h ↦ hline (List.mem_append_right _ h)) (before ++ lead) (0 :: after)
  rw [List.append_assoc word] at hsecond
  rw [splitArgsLoop, if_neg hfirst, hmemory, hblanks]
  dsimp only
  rw [hmemory', hplace, if_neg hsecond, hscan, ← List.length_append, ← List.append_assoc _ word]

theorem splitArgsLoop_blank {fuel : ℕ} {line before after : CStr} {argv : List ℕ}
    (hline : 0 ∉ line) (hblank : ∀ c ∈ line, isspace c = true) :
    splitArgsLoop (fuel + 1) (before ++ (line ++ 0 :: after)) before.length argv =
      (before ++ (line ++ 0 :: after), argv) := by
  by_cases hne : line = []
  · subst hne
    exact if_pos (getD_append_length before 0 after)
  have hscan := scan_eq isspace line []
    (fun c hc ↦ ⟨fun hzero ↦ hline (hzero ▸ hc), hblank c hc⟩) (by simp) before after
  rw [List.nil_append] at hscan
  have hend : (before ++ (line ++ 0 :: after)).getD (before.length + line.length) 0 = 0 := by
    rw [← List.append_assoc, ← List.length_append]
    exact getD_append_length _ 0 after
  rw [splitArgsLoop, if_neg (getD_ne_zero hne hline before (0 :: after)), hscan]
  exact if_pos hend

/-! ## The line -/

/-- Places behind a text that has been passed, from its end and from its start. -/
theorem places_append (before lead : CStr) (args argv : List ℕ) (l : CStr) :
    argv ++ [before.length + lead.length] ++ args.map ((before ++ l).length + ·) =
      argv ++ (lead.length :: args.map (l.length + ·)).map (before.length + ·) := by
  rw [List.map_cons, List.map_map, List.append_assoc, List.singleton_append, List.length_append]
  simp only [Function.comp_def, Nat.add_assoc]

theorem splitArgsLoop_spec (after : CStr) (fuel : ℕ) :
    ∀ (line before : CStr) (argv : List ℕ), 0 ∉ line → line.length < fuel →
      ∃ (cut : CStr) (args : List ℕ),
        splitArgsLoop fuel (before ++ (line ++ 0 :: after)) before.length argv =
          (before ++ (cut ++ 0 :: after), argv ++ args.map (before.length + ·)) ∧
        cut.length = line.length ∧
        Spaced isspace line (args.map (stringAt (cut ++ 0 :: after))) := by
  induction fuel with
  | zero => exact fun line before argv _ hfuel ↦ absurd hfuel (Nat.not_lt_zero _)
  | succ fuel ih =>
    intro line before argv hline hfuel
    obtain ⟨ws, hws⟩ := exists_spaced isspace line
    cases hws with
    | nil hblank =>
      exact ⟨line, [], by rw [splitArgsLoop_blank hline hblank, List.map_nil, List.append_nil], rfl,
        .nil hblank⟩
    | @cons lead word rest ws hlead hne hword hrest _ =>
      have hpos : 0 < word.length := List.length_pos_iff.mpr hne
      have hzero : 0 ∉ word := fun h ↦ hline (by simp [h])
      rw [List.length_append, List.length_append] at hfuel
      rw [splitArgsLoop_word hline hlead hne hword hrest]
      dsimp only
      cases rest with
      | nil =>
        obtain ⟨cut, args, hloop, hcut, hspaced⟩ := ih [] (before ++ lead ++ word)
          (argv ++ [before.length + lead.length]) List.not_mem_nil (by rw [List.length_nil]; omega)
        obtain rfl := List.length_eq_zero_iff.mp hcut
        rw [List.nil_append, getD_append_length, if_pos rfl]
        rw [List.nil_append] at hloop
        refine ⟨lead ++ word, lead.length :: args.map ((lead ++ word).length + ·), ?_, by simp, ?_⟩
        · rw [hloop, List.append_assoc before lead word, places_append, List.append_assoc before]
        · rw [List.map_cons, map_stringAt_append, List.append_assoc, stringAt_word hzero]
          exact .cons hlead hne hword hrest hspaced
      | cons blank rest =>
        have hblank : blank ≠ 0 := fun h ↦ hline (by simp [h])
        obtain ⟨cut, args, hloop, hcut, hspaced⟩ := ih rest (before ++ lead ++ word ++ [0])
          (argv ++ [before.length + lead.length]) (fun h ↦ hline (by simp [h]))
          (by rw [List.length_cons] at hfuel; omega)
        rw [List.cons_append, getD_append_length, if_neg hblank, set_append_length]
        -- the NUL stands before what is left of the line
        have hcut' : before ++ lead ++ word ++ 0 :: (rest ++ 0 :: after) =
            before ++ lead ++ word ++ [0] ++ (rest ++ 0 :: after) := by
          rw [List.append_assoc _ [0], List.singleton_append]
        have hstop : (before ++ lead ++ word).length + 1 =
            (before ++ lead ++ word ++ [0]).length := by simp [Nat.add_assoc]
        refine ⟨lead ++ word ++ 0 :: cut,
          lead.length :: args.map ((lead ++ word ++ [0]).length + ·), ?_, ?_, ?_⟩
        · have hassoc : before ++ lead ++ word ++ [0] = before ++ (lead ++ word ++ [0]) := by
            simp only [List.append_assoc]
          rw [hcut', hstop, hloop, hassoc, places_append]
          simp only [List.append_assoc, List.cons_append, List.nil_append]
        · simp [hcut]
        · have hcuts : lead ++ word ++ 0 :: cut ++ 0 :: after =
              lead ++ word ++ [0] ++ (cut ++ 0 :: after) := by simp
          have hfirst : lead ++ word ++ [0] ++ (cut ++ 0 :: after) =
              lead ++ (word ++ 0 :: (cut ++ 0 :: after)) := by simp
          rw [hcuts, List.map_cons, map_stringAt_append, hfirst, stringAt_word hzero]
          exact .cons hlead hne hword hrest (hspaced.cons_sep (hrest blank rfl))

/-- **The arguments are the words of the line**, in memory that is cut in place. -/
theorem splitArgs_words {line : CStr} (hline : 0 ∉ line) (after : CStr) :
    let r := splitArgs (line ++ 0 :: after)
    Spaced isspace line (r.2.map (stringAt r.1)) ∧
      ∃ cut : CStr, cut.length = line.length ∧ r.1 = cut ++ 0 :: after := by
  intro r
  obtain ⟨cut, args, hloop, hcut, hspaced⟩ := splitArgsLoop_spec after
    (line ++ 0 :: after).length line [] [] hline
    (by rw [List.length_append, List.length_cons]; omega)
  have hr : r = (cut ++ 0 :: after, args) := by
    have hzero : args.map (([] : CStr).length + ·) = args := by simp
    rw [hzero] at hloop
    exact hloop
  rw [hr]
  exact ⟨hspaced, cut, hcut, rfl⟩

/-- A line with blanks around its words. -/
theorem splitArgs_words_ls : Spaced isspace (lit "  ls  -l\t/dev ")
    [lit "ls", lit "-l", lit "/dev"] := by
  have hline : 0 ∉ lit "  ls  -l\t/dev " := by decide +kernel
  have hargs : (splitArgs (lit "  ls  -l\t/dev " ++ [0])).2.map
      (stringAt (splitArgs (lit "  ls  -l\t/dev " ++ [0])).1) =
        [lit "ls", lit "-l", lit "/dev"] := by decide +kernel
  rw [← hargs]
  exact (splitArgs_words hline []).1

end Rustyaxe
