import Rustyaxe.CString
import Rustyaxe.Lib.PrefixCode

/-!
# The trie of key sequences

`new_node_arr`, `lookup_next`, `insert_seq` and `compress_trie` of `tui.driver-ti.c`, and the loop
of its `peekkey`.

A trie stands for a code, `Trie.words`, which is free of prefixes (`words_prefixFree`).  Inserting a
sequence assigns it a key, if the code leaves room for it, and the program is aborted exactly when a
shorter sequence is in the way (`insertSeq_spec`).  Compressing a trie does not change what a step
through it finds (`lookupNext_compressTrie`), and the loop reads the code (`walk_reads`).
-/

set_option autoImplicit false

namespace Rustyaxe.Termkey

open PrefixCode

/-- `struct trie_node *` -/
inductive Trie (κ : Type) where
  /-- `NULL` -/
  | null
  /-- `struct trie_node_key` -/
  | key (k : κ)
  /-- `struct trie_node_arr`: there are children for the bytes from `min` to `max`. -/
  | arr (min max : ℕ) (child : ℕ → Trie κ)

namespace Trie

variable {κ : Type}

def isNull : Trie κ → Bool
  | null => true
  | _ => false

/-- `new_node_arr` -/
def newNodeArr (min max : ℕ) : Trie κ := arr min max fun _ ↦ null

/-- `lookup_next`: no result if the program is aborted. -/
def lookupNext : Trie κ → UInt8 → Option (Trie κ)
  | null, _ => none
  | key _, _ => none
  | arr min max child, b =>
    some (if b.toNat < min ∨ max < b.toNat then null else child (b.toNat - min))

/-- `nar->arr[b - nar->min] = next`: no result if the program is aborted. -/
def setNext : Trie κ → UInt8 → Trie κ → Option (Trie κ)
  | null, _, _ => none
  | key _, _, _ => none
  | arr min max child, b, next =>
    if b.toNat < min ∨ max < b.toNat then none
    else some (arr min max fun i ↦ if i = b.toNat - min then next else child i)

/-- What the second loop of `insert_seq` builds, with the rest of the sequence still to come. -/
def chain (k : κ) : CStr → Trie κ
  | [] => key k
  | b :: seq => arr 0 0xff fun i ↦ if i = b.toNat then chain k seq else null

/-- `insert_seq`: the first loop follows the nodes that are there, the second one adds the others.
-/
def insertSeq (k : κ) : Trie κ → CStr → Option (Trie κ)
  | p, [] => some p
  | p, b :: seq => do
    let next ← lookupNext p b
    let next ← if next.isNull then some (chain k seq) else insertSeq k next seq
    setNext p b next

/-- The last child below `n`. -/
def lastChild (child : ℕ → Trie κ) : (n : ℕ) → Option ℕ
  | 0 => none
  | n + 1 => if (child n).isNull then lastChild child n else some n

/-- `compress_trie` -/
def compressTrie : Trie κ → Trie κ
  | null => null
  | key k => key k
  | arr _ _ child =>
    match (List.range 0x100).find? fun i ↦ !(child i).isNull, lastChild child 0x100 with
    | some min, some max =>
      arr min max fun i ↦ if i ≤ max - min then compressTrie (child (min + i)) else null
    | _, _ => newNodeArr 1 0

/-- The loop of `peekkey`, from the node `p` at position `pos`: no result if the program is
aborted. -/
def walk : Trie κ → List UInt8 → (pos : ℕ) → Option (Answer κ)
  | _, [], _ => some .more
  | p, b :: w, pos => do
    match ← lookupNext p b with
    | null => some .miss
    | key k => some (.word k (pos + 1))
    | next => walk next w (pos + 1)

/-! ## The code of a trie -/

/-- The sequences of a trie, and the keys that they stand for. -/
def words : Trie κ → Code UInt8 κ
  | null, _ => none
  | key k, u => if u = [] then some k else none
  | arr _ _ _, [] => none
  | arr min max child, b :: u =>
    if b.toNat < min ∨ max < b.toNat then none else words (child (b.toNat - min)) u

/-- Every node has room for all bytes. -/
def Full : Trie κ → Prop
  | arr min max child => min = 0 ∧ max = 0xff ∧ ∀ i, Full (child i)
  | _ => True

/-- Every node leads to a key. -/
def Live : Trie κ → Prop
  | arr min max child => (∃ u, (words (arr min max child) u).isSome) ∧ ∀ i, Live (child i)
  | _ => True

/-- Every node below this one leads to a key. -/
def LiveBelow : Trie κ → Prop
  | arr _ _ child => ∀ i, Live (child i)
  | _ => True

@[simp] theorem words_null (u : List UInt8) : words (null : Trie κ) u = none := by rw [words]

theorem words_key (k : κ) (u : List UInt8) : words (key k) u = if u = [] then some k else none := by
  rw [words]

@[simp] theorem words_arr_nil (min max : ℕ) (child : ℕ → Trie κ) : words (arr min max child) [] =
    none := by
  rw [words]

/-- A step into a trie takes the first byte off its words. -/
theorem words_cons {t next : Trie κ} {b : UInt8} (h : lookupNext t b = some next) (u : List UInt8) :
    words t (b :: u) = words next u := by
  cases t with
  | null => cases h
  | key => cases h
  | arr min max child =>
    rw [lookupNext] at h
    obtain rfl := Option.some.inj h
    rw [words]
    split
    · rw [words_null]
    · rfl

theorem toNat_le (b : UInt8) : b.toNat ≤ 0xff := Nat.le_of_lt_succ b.toNat_lt

@[simp] theorem lookupNext_full (child : ℕ → Trie κ) (b : UInt8) :
    lookupNext (arr 0 0xff child) b = some (child b.toNat) := by
  have hb := toNat_le b
  rw [lookupNext, if_neg (by omega), Nat.sub_zero]

@[simp] theorem setNext_full (child : ℕ → Trie κ) (b : UInt8) (next : Trie κ) :
    setNext (arr 0 0xff child) b next
      = some (arr 0 0xff fun i ↦ if i = b.toNat then next else child i) := by
  have hb := toNat_le b
  rw [setNext, if_neg (by omega), Nat.sub_zero]

@[simp] theorem words_full_cons (child : ℕ → Trie κ) (b : UInt8) (u : List UInt8) :
    words (arr 0 0xff child) (b :: u) = words (child b.toNat) u :=
  words_cons (lookupNext_full child b) u

/-- **No sequence begins with another one.** -/
theorem words_prefixFree (t : Trie κ) : PrefixFree t.words := by
  intro u
  induction u generalizing t with
  | nil =>
    intro v hu hv _
    cases t with
    | null => simp at hu
    | arr => simp at hu
    | key k =>
      rw [words_key] at hv
      split at hv
      · next h => exact h.symm
      · simp at hv
  | cons b u ih =>
    intro v hu hv huv
    obtain ⟨v, rfl⟩ : ∃ v', v = b :: v' := by
      obtain ⟨s, rfl⟩ := huv
      exact ⟨u ++ s, rfl⟩
    cases t with
    | null => simp at hu
    | key k => simp [words_key] at hu
    | arr min max child =>
      have hnext : lookupNext (arr min max child) b
          = some (if b.toNat < min ∨ max < b.toNat then null else child (b.toNat - min)) := rfl
      rw [words_cons hnext] at hu hv
      rw [ih _ v hu hv (List.cons_prefix_cons.mp huv).2]

/-! ## Inserting -/

theorem words_chain (k : κ) (u v : List UInt8) :
    words (chain k u) v = if v = u then some k else none := by
  induction u generalizing v with
  | nil => rw [chain, words_key]
  | cons b u ih =>
    cases v with
    | nil => simp [chain]
    | cons c v =>
      rw [chain, words_full_cons]
      by_cases hcb : c = b
      · subst hcb
        rw [if_pos rfl, ih]
        simp
      · rw [if_neg (by rwa [UInt8.toNat_inj]), words_null, if_neg (by simp [hcb])]

theorem full_chain (k : κ) (u : List UInt8) : Full (chain k u) := by
  induction u with
  | nil => trivial
  | cons b u ih =>
    refine ⟨rfl, rfl, fun i ↦ ?_⟩
    dsimp only
    split
    · exact ih
    · trivial

theorem live_chain (k : κ) (u : List UInt8) : Live (chain k u) := by
  induction u with
  | nil => trivial
  | cons b u ih =>
    refine ⟨⟨b :: u, ?_⟩, fun i ↦ ?_⟩
    · have h := words_chain k (b :: u) (b :: u)
      rw [if_pos rfl, chain] at h
      rw [h]
      rfl
    · dsimp only
      split
      · exact ih
      · trivial

/-- What happens below a byte happens to the words that begin with it. -/
theorem assign_cons {child : ℕ → Trie κ} {next : Trie κ} {k : κ} (b : UInt8) {u : List UInt8}
    (h : Assign (words (child b.toNat)) u k next.words) :
    Assign (words (arr 0 0xff child)) (b :: u) k
      (words (arr 0 0xff fun i ↦ if i = b.toNat then next else child i)) := by
  have hother : ∀ (c : UInt8) (v : List UInt8), c ≠ b →
      words (arr 0 0xff fun i ↦ if i = b.toNat then next else child i) (c :: v)
        = words (arr 0 0xff child) (c :: v) := by
    intro c v hcb
    rw [words_full_cons, words_full_cons, if_neg (by rwa [UInt8.toNat_inj])]
  cases h with
  | keep hv huv hsame =>
    refine .keep (v := b :: _) (by rwa [words_full_cons]) (List.cons_prefix_cons.mpr ⟨rfl, huv⟩) ?_
    rintro (_ | ⟨c, w⟩)
    · rw [words_arr_nil, words_arr_nil]
    · by_cases hcb : c = b
      · subst hcb
        rw [words_full_cons, words_full_cons, if_pos rfl, hsame]
      · exact hother c w hcb
  | add hbelow habove hu hsame =>
    refine .add ?_ ?_ (by rw [words_full_cons, if_pos rfl, hu]) ?_
    · rintro (_ | ⟨c, v⟩) hv hle
      · simp at hv
      · obtain ⟨rfl, hle'⟩ := List.cons_prefix_cons.mp hle
        exact hbelow v (by rwa [words_full_cons] at hv) hle'
    · rintro (_ | ⟨c, v⟩) hv hle
      · simp at hv
      · obtain ⟨rfl, hle'⟩ := List.cons_prefix_cons.mp hle
        exact habove v (by rwa [words_full_cons] at hv) hle'
    · rintro (_ | ⟨c, v⟩) hne
      · rw [words_arr_nil, words_arr_nil]
      · by_cases hcb : c = b
        · subst hcb
          rw [words_full_cons, words_full_cons, if_pos rfl, hsame v fun hvu ↦ hne (hvu ▸ rfl)]
        · exact hother c v hcb

theorem blocked_cons {child : ℕ → Trie κ} (b : UInt8) (u : List UInt8) :
    Blocked (words (arr 0 0xff child)) (b :: u) ↔ Blocked (words (child b.toNat)) u := by
  constructor
  · rintro ⟨_ | ⟨c, v⟩, hv, hle, hne⟩
    · simp at hv
    · obtain ⟨rfl, hle'⟩ := List.cons_prefix_cons.mp hle
      exact ⟨v, by rwa [words_full_cons] at hv, hle', fun hvu ↦ hne (hvu ▸ rfl)⟩
  · rintro ⟨v, hv, hle, hne⟩
    exact ⟨b :: v, by rwa [words_full_cons], List.cons_prefix_cons.mpr ⟨rfl, hle⟩,
      fun hvu ↦ hne (List.cons.inj hvu).2⟩

/-- A sequence below a missing node. -/
theorem assign_chain (k : κ) (u : List UInt8) :
    Assign (words (null : Trie κ)) u k (chain k u).words := by
  refine .add (fun v hv ↦ ?_) (fun v hv ↦ ?_) ?_ fun v hv ↦ ?_
  · simp at hv
  · simp at hv
  · rw [words_chain, if_pos rfl]
  · rw [words_chain, if_neg hv, words_null]

/-- What inserting a sequence does. -/
structure Inserted (k : κ) (t : Trie κ) (u : CStr) (t' : Trie κ) : Prop where
  isNull : t'.isNull = false
  full : Full t'
  live : Live t'
  assign : Assign t.words u k t'.words

theorem Live.below {t : Trie κ} (h : Live t) : LiveBelow t := by
  cases t with
  | arr min max child => exact h.2
  | _ => trivial

theorem Live.exists_word {t : Trie κ} (h : Live t) (hnull : t.isNull = false) :
    ∃ v, (words t v).isSome := by
  cases t with
  | null => cases hnull
  | key k => exact ⟨[], by rw [words_key]; rfl⟩
  | arr min max child => exact h.1

/-- **Inserting assigns the sequence a key**, unless a shorter one is in the way. -/
theorem insertSeq_spec (k : κ) {t : Trie κ} (hnull : t.isNull = false) (hfull : Full t)
    (hlive : LiveBelow t) {u : CStr} (hword : u = [] → ∃ v, (words t v).isSome) :
    (insertSeq k t u = none ∧ Blocked t.words u) ∨
      ∃ t', insertSeq k t u = some t' ∧ Inserted k t u t' := by
  induction u generalizing t with
  | nil =>
    obtain ⟨v, hv⟩ := hword rfl
    refine .inr ⟨t, by rw [insertSeq], hnull, hfull, ?_, .keep hv List.nil_prefix fun _ ↦ rfl⟩
    cases t with
    | arr min max child => exact ⟨⟨v, hv⟩, hlive⟩
    | _ => trivial
  | cons b u ih =>
    cases t with
    | null => cases hnull
    | key l =>
      exact .inl ⟨rfl, [], by rw [words_key]; rfl, List.nil_prefix, (List.cons_ne_nil b u).symm⟩
    | arr min max child =>
      obtain ⟨rfl, rfl, hfull⟩ := hfull
      have hrest : ∀ next, Inserted k (child b.toNat) u next →
          Inserted k (arr 0 0xff child) (b :: u)
            (arr 0 0xff fun i ↦ if i = b.toNat then next else child i) := by
        intro next h
        have hassign := assign_cons b h.assign
        obtain ⟨v, hv, -⟩ := hassign.exists_word
        refine ⟨rfl, ⟨rfl, rfl, fun i ↦ ?_⟩, ⟨⟨v, hv⟩, fun i ↦ ?_⟩, hassign⟩
        · dsimp only
          split
          · exact h.full
          · exact hfull i
        · dsimp only
          split
          · exact h.live
          · exact hlive i
      rw [insertSeq, lookupNext_full, Option.bind_eq_bind, Option.bind_some, blocked_cons]
      cases hchild : (child b.toNat).isNull with
      | true =>
        have hnone : child b.toNat = null := by
          cases h : child b.toNat with
          | null => rfl
          | _ => rw [h] at hchild; cases hchild
        refine .inr ⟨_, by simp, hrest (chain k u) ?_⟩
        rw [hnone]
        refine ⟨?_, full_chain k u, live_chain k u, assign_chain k u⟩
        cases u <;> rfl
      | false =>
        have hnext := hlive b.toNat
        rcases ih hchild (hfull _) hnext.below fun _ ↦ hnext.exists_word hchild with
          ⟨hnone, hblocked⟩ | ⟨next, hsome, h⟩
        · exact .inl ⟨by simp [hnone], hblocked⟩
        · exact .inr ⟨_, by simp [hsome], hrest next h⟩

/-! ## Compressing -/

theorem eq_null_of_isNull {t : Trie κ} (h : t.isNull = true) : t = null := by
  cases t with
  | null => rfl
  | _ => cases h

theorem lastChild_eq_none {child : ℕ → Trie κ} {n : ℕ} (h : lastChild child n = none) :
    ∀ i < n, child i = null := by
  induction n with
  | zero => exact fun i hi ↦ absurd hi (Nat.not_lt_zero i)
  | succ n ih =>
    rw [lastChild] at h
    split at h
    · next hnull =>
      intro i hi
      rcases Nat.lt_succ_iff_lt_or_eq.mp hi with hi | rfl
      · exact ih h i hi
      · exact eq_null_of_isNull hnull
    · cases h

theorem lastChild_eq_some {child : ℕ → Trie κ} {n max : ℕ} (h : lastChild child n = some max) :
    max < n ∧ ∀ i < n, max < i → child i = null := by
  induction n with
  | zero => cases h
  | succ n ih =>
    rw [lastChild] at h
    split at h
    · next hnull =>
      obtain ⟨hlt, hafter⟩ := ih h
      refine ⟨Nat.lt_succ_of_lt hlt, fun i hi hmax ↦ ?_⟩
      rcases Nat.lt_succ_iff_lt_or_eq.mp hi with hi | rfl
      · exact hafter i hi hmax
      · exact eq_null_of_isNull hnull
    · cases h
      exact ⟨Nat.lt_succ_self _, fun i hi hmax ↦ by omega⟩

/-- **A step through the compressed trie** finds what it found before, compressed. -/
theorem lookupNext_compressTrie {t : Trie κ} (hfull : Full t) (b : UInt8) :
    lookupNext t.compressTrie b = (lookupNext t b).map compressTrie := by
  cases t with
  | null => rfl
  | key k => rfl
  | arr min max child =>
    obtain ⟨rfl, rfl, -⟩ := hfull
    have hb : b.toNat < 0x100 := b.toNat_lt
    rw [lookupNext_full, Option.map_some, compressTrie]
    split
    · next min max hmin hmax =>
      obtain ⟨-, -, hbefore⟩ := List.find?_range_eq_some.mp hmin
      obtain ⟨hlt, hafter⟩ := lastChild_eq_some hmax
      rw [lookupNext]
      split
      · next hout =>
        have hnull : child b.toNat = null := by
          rcases hout with hout | hout
          · exact eq_null_of_isNull (by simpa using hbefore _ hout)
          · exact hafter _ hb hout
        rw [hnull, compressTrie]
      · next hin => rw [if_pos (by omega), Nat.add_sub_cancel' (by omega)]
    · next hnot =>
      have hnull : child b.toNat = null := by
        cases hmin : (List.range 0x100).find? fun i ↦ !(child i).isNull with
        | none =>
          rw [List.find?_eq_none] at hmin
          exact eq_null_of_isNull (by simpa using hmin _ (List.mem_range.mpr hb))
        | some min =>
          cases hmax : lastChild child 0x100 with
          | none => exact lastChild_eq_none hmax _ hb
          | some max => exact absurd hmax (hnot min max hmin)
      rw [hnull, compressTrie, newNodeArr, lookupNext, if_pos (by omega)]

theorem Full.of_lookupNext {t next : Trie κ} (hfull : Full t) {b : UInt8}
    (h : lookupNext t b = some next) : Full next := by
  cases t with
  | null => cases h
  | key => cases h
  | arr min max child =>
    rw [lookupNext] at h
    obtain rfl := Option.some.inj h
    split
    · trivial
    · exact hfull.2.2 _

/-- **A compressed trie is read as before.** -/
theorem walk_compressTrie {t : Trie κ} (hfull : Full t) (w : List UInt8) (pos : ℕ) :
    walk t.compressTrie w pos = walk t w pos := by
  induction w generalizing t pos with
  | nil => rw [walk, walk]
  | cons b w ih =>
    rw [walk, walk, lookupNext_compressTrie hfull]
    cases hnext : lookupNext t b with
    | none => rfl
    | some next =>
      rw [Option.map_some]
      cases next with
      | null => rfl
      | key k => rfl
      | arr min max child =>
        have h := ih (hfull.of_lookupNext hnext) (pos + 1)
        have harr : ∃ min' max' child', compressTrie (arr min max child) = arr min' max' child' :=
          by
          rw [compressTrie]
          split
          · exact ⟨_, _, _, rfl⟩
          · exact ⟨1, 0, _, rfl⟩
        obtain ⟨min', max', child', harr⟩ := harr
        rw [harr] at h ⊢
        exact h

/-! ## Reading -/

/-- **The loop of the driver reads the code of the trie.** -/
theorem walk_reads {t : Trie κ} {min max : ℕ} {child : ℕ → Trie κ} (ht : t = arr min max child)
    (hlive : LiveBelow t) {w : List UInt8} (hw : w = [] → Live t) (pos : ℕ) :
    ∃ ans : Answer κ, walk t w pos = some (ans.after pos) ∧ PrefixCode.Reads t.words w ans := by
  induction w generalizing t min max child pos with
  | nil =>
    subst ht
    obtain ⟨v, hv⟩ := (hw rfl).1
    refine ⟨.more, rfl, v, hv, List.nil_prefix, ?_⟩
    rintro rfl
    simp at hv
  | cons b w ih =>
    subst ht
    rw [walk]
    obtain ⟨next, hnext⟩ : ∃ next, lookupNext (arr min max child) b = some next := ⟨_, rfl⟩
    have hcons := words_cons hnext
    have hnil := words_arr_nil min max child
    have hlive' : Live next := by
      rw [lookupNext] at hnext
      obtain rfl := Option.some.inj hnext
      split
      · trivial
      · exact hlive _
    rw [hnext, Option.bind_eq_bind, Option.bind_some]
    cases next with
    | null =>
      have hmiss : PrefixCode.Reads (words (null : Trie κ)) w .miss := by
        refine ⟨?_, fun u _ ↦ words_null u⟩
        rintro ⟨v, hv, -⟩
        simp at hv
      exact ⟨.miss, rfl, hmiss.cons hnil hcons⟩
    | key k =>
      have hword : PrefixCode.Reads (words (key k)) w (.word k 0) :=
        ⟨[], w, rfl, rfl, by rw [words_key, if_pos rfl]⟩
      exact ⟨.word k 1, by rw [Answer.after], hword.cons hnil hcons⟩
    | arr min' max' child' =>
      obtain ⟨ans, hwalk, hreads⟩ := ih rfl hlive'.below (fun _ ↦ hlive') (pos + 1)
      refine ⟨ans.after 1, ?_, hreads.cons hnil hcons⟩
      dsimp only
      rw [hwalk]
      cases ans with
      | word k n => rw [Answer.after, Answer.after, Answer.after, Nat.add_assoc]
      | _ => rfl

/-- Once it is known what the input begins with, more of it does not change that. -/
theorem walk_append {t : Trie κ} {w : List UInt8} {pos : ℕ} {ans : Answer κ}
    (h : walk t w pos = some ans) (hmore : ans ≠ .more) (v : List UInt8) :
    walk t (w ++ v) pos = some ans := by
  induction w generalizing t pos with
  | nil => exact absurd (Option.some.inj h).symm hmore
  | cons b w ih =>
    rw [walk] at h
    rw [List.cons_append, walk]
    obtain ⟨next, hnext, h⟩ := Option.bind_eq_some_iff.mp h
    rw [hnext, Option.bind_eq_bind, Option.bind_some]
    cases next with
    | null => exact h
    | key k => exact h
    | arr min max child => exact ih h

/-- The bytes of a key have been looked at. -/
theorem walk_word {t : Trie κ} {w : List UInt8} {pos n : ℕ} {k : κ}
    (h : walk t w pos = some (.word k n)) :
    pos < n ∧ n ≤ pos + w.length := by
  induction w generalizing t pos with
  | nil => cases h
  | cons b w ih =>
    rw [walk] at h
    obtain ⟨next, -, h⟩ := Option.bind_eq_some_iff.mp h
    rw [List.length_cons]
    cases next with
    | null => cases h
    | key l =>
      obtain ⟨-, rfl⟩ := Answer.word.inj (Option.some.inj h)
      omega
    | arr min max child =>
      have hlt := ih h
      omega

end Trie

end Rustyaxe.Termkey
