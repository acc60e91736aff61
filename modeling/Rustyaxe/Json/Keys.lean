import Rustyaxe.Json.Print

/-!
# Keys: split on dots by the encoder, joined again by the decoder

`flatKey (tokens k)` is what becomes of a key that is written and read back.  It is never longer
than the key (`flatKey_tokens_length_le`), and it is as long only if the key has no empty segment
and no segment after the first starts with a bracket (`splitOn_of_length_eq`); such a key comes
back unchanged (`flatKey_splitOn`).
-/

set_option autoImplicit false

namespace Rustyaxe

/-- What the encoder asks of a key: at most 64 segments, none of them empty, and none after the
first that starts with a bracket. -/
structure KeyOk (k : CStr) : Prop where
  depth : (k.splitOn dot).length ≤ jsonMaxDepth
  nonempty : ∀ s ∈ k.splitOn dot, s ≠ []
  bracket : ∀ s ∈ (k.splitOn dot).tail, s.head? ≠ some lbracket

/-- What the encoder asks of the keys of a dictionary: no key is a dot-prefix of another. -/
structure KeysOk (ks : List CStr) : Prop where
  each : ∀ k ∈ ks, KeyOk k
  prefixFree : ∀ k ∈ ks, ∀ k' ∈ ks, ¬ (k ++ [dot]) <+: k'

/-! ## Splitting -/

theorem mem_splitOn {s t : CStr} (h : t ∈ s.splitOn dot) : dot ∉ t ∧ ∀ c ∈ t, c ∈ s := by
  induction s generalizing t with
  | nil =>
    rw [List.splitOn_nil, List.mem_singleton] at h
    simp [h]
  | cons c s ih =>
    rw [List.splitOn_cons_eq_if_modifyHead] at h
    split at h
    · rcases List.mem_cons.mp h with rfl | h
      · simp
      · exact ⟨(ih h).1, fun x hx ↦ List.mem_cons_of_mem _ ((ih h).2 x hx)⟩
    · rename_i hc
      obtain ⟨hd, tl, hs⟩ := List.exists_cons_of_ne_nil (List.splitOn_ne_nil dot s)
      rw [hs, List.modifyHead_cons] at h
      rcases List.mem_cons.mp h with rfl | h
      · obtain ⟨h1, h2⟩ := ih (hs ▸ List.mem_cons_self)
        refine ⟨fun hmem ↦ ?_, fun x hx ↦ ?_⟩
        · rcases List.mem_cons.mp hmem with rfl | hmem
          · exact hc (beq_self_eq_true _)
          · exact h1 hmem
        · rcases List.mem_cons.mp hx with rfl | hx
          · exact List.mem_cons_self
          · exact List.mem_cons_of_mem _ (h2 x hx)
      · obtain ⟨h1, h2⟩ := ih (hs ▸ List.mem_cons_of_mem _ h)
        exact ⟨h1, fun x hx ↦ List.mem_cons_of_mem _ (h2 x hx)⟩

theorem segment_of_mem_tokens {k t : CStr} (hk : 0 ∉ k) (h : t ∈ tokens k) : Segment t := by
  obtain ⟨hmem, hne⟩ := List.mem_filter.mp h
  obtain ⟨hdot, hsub⟩ := mem_splitOn hmem
  exact ⟨by simpa using hne, hdot, fun h0 ↦ hk (hsub 0 h0)⟩

/-- The length of all the segments together. -/
def totalLength (p : List CStr) : ℕ := (p.map List.length).sum

theorem length_splitOn (k : CStr) :
    k.length + 1 = totalLength (k.splitOn dot) + (k.splitOn dot).length := by
  induction k with
  | nil => rfl
  | cons c k ih =>
    rw [List.splitOn_cons_eq_if_modifyHead, List.length_cons]
    split
    · simp only [totalLength, List.map_cons, List.sum_cons, List.length_nil, List.length_cons] at *
      omega
    · obtain ⟨hd, tl, hs⟩ := List.exists_cons_of_ne_nil (List.splitOn_ne_nil dot k)
      rw [hs] at ih ⊢
      simp only [totalLength, List.modifyHead_cons, List.map_cons, List.sum_cons,
        List.length_cons] at *
      omega

theorem totalLength_filter (p : List CStr) :
    totalLength (p.filter (· ≠ [])) = totalLength p := by
  induction p with
  | nil => rfl
  | cons s p ih =>
    rw [List.filter_cons]
    split
    · simp only [totalLength, List.map_cons, List.sum_cons] at *
      omega
    · rename_i h
      obtain rfl : s = [] := by simpa using h
      simpa [totalLength] using ih

/-! ## Joining -/

/-- The segments that are joined without a dot. -/
def bracketed (p : List CStr) : ℕ := p.countP fun s ↦ s.head? = some lbracket

theorem bracketed_cons (s : CStr) (p : List CStr) :
    bracketed (s :: p) = bracketed p + if s.head? = some lbracket then 1 else 0 := by
  simp [bracketed, List.countP_cons]

theorem pathAppend_of_bracket {s : CStr} (h : s.head? = some lbracket) (base : CStr) :
    pathAppend base s = base ++ s := by
  rw [pathAppend, if_pos h]

theorem pathAppend_of_ne {s : CStr} (h : s.head? ≠ some lbracket) {base : CStr} (hb : base ≠ []) :
    pathAppend base s = base ++ dot :: s := by
  rw [pathAppend, if_neg h, if_pos hb]

theorem length_foldl_pathAppend {base : CStr} (hbase : base ≠ []) {p : List CStr}
    (hp : ∀ s ∈ p, s ≠ []) :
    (p.foldl pathAppend base).length + bracketed p = base.length + totalLength p + p.length := by
  induction p generalizing base with
  | nil => rfl
  | cons s p ih =>
    obtain ⟨-, hp⟩ := List.forall_mem_cons.mp hp
    rw [List.foldl_cons, bracketed_cons, totalLength, List.map_cons, List.sum_cons, ← totalLength,
      List.length_cons]
    by_cases hb : s.head? = some lbracket
    · have := ih (show base ++ s ≠ [] by simp [hbase]) hp
      rw [List.length_append] at this
      rw [pathAppend_of_bracket hb, if_pos hb]
      omega
    · have := ih (show base ++ dot :: s ≠ [] by simp) hp
      rw [List.length_append, List.length_cons] at this
      rw [pathAppend_of_ne hb hbase, if_neg hb]
      omega

theorem flatKey_cons (s : CStr) (p : List CStr) : flatKey (s :: p) = p.foldl pathAppend s := by
  rw [flatKey, List.foldl_cons, pathAppend]
  split_ifs <;> simp_all

theorem length_flatKey {p : List CStr} (hne : p ≠ []) (hp : ∀ s ∈ p, s ≠ []) :
    (flatKey p).length + 1 + bracketed p.tail = totalLength p + p.length := by
  obtain ⟨s, p, rfl⟩ := List.exists_cons_of_ne_nil hne
  obtain ⟨hs, hp⟩ := List.forall_mem_cons.mp hp
  have := length_foldl_pathAppend hs hp
  rw [flatKey_cons, List.tail_cons]
  simp only [totalLength, List.map_cons, List.sum_cons, List.length_cons] at *
  omega

theorem tokens_nonempty (k : CStr) : ∀ s ∈ tokens k, s ≠ [] := fun s hs ↦ by
  simpa using (List.mem_filter.mp hs).2

/-- **A key never comes back longer.** -/
theorem flatKey_tokens_length_le (k : CStr) : (flatKey (tokens k)).length ≤ k.length := by
  by_cases hne : tokens k = []
  · rw [hne]
    exact Nat.zero_le _
  · have h1 := length_flatKey hne (tokens_nonempty k)
    have h2 := length_splitOn k
    have h3 := totalLength_filter (k.splitOn dot)
    have h4 : (tokens k).length ≤ (k.splitOn dot).length := List.length_filter_le ..
    rw [← tokens] at h3
    omega

/-- A key that comes back as long as it was has the segments it should have. -/
theorem splitOn_of_length_eq {k : CStr} (hne : tokens k ≠ [])
    (h : (flatKey (tokens k)).length = k.length) : tokens k = k.splitOn dot ∧
      (∀ s ∈ k.splitOn dot, s ≠ []) ∧ ∀ s ∈ (k.splitOn dot).tail, s.head? ≠ some lbracket := by
  have h1 := length_flatKey hne (tokens_nonempty k)
  have h2 := length_splitOn k
  have h3 := totalLength_filter (k.splitOn dot)
  have h4 : (tokens k).length ≤ (k.splitOn dot).length := List.length_filter_le ..
  rw [← tokens] at h3
  have heq : tokens k = k.splitOn dot :=
    List.filter_sublist.eq_of_length (by rw [← tokens]; omega)
  have hb : bracketed (k.splitOn dot).tail = 0 := by rw [← heq]; omega
  refine ⟨heq, fun s hs ↦ tokens_nonempty k s (heq ▸ hs), fun s hs ↦ ?_⟩
  simpa using List.countP_eq_zero.mp hb s hs

/-- The paths that are joined with dots. -/
structure PathOk (p : List CStr) : Prop where
  ne_nil : p ≠ []
  segment : ∀ s ∈ p, s ≠ [] ∧ dot ∉ s
  bracket : ∀ s ∈ p.tail, s.head? ≠ some lbracket

theorem foldl_pathAppend {base : CStr} (hbase : base ≠ []) {p : List CStr}
    (hp : ∀ s ∈ p, s.head? ≠ some lbracket) :
    p.foldl pathAppend base = base ++ p.flatMap (dot :: ·) := by
  induction p generalizing base with
  | nil => simp
  | cons s p ih =>
    obtain ⟨hs, hp⟩ := List.forall_mem_cons.mp hp
    rw [List.foldl_cons, pathAppend_of_ne hs hbase, ih (by simp) hp, List.flatMap_cons,
      List.append_assoc]

theorem intercalate_dot (s : CStr) (p : List CStr) :
    [dot].intercalate (s :: p) = s ++ p.flatMap (dot :: ·) := by
  induction p generalizing s with
  | nil => simp
  | cons t p ih => rw [List.intercalate_cons_cons, ih, List.flatMap_cons]; simp

theorem PathOk.flatKey_eq {p : List CStr} (h : PathOk p) : flatKey p = [dot].intercalate p := by
  obtain ⟨s, p, rfl⟩ := List.exists_cons_of_ne_nil h.ne_nil
  have hb : ∀ t ∈ p, t.head? ≠ some lbracket := h.bracket
  rw [flatKey_cons, foldl_pathAppend (h.segment s List.mem_cons_self).1 hb, intercalate_dot]

/-- Such a path can be read off its key. -/
theorem PathOk.splitOn_flatKey {p : List CStr} (h : PathOk p) : (flatKey p).splitOn dot = p := by
  rw [h.flatKey_eq, List.splitOn_intercalate dot (fun s hs ↦ (h.segment s hs).2) h.ne_nil]

theorem PathOk.of_append {p q : List CStr} (h : PathOk (p ++ q)) (hp : p ≠ []) : PathOk p := by
  refine ⟨hp, fun s hs ↦ h.segment s (List.mem_append_left _ hs), fun s hs ↦ h.bracket s ?_⟩
  rw [List.tail_append_of_ne_nil hp]
  exact List.mem_append_left _ hs

theorem KeyOk.tokens_eq {k : CStr} (h : KeyOk k) : tokens k = k.splitOn dot := by
  rw [tokens, List.filter_eq_self]
  intro s hs
  simpa using h.nonempty s hs

theorem KeyOk.pathOk {k : CStr} (h : KeyOk k) : PathOk (tokens k) := by
  rw [h.tokens_eq]
  exact ⟨List.splitOn_ne_nil _ _, fun s hs ↦ ⟨h.nonempty s hs, (mem_splitOn hs).1⟩, h.bracket⟩

/-- **A key that is fine comes back unchanged.** -/
theorem KeyOk.flatKey_tokens {k : CStr} (h : KeyOk k) : flatKey (tokens k) = k := by
  rw [h.pathOk.flatKey_eq, h.tokens_eq, List.intercalate_splitOn]

/-- A key is a dot-prefix of another exactly if its segments are the first of the other's. -/
theorem KeyOk.dotPrefix_iff {k k' : CStr} (h : KeyOk k) (h' : KeyOk k') :
    (k ++ [dot]) <+: k' ↔ ∃ q ≠ [], tokens k' = tokens k ++ q := by
  constructor
  · rintro ⟨rest, rfl⟩
    refine ⟨rest.splitOn dot, List.splitOn_ne_nil _ _, ?_⟩
    rw [h'.tokens_eq, h.tokens_eq, List.append_assoc, List.singleton_append,
      List.splitOn_append_cons_self]
  · rintro ⟨q, hq, heq⟩
    obtain ⟨s, p, hs⟩ := List.exists_cons_of_ne_nil h.pathOk.ne_nil
    obtain ⟨t, q, rfl⟩ := List.exists_cons_of_ne_nil hq
    rw [← h.flatKey_tokens, ← h'.flatKey_tokens, h.pathOk.flatKey_eq, h'.pathOk.flatKey_eq, heq, hs,
      List.cons_append, intercalate_dot, intercalate_dot, List.flatMap_append, List.flatMap_cons]
    exact ⟨t ++ q.flatMap (dot :: ·), by simp⟩

end Rustyaxe
