import Rustyaxe.Strtol

/-!
# The parameters of a control sequence

`parse_csi` of `tui.driver-csi.c`, with its window of bytes.

The parameters are the ones that the bytes in front of the final one spell, an empty one being
`-1` unless it is the last one (`parseCsi_csiText`).  There is no result where the program writes
behind the end of the array for them, which is with more than sixteen parameters.

The arithmetic is that of a `long` that wraps: a parameter is what its digits spell modulo `2 ^ 64`
(`argsOf_csiNumbers`).  The language leaves a number of `2 ^ 63` and more undefined
(`Overflowing`).
-/

set_option autoImplicit false

namespace Rustyaxe.Termkey

/-! ## Parsing -/

/-- A byte that ends a control sequence. -/
def isFinal (c : UInt8) : Bool := 0x40 ≤ c && c < 0x80

/-- The last loop of `parse_csi`: the parameters that have been ended, the one that has been
begun, and the intermediate byte.  There is room for `cap` of them. -/
def parseArgs (cap : ℕ) : List UInt8 → List (BitVec 64) → Option (BitVec 64) →
    Option (List (BitVec 64) × UInt8)
  | [], args, cur => some (args ++ cur.toList, 0)
  | c :: cs, args, cur =>
    if isdigit c then
      let digit := c.toBitVec.setWidth 64 - 0x30
      if args.length < cap then parseArgs cap cs args (some (cur.elim digit (· * 10 + digit)))
      else none
    else if c = semicolon then
      match cur with
      | some arg =>
        if 16 < args.length + 1 then some (args ++ [arg], 0)
        else parseArgs cap cs (args ++ [arg]) none
      | none =>
        if args.length < cap then
          if 16 < args.length + 1 then some (args ++ [-1], 0)
          else parseArgs cap cs (args ++ [-1]) none
        else none
    else if 0x20 ≤ c ∧ c ≤ 0x2f then some (args ++ cur.toList, c)
    else parseArgs cap cs args cur

/-- `unsigned long *commandp`: the final byte, the initial one and the intermediate one. -/
def csiCommand (cmd initial inter : UInt8) : BitVec 32 :=
  (0 : BitVec 8) ++ inter.toBitVec ++ initial.toBitVec ++ cmd.toBitVec

/-- What `parse_csi` writes. -/
structure CsiParse where
  len : ℕ
  args : List (BitVec 64)
  command : BitVec 32
  deriving DecidableEq

/-- The initial byte, and what comes after it. -/
def csiInitial : List UInt8 → UInt8 × List UInt8
  | c :: cs => if 0x3c ≤ c ∧ c ≤ 0x3f then (c, cs) else (0, c :: cs)
  | [] => (0, [])

/-- `parse_csi`, of which the inner result is none if the window has no final byte. -/
def parseCsi (cap introlen : ℕ) (w : List UInt8) : Option (Option CsiParse) :=
  let body := (w.drop introlen).takeWhile (!isFinal ·)
  match (w.drop introlen).dropWhile (!isFinal ·) with
  | [] => some none
  | cmd :: _ =>
    let (initial, params) := csiInitial body
    (parseArgs cap params [] none).map fun (args, inter) ↦
      some ⟨introlen + body.length + 1, args, csiCommand cmd initial inter⟩

/-! ## What is parsed -/

/-- An intermediate byte of a control sequence. -/
def isInter (c : UInt8) : Bool := 0x20 ≤ c && c ≤ 0x2f

theorem isInter_iff {c : UInt8} : isInter c = true ↔ 0x20 ≤ c ∧ c ≤ 0x2f := by
  rw [isInter, Bool.and_eq_true, decide_eq_true_iff, decide_eq_true_iff]

theorem not_isInter_of_isdigit {c : UInt8} (h : isdigit c = true) : isInter c = false := by
  rw [isdigit, Bool.and_eq_true, decide_eq_true_iff, decide_eq_true_iff] at h
  rw [Bool.eq_false_iff, ne_eq, isInter_iff]
  exact fun hinter ↦ absurd (UInt8.le_trans h.1 hinter.2) (by decide)

/-- The parameters of a control sequence, the first of which has been begun. -/
def argsOf : List UInt8 → Option (BitVec 64) → List (BitVec 64)
  | [], cur => cur.toList
  | c :: cs, cur =>
    if isdigit c then
      let digit := c.toBitVec.setWidth 64 - 0x30
      argsOf cs (some (cur.elim digit (· * 10 + digit)))
    else if c = semicolon then cur.getD (-1) :: argsOf cs none
    else argsOf cs cur

/-- The bytes of the parameters, and the intermediate byte, of what comes before the final byte. -/
def csiParams (params : List UInt8) : List (BitVec 64) × UInt8 :=
  (argsOf (params.takeWhile (!isInter ·)) none, ((params.dropWhile (!isInter ·)).head?).getD 0)

theorem argsOf_digit {c : UInt8} (hc : isdigit c = true) (cs : List UInt8)
    (cur : Option (BitVec 64)) :
    argsOf (c :: cs) cur = argsOf cs (some (cur.elim (c.toBitVec.setWidth 64 - 0x30)
      (· * 10 + (c.toBitVec.setWidth 64 - 0x30)))) := by
  rw [argsOf, if_pos hc]

theorem argsOf_semicolon (cs : List UInt8) (cur : Option (BitVec 64)) :
    argsOf (semicolon :: cs) cur = cur.getD (-1) :: argsOf cs none := rfl

theorem length_argsOf (cs : List UInt8) (a b : BitVec 64) :
    (argsOf cs (some a)).length = (argsOf cs (some b)).length ∧
      0 < (argsOf cs (some a)).length := by
  induction cs generalizing a b with
  | nil => exact ⟨rfl, Nat.one_pos⟩
  | cons c cs ih =>
    rw [argsOf, argsOf]
    split
    · exact ih _ _
    · split
      · exact ⟨rfl, Nat.succ_pos _⟩
      · exact ih _ _

/-- **The loop over the parameters** writes all of them, if there is room for sixteen and that is
enough. -/
theorem parseArgs_eq (cs : List UInt8) (args : List (BitVec 64)) (cur : Option (BitVec 64))
    (hargs : args.length + cur.toList.length ≤ 16) :
    parseArgs 16 cs args cur =
      if args.length + (argsOf (cs.takeWhile (!isInter ·)) cur).length ≤ 16 then
        some (args ++ argsOf (cs.takeWhile (!isInter ·)) cur,
          ((cs.dropWhile (!isInter ·)).head?).getD 0)
      else none := by
  induction cs generalizing args cur with
  | nil =>
    unfold parseArgs
    rw [List.takeWhile_nil, argsOf, if_pos hargs]
    rfl
  | cons c cs ih =>
    unfold parseArgs
    rw [List.takeWhile_cons, List.dropWhile_cons]
    by_cases hdigit : isdigit c = true
    · rw [if_pos hdigit, not_isInter_of_isdigit hdigit, Bool.not_false, if_pos rfl, if_pos rfl,
        argsOf, if_pos hdigit]
      dsimp only
      by_cases hroom : args.length < 16
      · rw [if_pos hroom, ih]
        exact hroom
      · have hpos := (length_argsOf (cs.takeWhile (!isInter ·))
          (cur.elim (c.toBitVec.setWidth 64 - 0x30) (· * 10 + (c.toBitVec.setWidth 64 - 0x30))) 0).2
        rw [if_neg hroom, if_neg (by omega)]
    rw [if_neg hdigit]
    by_cases hsemi : c = semicolon
    · subst hsemi
      rw [if_pos rfl, show isInter semicolon = false from rfl, Bool.not_false, if_pos rfl,
        if_pos rfl, argsOf_semicolon]
      have hstep : ∀ arg : BitVec 64, args.length < 16 →
          (if 16 < args.length + 1 then some (args ++ [arg], 0)
            else parseArgs 16 cs (args ++ [arg]) none)
            = if args.length + (arg :: argsOf (cs.takeWhile (!isInter ·)) none).length ≤ 16 then
                some (args ++ arg :: argsOf (cs.takeWhile (!isInter ·)) none,
                  ((cs.dropWhile (!isInter ·)).head?).getD 0)
              else none := by
        intro arg hroom
        rw [if_neg (by omega), ih _ _ (by rw [List.length_append]; exact hroom),
          List.length_append, List.length_singleton, List.length_cons, List.append_assoc,
          List.singleton_append, Nat.add_assoc, Nat.add_comm 1]
      cases cur with
      | some arg => exact hstep arg hargs
      | none =>
        dsimp only
        by_cases hroom : args.length < 16
        · rw [if_pos hroom]
          exact hstep (-1) hroom
        · rw [if_neg hroom, if_neg]
          rw [Option.getD_none, List.length_cons]
          omega
    rw [if_neg hsemi]
    cases hinter : isInter c with
    | true =>
      rw [if_pos (isInter_iff.mp hinter), Bool.not_true, if_neg Bool.false_ne_true,
        if_neg Bool.false_ne_true, argsOf, if_pos hargs]
      rfl
    | false =>
      rw [if_neg (fun h ↦ by rw [isInter_iff.mpr h] at hinter; cases hinter), ih _ _ hargs,
        Bool.not_false, if_pos rfl, if_pos rfl, argsOf, if_neg hdigit, if_neg hsemi]

/-- **What is parsed** of a sequence with its final byte. -/
theorem parseCsi_of_final {intro body rest : List UInt8} {cmd : UInt8}
    (hbody : ∀ c ∈ body, isFinal c = false) (hcmd : isFinal cmd = true) :
    parseCsi 16 intro.length (intro ++ body ++ cmd :: rest) =
      if (csiParams (csiInitial body).2).1.length ≤ 16 then
        some (some ⟨intro.length + body.length + 1, (csiParams (csiInitial body).2).1,
          csiCommand cmd (csiInitial body).1 (csiParams (csiInitial body).2).2⟩)
      else none := by
  have hdrop : (intro ++ body ++ cmd :: rest).drop intro.length = body ++ cmd :: rest := by
    rw [List.append_assoc, List.drop_left]
  have htake : (body ++ cmd :: rest).takeWhile (!isFinal ·) = body := by
    rw [List.takeWhile_append_of_pos (fun c hc ↦ by rw [hbody c hc]; rfl),
      List.takeWhile_cons_of_neg (by simp [hcmd]), List.append_nil]
  have hrest : (body ++ cmd :: rest).dropWhile (!isFinal ·) = cmd :: rest := by
    rw [List.dropWhile_append_of_pos (fun c hc ↦ by rw [hbody c hc]; rfl),
      List.dropWhile_cons_of_neg (by simp [hcmd])]
  have hargs := parseArgs_eq (csiInitial body).2 [] none (Nat.zero_le 16)
  rw [List.length_nil, Nat.zero_add, List.nil_append] at hargs
  rw [parseCsi]
  dsimp only
  rw [hdrop, htake, hrest]
  dsimp only
  rw [hargs]
  rw [csiParams]
  dsimp only
  split <;> rfl

theorem parseCsi_of_open {cap introlen : ℕ} {w : List UInt8}
    (h : ∀ c ∈ w.drop introlen, isFinal c = false) : parseCsi cap introlen w = some none := by
  rw [parseCsi]
  dsimp only
  rw [List.dropWhile_eq_nil_iff.mpr (fun c hc ↦ by rw [h c hc]; rfl)]

/-! ## Sequences as they are written -/

/-- A parameter as it is written, which is left out if there is none. -/
def csiField : Option ℕ → List UInt8
  | none => []
  | some n => decimal n

/-- Parameters as they are written. -/
def csiFields : List (Option ℕ) → List UInt8
  | [] => []
  | [f] => csiField f
  | f :: fs => csiField f ++ semicolon :: csiFields fs

/-- Parameters as they are read. -/
def csiValues : List (Option ℕ) → List (BitVec 64)
  | [] => []
  | [f] => (f.map (BitVec.ofNat 64)).toList
  | f :: fs => (f.map (BitVec.ofNat 64)).getD (-1) :: csiValues fs

/-- What comes between the introducer of a control sequence and its final byte. -/
def csiText (initial : Option UInt8) (fields : List (Option ℕ)) (inter : Option UInt8) :
    List UInt8 :=
  initial.toList ++ csiFields fields ++ inter.toList

theorem ofNat_digit (n : ℕ) {c : UInt8} (hc : isdigit c = true) :
    BitVec.ofNat 64 n * 10 + (c.toBitVec.setWidth 64 - 0x30)
      = BitVec.ofNat 64 (10 * n + (c.toNat - 0x30)) := by
  rw [isdigit, Bool.and_eq_true, decide_eq_true_iff, decide_eq_true_iff] at hc
  have hle : 0x30 ≤ c.toNat := UInt8.le_iff_toNat_le.mp hc.1
  have hlt : c.toNat < 0x100 := c.toNat_lt
  apply BitVec.eq_of_toNat_eq
  have h10 : (10 : BitVec 64).toNat = 10 := rfl
  have h30 : (0x30 : BitVec 64).toNat = 0x30 := rfl
  simp only [BitVec.toNat_add, BitVec.toNat_mul, BitVec.toNat_sub, BitVec.toNat_ofNat,
    BitVec.toNat_setWidth, UInt8.toNat_toBitVec, h10, h30]
  omega

/-- The numbers that the parameters spell, the first of which has been begun. -/
def csiNumbers : List UInt8 → Option ℕ → List (Option ℕ)
  | [], cur => cur.toList.map some
  | c :: cs, cur =>
    if isdigit c then
      let digit := c.toNat - 0x30
      csiNumbers cs (some (cur.elim digit (10 * · + digit)))
    else if c = semicolon then cur :: csiNumbers cs none
    else csiNumbers cs cur

/-- A parameter of the sequence is no `long`. -/
def Overflowing (body : List UInt8) : Prop :=
  ∃ n, some n ∈ csiNumbers ((csiInitial body).2.takeWhile (!isInter ·)) none ∧ 2 ^ 63 ≤ n

/-- **The parameters are the numbers that are spelled**, modulo `2 ^ 64`. -/
theorem argsOf_csiNumbers (cs : List UInt8) (cur : Option ℕ) :
    argsOf cs (cur.map (BitVec.ofNat 64)) =
      (csiNumbers cs cur).map fun n ↦ (n.map (BitVec.ofNat 64)).getD (-1) := by
  induction cs generalizing cur with
  | nil => cases cur <;> rfl
  | cons c cs ih =>
    rw [argsOf, csiNumbers]
    split
    · next hdigit =>
      dsimp only
      rw [← ih]
      refine congrArg (fun x ↦ argsOf cs (some x)) ?_
      cases cur with
      | none =>
        have h0 := ofNat_digit 0 hdigit
        rw [BitVec.zero_mul, BitVec.zero_add, Nat.mul_zero, Nat.zero_add] at h0
        exact h0
      | some n => exact ofNat_digit n hdigit
    · split
      · rw [List.map_cons, ← ih]
        rfl
      · exact ih cur

/-- The digits of a parameter that has been begun. -/
theorem argsOf_digits {ds : List UInt8} (hds : ∀ c ∈ ds, isdigit c = true) (cs : List UInt8)
    (n : ℕ) : argsOf (ds ++ cs) (some (BitVec.ofNat 64 n))
      = argsOf cs (some (BitVec.ofNat 64 (ds.foldl (fun n c ↦ 10 * n + (c.toNat - 0x30)) n))) := by
  induction ds generalizing n with
  | nil => rfl
  | cons d ds ih =>
    have hd := hds d List.mem_cons_self
    rw [List.cons_append, argsOf_digit hd, Option.elim_some, ofNat_digit n hd,
      ih fun c hc ↦ hds c (List.mem_cons_of_mem d hc), List.foldl_cons]

theorem argsOf_decimal (n : ℕ) (cs : List UInt8) :
    argsOf (decimal n ++ cs) none = argsOf cs (some (BitVec.ofNat 64 n)) := by
  have hdigits : ∀ c ∈ decimal n, isdigit c = true := fun c hc ↦ isdigit_of_mem_decimal hc
  have hval : (decimal n).foldl (fun n c ↦ 10 * n + (c.toNat - 0x30)) 0 = n := digitsVal_decimal n
  cases hds : decimal n with
  | nil => exact absurd hds (decimal_ne_nil n)
  | cons d ds =>
    rw [hds] at hdigits hval
    have hd := hdigits d List.mem_cons_self
    have h0 := ofNat_digit 0 hd
    rw [BitVec.zero_mul, BitVec.zero_add] at h0
    rw [List.cons_append, argsOf_digit hd, Option.elim_none, h0,
      argsOf_digits fun c hc ↦ hdigits c (List.mem_cons_of_mem d hc), ← List.foldl_cons, hval]

theorem argsOf_csiField (f : Option ℕ) (cs : List UInt8) :
    argsOf (csiField f ++ cs) none = argsOf cs (f.map (BitVec.ofNat 64)) := by
  cases f with
  | none => rfl
  | some n => exact argsOf_decimal n cs

theorem argsOf_csiFields (fields : List (Option ℕ)) :
    argsOf (csiFields fields) none = csiValues fields := by
  induction fields using csiFields.induct with
  | case1 => rfl
  | case2 f =>
    have h := argsOf_csiField f []
    rw [List.append_nil] at h
    rw [csiFields, h, argsOf, csiValues]
  | case3 f fs hfs ih =>
    rw [csiFields, argsOf_csiField, argsOf_semicolon, ih, csiValues]
    all_goals exact hfs

theorem csiFields_bytes (fields : List (Option ℕ)) :
    ∀ c ∈ csiFields fields, isdigit c = true ∨ c = semicolon := by
  have hfield : ∀ f, ∀ c ∈ csiField f, isdigit c = true := by
    rintro (_ | n) c hc
    · cases hc
    · exact isdigit_of_mem_decimal hc
  induction fields using csiFields.induct with
  | case1 => exact fun c hc ↦ by cases hc
  | case2 f => exact fun c hc ↦ .inl (hfield f c hc)
  | case3 f fs hfs ih =>
    intro c hc
    rw [csiFields] at hc
    · rcases List.mem_append.mp hc with hc | hc
      · exact .inl (hfield f c hc)
      · rcases List.mem_cons.mp hc with rfl | hc
        · exact .inr rfl
        · exact ih c hc
    · exact hfs

/-- The bytes of the parameters are none of the others. -/
theorem not_isFinal_of_field {c : UInt8} (hc : isdigit c = true ∨ c = semicolon) :
    isFinal c = false ∧ isInter c = false ∧ ¬ (0x3c ≤ c ∧ c ≤ 0x3f) := by
  have hlow : 0x30 ≤ c ∧ c ≤ 0x3b := by
    rcases hc with hc | rfl
    · rw [isdigit, Bool.and_eq_true, decide_eq_true_iff, decide_eq_true_iff] at hc
      exact ⟨hc.1, UInt8.le_trans hc.2 (by decide)⟩
    · decide
  refine ⟨?_, ?_, fun h ↦ absurd (UInt8.le_trans h.1 hlow.2) (by decide)⟩
  · rw [isFinal, Bool.and_eq_false_iff, decide_eq_false_iff_not]
    exact .inl fun h ↦ absurd (UInt8.le_trans h hlow.2) (by decide)
  · rw [Bool.eq_false_iff, ne_eq, isInter_iff]
    exact fun h ↦ absurd (UInt8.le_trans hlow.1 h.2) (by decide)

theorem csiInitial_csiText {initial : Option UInt8} (hinitial : ∀ c ∈ initial, 0x3c ≤ c ∧ c ≤ 0x3f)
    (fields : List (Option ℕ)) {inter : Option UInt8} (hinter : ∀ c ∈ inter, isInter c = true) :
    csiInitial (csiText initial fields inter) =
      (initial.getD 0, csiFields fields ++ inter.toList) := by
  rw [csiText]
  cases initial with
  | some c => exact if_pos (hinitial c rfl)
  | none =>
    rw [Option.toList_none, List.nil_append, Option.getD_none]
    cases hf : csiFields fields with
    | cons c cs =>
      exact if_neg (not_isFinal_of_field (csiFields_bytes fields c (hf ▸ List.mem_cons_self))).2.2
    | nil =>
      cases inter with
      | none => rfl
      | some c =>
        exact if_neg fun h ↦
          absurd (UInt8.le_trans h.1 (isInter_iff.mp (hinter c rfl)).2) (by decide)

/-- What is read of a sequence is what has been written, provided that there are at most sixteen
parameters. -/
theorem parseCsi_csiText {initial : Option UInt8} (hinitial : ∀ c ∈ initial, 0x3c ≤ c ∧ c ≤ 0x3f)
    (fields : List (Option ℕ)) {inter : Option UInt8} (hinter : ∀ c ∈ inter, isInter c = true)
    {cmd : UInt8} (hcmd : isFinal cmd = true) (intro rest : List UInt8) :
    parseCsi 16 intro.length (intro ++ csiText initial fields inter ++ cmd :: rest) =
      if (csiValues fields).length ≤ 16 then
        some (some ⟨intro.length + (csiText initial fields inter).length + 1, csiValues fields,
          csiCommand cmd (initial.getD 0) (inter.getD 0)⟩)
      else none := by
  have hbytes := csiFields_bytes fields
  have hbody : ∀ c ∈ csiText initial fields inter, isFinal c = false := by
    intro c hc
    have hlow : c ≤ 0x3f → isFinal c = false := fun h ↦ by
      rw [isFinal, Bool.and_eq_false_iff, decide_eq_false_iff_not]
      exact .inl fun h' ↦ absurd (UInt8.le_trans h' h) (by decide)
    rcases List.mem_append.mp hc with hc | hc
    · rcases List.mem_append.mp hc with hc | hc
      · exact hlow (hinitial c (Option.mem_toList.mp hc)).2
      · exact (not_isFinal_of_field (hbytes c hc)).1
    · exact hlow (UInt8.le_trans (isInter_iff.mp (hinter c (Option.mem_toList.mp hc))).2
        (by decide))
  have hfields : ∀ c ∈ csiFields fields, (!isInter c) = true := fun c hc ↦ by
    rw [(not_isFinal_of_field (hbytes c hc)).2.1]
    rfl
  have hparams : csiParams (csiFields fields ++ inter.toList) =
      (csiValues fields, inter.getD 0) := by
    have hstop : inter.toList.takeWhile (!isInter ·) = [] ∧
        inter.toList.dropWhile (!isInter ·) = inter.toList := by
      cases inter with
      | none => exact ⟨rfl, rfl⟩
      | some c => simp [hinter c rfl]
    rw [csiParams, List.takeWhile_append_of_pos hfields, List.dropWhile_append_of_pos hfields,
      hstop.1, hstop.2, List.append_nil, argsOf_csiFields]
    cases inter <;> rfl
  rw [parseCsi_of_final hbody hcmd, csiInitial_csiText hinitial fields hinter, hparams]

end Rustyaxe.Termkey
