import Rustyaxe.Config.Get

/-!
# Expanding a setting

`dict_get_exp` of `dict.c` and `cfg_get_exp` of `config.c`: references `${name}` in a text are
replaced by the texts of the settings they name, in up to six passes over the whole text.  A pass
that has met no defined reference is dropped, and ends the loop.

A text is a list of `Piece`s to this, and a pass renders them one by one (`expandOnce`).  Below the
limit for the lengths, `dict_get_exp` computes `expand` (`dictGetExp_eq`).

There are two slips.  One flag says whether a pass is kept, so an undefined reference stays if there
is no defined one in the text and goes if there is (`composes_alikeFor`); and the first lookup is in
the live configuration alone, where all others, as `cfg_get`, are in the defaults as well
(`sameView_visible`).
-/

set_option autoImplicit false

namespace Rustyaxe

/-! ## The code -/

/-- `MAX_CFG_EXP_STRLEN - 1` -/
def maxExpansion : ℕ := 65534

/-- `MAX_CFG_EXP_RECURSION` -/
def maxCfgExpRecursion : ℕ := 6

/-- `sizeof(keybuf) - 1` -/
def maxReference : ℕ := 255

/-- The reference that a text starts with, and what comes after it. -/
def reference : (src : CStr) → Option (CStr × CStr)
  | c :: b :: rest =>
    if c = dollar ∧ b = lbrace ∧ rbrace ∈ rest then
      some (rest.takeWhile (· ≠ rbrace), (rest.dropWhile (· ≠ rbrace)).tail)
    else none
  | _ => none

/-- The inner loop of `dict_get_exp`: what is in `tmp` after it, and `changed`.  Every round takes
some of the text, whose length is the fuel. -/
def expandLoop (get : CStr → Option (Option CStr)) :
    (fuel : ℕ) → (src tmp : CStr) → (changed : Bool) → Option (CStr × Bool)
  | 0, _, tmp, changed => some (tmp, changed)
  | _ + 1, [], tmp, changed => some (tmp, changed)
  | fuel + 1, c :: src, tmp, changed =>
    if tmp.length < maxExpansion then
      match reference (c :: src) with
      | some (name, rest) => do
        match ← get (name.take maxReference) with
        | some val => expandLoop get fuel rest (tmp ++ val.take (maxExpansion - tmp.length)) true
        | none => expandLoop get fuel rest tmp changed
      | none => expandLoop get fuel src (tmp ++ [c]) changed
    else some (tmp, changed)

/-- The outer loop of `dict_get_exp`. -/
def expandPasses (get : CStr → Option (Option CStr)) : (depth : ℕ) → (buf : CStr) → Option CStr
  | 0, buf => some buf
  | depth + 1, buf => do
    let (tmp, changed) ← expandLoop get buf.length buf [] false
    if changed then expandPasses get depth (tmp.take maxExpansion) else some buf

section Hash

variable (dictHash : CStr → UInt32)

/-- `dict_get_exp`.  If the shrinking `realloc` fails, the text is returned as it is. -/
def dictGetExp (malloc : Bool) (cfg defaultCfg d : Option Dict) (key : CStr) :
    Option (Option CStr) := do
  match ← dictGetOf dictHash d key with
  | none => some none
  | some p =>
    if malloc then
      let buf ← expandPasses (cfgGet dictHash cfg defaultCfg) maxCfgExpRecursion
        (p.take maxExpansion)
      some (some buf)
    else some none

/-- `cfg_get_exp` -/
def cfgGetExp (malloc : Bool) (cfg defaultCfg : Option Dict) (key : CStr) :
    Option (Option CStr) :=
  dictGetExp dictHash malloc cfg defaultCfg cfg key

end Hash

/-! ## Pieces -/

/-- What a pass goes over. -/
inductive Piece where
  | char (c : UInt8)
  | ref (name : CStr)
  deriving DecidableEq, Repr

/-- The pieces of a text of at most `fuel` bytes. -/
def piecesIn : (fuel : ℕ) → (s : CStr) → List Piece
  | 0, _ => []
  | _ + 1, [] => []
  | fuel + 1, c :: s =>
    match reference (c :: s) with
    | some (name, rest) => .ref name :: piecesIn fuel rest
    | none => .char c :: piecesIn fuel s

/-- The pieces of a text. -/
def pieces (s : CStr) : List Piece := piecesIn s.length s

/-- A text without references. -/
def Plain (s : CStr) : Prop := pieces s = s.map .char

instance (s : CStr) : Decidable (Plain s) := inferInstanceAs (Decidable (_ = _))

section Resolve

variable (f : CStr → Option CStr)

/-- A piece after a pass: an undefined reference is gone. -/
def Piece.render : Piece → CStr
  | .char c => [c]
  | .ref name => (f name).getD []

/-- Is the piece a defined reference? -/
def Piece.defined : Piece → Bool
  | .char _ => false
  | .ref name => (f name).isSome

/-- A text after one pass. -/
def expandOnce (s : CStr) : CStr := (pieces s).flatMap (Piece.render f)

/-- Is there a defined reference in the text? -/
def defines (s : CStr) : Bool := (pieces s).any (Piece.defined f)

/-- A text after the passes that `depth` allows. -/
def expand : (depth : ℕ) → (s : CStr) → CStr
  | 0, s => s
  | depth + 1, s => if defines f s then expand depth (expandOnce f s) else s

/-- No text on the way is too long. -/
def FitsFor : (depth : ℕ) → (s : CStr) → Prop
  | 0, s => s.length ≤ maxExpansion
  | depth + 1, s =>
    s.length ≤ maxExpansion ∧ (defines f s = true → FitsFor depth (expandOnce f s))

end Resolve

/-- **What a reference is**: the braces enclose what is up to the first closing one. -/
theorem reference_eq_some_iff {s name rest : CStr} : reference s = some (name, rest) ↔
    s = dollar :: lbrace :: (name ++ rbrace :: rest) ∧ rbrace ∉ name := by
  constructor
  · intro h
    match s with
    | [] | [_] => cases h
    | c :: b :: s =>
      rw [reference] at h
      split at h
      case isTrue hr =>
        obtain ⟨rfl, rfl, hmem⟩ := hr
        obtain ⟨name', rest', rfl, hname⟩ := List.eq_append_cons_of_mem hmem
        have hne : ∀ c ∈ name', decide (c ≠ rbrace) = true := fun c hc ↦
          decide_eq_true fun heq ↦ hname (heq ▸ hc)
        rw [takeWhile_append_of_all hne (by simp), dropWhile_append_of_all hne (by simp)] at h
        cases h
        exact ⟨rfl, hname⟩
      case isFalse => cases h
  · rintro ⟨rfl, hname⟩
    have hne : ∀ c ∈ name, decide (c ≠ rbrace) = true := fun c hc ↦
      decide_eq_true fun heq ↦ hname (heq ▸ hc)
    rw [reference, if_pos ⟨rfl, rfl, by simp⟩, takeWhile_append_of_all hne (by simp),
      dropWhile_append_of_all hne (by simp)]
    rfl

theorem length_reference {s name rest : CStr} (h : reference s = some (name, rest)) :
    rest.length < s.length := by
  obtain ⟨rfl, -⟩ := reference_eq_some_iff.mp h
  simp only [List.length_cons, List.length_append]
  omega

theorem piecesIn_eq {n : ℕ} {s : CStr} (h : s.length ≤ n) : piecesIn n s = pieces s := by
  induction n using Nat.strong_induction_on generalizing s with
  | _ n ih =>
    match n, s with
    | 0, [] => rfl
    | n + 1, [] => rfl
    | n + 1, c :: s =>
      rw [pieces, List.length_cons, piecesIn, piecesIn]
      rw [List.length_cons] at h
      cases hr : reference (c :: s) with
      | none =>
        dsimp only
        rw [ih n (by omega) (by omega), ih s.length (by omega) le_rfl]
      | some p =>
        obtain ⟨name, rest⟩ := p
        have hlen := length_reference hr
        rw [List.length_cons] at hlen
        dsimp only
        rw [ih n (by omega) (by omega), ih s.length (by omega) (by omega)]

@[simp] theorem pieces_nil : pieces [] = [] := rfl

theorem pieces_ref {s name rest : CStr} (h : reference s = some (name, rest)) :
    pieces s = .ref name :: pieces rest := by
  have hlen := length_reference h
  cases s with
  | nil => cases h
  | cons c s =>
    rw [List.length_cons] at hlen
    rw [pieces, List.length_cons, piecesIn, h]
    dsimp only
    rw [piecesIn_eq (by omega)]

theorem pieces_char {c : UInt8} {s : CStr} (h : reference (c :: s) = none) :
    pieces (c :: s) = .char c :: pieces s := by
  rw [pieces, List.length_cons, piecesIn, h]
  rfl

/-- A text is gone over from reference to reference. -/
@[elab_as_elim]
theorem reference_induction {P : CStr → Prop} (nil : P [])
    (ref : ∀ s name rest, reference s = some (name, rest) → P rest → P s)
    (char : ∀ c s, reference (c :: s) = none → P s → P (c :: s)) (s : CStr) : P s := by
  induction h : s.length using Nat.strong_induction_on generalizing s with
  | _ n ih =>
    cases s with
    | nil => exact nil
    | cons c s =>
      rw [List.length_cons] at h
      cases hr : reference (c :: s) with
      | none => exact char c s hr (ih _ (by omega) s rfl)
      | some p =>
        have hlen := length_reference hr
        rw [List.length_cons] at hlen
        exact ref _ p.1 p.2 hr (ih _ (by omega) _ rfl)

/-! ## One pass -/

section Pass

variable {f : CStr → Option CStr} {s t name rest : CStr} {c : UInt8}

@[simp] theorem expandOnce_nil : expandOnce f [] = [] := rfl

theorem expandOnce_ref (h : reference s = some (name, rest)) :
    expandOnce f s = (f name).getD [] ++ expandOnce f rest := by
  rw [expandOnce, pieces_ref h, List.flatMap_cons]
  rfl

theorem expandOnce_char (h : reference (c :: s) = none) :
    expandOnce f (c :: s) = c :: expandOnce f s := by
  rw [expandOnce, pieces_char h, List.flatMap_cons]
  rfl

@[simp] theorem defines_nil : defines f [] = false := rfl

theorem defines_ref (h : reference s = some (name, rest)) :
    defines f s = ((f name).isSome || defines f rest) := by
  rw [defines, pieces_ref h, List.any_cons]
  rfl

theorem defines_char (h : reference (c :: s) = none) : defines f (c :: s) = defines f s := by
  rw [defines, pieces_char h, List.any_cons]
  exact Bool.false_or _

theorem plain_char (h : reference (c :: s) = none) : Plain (c :: s) ↔ Plain s := by
  rw [Plain, pieces_char h, List.map_cons, List.cons.injEq]
  exact and_iff_right rfl

theorem expandOnce_of_plain (h : Plain s) : expandOnce f s = s := by
  rw [expandOnce, h, List.flatMap_map]
  exact List.flatMap_singleton' s

theorem defines_of_plain (h : Plain s) : defines f s = false := by
  rw [defines, h, List.any_map]
  exact List.any_eq_false.mpr fun c _ ↦ Bool.false_ne_true

/-- A pass over a text without defined references drops what references there are. -/
theorem length_expandOnce_le (h : defines f s = false) :
    (expandOnce f s).length ≤ s.length ∧ ((expandOnce f s).length = s.length → Plain s) := by
  induction s using reference_induction with
  | nil => exact ⟨le_rfl, fun _ ↦ rfl⟩
  | ref s name rest hr ih =>
    rw [defines_ref hr, Bool.or_eq_false_iff, Option.isSome_eq_false_iff,
      Option.isNone_iff_eq_none] at h
    obtain ⟨hle, -⟩ := ih h.2
    have hlen := length_reference hr
    rw [expandOnce_ref hr, h.1]
    exact ⟨hle.trans hlen.le, fun heq ↦ absurd heq (hle.trans_lt hlen).ne⟩
  | char c s hr ih =>
    rw [defines_char hr] at h
    obtain ⟨hle, hplain⟩ := ih h
    rw [expandOnce_char hr, plain_char hr, List.length_cons, List.length_cons]
    exact ⟨Nat.succ_le_succ hle, fun heq ↦ hplain (Nat.succ_inj.mp heq)⟩

theorem expandOnce_append (h : pieces (s ++ t) = pieces s ++ pieces t) :
    expandOnce f (s ++ t) = expandOnce f s ++ expandOnce f t := by
  rw [expandOnce, h, List.flatMap_append]
  rfl

theorem defines_append (h : pieces (s ++ t) = pieces s ++ pieces t) :
    defines f (s ++ t) = (defines f s || defines f t) := by
  rw [defines, h, List.any_append]
  rfl

end Pass

/-! ## The loops -/

section Loop

/-- What a reference of the code stands for: only the start of a long name is looked up. -/
def resolve (cfg defaultCfg : Option Dict) (name : CStr) : Option CStr :=
  settingOf cfg defaultCfg (name.take maxReference)

variable {get : CStr → Option (Option CStr)} {f : CStr → Option CStr}

/-- **One pass of the code is `expandOnce`**, as long as there is room. -/
theorem expandLoop_eq (hget : ∀ name, get (name.take maxReference) = some (f name)) {s tmp : CStr}
    {changed : Bool} {fuel : ℕ} (hfuel : s.length ≤ fuel)
    (hroom : tmp.length + (expandOnce f s).length ≤ maxExpansion)
    (hsame : changed = true ∨ tmp.length + s.length ≤ maxExpansion) :
    expandLoop get fuel s tmp changed = some (tmp ++ expandOnce f s, changed || defines f s) := by
  induction s using reference_induction generalizing tmp changed fuel with
  | nil => cases fuel <;> simp [expandLoop]
  | ref s name rest hr ih =>
    have hlen := length_reference hr
    obtain _ | fuel := fuel
    · omega
    cases s with
    | nil => cases hr
    | cons c s =>
      rw [expandOnce_ref hr, List.length_append] at hroom
      rw [expandLoop, expandOnce_ref hr, defines_ref hr]
      by_cases hfull : tmp.length < maxExpansion
      · rw [if_pos hfull, hr]
        dsimp only
        rw [hget]
        cases hf : f name with
        | none =>
          rw [hf] at hroom
          exact ih (by omega) (by simpa using hroom) (hsame.imp_right fun h ↦ by omega)
        | some val =>
          rw [hf, Option.getD_some] at hroom
          have htake : val.take (maxExpansion - tmp.length) = val :=
            List.take_of_length_le (by omega)
          have hrest : expandLoop get fuel rest (tmp ++ val) true
              = some (tmp ++ val ++ expandOnce f rest, true || defines f rest) :=
            ih (by omega) (by rw [List.length_append]; omega) (.inl rfl)
          simpa [htake] using hrest
      · rw [if_neg hfull]
        obtain hchanged | hroom' := hsame
        · have hnone : (f name).getD [] ++ expandOnce f rest = [] :=
            List.eq_nil_of_length_eq_zero (by rw [List.length_append]; omega)
          rw [hnone, List.append_nil, hchanged, Bool.true_or]
        · rw [List.length_cons] at hroom'
          omega
  | char c s hr ih =>
    obtain _ | fuel := fuel
    · rw [List.length_cons] at hfuel
      omega
    rw [List.length_cons] at hfuel hsame
    rw [expandOnce_char hr, List.length_cons] at hroom
    rw [expandLoop, expandOnce_char hr, defines_char hr, if_pos (by omega), hr]
    dsimp only
    rw [ih (by omega) (by rw [List.length_append, List.length_singleton]; omega)
      (hsame.imp_right fun h ↦ by rw [List.length_append, List.length_singleton]; omega),
      List.append_assoc, List.singleton_append]

/-- The loop returns if the lookups do. -/
theorem expandLoop_returns (hget : ∀ name, ∃ r, get name = some r) (fuel : ℕ) (src tmp : CStr)
    (changed : Bool) : ∃ r, expandLoop get fuel src tmp changed = some r := by
  induction fuel generalizing src tmp changed with
  | zero => exact ⟨_, rfl⟩
  | succ fuel ih =>
    cases src with
    | nil => exact ⟨_, rfl⟩
    | cons c src =>
      rw [expandLoop]
      split
      case isTrue =>
        cases hr : reference (c :: src) with
        | none => exact ih _ _ _
        | some p =>
          obtain ⟨val, hval⟩ := hget (p.1.take maxReference)
          dsimp only
          rw [hval]
          cases val with
          | none => exact ih _ _ _
          | some val => exact ih _ _ _
      case isFalse => exact ⟨_, rfl⟩

theorem expandPasses_returns (hget : ∀ name, ∃ r, get name = some r) (depth : ℕ) (buf : CStr) :
    ∃ r, expandPasses get depth buf = some r := by
  induction depth generalizing buf with
  | zero => exact ⟨_, rfl⟩
  | succ depth ih =>
    obtain ⟨⟨tmp, changed⟩, hloop⟩ := expandLoop_returns hget buf.length buf [] false
    rw [expandPasses, hloop]
    cases changed with
    | false => exact ⟨_, rfl⟩
    | true => exact ih _

theorem FitsFor.length_le {depth : ℕ} {s : CStr} (h : FitsFor f depth s) :
    s.length ≤ maxExpansion := by
  cases depth with
  | zero => exact h
  | succ => exact h.1

/-- **The passes of the code are `expand`**, as long as there is room. -/
theorem expandPasses_eq (hget : ∀ name, get (name.take maxReference) = some (f name)) {depth : ℕ}
    {s : CStr} (hfits : FitsFor f depth s) :
    expandPasses get depth s = some (expand f depth s) := by
  induction depth generalizing s with
  | zero => rfl
  | succ depth ih =>
    obtain ⟨hlen, hnext⟩ := hfits
    have hroom : (expandOnce f s).length ≤ maxExpansion := by
      by_cases hdef : defines f s = true
      · exact (hnext hdef).length_le
      · exact (length_expandOnce_le (Bool.eq_false_iff.mpr hdef)).1.trans hlen
    rw [expandPasses, expandLoop_eq hget le_rfl (by simpa using hroom) (.inr (by simpa using hlen)),
      expand]
    cases hdef : defines f s with
    | false => rfl
    | true =>
      simpa [List.take_of_length_le hroom] using ih (hnext hdef)

variable {dictHash : CStr → UInt32} {cfg defaultCfg d : Option Dict}

/-- **`dict_get_exp`** expands the text of the key, with the references of the configuration. -/
theorem dictGetExp_eq (hcfg : ∀ c ∈ cfg, Readable dictHash c)
    (hdefault : ∀ c ∈ defaultCfg, Readable dictHash c) (hd : ∀ c ∈ d, Readable dictHash c)
    {key s : CStr} (hkey : textOf d key = some s)
    (hfits : FitsFor (resolve cfg defaultCfg) maxCfgExpRecursion s) :
    dictGetExp dictHash true cfg defaultCfg d key
      = some (some (expand (resolve cfg defaultCfg) maxCfgExpRecursion s)) := by
  rw [dictGetExp, Readable.dictGetOf_eq hd, hkey]
  dsimp only [Option.bind_eq_bind, Option.bind_some]
  rw [if_pos rfl, List.take_of_length_le hfits.length_le,
    expandPasses_eq (fun name ↦ Readable.cfgGet_eq hcfg hdefault _) hfits]
  rfl

end Loop

/-! ## Two texts side by side -/

section Append

variable (f : CStr → Option CStr)

/-- No pass makes a reference out of pieces of both texts, and no length gets past the limit. -/
def ApartFor : (depth : ℕ) → (s t : CStr) → Prop
  | 0, s, t => (s ++ t).length ≤ maxExpansion
  | depth + 1, s, t =>
    (s ++ t).length ≤ maxExpansion ∧ pieces (s ++ t) = pieces s ++ pieces t ∧
      (defines f s = true ∨ defines f t = true → ApartFor depth (expandOnce f s) (expandOnce f t))

/-- When one of the texts has its last defined reference replaced and the other has not, there is no
reference left in it at all. -/
def AlikeFor : (depth : ℕ) → (s t : CStr) → Prop
  | 0, _, _ => True
  | depth + 1, s, t =>
    (defines f s = true → defines f t = false → Plain t) ∧
      (defines f s = false → defines f t = true → Plain s) ∧
      (defines f s = true → defines f t = true →
        AlikeFor depth (expandOnce f s) (expandOnce f t))

/-- Further passes meet no defined reference. -/
def SettledFor : (depth : ℕ) → (s : CStr) → Prop
  | 0, _ => True
  | depth + 1, s => defines f s = false ∧ SettledFor depth (expandOnce f s)

/-- When one of the texts has its last defined reference replaced and the other has not, none comes
up in it again. -/
def StaySettledFor : (depth : ℕ) → (s t : CStr) → Prop
  | 0, _, _ => True
  | depth + 1, s, t =>
    (defines f s = true → defines f t = false → SettledFor f (depth + 1) t) ∧
      (defines f s = false → defines f t = true → SettledFor f (depth + 1) s) ∧
      (defines f s = true → defines f t = true →
        StaySettledFor depth (expandOnce f s) (expandOnce f t))

instance decidableApartFor : ∀ depth s t, Decidable (ApartFor f depth s t)
  | 0, s, t => inferInstanceAs (Decidable ((s ++ t).length ≤ maxExpansion))
  | depth + 1, s, t =>
    have := decidableApartFor depth (expandOnce f s) (expandOnce f t)
    inferInstanceAs (Decidable ((s ++ t).length ≤ maxExpansion ∧
      pieces (s ++ t) = pieces s ++ pieces t ∧ (defines f s = true ∨ defines f t = true → _)))

instance decidableAlikeFor : ∀ depth s t, Decidable (AlikeFor f depth s t)
  | 0, _, _ => inferInstanceAs (Decidable True)
  | depth + 1, s, t =>
    have := decidableAlikeFor depth (expandOnce f s) (expandOnce f t)
    inferInstanceAs (Decidable ((defines f s = true → defines f t = false → Plain t) ∧
      (defines f s = false → defines f t = true → Plain s) ∧
      (defines f s = true → defines f t = true → _)))

variable {f} {depth : ℕ} {s t : CStr}

/-- Every `${` in the text is closed. -/
def Closed (s : CStr) : Prop := ∀ a b, s = a ++ dollar :: lbrace :: b → rbrace ∈ b

theorem closed_of_head {s : CStr} (hs : dollar ∉ s) (hclosed : rbrace ∈ s.tail) :
    Closed (dollar :: s) := by
  intro a b hab
  cases a with
  | nil =>
    obtain ⟨-, rfl⟩ := List.cons.inj hab
    exact hclosed
  | cons c a =>
    obtain ⟨-, rfl⟩ := List.cons.inj hab
    exact absurd (by simp) hs

theorem ApartFor.length_le (h : ApartFor f depth s t) : (s ++ t).length ≤ maxExpansion := by
  cases depth with
  | zero => exact h
  | succ => exact h.1

theorem ApartFor.fits (h : ApartFor f depth s t) : FitsFor f depth (s ++ t) ∧
    FitsFor f depth s ∧ FitsFor f depth t := by
  induction depth generalizing s t with
  | zero =>
    have hlen := h.length_le
    rw [List.length_append] at hlen
    refine ⟨h, ?_, ?_⟩ <;> rw [FitsFor] <;> omega
  | succ depth ih =>
    have hlen := h.length_le
    rw [List.length_append] at hlen
    obtain ⟨hboth, hpieces, hnext⟩ := h
    refine ⟨⟨hboth, fun hdef ↦ ?_⟩, ⟨by omega, fun hdef ↦ (ih (hnext (.inl hdef))).2.1⟩,
      ⟨by omega, fun hdef ↦ (ih (hnext (.inr hdef))).2.2⟩⟩
    rw [defines_append hpieces, Bool.or_eq_true] at hdef
    rw [expandOnce_append hpieces]
    exact (ih (hnext hdef)).1

theorem expand_of_plain (h : Plain s) : expand f depth s = s := by
  cases depth with
  | zero => rfl
  | succ => rw [expand, defines_of_plain h, if_neg Bool.false_ne_true]

theorem alikeFor_of_plain (h : Plain s ∨ Plain t) : AlikeFor f depth s t := by
  cases depth with
  | zero => trivial
  | succ =>
    obtain h | h := h
    · simp [AlikeFor, defines_of_plain h, h]
    · simp [AlikeFor, defines_of_plain h, h]

/-- The passes over two texts side by side. -/
theorem expand_succ_append (h : pieces (s ++ t) = pieces s ++ pieces t) :
    expand f (depth + 1) (s ++ t) =
      if defines f s || defines f t then expand f depth (expandOnce f s ++ expandOnce f t)
      else s ++ t := by
  rw [expand, defines_append h, expandOnce_append h]

theorem expand_append (h : ApartFor f depth s t) (halike : AlikeFor f depth s t) :
    expand f depth (s ++ t) = expand f depth s ++ expand f depth t := by
  induction depth generalizing s t with
  | zero => rfl
  | succ depth ih =>
    obtain ⟨-, hpieces, hnext⟩ := h
    obtain ⟨hs, ht, hboth⟩ := halike
    rw [expand_succ_append hpieces, expand, expand]
    cases hdefs : defines f s <;> cases hdeft : defines f t
    · rfl
    · have hplain := ht hdefs hdeft
      have := ih (hnext (.inr hdeft))
        (alikeFor_of_plain (.inl (by rwa [expandOnce_of_plain hplain])))
      simpa [expandOnce_of_plain hplain, expand_of_plain hplain] using this
    · have hplain := hs hdefs hdeft
      have := ih (hnext (.inl hdefs))
        (alikeFor_of_plain (.inr (by rwa [expandOnce_of_plain hplain])))
      simpa [expandOnce_of_plain hplain, expand_of_plain hplain] using this
    · exact ih (hnext (.inl hdefs)) (hboth hdefs hdeft)

/-- A settled text gets no longer beside another one. -/
theorem length_expand_append_le (h : ApartFor f depth s t) :
    (SettledFor f depth t →
      (expand f depth (s ++ t)).length ≤ (expand f depth s).length + t.length) ∧
    (SettledFor f depth s →
      (expand f depth (s ++ t)).length ≤ s.length + (expand f depth t).length) := by
  induction depth generalizing s t with
  | zero => simp [expand]
  | succ depth ih =>
    obtain ⟨-, hpieces, hnext⟩ := h
    rw [expand_succ_append hpieces, expand, expand]
    constructor <;> rintro ⟨hdef, hsettled⟩
    · rw [hdef, Bool.or_false]
      split
      case isTrue hdefs =>
        have := (ih (hnext (.inl hdefs))).1 hsettled
        have := (length_expandOnce_le hdef).1
        omega
      case isFalse => rw [List.length_append]
    · rw [hdef, Bool.false_or]
      split
      case isTrue hdeft =>
        have := (ih (hnext (.inr hdeft))).2 hsettled
        have := (length_expandOnce_le hdef).1
        omega
      case isFalse => rw [List.length_append]

/-- Texts that are not alike are shorter side by side, if the settled one stays so. -/
theorem alikeFor_of_length (h : ApartFor f depth s t) (hsettled : StaySettledFor f depth s t)
    (hlen : (expand f depth (s ++ t)).length = (expand f depth s ++ expand f depth t).length) :
    AlikeFor f depth s t := by
  induction depth generalizing s t with
  | zero => trivial
  | succ depth ih =>
    obtain ⟨-, hpieces, hnext⟩ := h
    obtain ⟨hs, ht, hboth⟩ := hsettled
    rw [expand_succ_append hpieces, expand, expand] at hlen
    refine ⟨fun hdefs hdeft ↦ ?_, fun hdefs hdeft ↦ ?_, fun hdefs hdeft ↦ ?_⟩
    · have hle := (length_expand_append_le (hnext (.inl hdefs))).1 (hs hdefs hdeft).2
      obtain ⟨honce, hplain⟩ := length_expandOnce_le hdeft
      simp only [hdefs, hdeft, Bool.or_false, if_true, Bool.false_eq_true, if_false,
        List.length_append] at hlen
      exact hplain (by omega)
    · have hle := (length_expand_append_le (hnext (.inr hdeft))).2 (ht hdefs hdeft).2
      obtain ⟨honce, hplain⟩ := length_expandOnce_le hdefs
      simp only [hdefs, hdeft, Bool.false_or, if_true, Bool.false_eq_true, if_false,
        List.length_append] at hlen
      exact hplain (by omega)
    · simp only [hdefs, hdeft, Bool.or_true, if_true] at hlen
      exact ih (hnext (.inl hdefs)) (hboth hdefs hdeft) hlen

/-- `dict_get_exp` has, for the text of `c`, what it has for those of `a` and `b` one after the
other. -/
def Composes (dictHash : CStr → UInt32) (cfg defaultCfg d : Option Dict) (a b c : CStr) : Prop :=
  ∃ x y, dictGetExp dictHash true cfg defaultCfg d a = some (some x) ∧
    dictGetExp dictHash true cfg defaultCfg d b = some (some y) ∧
    dictGetExp dictHash true cfg defaultCfg d c = some (some (x ++ y))

/-- **Texts that are apart are expanded each for itself** if they run out of defined references
together, or the one that does so first is without references then.  If the settled text stays
settled, they are only then. -/
theorem composes_alikeFor {dictHash : CStr → UInt32} {cfg defaultCfg d : Option Dict}
    (hcfg : ∀ c ∈ cfg, Readable dictHash c) (hdefault : ∀ c ∈ defaultCfg, Readable dictHash c)
    (hd : ∀ c ∈ d, Readable dictHash c) {a b c : CStr} (ha : textOf d a = some s)
    (hb : textOf d b = some t) (hc : textOf d c = some (s ++ t))
    (hapart : ApartFor (resolve cfg defaultCfg) maxCfgExpRecursion s t) :
    (AlikeFor (resolve cfg defaultCfg) maxCfgExpRecursion s t →
      Composes dictHash cfg defaultCfg d a b c) ∧
    (StaySettledFor (resolve cfg defaultCfg) maxCfgExpRecursion s t →
      Composes dictHash cfg defaultCfg d a b c →
      AlikeFor (resolve cfg defaultCfg) maxCfgExpRecursion s t) := by
  obtain ⟨hfits, hfitss, hfitst⟩ := hapart.fits
  rw [Composes, dictGetExp_eq hcfg hdefault hd ha hfitss, dictGetExp_eq hcfg hdefault hd hb hfitst,
    dictGetExp_eq hcfg hdefault hd hc hfits]
  refine ⟨fun halike ↦ ⟨_, _, rfl, rfl, ?_⟩, ?_⟩
  · rw [expand_append hapart halike]
  · rintro hsettled ⟨x, y, hx, hy, hxy⟩
    cases hx
    cases hy
    have hsame := Option.some.inj (Option.some.inj hxy)
    exact alikeFor_of_length hapart hsettled (congrArg List.length hsame)

end Append

theorem readable_textsDict (texts : List (CStr × CStr)) :
    ∀ c ∈ some (textsDict texts), Readable dictHashMurmur c := by
  rintro c ⟨⟩
  exact (built_textsDict texts).readable

/-- Three texts, the last of which is made of the others, and a setting. -/
def tripleDict (s t : CStr) : Dict :=
  textsDict [(lit "a", s), (lit "b", t), (lit "c", s ++ t), (lit "host", lit "x")]

theorem composes_alikeFor_host :
    let d := some (tripleDict (lit "ws://") (lit "${host}"))
    Composes dictHashMurmur d none d (lit "a") (lit "b") (lit "c") :=
  have hd : ∀ c ∈ some (tripleDict (lit "ws://") (lit "${host}")), Readable dictHashMurmur c :=
    readable_textsDict _
  (composes_alikeFor (s := lit "ws://") (t := lit "${host}") hd (fun _ hc ↦ by cases hc) hd
    (by decide +kernel) (by decide +kernel) (by decide +kernel) (by decide +kernel)).1
    (by decide +kernel)

/-- The undefined reference stays for itself and goes beside the defined one. -/
theorem not_composes_nobody :
    let d := some (tripleDict (lit "${nobody}") (lit "${host}"))
    textOf d (lit "a") = some (lit "${nobody}") ∧ textOf d (lit "b") = some (lit "${host}") ∧
      textOf d (lit "c") = some (lit "${nobody}" ++ lit "${host}") ∧
      Closed (lit "${nobody}") ∧ Closed (lit "${host}") ∧
      ApartFor (resolve d none) maxCfgExpRecursion (lit "${nobody}") (lit "${host}") ∧
      ¬Composes dictHashMurmur d none d (lit "a") (lit "b") (lit "c") := by
  refine ⟨by decide +kernel, by decide +kernel, by decide +kernel, ?_, ?_, by decide +kernel, ?_⟩
  · exact closed_of_head (by decide) (by decide)
  · exact closed_of_head (by decide) (by decide)
  · rintro ⟨x, y, hx, hy, hxy⟩
    have ha : dictGetExp dictHashMurmur true
        (some (tripleDict (lit "${nobody}") (lit "${host}"))) none
        (some (tripleDict (lit "${nobody}") (lit "${host}"))) (lit "a")
        = some (some (lit "${nobody}")) := by decide +kernel
    have hc : dictGetExp dictHashMurmur true
        (some (tripleDict (lit "${nobody}") (lit "${host}"))) none
        (some (tripleDict (lit "${nobody}") (lit "${host}"))) (lit "c")
        = some (some (lit "x")) := by decide +kernel
    rw [ha, Option.some.injEq, Option.some.injEq] at hx
    rw [hc, Option.some.injEq, Option.some.injEq, ← hx] at hxy
    have hlen := congrArg List.length hxy
    rw [List.length_append] at hlen
    have : (lit "${nobody}").length = 9 := by decide
    have : (lit "x").length = 1 := by decide
    omega

/-! ## One view of the configuration -/

section View

variable (dictHash : CStr → UInt32) (f : CStr → Option CStr) (cfg defaultCfg : Option Dict)

/-- After `k` passes with every reference defined, the text `v` is `w`, without references. -/
def ExpandsIn : (k : ℕ) → (v w : CStr) → Prop
  | 0, v, w => Plain v ∧ w = v
  | k + 1, v, w =>
    (∀ name, .ref name ∈ pieces v → (f name).isSome) ∧ ExpandsIn k (expandOnce f v) w

/-- No text on the way is too long for its buffer, nor is a name, unless it stands for what its
start stands for. -/
def RoomFor : (k : ℕ) → (v : CStr) → Prop
  | 0, v => v.length ≤ maxExpansion
  | k + 1, v => v.length ≤ maxExpansion ∧
    (∀ name, .ref name ∈ pieces v → f (name.take maxReference) = f name) ∧
      RoomFor k (expandOnce f v)

/-- What `cfg_get` returns. -/
def cfgText (name : CStr) : Option CStr := (cfgGet dictHash cfg defaultCfg name).join

/-- `cfg_get_exp` returns `NULL` where `cfg_get` does, and else the expansion of what that returns,
if five passes are enough for it. -/
def SameView (malloc : Bool) (key : CStr) : Prop :=
  (∃ r, cfgGetExp dictHash malloc cfg defaultCfg key = some r ∧
    (r = none ↔ cfgGet dictHash cfg defaultCfg key = some none)) ∧
  ∀ v, cfgGet dictHash cfg defaultCfg key = some (some v) → ∀ k < maxCfgExpRecursion, ∀ w,
    ExpandsIn (cfgText dictHash cfg defaultCfg) k v w →
      cfgGetExp dictHash malloc cfg defaultCfg key = some (some w)

/-- The key has a text in the live configuration, or none at all; and there is memory. -/
def Visible (malloc : Bool) (key : CStr) : Prop :=
  settingOf cfg defaultCfg key ≠ none → malloc = true ∧ textOf cfg key ≠ none

/-- There is room for the expansion of the setting. -/
def Roomy (key : CStr) : Prop :=
  ∀ v, settingOf cfg defaultCfg key = some v → ∀ k < maxCfgExpRecursion, ∀ w,
    ExpandsIn (settingOf cfg defaultCfg) k v w → RoomFor (settingOf cfg defaultCfg) k v

variable {dictHash f cfg defaultCfg}

theorem plain_of_not_defines {v : CStr} (hall : ∀ name, .ref name ∈ pieces v → (f name).isSome)
    (h : defines f v = false) : Plain v := by
  induction v using reference_induction with
  | nil => rfl
  | ref s name rest hr ih =>
    rw [defines_ref hr, hall name (by rw [pieces_ref hr]; exact List.mem_cons_self)] at h
    cases h
  | char c s hr ih =>
    rw [defines_char hr] at h
    rw [plain_char hr]
    exact ih (fun name hname ↦ hall name (by rw [pieces_char hr]; exact .tail _ hname)) h

theorem ExpandsIn.eq_of_plain {k : ℕ} {v w : CStr} (h : ExpandsIn f k v w) (hv : Plain v) :
    w = v := by
  induction k with
  | zero => exact h.2
  | succ k ih => exact ih (expandOnce_of_plain (f := f) hv ▸ h.2)

theorem RoomFor.length_le {k : ℕ} {v : CStr} (h : RoomFor f k v) : v.length ≤ maxExpansion := by
  cases k with
  | zero => exact h
  | succ => exact h.1

theorem fitsFor_of_plain {n : ℕ} {v : CStr} (hlen : v.length ≤ maxExpansion) (hv : Plain v) :
    FitsFor f n v := by
  cases n with
  | zero => exact hlen
  | succ => exact ⟨hlen, fun hdef ↦ by rw [defines_of_plain hv] at hdef; cases hdef⟩

theorem roomFor_of_plain {k : ℕ} {v : CStr} (hlen : v.length ≤ maxExpansion) (hv : Plain v) :
    RoomFor f k v := by
  induction k with
  | zero => exact hlen
  | succ k ih =>
    refine ⟨hlen, fun name hname ↦ ?_, (expandOnce_of_plain (f := f) hv).symm ▸ ih⟩
    rw [hv] at hname
    simp at hname

/-- With room for it, the expansion is that of the code. -/
theorem ExpandsIn.expand_eq {g : CStr → Option CStr}
    (hg : ∀ name, g name = f (name.take maxReference)) {k n : ℕ} {v w : CStr}
    (h : ExpandsIn f k v w) (hroom : RoomFor f k v) (hk : k ≤ n) :
    FitsFor g n v ∧ expand g n v = w := by
  induction k generalizing n v with
  | zero =>
    obtain ⟨hplain, rfl⟩ := h
    exact ⟨fitsFor_of_plain hroom.length_le hplain, expand_of_plain hplain⟩
  | succ k ih =>
    obtain ⟨n, rfl⟩ : ∃ m, n = m + 1 := ⟨n - 1, by omega⟩
    have hlen := hroom.length_le
    obtain ⟨-, hnames, hroom⟩ := hroom
    have hsame : ∀ name, .ref name ∈ pieces v → g name = f name := fun name hname ↦
      (hg name).trans (hnames name hname)
    have honce : expandOnce g v = expandOnce f v := by
      rw [expandOnce, expandOnce, List.flatMap_def, List.flatMap_def]
      refine congrArg List.flatten (List.map_congr_left fun p hp ↦ ?_)
      cases p with
      | char c => rfl
      | ref name => rw [Piece.render, Piece.render, hsame name hp]
    cases hdef : defines g v with
    | false =>
      have hplain : Plain v :=
        plain_of_not_defines (fun name hname ↦ hsame name hname ▸ h.1 name hname) hdef
      refine ⟨fitsFor_of_plain hlen hplain, ?_⟩
      rw [expand_of_plain hplain, h.eq_of_plain hplain]
    | true =>
      obtain ⟨hfits, hexpand⟩ := ih h.2 hroom (Nat.le_of_succ_le_succ hk)
      refine ⟨⟨hlen, fun _ ↦ by rwa [honce]⟩, ?_⟩
      rw [expand, if_pos hdef, honce, hexpand]

theorem cfgGetExp_eq_some_none (hcfg : ∀ c ∈ cfg, Readable dictHash c) {malloc : Bool}
    {key : CStr} (h : ¬(malloc = true ∧ textOf cfg key ≠ none)) :
    cfgGetExp dictHash malloc cfg defaultCfg key = some none := by
  rw [cfgGetExp, dictGetExp, Readable.dictGetOf_eq hcfg]
  cases htext : textOf cfg key with
  | none => rfl
  | some p =>
    have hmalloc : malloc ≠ true := fun hm ↦ h ⟨hm, by rw [htext]; exact Option.some_ne_none p⟩
    exact if_neg hmalloc

section Readable

variable (hcfg : ∀ c ∈ cfg, Readable dictHash c) (hdefault : ∀ c ∈ defaultCfg, Readable dictHash c)
include hcfg hdefault

theorem cfgText_eq : cfgText dictHash cfg defaultCfg = settingOf cfg defaultCfg := by
  funext name
  rw [cfgText, Readable.cfgGet_eq hcfg hdefault, Option.join_some]

theorem cfgGetExp_returns {key p : CStr} (h : textOf cfg key = some p) :
    ∃ buf, cfgGetExp dictHash true cfg defaultCfg key = some (some buf) := by
  obtain ⟨buf, hbuf⟩ := expandPasses_returns (fun name ↦ ⟨_, Readable.cfgGet_eq hcfg hdefault name⟩)
    maxCfgExpRecursion (p.take maxExpansion)
  refine ⟨buf, ?_⟩
  rw [cfgGetExp, dictGetExp, Readable.dictGetOf_eq hcfg, h]
  dsimp only [Option.bind_eq_bind, Option.bind_some]
  rw [if_pos rfl, hbuf]
  rfl

/-- **The expanding lookup sees what the plain one does** only where the key has a text in the live
configuration, or nowhere; and there it does, as long as there is room. -/
theorem sameView_visible {malloc : Bool} (key : CStr) :
    (SameView dictHash cfg defaultCfg malloc key → Visible cfg defaultCfg malloc key) ∧
      (Visible cfg defaultCfg malloc key → Roomy cfg defaultCfg key →
        SameView dictHash cfg defaultCfg malloc key) := by
  have hget := Readable.cfgGet_eq hcfg hdefault key
  constructor
  · rintro ⟨⟨r, hr, hnone⟩, -⟩ hset
    by_contra hhidden
    rw [cfgGetExp_eq_some_none hcfg hhidden, Option.some.injEq] at hr
    rw [hnone.mp hr.symm, Option.some.injEq] at hget
    exact hset hget.symm
  · intro hvisible hroomy
    rw [SameView, hget, cfgText_eq hcfg hdefault]
    cases hset : settingOf cfg defaultCfg key with
    | none =>
      have hlive : textOf cfg key = none := (Option.or_eq_none_iff.mp hset).1
      refine ⟨⟨none, cfgGetExp_eq_some_none hcfg fun h ↦ h.2 hlive, by simp⟩, ?_⟩
      rintro v ⟨⟩
    | some v =>
      obtain ⟨rfl, hlive⟩ := hvisible (by rw [hset]; exact Option.some_ne_none v)
      obtain ⟨p, hp⟩ := Option.ne_none_iff_exists'.mp hlive
      have hpv : p = v := by
        rw [settingOf, hp, Option.some_or, Option.some.injEq] at hset
        exact hset
      obtain ⟨buf, hbuf⟩ := cfgGetExp_returns hcfg hdefault hp
      refine ⟨⟨_, hbuf, by simp⟩, ?_⟩
      rintro v' ⟨⟩ k hk w hw
      obtain ⟨hfits, hexpand⟩ := hw.expand_eq (g := resolve cfg defaultCfg) (fun _ ↦ rfl)
        (hroomy v hset k hk w hw) hk.le
      rw [cfgGetExp, dictGetExp_eq hcfg hdefault hcfg (hpv ▸ hp) hfits, hexpand]

end Readable

end View

/-- The live configuration of a rig. -/
def rigCfg : Dict := textsDict [(lit "url", lit "ws://${host}")]

/-- Its defaults. -/
def rigDefaults : Dict := textsDict [(lit "host", lit "localhost")]

theorem sameView_visible_url :
    SameView dictHashMurmur (some rigCfg) (some rigDefaults) true (lit "url") := by
  have hlive : ∀ c ∈ some rigCfg, Readable dictHashMurmur c := readable_textsDict _
  have hdefaults : ∀ c ∈ some rigDefaults, Readable dictHashMurmur c := readable_textsDict _
  refine (sameView_visible hlive hdefaults (lit "url")).2 (fun _ ↦ ⟨rfl, by decide +kernel⟩) ?_
  intro v hv k _ w _
  have hurl : settingOf (some rigCfg) (some rigDefaults) (lit "url")
      = some (lit "ws://${host}") := by decide +kernel
  obtain rfl : lit "ws://${host}" = v := Option.some.inj (hurl.symm.trans hv)
  cases k with
  | zero =>
    rw [RoomFor]
    decide
  | succ k =>
    have hnames : ∀ name, .ref name ∈ pieces (lit "ws://${host}") → name = lit "host" := by
      have hpieces : pieces (lit "ws://${host}")
          = (lit "ws://").map .char ++ [.ref (lit "host")] := by decide +kernel
      rw [hpieces]
      intro name hname
      simpa using hname
    have honce : expandOnce (settingOf (some rigCfg) (some rigDefaults)) (lit "ws://${host}")
        = lit "ws://localhost" := by decide +kernel
    refine ⟨by decide, fun name hname ↦ by rw [hnames name hname]; rfl, ?_⟩
    rw [honce]
    exact roomFor_of_plain (by decide) (by decide +kernel)

/-- A setting of the defaults is not expanded. -/
theorem not_sameView_host :
    ¬SameView dictHashMurmur (some rigCfg) (some rigDefaults) true (lit "host") := by
  rintro ⟨⟨r, hr, hnone⟩, -⟩
  have hexp : cfgGetExp dictHashMurmur true (some rigCfg) (some rigDefaults) (lit "host")
      = some none := by decide +kernel
  have hget : cfgGet dictHashMurmur (some rigCfg) (some rigDefaults) (lit "host")
      = some (some (lit "localhost")) := by decide +kernel
  rw [hexp, Option.some.injEq] at hr
  rw [hnone.mp hr.symm] at hget
  cases hget

end Rustyaxe
