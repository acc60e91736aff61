import Rustyaxe.Json.Decode

/-!
# The JSON grammar, and what a text flattens to

The grammar of RFC 8259 over bytes, as a relation between a syntax tree, a text and what is left of
it.  Strings are read as sequences of `StrItem`s and numbers are kept as they are written, so a tree
is a parse and nothing has been decoded yet.

A tree is then read as the list of its values in the order of the text, each with its flattened
path and its depth (`Json.visits`).  `Acceptable` is what `json2dict` asks of a tree beyond the
grammar, and `Json.leaves` is what it is meant to store.
-/

set_option autoImplicit false

namespace Rustyaxe

/-! ## Strings and numbers -/

/-- An item of a string: a byte that stands for itself, a single-letter escape, or `\uXXXX`. -/
inductive StrItem where
  | byte (b : UInt8)
  | esc (e : UInt8)
  | unicode (a b c d : UInt8)
  deriving DecidableEq, Repr

/-- `HEXDIG`, of either case -/
def IsHex (c : UInt8) : Prop := hexDigit c ≠ none

/-- The items the grammar allows. -/
def StrItem.Valid : StrItem → Prop
  | .byte b => 0x20 ≤ b ∧ b ≠ quote ∧ b ≠ backslash
  | .esc e => simpleEscape e ≠ none
  | .unicode a b c d => IsHex a ∧ IsHex b ∧ IsHex c ∧ IsHex d

/-- How an item is written. -/
def StrItem.text : StrItem → CStr
  | .byte b => [b]
  | .esc e => [backslash, e]
  | .unicode a b c d => [backslash, 0x75, a, b, c, d]

/-- The bytes between the quotes. -/
def bodyText (items : List StrItem) : CStr := items.flatMap StrItem.text

/-- `string`: `s` is the string followed by `r`. -/
def StrText (items : List StrItem) (s r : CStr) : Prop :=
  (∀ i ∈ items, i.Valid) ∧ s = quote :: bodyText items ++ quote :: r

/-- What a string decodes to; `none` if it uses `\u0000` or an unpaired surrogate. -/
def decodeItems : List StrItem → Option CStr
  | [] => some []
  | .byte b :: items => (decodeItems items).map (b :: ·)
  | .esc e :: items => (simpleEscape e).bind fun b ↦ (decodeItems items).map (b :: ·)
  | .unicode a b c d :: items => (jsonHex4 a b c d).bind fun code ↦
    if code = 0 then none
    else if 0xD800 ≤ code ∧ code ≤ 0xDBFF then
      match items with
      | .unicode a b c d :: items => (jsonHex4 a b c d).bind fun low ↦
        if low < 0xDC00 ∨ low > 0xDFFF then none
        else (decodeItems items).map (utf8 (pairCode code low) ++ ·)
      | _ => none
    else if 0xDC00 ≤ code ∧ code ≤ 0xDFFF then none
    else (decodeItems items).map (utf8 code ++ ·)

/-- `int`: no leading zeros. -/
def IntText (t : CStr) : Prop :=
  t = [0x30] ∨ ∃ c ds, t = c :: ds ∧ 0x31 ≤ c ∧ c ≤ 0x39 ∧ ∀ x ∈ ds, isdigit x = true

/-- `1*DIGIT` -/
def DigitsText (t : CStr) : Prop := t ≠ [] ∧ ∀ x ∈ t, isdigit x = true

/-- `[ frac ]` -/
def FracText (t : CStr) : Prop := t = [] ∨ ∃ ds, t = dot :: ds ∧ DigitsText ds

/-- `[ exp ]` -/
def ExpText (t : CStr) : Prop :=
  t = [] ∨ ∃ e sign ds, t = e :: sign ++ ds ∧ (e = 0x65 ∨ e = 0x45) ∧
    (sign = [] ∨ sign = [0x2b] ∨ sign = [minus]) ∧ DigitsText ds

/-- `number` -/
def NumberText (t : CStr) : Prop :=
  ∃ sign int frac exp, t = sign ++ (int ++ (frac ++ exp)) ∧ (sign = [] ∨ sign = [minus]) ∧
    IntText int ∧ FracText frac ∧ ExpText exp

/-! ## Values -/

mutual

/-- A syntax tree. -/
inductive Json where
  | null
  | bool (b : Bool)
  | num (t : CStr)
  | str (items : List StrItem)
  | arr (es : Elements)
  | obj (ms : Members)

/-- The elements of an array. -/
inductive Elements where
  | nil
  | cons (j : Json) (es : Elements)

/-- The members of an object. -/
inductive Members where
  | nil
  | cons (name : List StrItem) (j : Json) (ms : Members)

end

/-- `ws`: `s` is blanks followed by `r`. -/
def Ws (s r : CStr) : Prop := ∃ w, (∀ c ∈ w, isJsonWs c = true) ∧ s = w ++ r

/-- What is derived: a value, the elements of an array, or the members of an object. -/
inductive Phrase where
  | value (j : Json)
  | elements (es : Elements)
  | members (ms : Members)

/-- The grammar: `s` is a phrase followed by `r`. -/
inductive Derives : Phrase → (s r : CStr) → Prop
  | null {r : CStr} : Derives (.value .null) (lit "null" ++ r) r
  | true {r : CStr} : Derives (.value (.bool true)) (lit "true" ++ r) r
  | false {r : CStr} : Derives (.value (.bool false)) (lit "false" ++ r) r
  | num {t r : CStr} (h : NumberText t) : Derives (.value (.num t)) (t ++ r) r
  | str {items : List StrItem} {s r : CStr} (h : StrText items s r) :
      Derives (.value (.str items)) s r
  | emptyArr {s r : CStr} (hw : Ws s (rbracket :: r)) :
      Derives (.value (.arr .nil)) (lbracket :: s) r
  | arr {es : Elements} {s r : CStr} (h : Derives (.elements es) s (rbracket :: r)) :
      Derives (.value (.arr es)) (lbracket :: s) r
  | emptyObj {s r : CStr} (hw : Ws s (rbrace :: r)) :
      Derives (.value (.obj .nil)) (lbrace :: s) r
  | obj {ms : Members} {s r : CStr} (h : Derives (.members ms) s (rbrace :: r)) :
      Derives (.value (.obj ms)) (lbrace :: s) r
  | element {j : Json} {s s₁ s₂ r : CStr} (hw : Ws s s₁) (h : Derives (.value j) s₁ s₂)
      (hw' : Ws s₂ r) : Derives (.elements (.cons j .nil)) s r
  | elements {j : Json} {es : Elements} {s s₁ s₂ s₃ r : CStr} (hw : Ws s s₁)
      (h : Derives (.value j) s₁ s₂) (hw' : Ws s₂ (comma :: s₃))
      (h' : Derives (.elements es) s₃ r) : Derives (.elements (.cons j es)) s r
  | member {name : List StrItem} {j : Json} {s s₁ s₂ s₃ s₄ s₅ r : CStr} (hw : Ws s s₁)
      (hn : StrText name s₁ s₂) (hc : Ws s₂ (colon :: s₃)) (hw' : Ws s₃ s₄)
      (h : Derives (.value j) s₄ s₅) (hw'' : Ws s₅ r) :
      Derives (.members (.cons name j .nil)) s r
  | members {name : List StrItem} {j : Json} {ms : Members} {s s₁ s₂ s₃ s₄ s₅ s₆ r : CStr}
      (hw : Ws s s₁) (hn : StrText name s₁ s₂) (hc : Ws s₂ (colon :: s₃)) (hw' : Ws s₃ s₄)
      (h : Derives (.value j) s₄ s₅) (hw'' : Ws s₅ (comma :: s₆))
      (h' : Derives (.members ms) s₆ r) : Derives (.members (.cons name j ms)) s r

/-- `JSON-text`: the whole text is one value. -/
def JsonText (j : Json) (t : CStr) : Prop :=
  ∃ s r, Ws t s ∧ Derives (.value j) s r ∧ Ws r []

/-! ## Flattening -/

/-- A value that is not an array or an object. -/
inductive Scalar where
  | null
  | bool (b : Bool)
  | num (t : CStr)
  | str (items : List StrItem)

/-- A value met in a text: where it is, how deep, and what it is if it is a scalar. -/
structure Visit where
  path : CStr
  depth : ℕ
  scalar : Option Scalar

/-- A name as `json2dict` sees it. -/
def nameOf (name : List StrItem) : CStr := (decodeItems name).getD []

mutual

/-- The values of a tree in the order of the text, the tree itself first. -/
def Json.visits (path : CStr) (depth : ℕ) : Json → List Visit
  | .null => [⟨path, depth, some .null⟩]
  | .bool b => [⟨path, depth, some (.bool b)⟩]
  | .num t => [⟨path, depth, some (.num t)⟩]
  | .str items => [⟨path, depth, some (.str items)⟩]
  | .arr es => ⟨path, depth, none⟩ :: es.visits path (depth + 1) 0
  | .obj ms => ⟨path, depth, none⟩ :: ms.visits path (depth + 1)

def Elements.visits (path : CStr) (depth : ℕ) : (idx : ℕ) → Elements → List Visit
  | _, .nil => []
  | idx, .cons j es =>
    j.visits (pathAppend path (indexText idx)) depth ++ es.visits path depth (idx + 1)

def Members.visits (path : CStr) (depth : ℕ) : Members → List Visit
  | .nil => []
  | .cons name j ms => j.visits (pathAppend path (nameOf name)) depth ++ ms.visits path depth

end

/-- The names of an object. -/
def Members.names : Members → List (List StrItem)
  | .nil => []
  | .cons name _ ms => name :: ms.names

mutual

/-- In every object of the tree the names decode, and no two of them are equal. -/
def Json.NamesOk : Json → Prop
  | .arr es => es.NamesOk
  | .obj ms => (∀ name ∈ ms.names, decodeItems name ≠ none) ∧ (ms.names.map nameOf).Nodup ∧
      ms.NamesOk
  | _ => True

def Elements.NamesOk : Elements → Prop
  | .nil => True
  | .cons j es => j.NamesOk ∧ es.NamesOk

def Members.NamesOk : Members → Prop
  | .nil => True
  | .cons _ j ms => j.NamesOk ∧ ms.NamesOk

end

/-- The integer an integer number stands for. -/
def intOf (t : CStr) : ℤ :=
  if t.head? = some minus then -digitsVal t.tail else digitsVal t

/-- The native type an integer is stored with: the first of `int`, `long` and `unsigned long` that
holds it. -/
def intValue (n : ℤ) : Option DictValue :=
  if -2 ^ 31 ≤ n ∧ n ≤ 2 ^ 31 - 1 then some (.int (Int32.ofInt n))
  else if -2 ^ 63 ≤ n ∧ n ≤ 2 ^ 63 - 1 then some (.long (Int64.ofInt n))
  else if 0 ≤ n ∧ n ≤ 2 ^ 64 - 1 then some (.ulong (UInt64.ofNat n.toNat))
  else none

section Flatten

variable (strtod : CStr → UInt64 × CStr × Bool)

/-- The value of a scalar, if the dictionary can hold it: strings without `\u0000` and unpaired
surrogates, integers in range, and other numbers that `strtod` reads to the end as a finite value
without `ERANGE`. -/
def Scalar.value : Scalar → Option DictValue
  | .null => some .null
  | .bool b => some (.bool b)
  | .num t => if jsonNumberIsInteger t then intValue (intOf t) else doubleValue strtod t
  | .str items => (decodeItems items).map fun s ↦ .str (some s)

/-- The path and the value of a visit that is a leaf. -/
def Visit.leaf (v : Visit) : Option (CStr × DictValue) :=
  v.scalar.bind fun c ↦ (c.value strtod).map fun x ↦ (v.path, x)

/-- The scalar leaves of a text, each with its flattened path. -/
def Json.leaves (j : Json) : List (CStr × DictValue) :=
  (j.visits [] 0).filterMap (Visit.leaf strtod)

/-- What `json2dict` asks of a text beyond the grammar. -/
structure Acceptable (j : Json) : Prop where
  /-- No value is nested too deep. -/
  depth : ∀ v ∈ j.visits [] 0, v.depth ≤ jsonMaxDepth
  /-- Every scalar has a value. -/
  value : ∀ v ∈ j.visits [] 0, ∀ c, v.scalar = some c → c.value strtod ≠ none
  /-- No object repeats a name. -/
  names : j.NamesOk
  /-- No value's path is the path of a scalar before it. -/
  paths : (j.visits [] 0).Pairwise fun u v ↦ u.scalar ≠ none → v.path ≠ u.path

end Flatten

end Rustyaxe
