import Rustyaxe.Dict.Refinement
import Rustyaxe.Strtol

/-!
# `json2dict`

The decoder of `json.c`, which flattens a JSON text into a dictionary as it reads it.  A pointer
into the text is the suffix it points at.  The parsing functions return the suffix after what they
have read, or `none` for `NULL`; those that work on the dictionary return it as well, and the outer
`none` again means that the call does not return.  All allocations succeed.

`strtod` is a parameter: it returns the bits of the value, the suffix at which it stopped, and
whether it reported `ERANGE`.  `long` has 64 bits.
-/

set_option autoImplicit false

namespace Rustyaxe

/-- `JSON_MAX_DEPTH` -/
def jsonMaxDepth : ℕ := 64

/-! ## Paths -/

/-- `path_append` -/
def pathAppend (base suffix : CStr) : CStr :=
  if suffix.head? = some lbracket then base ++ suffix
  else if base ≠ [] then base ++ dot :: suffix
  else suffix

/-- `"[%u]"`; the index is an `unsigned`. -/
def indexText (idx : ℕ) : CStr := lbracket :: decimal (idx % 2 ^ 32) ++ [rbracket]

/-! ## Strings -/

/-- The bytes `skip_ws` skips. -/
def isJsonWs (c : UInt8) : Bool := c == 0x20 || c == 0x09 || c == 0x0d || c == 0x0a

/-- `skip_ws` -/
def skipWs (s : CStr) : CStr := s.dropWhile isJsonWs

/-- The value of a hexadecimal digit in `json_hex4`. -/
def hexDigit (c : UInt8) : Option ℕ :=
  if 0x30 ≤ c ∧ c ≤ 0x39 then some (c.toNat - 0x30)
  else if 0x61 ≤ c ∧ c ≤ 0x66 then some (c.toNat - 0x61 + 10)
  else if 0x41 ≤ c ∧ c ≤ 0x46 then some (c.toNat - 0x41 + 10)
  else none

/-- `json_hex4`, on the four bytes it looks at. -/
def jsonHex4 (a b c d : UInt8) : Option ℕ := do
  let a ← hexDigit a
  let b ← hexDigit b
  let c ← hexDigit c
  let d ← hexDigit d
  some ((((((a <<< 4) ||| b) <<< 4) ||| c) <<< 4) ||| d)

/-- The single-letter escapes of `json_unescape`. -/
def simpleEscape (c : UInt8) : Option UInt8 :=
  if c = quote ∨ c = backslash ∨ c = 0x2f then some c
  else if c = 0x62 then some 0x08
  else if c = 0x66 then some 0x0c
  else if c = 0x6e then some 0x0a
  else if c = 0x72 then some 0x0d
  else if c = 0x74 then some 0x09
  else none

/-- The UTF-8 bytes `json_unescape` writes for a code point. -/
def utf8 (code : ℕ) : CStr :=
  if code < 0x80 then [UInt8.ofNat code]
  else if code < 0x800 then
    [UInt8.ofNat (0xC0 ||| (code >>> 6)), UInt8.ofNat (0x80 ||| (code &&& 0x3F))]
  else if code < 0x10000 then
    [UInt8.ofNat (0xE0 ||| (code >>> 12)), UInt8.ofNat (0x80 ||| ((code >>> 6) &&& 0x3F)),
      UInt8.ofNat (0x80 ||| (code &&& 0x3F))]
  else
    [UInt8.ofNat (0xF0 ||| (code >>> 18)), UInt8.ofNat (0x80 ||| ((code >>> 12) &&& 0x3F)),
      UInt8.ofNat (0x80 ||| ((code >>> 6) &&& 0x3F)), UInt8.ofNat (0x80 ||| (code &&& 0x3F))]

/-- The code point of a surrogate pair. -/
def pairCode (code low : ℕ) : ℕ := 0x10000 + ((code - 0xD800) <<< 10) + low - 0xDC00

/-- The loop of `json_unescape`, from `p` to `end`. -/
def unescapeLoop : (p : CStr) → Option CStr
  | [] => some []
  | c :: p =>
    if c < 0x20 ∨ c = quote then none
    else if c ≠ backslash then (unescapeLoop p).map (c :: ·)
    else
      match p with
      | [] => none
      | e :: p =>
        if e ≠ 0x75 then (simpleEscape e).bind fun b ↦ (unescapeLoop p).map (b :: ·)
        else
          match p with
          | h₁ :: h₂ :: h₃ :: h₄ :: p => (jsonHex4 h₁ h₂ h₃ h₄).bind fun code ↦
            if code = 0 then none
            else if 0xD800 ≤ code ∧ code ≤ 0xDBFF then
              match p with
              | b :: u :: l₁ :: l₂ :: l₃ :: l₄ :: p =>
                if b ≠ backslash ∨ u ≠ 0x75 then none
                else (jsonHex4 l₁ l₂ l₃ l₄).bind fun low ↦
                  if low < 0xDC00 ∨ low > 0xDFFF then none
                  else (unescapeLoop p).map (utf8 (pairCode code low) ++ ·)
              | _ => none
            else if 0xDC00 ≤ code ∧ code ≤ 0xDFFF then none
            else (unescapeLoop p).map (utf8 code ++ ·)
          | _ => none

/-- `json_unescape` -/
def jsonUnescape (s : CStr) : Option CStr :=
  if s.length < 2 ∨ s.head? ≠ some quote ∨ s.getLast? ≠ some quote then none
  else unescapeLoop s.tail.dropLast

/-- The loop of `json_parse_str`: what stands before the closing quote, and what follows it. -/
def strEnd : (s : CStr) → Option (CStr × CStr)
  | [] => none
  | c :: s =>
    if c = quote then some ([], s)
    else if c < 0x20 then none
    else if c = backslash then
      match s with
      | [] => none
      | e :: s => (strEnd s).map fun (body, rest) ↦ (c :: e :: body, rest)
    else (strEnd s).map fun (body, rest) ↦ (c :: body, rest)

/-- `json_parse_str`: the decoded string, and what follows the token. -/
def jsonParseStr (s : CStr) : Option (CStr × CStr) :=
  match s with
  | [] => none
  | c :: s =>
    if c ≠ quote then none
    else do
      let (body, rest) ← strEnd s
      let out ← jsonUnescape (quote :: body ++ [quote])
      return (out, rest)

/-! ## Primitives -/

/-- The bytes that end a primitive. -/
def isDelimiter (c : UInt8) : Bool := c == comma || c == rbracket || c == rbrace || isJsonWs c

/-- `json_parse_primitive` -/
def jsonParsePrimitive (s : CStr) : Option (CStr × CStr) :=
  let token := s.takeWhile fun c ↦ !isDelimiter c
  if token = [] then none else some (token, s.dropWhile fun c ↦ !isDelimiter c)

/-- The integer part of a number. -/
def scanInt : CStr → Option CStr
  | [] => none
  | c :: number =>
    if c = 0x30 then some number
    else if 0x31 ≤ c ∧ c ≤ 0x39 then some (number.dropWhile isdigit)
    else none

/-- `while (isdigit(...)) number++`, after a test that there is a digit. -/
def scanDigits (number : CStr) : Option CStr :=
  if number.head?.any isdigit then some (number.dropWhile isdigit) else none

/-- The fraction. -/
def scanFrac (number : CStr) : Option CStr :=
  if number.head? = some dot then scanDigits number.tail else some number

/-- The exponent. -/
def scanExp (number : CStr) : Option CStr :=
  if number.head? = some 0x65 ∨ number.head? = some 0x45 then
    let number := number.tail
    if number.head? = some 0x2b ∨ number.head? = some minus then scanDigits number.tail
    else scanDigits number
  else some number

/-- The scan of `json_parse_value` over a number; `false` is `goto fail`. -/
def scanNumber (val : CStr) : Bool :=
  let number := if val.head? = some minus then val.tail else val
  ((scanInt number).bind scanFrac).bind scanExp == some []

/-- `json_number_is_integer` -/
def jsonNumberIsInteger (s : CStr) : Bool := !s.any fun c ↦ c == dot || c == 0x65 || c == 0x45

/-- `isfinite`, from the bits of a `double`. -/
def isfinite (v : UInt64) : Bool := v &&& 0x7ff0000000000000 != 0x7ff0000000000000

/-- The value `json_parse_value` stores for an integer token. -/
def integerValue (val : CStr) : Option DictValue :=
  let (ll, ep, erange) := strtoll val
  if erange = false ∧ ep ≠ val ∧ ep = [] then
    if -2 ^ 31 ≤ ll ∧ ll ≤ 2 ^ 31 - 1 then some (.int (Int32.ofInt ll))
    else if -2 ^ 63 ≤ ll ∧ ll ≤ 2 ^ 63 - 1 then some (.long (Int64.ofInt ll))
    else some (.llong (Int64.ofInt ll))
  else if val.head? ≠ some minus then
    let (ull, ep, erange) := strtoull val
    if erange = true ∨ ep = val ∨ ep ≠ [] then none
    else if ull ≤ 2 ^ 32 - 1 then some (.uint (UInt32.ofNat ull))
    else if ull ≤ 2 ^ 64 - 1 then some (.ulong (UInt64.ofNat ull))
    else some (.ullong (UInt64.ofNat ull))
  else none

section Decode

variable (strtod : CStr → UInt64 × CStr × Bool)

/-- The value `json_parse_value` stores for any other number token. -/
def doubleValue (val : CStr) : Option DictValue :=
  let (v, ep, erange) := strtod val
  if erange = true ∨ ep = val ∨ ep ≠ [] ∨ isfinite v = false then none else some (.double v)

/-- The value `json_parse_value` stores for a primitive token. -/
def primitiveValue (val : CStr) : Option DictValue :=
  if val = lit "null" then some .null
  else if val = lit "true" then some (.bool true)
  else if val = lit "false" then some (.bool false)
  else if scanNumber val = false then none
  else if jsonNumberIsInteger val then integerValue val
  else doubleValue strtod val

/-! ## Values -/

variable (dictHash : CStr → UInt32)

mutual

/-- `json_parse_value` -/
def jsonParseValue : (fuel : ℕ) → (s path : CStr) → Dict → (depth : ℕ) →
    Option (Option CStr × Dict)
  | 0, _, _, _, _ => none
  | fuel + 1, s, path, d, depth => do
    let s := skipWs s
    if s = [] ∨ depth > jsonMaxDepth then return (none, d)
    let type ← dictGetType dictHash d path
    if type ≠ .valEnd then return (none, d)
    if s.head? = some quote then
      match jsonParseStr s with
      | none => return (none, d)
      | some (val, s) =>
        let (rc, d) ← dictAdd dictHash .ok d path (some val)
        return (if rc then some s else none, d)
    else if s.head? = some lbrace then jsonParseObj fuel s.tail path d depth
    else if s.head? = some lbracket then jsonParseArray fuel s.tail path d depth
    else
      match jsonParsePrimitive s with
      | none => return (none, d)
      | some (val, s) =>
        match primitiveValue strtod val with
        | none => return (none, d)
        | some v =>
          let (rc, d) ← dictStore dictHash .ok d path v
          return (if rc then some s else none, d)

/-- `json_parse_obj`, after the opening brace. -/
def jsonParseObj : (fuel : ℕ) → (s path : CStr) → Dict → (depth : ℕ) →
    Option (Option CStr × Dict)
  | 0, _, _, _, _ => none
  | fuel + 1, s, path, d, depth =>
    let s := skipWs s
    if s.head? = some rbrace then some (some s.tail, d)
    else jsonParseMembers fuel s path d depth dictNew

/-- The loop of `json_parse_obj`; `keys` are the names seen so far. -/
def jsonParseMembers : (fuel : ℕ) → (s path : CStr) → Dict → (depth : ℕ) → (keys : Dict) →
    Option (Option CStr × Dict)
  | 0, _, _, _, _, _ => none
  | fuel + 1, s, path, d, depth, keys => do
    match jsonParseStr s with
    | none => return (none, d)
    | some (key, s) =>
      let type ← dictGetType dictHash keys key
      if type ≠ .valEnd then return (none, d)
      let (rc, keys) ← dictAddBool dictHash .ok keys key true
      if rc = false then return (none, d)
      let s := skipWs s
      if s.head? ≠ some colon then return (none, d)
      let (r, d) ← jsonParseValue fuel s.tail (pathAppend path key) d (depth + 1)
      match r with
      | none => return (none, d)
      | some s =>
        let s := skipWs s
        if s.head? = some rbrace then return (some s.tail, d)
        if s.head? ≠ some comma then return (none, d)
        let s := skipWs s.tail
        if s.head? = some rbrace then return (none, d)
        jsonParseMembers fuel s path d depth keys

/-- `json_parse_array`, after the opening bracket. -/
def jsonParseArray : (fuel : ℕ) → (s path : CStr) → Dict → (depth : ℕ) →
    Option (Option CStr × Dict)
  | 0, _, _, _, _ => none
  | fuel + 1, s, path, d, depth =>
    let s := skipWs s
    if s.head? = some rbracket then some (some s.tail, d)
    else jsonParseElements fuel s path d depth 0

/-- The loop of `json_parse_array`. -/
def jsonParseElements : (fuel : ℕ) → (s path : CStr) → Dict → (depth idx : ℕ) →
    Option (Option CStr × Dict)
  | 0, _, _, _, _, _ => none
  | fuel + 1, s, path, d, depth, idx => do
    if s = [] then return (none, d)
    let (r, d) ← jsonParseValue fuel s (pathAppend path (indexText idx)) d (depth + 1)
    match r with
    | none => return (none, d)
    | some s =>
      let s := skipWs s
      if s.head? = some rbracket then return (some s.tail, d)
      if s.head? ≠ some comma then return (none, d)
      let s := skipWs s.tail
      if s.head? = some rbracket then return (none, d)
      jsonParseElements fuel s path d depth (idx + 1)

end

/-- `json2dict`, on a text that is not `NULL`. -/
def json2dict (json : CStr) : Option (Option Dict) :=
  if json = [] then some none
  else do
    let (res, d) ← jsonParseValue strtod dictHash (3 * json.length + 3) json [] dictNew 0
    match res with
    | none => return none
    | some rest => return if skipWs rest = [] then some d else none

end Decode

end Rustyaxe
