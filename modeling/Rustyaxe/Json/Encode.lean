import Rustyaxe.Dict.Merge
import Rustyaxe.Json.Decode

/-!
# `dict2json`

The encoder of `json.c`.  A `json_node *` is kept the way the source keeps it: a node points at its
first child and at its next sibling, and `.null` is `NULL`.  The payload of a node is the text
`json_insert` has made of the value; it is a parameter of the type, so that the proofs can carry
more than the text.  Nodes are found and changed in place; here the functions return the list of
siblings with the node changed.  All allocations succeed.

The two `printf` conversions of floating-point values are parameters.
-/

set_option autoImplicit false

namespace Rustyaxe

/-! ## Values -/

/-- A digit of `"%04x"`. -/
def hexChar (n : ℕ) : UInt8 := if n < 10 then UInt8.ofNat (0x30 + n) else UInt8.ofNat (0x57 + n)

/-- The `switch` of `json_escape`. -/
def escapeByte (c : UInt8) : CStr :=
  if c = quote then [backslash, quote]
  else if c = backslash then [backslash, backslash]
  else if c = 0x08 then [backslash, 0x62]
  else if c = 0x0c then [backslash, 0x66]
  else if c = 0x0a then [backslash, 0x6e]
  else if c = 0x0d then [backslash, 0x72]
  else if c = 0x09 then [backslash, 0x74]
  else if c < 0x20 then
    [backslash, 0x75, 0x30, 0x30, hexChar (c.toNat / 16), hexChar (c.toNat % 16)]
  else [c]

/-- `json_escape` -/
def jsonEscape : Option CStr → CStr
  | none => [quote, quote]
  | some s => quote :: s.flatMap escapeByte ++ [quote]

/-- What `"%.9g"` and `"%.17g"` print. -/
structure Printf where
  g9 : UInt32 → CStr
  g17 : UInt64 → CStr

/-- The text `json_insert` makes of a value. -/
def jsonVal (printf : Printf) : DictValue → CStr
  | .null => lit "null"
  | .str s => jsonEscape s
  | .char c => jsonEscape (some (if c = 0 then [] else [c]))
  | .bool b => if b then lit "true" else lit "false"
  | .int i => decimalInt i.toInt
  | .uint ui => decimal ui.toNat
  | .long l => decimalInt l.toInt
  | .ulong ul => decimal ul.toNat
  | .llong ll => decimalInt ll.toInt
  | .ullong ull => decimal ull.toNat
  | .float f => printf.g9 f
  | .double d => printf.g17 d
  | .ptr _ => lit "null"

/-! ## The tree -/

/-- `json_node *` -/
inductive JsonNode (α : Type) where
  | null
  | node (key : CStr) (value : Option α) (child next : JsonNode α)
  deriving DecidableEq, Repr

namespace JsonNode

variable {α : Type}

/-- Does one of the siblings have the key? -/
def hasKey (key : CStr) : JsonNode α → Bool
  | .null => false
  | .node k _ _ next => k == key || next.hasKey key

/-- Change the first of the siblings that has the key. -/
def modify (key : CStr) (f : Option α → JsonNode α → Option α × JsonNode α) :
    JsonNode α → JsonNode α
  | .null => .null
  | .node k value child next =>
    if k = key then .node k (f value child).1 (f value child).2 next
    else .node k value child (next.modify key f)

end JsonNode

section Tree

variable {α : Type}

/-- `find_child`: the siblings, with a node for the key. -/
def findChild (child : JsonNode α) (key : CStr) : JsonNode α :=
  if child.hasKey key then child else .node key none .null child

/-- `strtok_r(tmp, ".", &saveptr)` until it returns `NULL`: empty tokens are skipped. -/
def tokens (s : CStr) : List CStr := (s.splitOn dot).filter (· ≠ [])

/-- The loop of `json_insert` and the assignment after it, below a node with these children.  With
no token left the value goes to the node itself, which is the caller's; that of the root is never
printed. -/
def jsonInsert : (toks : List CStr) → (jsonval : α) → (child : JsonNode α) → JsonNode α
  | [], _, child => child
  | tok :: toks, jsonval, child => (findChild child tok).modify tok fun value sub ↦
    if toks = [] then (some jsonval, sub) else (value, jsonInsert toks jsonval sub)

/-- The loop of `dump_json`. -/
def dumpMembers : JsonNode CStr → CStr
  | .null => []
  | .node key value child next => jsonEscape (some key) ++ colon ::
    ((match value, child with
      | some v, .null => v
      | _, _ => lbrace :: dumpMembers child ++ [rbrace])
      ++ (if next = .null then [] else comma :: dumpMembers next))

/-- `dump_json`, on the node with these children. -/
def dumpJson (child : JsonNode CStr) : CStr := lbrace :: dumpMembers child ++ [rbrace]

/-- `dict2json`, on a dictionary that is not `NULL`. -/
def dict2json (printf : Printf) (d : Dict) : CStr :=
  dumpJson ((dictEnumerateAll d).foldl
    (fun root kp ↦ jsonInsert (tokens kp.key) (jsonVal printf kp.value) root) .null)

end Tree

end Rustyaxe
