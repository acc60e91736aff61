import Rustyaxe.CString
import Rustyaxe.Lib.ProbeSearch

/-!
# The string dictionary

`dict.c` is an open-addressing hash table from strings to typed values, in the manner of the
Python dictionary.  A slot is in one of three states, told apart by its key pointer: `NULL` (never
used), `DUMMY_PTR` (used once, deleted since) and live.  `Slot` is `ProbeSearch.Cell` at
`Keypair`, so `.empty`, `.deleted` and `.full kp` are those three states.

Everything here is a translation of the source.  Three conventions hold throughout.

* The hash function is a parameter, `dictHash`; the one the source is built with is
  `dictHashMurmur`.
* `none` means that the call never returns.  Only `dictLookup` can do that, and it does when it is
  sent round a table that offers it neither a `NULL` slot nor the key.
* The outcomes of the allocations a call makes are its argument (`StoreAlloc`, `calloc`), so a
  statement about *every* outcome is a quantifier over it.

`unsigned` counters and sizes are natural numbers.  `lookupIndex_wrap` in `Rustyaxe.Dict.Lookup` and
`Coherent.dictStore32_eq` in `Rustyaxe.Dict.Unsigned` say what that leaves out: nothing, for a table
of at most `2 ^ 30` slots with `fill` below `2 ^ 30`.  Where a run can be longer than that,
`dictStore32` takes the place of `dictStore`.
-/

set_option autoImplicit false

namespace Rustyaxe

/-- `val_type_t`.  `VAL_FLOATP` and `VAL_DOUBLEP` are tags of the vararg importers only; no
function stores them. -/
inductive ValType where
  | valEnd | valNull | valStr | valInt | valUint | valLong | valUlong | valLlong | valUllong
  | valFloat | valBool | valDouble | valChar | valPtr
  deriving DecidableEq, Repr

/-- A `dict_value_t` together with the `val_type_t` that says which member of the union is meant.
Floating-point values are their bit patterns, and a pointer is its address. -/
inductive DictValue where
  | null
  /-- A `char *`, which may be `NULL`. -/
  | str (s : Option CStr)
  | int (i : Int32)
  | uint (ui : UInt32)
  | long (l : Int64)
  | ulong (ul : UInt64)
  | llong (ll : Int64)
  | ullong (ull : UInt64)
  | float (f : UInt32)
  | bool (b : Bool)
  | double (d : UInt64)
  | char (c : UInt8)
  | ptr (p : ℕ)
  deriving DecidableEq, Repr

/-- The tag of a typed value. -/
def DictValue.valType : DictValue → ValType
  | .null => .valNull
  | .str _ => .valStr
  | .int _ => .valInt
  | .uint _ => .valUint
  | .long _ => .valLong
  | .ulong _ => .valUlong
  | .llong _ => .valLlong
  | .ullong _ => .valUllong
  | .float _ => .valFloat
  | .bool _ => .valBool
  | .double _ => .valDouble
  | .char _ => .valChar
  | .ptr _ => .valPtr

/-- The number an integer value stands for. -/
def DictValue.toInt : DictValue → Option ℤ
  | .int i => some i.toInt
  | .uint ui => some ui.toNat
  | .long l => some l.toInt
  | .ulong ul => some ul.toNat
  | .llong ll => some ll.toInt
  | .ullong ull => some ull.toNat
  | _ => none

/-- A live slot: its key, its typed value and the stored hash of the key. -/
structure Keypair where
  key : CStr
  value : DictValue
  hash : UInt32
  deriving DecidableEq, Repr

/-- A slot of the table: `.empty` is a `NULL` key, `.deleted` is `DUMMY_PTR`. -/
abbrev Slot := ProbeSearch.Cell Keypair

/-- The table itself.  `fill` and `used` are the counters the source keeps, right or wrong. -/
structure Dict where
  fill : ℕ
  used : ℕ
  table : List Slot
  deriving DecidableEq, Repr

namespace Dict

/-- `d->size`. -/
def size (d : Dict) : ℕ := d.table.length

/-- `d->table[i]`. -/
def slot (d : Dict) (i : ℕ) : Slot := d.table.getD i .empty

end Dict

/-- `DICT_MIN_SZ` -/
def dictMinSz : ℕ := 8

/-- `PERTURB_SHIFT` -/
def perturbShift : ℕ := 5

/-- `DICT_BIGSZ` -/
def dictBigsz : ℕ := 64000

/-! ## The hash function -/

/-- The four bytes at `data`, as `memcpy` puts them into an `unsigned` on a little-endian
machine. -/
def word32 (a b c d : UInt8) : UInt32 :=
  a.toUInt32 ||| (b.toUInt32 <<< 8) ||| (c.toUInt32 <<< 16) ||| (d.toUInt32 <<< 24)

/-- The multiplier `m` of `dict_hash_murmur`. -/
def murmurM : UInt32 := 0x5bd1e995

/-- The `while` loop and the `switch` of `dict_hash_murmur`: `data` is what is left of the key. -/
def murmurMix : (data : CStr) → (h : UInt32) → UInt32
  | a :: b :: c :: d :: data, h =>
    let k := word32 a b c d * murmurM
    let k := (k ^^^ (k >>> 24)) * murmurM
    murmurMix data ((h * murmurM) ^^^ k)
  | [a, b, c], h =>
    (h ^^^ (c.toUInt32 <<< 16) ^^^ (b.toUInt32 <<< 8) ^^^ a.toUInt32) * murmurM
  | [a, b], h => (h ^^^ (b.toUInt32 <<< 8) ^^^ a.toUInt32) * murmurM
  | [a], h => (h ^^^ a.toUInt32) * murmurM
  | [], h => h

/-- `dict_hash_murmur`, which is what `dict_hash` is defined to be. -/
def dictHashMurmur (key : CStr) : UInt32 :=
  let h := murmurMix key (0x0badcafe ^^^ UInt32.ofNat key.length)
  let h := (h ^^^ (h >>> 13)) * murmurM
  h ^^^ (h >>> 15)

/-! ## Looking a key up -/

/-- The test of `dict_lookup`: does the slot hold this key?  The source also accepts a slot whose
key is the *pointer* it was given; that slot holds the same string. -/
def keyMatches (key : CStr) (hash : UInt32) (ep : Keypair) : Bool :=
  ep.hash == hash && ep.key == key

/-- The `for` loop of `dict_lookup`. -/
def dictLookupLoop (d : Dict) (key : CStr) (hash : UInt32) :
    (fuel i perturb : ℕ) → (freeslot : Option ℕ) → Option ℕ
  | 0, _, _, _ => none
  | fuel + 1, i, perturb, freeslot =>
    let i := ((i <<< 2) + i + perturb + 1) &&& (d.size - 1)
    match d.slot i with
    | .empty => some (freeslot.getD i)
    | .deleted =>
      dictLookupLoop d key hash fuel i (perturb >>> perturbShift) (freeslot.or (some i))
    | .full ep =>
      if keyMatches key hash ep then some i
      else dictLookupLoop d key hash fuel i (perturb >>> perturbShift) freeslot

/-- `dict_lookup`: the slot that holds `key`, or the one an insertion of it should use.  The fuel
of the loop is enough for every slot of the table to be looked at; a walk that has used it up
without stopping never stops (`dictLookup_eq_none_iff`). -/
def dictLookup (d : Dict) (key : CStr) (hash : UInt32) : Option ℕ :=
  let i := hash.toNat &&& (d.size - 1)
  match d.slot i with
  | .empty => some i
  | .deleted => dictLookupLoop d key hash (d.size + 7) i hash.toNat (some i)
  | .full ep =>
    if keyMatches key hash ep then some i
    else dictLookupLoop d key hash (d.size + 7) i hash.toNat none

section Hash

variable (dictHash : CStr → UInt32)

/-- `dict_get_kp` (and `dict_find_entry`): the live slot of `key`, if it has one. -/
def dictGetKp (d : Dict) (key : CStr) : Option (Option Keypair) := do
  let i ← dictLookup d key (dictHash key)
  match d.slot i with
  | .full kp => some (some kp)
  | _ => some none

/-- `dict_get_type` -/
def dictGetType (d : Dict) (key : CStr) : Option ValType := do
  let kp ← dictGetKp dictHash d key
  some (match kp with
    | some kp => kp.value.valType
    | none => .valEnd)

/-- `dict_get`: only strings are returned. -/
def dictGet (d : Dict) (key : CStr) (dflt : Option CStr) : Option (Option CStr) := do
  let kp ← dictGetKp dictHash d key
  some (match kp with
    | some ⟨_, .str s, _⟩ => s
    | _ => dflt)

/-- `dict_get_ptr` -/
def dictGetPtr (d : Dict) (key : CStr) (dflt : Option ℕ) : Option (Option ℕ) := do
  let kp ← dictGetKp dictHash d key
  some (match kp with
    | some ⟨_, .ptr p, _⟩ => some p
    | _ => dflt)

/-! ## Growing the table -/

/-- `dict_add_p`: put a key/value pair into a table that does not hold the key, without copying.
It fails only for a `NULL` or dummy key, which `dictResize` never hands it. -/
def dictAddP (d : Dict) (src : Keypair) : Option Dict := do
  let hash := dictHash src.key
  let i ← dictLookup d src.key hash
  some { fill := d.fill + 1, used := d.used + 1,
         table := d.table.set i (.full { src with hash := hash }) }

/-- `while (newsize <= bound) newsize *= 2` -/
def growSize (bound : ℕ) : (fuel newsize : ℕ) → ℕ
  | 0, newsize => newsize
  | fuel + 1, newsize => if newsize ≤ bound then growSize bound fuel (newsize * 2) else newsize

/-- `factor * d->used` of `dict_resize`. -/
def resizeBound (d : Dict) : ℕ := (if d.size > dictBigsz then 2 else 4) * d.used

/-- The table `dict_resize` starts from: `newsize` slots with a `NULL` key. -/
def emptyTable (newsize : ℕ) : Dict := ⟨0, 0, List.replicate newsize .empty⟩

/-- The rehash loop of `dict_resize`. -/
def dictRehash (nd : Dict) (oldtable : List Slot) : Option Dict :=
  oldtable.foldlM (fun nd slot ↦
    match slot with
    | .full src => dictAddP dictHash nd src
    | _ => some nd) nd

/-- `dict_resize`.  `calloc` is the outcome of the allocation of the new table; the status is
`false` for `-1`.  The rollback after a failed `dict_add_p` is left out, as that call cannot
fail. -/
def dictResize (calloc : Bool) (d : Dict) : Option (Bool × Dict) :=
  let newsize := growSize (resizeBound d) (resizeBound d + 1) d.size
  if newsize = d.size then some (true, d)
  else if calloc = false then some (false, d)
  else do
    let nd ← dictRehash dictHash (emptyTable newsize) d.table
    some (true, nd)

/-! ## Storing and deleting -/

/-- The outcomes of the allocations of one `dict_store`: the copy of the key, the copy of a string
value, and the new table if it has to grow. -/
structure StoreAlloc where
  newkey : Bool
  newstr : Bool
  newtable : Bool
  deriving DecidableEq, Repr

/-- Every allocation succeeds. -/
def StoreAlloc.ok : StoreAlloc := ⟨true, true, true⟩

/-- Does `dict_store` copy a string for this value? -/
def DictValue.hasString : DictValue → Bool
  | .str (some _) => true
  | _ => false

/-- The end of `dict_store`, once there is a slot to write to: release what the slot held and
count the new entry. -/
def dictStoreAt (d : Dict) (i : ℕ) (key : CStr) (val : DictValue) (hash : UInt32) : Dict :=
  let d := match d.slot i with
    | .full _ => { d with used := d.used - 1 }
    | .deleted => { d with fill := d.fill - 1 }
    | .empty => d
  { fill := d.fill + 1, used := d.used + 1, table := d.table.set i (.full ⟨key, val, hash⟩) }

/-- The slot is not in use: its key is `NULL` or the dummy pointer. -/
def Dict.isFree (d : Dict) (i : ℕ) : Bool :=
  match d.slot i with
  | .full _ => false
  | _ => true

/-- `dict_store`.  The status is `false` for `-1`. -/
def dictStore (mem : StoreAlloc) (d : Dict) (key : CStr) (val : DictValue) :
    Option (Bool × Dict) := do
  let hash := dictHash key
  let i ← dictLookup d key hash
  if mem.newkey = false then return (false, d)
  if val.hasString ∧ mem.newstr = false then return (false, d)
  if d.isFree i ∧ 3 * (d.fill + 1) ≥ d.size * 2 then
    let (rc, d) ← dictResize dictHash mem.newtable d
    if rc = false then return (false, d)
    -- the resize may have moved the slot
    let i ← dictLookup d key hash
    return (true, dictStoreAt d i key val hash)
  return (true, dictStoreAt d i key val hash)

/-- `dict_del`.  The status is `false` for `-1`. -/
def dictDel (d : Dict) (key : CStr) : Option (Bool × Dict) := do
  let i ← dictLookup d key (dictHash key)
  match d.slot i with
  | .full _ => some (true, { d with used := d.used - 1, table := d.table.set i .deleted })
  | _ => some (false, d)

/-- `dict_new`, when its two allocations succeed. -/
def dictNew : Dict := emptyTable dictMinSz

/-! ### The typed front ends of `dict_store` -/

def dictAdd (mem : StoreAlloc) (d : Dict) (key : CStr) (val : Option CStr) :=
  dictStore dictHash mem d key (.str val)

def dictAddNull (mem : StoreAlloc) (d : Dict) (key : CStr) :=
  dictStore dictHash mem d key .null

def dictAddChar (mem : StoreAlloc) (d : Dict) (key : CStr) (val : UInt8) :=
  dictStore dictHash mem d key (.char val)

def dictAddBool (mem : StoreAlloc) (d : Dict) (key : CStr) (val : Bool) :=
  dictStore dictHash mem d key (.bool val)

def dictAddInt (mem : StoreAlloc) (d : Dict) (key : CStr) (val : Int32) :=
  dictStore dictHash mem d key (.int val)

def dictAddUint (mem : StoreAlloc) (d : Dict) (key : CStr) (val : UInt32) :=
  dictStore dictHash mem d key (.uint val)

def dictAddLong (mem : StoreAlloc) (d : Dict) (key : CStr) (val : Int64) :=
  dictStore dictHash mem d key (.long val)

def dictAddUlong (mem : StoreAlloc) (d : Dict) (key : CStr) (val : UInt64) :=
  dictStore dictHash mem d key (.ulong val)

def dictAddLlong (mem : StoreAlloc) (d : Dict) (key : CStr) (val : Int64) :=
  dictStore dictHash mem d key (.llong val)

def dictAddUllong (mem : StoreAlloc) (d : Dict) (key : CStr) (val : UInt64) :=
  dictStore dictHash mem d key (.ullong val)

def dictAddFloat (mem : StoreAlloc) (d : Dict) (key : CStr) (val : UInt32) :=
  dictStore dictHash mem d key (.float val)

def dictAddDouble (mem : StoreAlloc) (d : Dict) (key : CStr) (val : UInt64) :=
  dictStore dictHash mem d key (.double val)

def dictAddPtr (mem : StoreAlloc) (d : Dict) (key : CStr) (val : ℕ) :=
  dictStore dictHash mem d key (.ptr val)

end Hash

end Rustyaxe
