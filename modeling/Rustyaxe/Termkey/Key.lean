import Rustyaxe.CString

/-!
# Keys as the terminal reports them

`TermKeyKey`, `TermKeyType` and `TermKeySym` of `termkey.h`, and `struct keyinfo` of
`termkey-internal.h`.

The member `code` of a key is a union.  It is kept as the eight bytes of its largest member, so
that what one member is given can be read through another one, as the program does.
-/

set_option autoImplicit false

namespace Rustyaxe.Termkey

/-- `TermKeyType` -/
inductive TermKeyType where
  | unicode
  | function
  | keysym
  | mouse
  | position
  | modereport
  | dcs
  | osc
  | unknownCsi
  deriving DecidableEq

/-- `TermKeyKey` -/
structure TermKeyKey where
  type : TermKeyType
  code : BitVec 64
  modifiers : BitVec 32
  utf8 : List UInt8
  deriving DecidableEq

/-- `struct keyinfo` -/
structure KeyInfo where
  type : TermKeyType
  sym : BitVec 32
  modifierMask : BitVec 32
  modifierSet : BitVec 32
  deriving DecidableEq

/-- `TERMKEY_KEYMOD_SHIFT` -/
def keymodShift : BitVec 32 := 1

/-- `TERMKEY_KEYMOD_ALT` -/
def keymodAlt : BitVec 32 := 2

/-- `TERMKEY_KEYMOD_CTRL` -/
def keymodCtrl : BitVec 32 := 4

/-! `TermKeySym` -/

namespace TermKeySym

def unknown : BitVec 32 := -1
def none : BitVec 32 := 0
def backspace : BitVec 32 := 1
def tab : BitVec 32 := 2
def enter : BitVec 32 := 3
def escape : BitVec 32 := 4
def space : BitVec 32 := 5
def del : BitVec 32 := 6
def up : BitVec 32 := 7
def down : BitVec 32 := 8
def left : BitVec 32 := 9
def right : BitVec 32 := 10
def begin : BitVec 32 := 11
def find : BitVec 32 := 12
def insert : BitVec 32 := 13
def delete : BitVec 32 := 14
def select : BitVec 32 := 15
def pageup : BitVec 32 := 16
def pagedown : BitVec 32 := 17
def home : BitVec 32 := 18
def «end» : BitVec 32 := 19
def cancel : BitVec 32 := 20
def clear : BitVec 32 := 21
def close : BitVec 32 := 22
def command : BitVec 32 := 23
def copy : BitVec 32 := 24
def exit : BitVec 32 := 25
def help : BitVec 32 := 26
def mark : BitVec 32 := 27
def message : BitVec 32 := 28
def move : BitVec 32 := 29
def «open» : BitVec 32 := 30
def options : BitVec 32 := 31
def print : BitVec 32 := 32
def redo : BitVec 32 := 33
def reference : BitVec 32 := 34
def refresh : BitVec 32 := 35
def replace : BitVec 32 := 36
def restart : BitVec 32 := 37
def resume : BitVec 32 := 38
def save : BitVec 32 := 39
def suspend : BitVec 32 := 40
def undo : BitVec 32 := 41
/-- `TERMKEY_SYM_KP0` to `TERMKEY_SYM_KP9` -/
def kp (digit : ℕ) : BitVec 32 := BitVec.ofNat 32 (42 + digit)
def kpenter : BitVec 32 := 52
def kpplus : BitVec 32 := 53
def kpminus : BitVec 32 := 54
def kpmult : BitVec 32 := 55
def kpdiv : BitVec 32 := 56
def kpcomma : BitVec 32 := 57
def kpperiod : BitVec 32 := 58
def kpequals : BitVec 32 := 59

end TermKeySym

namespace TermKeyKey

/-! ## The members of `code` -/

variable (key : TermKeyKey)

/-- `key->code.sym`; the same bytes are `key->code.number`. -/
def sym : BitVec 32 := key.code.setWidth 32

def setSym (sym : BitVec 32) : TermKeyKey := { key with code := key.code.extractLsb' 32 32 ++ sym }

/-- `key->code.mouse[i]` -/
def mouse (i : ℕ) : UInt8 := UInt8.ofBitVec (key.code.extractLsb' (8 * i) 8)

/-- `key->code.mouse[0]` to `key->code.mouse[3]`, all of them given. -/
def setMouse (m0 m1 m2 m3 : UInt8) : TermKeyKey :=
  { key with code := key.code.extractLsb' 32 32
      ++ (m3.toBitVec ++ m2.toBitVec ++ m1.toBitVec ++ m0.toBitVec : BitVec 32) }

@[simp] theorem sym_setSym (sym : BitVec 32) : (key.setSym sym).sym = sym :=
  BitVec.setWidth_append_eq_right

@[simp] theorem type_setSym (sym : BitVec 32) : (key.setSym sym).type = key.type := rfl

@[simp] theorem modifiers_setSym (sym : BitVec 32) : (key.setSym sym).modifiers = key.modifiers :=
    rfl

end TermKeyKey

end Rustyaxe.Termkey
