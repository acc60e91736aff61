import Rustyaxe.Termkey.CsiArgs
import Rustyaxe.Termkey.Peek

/-!
# Control sequences

The handlers and the `peekkey` of `tui.driver-csi.c`, with their window of bytes.

There is no result where the program reads what it has not written, or reads or writes outside of
an array: with a seventeenth parameter, with parameters that the sequence does not have, in
`csi_ss3s`, which a sequence with a private or an intermediate byte is looked up in as well, and
behind the buffer, where the copy of a control string finds no `NUL` in it.
-/

set_option autoImplicit false

namespace Rustyaxe.Termkey

/-! ## The tables -/

/-- An entry that nothing has been registered for. -/
def noKey : KeyInfo := ⟨.unicode, TermKeySym.unknown, 0, 0⟩

/-- The calls of `register_csi_ss3` and `register_csi_ss3_full`, the last of which gives both
masks. -/
def csiSs3Table : List (UInt8 × KeyInfo) := [
  (0x41, ⟨.keysym, TermKeySym.up, 0, 0⟩),
  (0x42, ⟨.keysym, TermKeySym.down, 0, 0⟩),
  (0x43, ⟨.keysym, TermKeySym.right, 0, 0⟩),
  (0x44, ⟨.keysym, TermKeySym.left, 0, 0⟩),
  (0x45, ⟨.keysym, TermKeySym.begin, 0, 0⟩),
  (0x46, ⟨.keysym, TermKeySym.end, 0, 0⟩),
  (0x48, ⟨.keysym, TermKeySym.home, 0, 0⟩),
  (0x50, ⟨.function, 1, 0, 0⟩),
  (0x51, ⟨.function, 2, 0, 0⟩),
  (0x52, ⟨.function, 3, 0, 0⟩),
  (0x53, ⟨.function, 4, 0, 0⟩),
  (0x5a, ⟨.keysym, TermKeySym.tab, keymodShift, keymodShift⟩)]

/-- `csi_ss3s[cmd - 0x40]` -/
def csiSs3s (cmd : UInt8) : KeyInfo := (csiSs3Table.find? (·.1 = cmd)).elim noKey (·.2)

/-- The calls of `register_ss3kpalt`. -/
def ss3Table : List (UInt8 × BitVec 32 × UInt8) := [
  (0x4d, TermKeySym.kpenter, 0),
  (0x58, TermKeySym.kpequals, 0x3d),
  (0x6a, TermKeySym.kpmult, 0x2a),
  (0x6b, TermKeySym.kpplus, 0x2b),
  (0x6c, TermKeySym.kpcomma, 0x2c),
  (0x6d, TermKeySym.kpminus, 0x2d),
  (0x6e, TermKeySym.kpperiod, 0x2e),
  (0x6f, TermKeySym.kpdiv, 0x2f),
  (0x70, TermKeySym.kp 0, 0x30),
  (0x71, TermKeySym.kp 1, 0x31),
  (0x72, TermKeySym.kp 2, 0x32),
  (0x73, TermKeySym.kp 3, 0x33),
  (0x74, TermKeySym.kp 4, 0x34),
  (0x75, TermKeySym.kp 5, 0x35),
  (0x76, TermKeySym.kp 6, 0x36),
  (0x77, TermKeySym.kp 7, 0x37),
  (0x78, TermKeySym.kp 8, 0x38),
  (0x79, TermKeySym.kp 9, 0x39)]

/-- `ss3s[cmd - 0x40]` and `ss3_kpalts[cmd - 0x40]` -/
def ss3s (cmd : UInt8) : KeyInfo × UInt8 :=
  (ss3Table.find? (·.1 = cmd)).elim (noKey, 0) fun (_, sym, kpalt) ↦ (⟨.keysym, sym, 0, 0⟩, kpalt)

/-- `csifuncs[number]`, of which there are 35. -/
def csifuncs : List KeyInfo := [
  noKey,
  ⟨.keysym, TermKeySym.find, 0, 0⟩,
  ⟨.keysym, TermKeySym.insert, 0, 0⟩,
  ⟨.keysym, TermKeySym.delete, 0, 0⟩,
  ⟨.keysym, TermKeySym.select, 0, 0⟩,
  ⟨.keysym, TermKeySym.pageup, 0, 0⟩,
  ⟨.keysym, TermKeySym.pagedown, 0, 0⟩,
  ⟨.keysym, TermKeySym.home, 0, 0⟩,
  ⟨.keysym, TermKeySym.end, 0, 0⟩,
  noKey,
  noKey,
  ⟨.function, 1, 0, 0⟩,
  ⟨.function, 2, 0, 0⟩,
  ⟨.function, 3, 0, 0⟩,
  ⟨.function, 4, 0, 0⟩,
  ⟨.function, 5, 0, 0⟩,
  noKey,
  ⟨.function, 6, 0, 0⟩,
  ⟨.function, 7, 0, 0⟩,
  ⟨.function, 8, 0, 0⟩,
  ⟨.function, 9, 0, 0⟩,
  ⟨.function, 10, 0, 0⟩,
  noKey,
  ⟨.function, 11, 0, 0⟩,
  ⟨.function, 12, 0, 0⟩,
  ⟨.function, 13, 0, 0⟩,
  ⟨.function, 14, 0, 0⟩,
  noKey,
  ⟨.function, 15, 0, 0⟩,
  ⟨.function, 16, 0, 0⟩,
  noKey,
  ⟨.function, 17, 0, 0⟩,
  ⟨.function, 18, 0, 0⟩,
  ⟨.function, 19, 0, 0⟩,
  ⟨.function, 20, 0, 0⟩]

/-- The key of an entry. -/
def KeyInfo.write (info : KeyInfo) (modifiers : BitVec 32) (key : TermKeyKey) : TermKeyKey :=
  { key.setSym info.sym with type := info.type, modifiers }

/-! ## Handlers -/

/-- `CsiHandler`: whether there is a key, and the key. -/
abbrev CsiHandler := TermKeyFlags → TermKeyKey → (cmd : BitVec 32) → (arg : List (BitVec 64)) →
  Option (Bool × TermKeyKey)

/-- `args > 1 && arg[1] != -1 ? arg[1] - 1 : 0`, as an `int`. -/
def csiModifiers (arg : List (BitVec 64)) : BitVec 32 :=
  match (arg[1]? : Option (BitVec 64)) with
  | some mod => if mod = -1 then 0 else (mod - 1).setWidth 32
  | none => 0

/-- `handle_csi_ss3_full` -/
def handleCsiSs3Full : CsiHandler := fun _ key cmd arg ↦
  if cmd.toNat < 0x80 then
    let info := csiSs3s (UInt8.ofNat cmd.toNat)
    let key := info.write (csiModifiers arg &&& ~~~info.modifierMask ||| info.modifierSet) key
    some (key.sym ≠ TermKeySym.unknown, key)
  else none

/-- `handle_csifunc` -/
def handleCsifunc : CsiHandler := fun flags key _ arg ↦ do
  let mod := csiModifiers arg
  let key := { key with type := .keysym, modifiers := mod }
  let arg0 ← arg[0]?
  let key ←
    if arg0 = 27 then
      let key ← emitCodepoint flags (← arg[2]?) key
      pure { key with modifiers := key.modifiers ||| mod }
    else if (0 : BitVec 64).sle arg0 then
      match csifuncs[arg0.toNat]? with
      | some info => pure (info.write (mod &&& ~~~info.modifierMask ||| info.modifierSet) key)
      | none => pure (key.setSym TermKeySym.unknown)
    else pure (key.setSym TermKeySym.unknown)
  return (key.sym ≠ TermKeySym.unknown, key)

/-- `handle_csi_u` -/
def handleCsiU : CsiHandler := fun flags key cmd arg ↦
  if cmd = csiCommand 0x75 0 0 then do
    let mod := csiModifiers arg
    let key ← emitCodepoint flags (← arg[0]?) { key with type := .keysym, modifiers := mod }
    return (true, { key with modifiers := key.modifiers ||| mod })
  else some (false, key)

/-- The key of `handle_csi_m`. -/
def mouseKey (key : TermKeyKey) (arg0 arg1 arg2 : BitVec 64) : TermKeyKey :=
  let code := charOfLong arg0
  ({ key.setMouse (code &&& 0xe3) (key.mouse 1) (key.mouse 2) (key.mouse 3) with
    type := .mouse
    modifiers := ((code &&& 0x1c) >>> 2).toBitVec.setWidth 32 } : TermKeyKey).setLinecol
      (arg1.setWidth 32) (arg2.setWidth 32)

/-- `handle_csi_m` -/
def handleCsiM : CsiHandler := fun _ key cmd arg ↦
  match arg with
  | arg0 :: arg1 :: arg2 :: _ =>
    if cmd = csiCommand 0x4d 0 0 ∨ cmd = csiCommand 0x6d 0 0 ∨ cmd = csiCommand 0x4d 0x3c 0 then
      some (true, mouseKey key arg0 arg1 arg2)
    else if cmd = csiCommand 0x6d 0x3c 0 then
      let key := mouseKey key arg0 arg1 arg2
      some (true, key.setMouse (key.mouse 0) (key.mouse 1) (key.mouse 2) (key.mouse 3 ||| 0x80))
    else some (false, key)
  | _ => some (false, key)

/-- `handle_csi_R` -/
def handleCsiR : CsiHandler := fun flags key cmd arg ↦
  if cmd = csiCommand 0x52 0x3f 0 then
    match arg with
    | arg0 :: arg1 :: _ =>
      some (true, ({ key with type := .position } : TermKeyKey).setLinecol (arg1.setWidth 32)
        (arg0.setWidth 32))
    | _ => some (false, key)
  else handleCsiSs3Full flags key cmd arg

/-- `handle_csi_y` -/
def handleCsiY : CsiHandler := fun _ key cmd arg ↦
  if cmd = csiCommand 0x79 0 0x24 ∨ cmd = csiCommand 0x79 0x3f 0x24 then
    match arg with
    | arg0 :: arg1 :: _ =>
      some (true,
      { key.setMouse (UInt8.ofBitVec (cmd.extractLsb' 8 8)) (charOfLong (arg0.sshiftRight 8))
        (charOfLong arg0) (charOfLong arg1) with type := .modereport })
    | _ => some (false, key)
  else some (false, key)

/-- `csi_handlers[cmd - 0x40]` -/
def csiHandlers (cmd : UInt8) : Option CsiHandler :=
  if cmd = 0x52 then some handleCsiR
  else if (csiSs3s cmd).sym ≠ TermKeySym.unknown then some handleCsiSs3Full
  else if cmd = 0x7e then some handleCsifunc
  else if cmd = 0x75 then some handleCsiU
  else if cmd = 0x4d ∨ cmd = 0x6d then some handleCsiM
  else if cmd = 0x79 then some handleCsiY
  else none

/-! ## The driver -/

/-- The key that a sequence without an end becomes when one must be given. -/
def forcedKey (flags : TermKeyFlags) (c : BitVec 64) (nbytes : ℕ) (p : Peeked) :
    Option (TermKeyResult × Peeked) := do
  let key ← emitCodepoint flags c p.key
  return (.key, { p with key := { key with modifiers := key.modifiers ||| keymodAlt }, nbytes })

/-- The handler of a sequence is asked. -/
def csiHandle : CsiHandler := fun flags key cmd arg ↦
  match csiHandlers (UInt8.ofBitVec (cmd.setWidth 8)) with
  | some handler => handler flags key cmd arg
  | none => some (false, key)

/-- A sequence that no handler knows is reported, and the bytes behind its introducer are not
eaten yet. -/
def unknownCsi (cmd : BitVec 32) (introlen len : ℕ) (p : Peeked) : Peeked :=
  { p with
    key := { p.key.setSym cmd with type := .unknownCsi, modifiers := 0 }
    hightide := len - introlen
    nbytes := introlen }

/-- `peekkey_csi` -/
def peekkeyCsi (flags : TermKeyFlags) (introlen : ℕ) (force : Bool) (w : List UInt8) (p : Peeked) :
    Option (TermKeyResult × Peeked) := do
  match ← parseCsi 16 introlen w with
  | none => if force then forcedKey flags 0x5b introlen p else return (.again, p)
  | some ⟨len, arg, cmd⟩ =>
    if cmd = csiCommand 0x4d 0 0 ∧ arg.length < 3 then
      return peekkeyMouseAfter len w p
    else
      match ← csiHandle flags p.key cmd arg with
      | (true, key) => return (.key, { p with key, nbytes := len })
      | (false, key) => return (.key, unknownCsi cmd introlen len { p with key })

/-- The key of `peekkey_ss3` for the byte `cmd`. -/
def ss3Key (flags : TermKeyFlags) (cmd : UInt8) (key : TermKeyKey) : TermKeyKey :=
  let info := csiSs3s cmd
  let key := info.write info.modifierSet key
  if info.sym = TermKeySym.unknown then
    let (info, kpalt) := ss3s cmd
    if flags.convertkp ∧ kpalt ≠ 0 then
      { type := .unicode
        code := kpalt.toBitVec.setWidth 64
        modifiers := 0
        utf8 := (key.utf8.set 0 kpalt).set 1 0 }
    else info.write info.modifierSet key
  else key

/-- `peekkey_ss3` -/
def peekkeySs3 (flags : TermKeyFlags) (introlen : ℕ) (force : Bool) (w : List UInt8) (p : Peeked) :
    Option (TermKeyResult × Peeked) :=
  match w[introlen]? with
  | none => if force then forcedKey flags 0x4f w.length p else some (.again, p)
  | some cmd =>
    if cmd < 0x40 ∨ 0x80 ≤ cmd then some (.none, p)
    else
      let key := ss3Key flags cmd p.key
      if key.sym = TermKeySym.unknown then some (.none, { p with key })
      else some (.key, { p with key, nbytes := introlen + 1 })

/-- The loop of `peekkey_ctrlstring`: the length of the string, if its end is in the window. -/
def ctrlstringEnd : List UInt8 → Option ℕ
  | [] => none
  | c :: w =>
    if c = 0x9c ∨ c = 0x1b ∧ w.head? = some 0x5c then some 0 else (ctrlstringEnd w).map (· + 1)

/-- What `peekkey_ctrlstring` writes for a string of this length.  What `strlcpy` is told of the
size leaves the last byte out. -/
def ctrlstringKey (introlen len : ℕ) (w : List UInt8) (p : Peeked) : Peeked :=
  let id := p.savedStringId + 1
  let string := ((w.drop introlen).take len).takeWhile (· ≠ 0)
  { p with
    key := { p.key.setSym id with
      type := if w[introlen - 1]?.getD 0 &&& 0x1f = 0x10 then .dcs else .osc
      modifiers := 0 }
    nbytes := introlen + len + (if w[introlen + len]? = some 0x1b then 2 else 1)
    savedStringId := id
    savedString := some (string.take (len - 1)) }

/-- `peekkey_ctrlstring`.  `strlcpy` measures what it copies from, which has no end of its own: it
goes on to the next `NUL` in the buffer, also behind the window. -/
def peekkeyCtrlstring (introlen : ℕ) (w behind : List UInt8) (p : Peeked) :
    Option (TermKeyResult × Peeked) :=
  match ctrlstringEnd (w.drop introlen) with
  | none => some (.again, p)
  | some len =>
    if 0 ∈ w.drop introlen ++ behind then some (.key, ctrlstringKey introlen len w p) else none

/-- `peekkey`, with what is in the buffer behind the window. -/
def peekkeyCsiDriver (flags : TermKeyFlags) (closed force : Bool) (w behind : List UInt8)
    (p : Peeked) : Option (TermKeyResult × Peeked) :=
  match w with
  | [] => some (if closed then .eof else .none, p)
  | c0 :: rest =>
    if c0 = 0x1b then
      match rest with
      | [] => some (.none, p)
      | c1 :: _ =>
        if c1 = 0x4f then peekkeySs3 flags 2 force w p
        else if c1 = 0x50 ∨ c1 = 0x5d then peekkeyCtrlstring 2 w behind p
        else if c1 = 0x5b then peekkeyCsi flags 2 force w p
        else some (.none, p)
    else if c0 = 0x8f then peekkeySs3 flags 1 force w p
    else if c0 = 0x90 ∨ c0 = 0x9d then peekkeyCtrlstring 1 w behind p
    else if c0 = 0x9b then peekkeyCsi flags 1 force w p
    else some (.none, p)

/-! ## What does not depend on what the key held -/

open TermKeyKey

/-- Outcomes of a handler that the program cannot tell from each other. -/
inductive SameKey : Option (Bool × TermKeyKey) → Option (Bool × TermKeyKey) → Prop where
  | none : SameKey none none
  | found {k k' : TermKeyKey} : Looks k k' → SameKey (some (true, k)) (some (true, k'))
  | lost {k k' : TermKeyKey} : k.utf8.length = 7 → k'.utf8.length = 7 →
    SameKey (some (false, k)) (some (false, k'))

/-- The handler does not depend on what the key held. -/
def CsiHandler.Steady (handler : CsiHandler) : Prop :=
  ∀ (flags : TermKeyFlags) (cmd : BitVec 32) (arg : List (BitVec 64)) {key key' : TermKeyKey},
    key.utf8.length = 7 → key'.utf8.length = 7 →
      SameKey (handler flags key cmd arg) (handler flags key' cmd arg)

/-- An entry of a table, which is of no character if there is a key for it. -/
def KeyInfo.Proper (info : KeyInfo) : Prop := info.sym = TermKeySym.unknown ∨ info.type ≠ .unicode

theorem noKey_proper : noKey.Proper := .inl rfl

theorem csiSs3s_proper (cmd : UInt8) : (csiSs3s cmd).Proper := by
  have hall : ∀ row ∈ csiSs3Table, row.2.type ≠ .unicode := by decide
  rw [csiSs3s]
  cases hfind : csiSs3Table.find? (·.1 = cmd) with
  | none => exact noKey_proper
  | some row => exact .inr (hall row (List.mem_of_find?_eq_some hfind))

theorem ss3s_proper (cmd : UInt8) : (ss3s cmd).1.Proper := by
  rw [ss3s]
  cases ss3Table.find? (·.1 = cmd) with
  | none => exact noKey_proper
  | some row => exact .inr (by simp)

theorem csifuncs_proper {info : KeyInfo} (h : info ∈ csifuncs) : info.Proper := by
  have hall : ∀ info ∈ csifuncs, info.sym = TermKeySym.unknown ∨ info.type ≠ .unicode := by decide
  exact hall info h

theorem KeyInfo.sym_write (info : KeyInfo) (modifiers : BitVec 32) (key : TermKeyKey) :
    (info.write modifiers key).sym = info.sym := sym_setSym key info.sym

theorem KeyInfo.Proper.looks {info : KeyInfo} (hinfo : info.Proper)
    (hsym : info.sym ≠ TermKeySym.unknown) (modifiers : BitVec 32) {key key' : TermKeyKey}
    (h : key.utf8.length = 7) (h' : key'.utf8.length = 7) :
    Looks (info.write modifiers key) (info.write modifiers key') :=
  .of_sym rfl ((info.sym_write modifiers key).trans (info.sym_write modifiers key').symm) rfl
    (hinfo.resolve_left hsym) h h'

theorem KeyInfo.Proper.sameKey {info : KeyInfo} (hinfo : info.Proper) (modifiers : BitVec 32)
    {key key' : TermKeyKey} (h : key.utf8.length = 7) (h' : key'.utf8.length = 7) :
    SameKey
      (some ((info.write modifiers key).sym ≠ TermKeySym.unknown, info.write modifiers key))
      (some ((info.write modifiers key').sym ≠ TermKeySym.unknown, info.write modifiers key')) := by
  rw [info.sym_write, info.sym_write]
  by_cases hsym : info.sym = TermKeySym.unknown
  · rw [decide_eq_false (not_not_intro hsym)]
    exact .lost h h'
  · rw [decide_eq_true hsym]
    exact .found (hinfo.looks hsym modifiers h h')

theorem handleCsiSs3Full_steady : CsiHandler.Steady handleCsiSs3Full := by
  intro flags cmd arg key key' h h'
  unfold handleCsiSs3Full
  split
  · exact (csiSs3s_proper _).sameKey _ h h'
  · exact .none

theorem handleCsifunc_steady : CsiHandler.Steady handleCsifunc := by
  intro flags cmd arg key key' h h'
  unfold handleCsifunc
  cases harg : arg[0]? with
  | none => exact .none
  | some arg0 =>
    simp only [Option.bind_eq_bind, Option.bind_some]
    split
    · cases arg[2]? with
      | none => exact .none
      | some codepoint =>
        simp only [Option.bind_some]
        obtain ⟨hnone, hnone'⟩ | ⟨k, k', hk, hk', hlooks, hsym, -⟩ :=
          @emitCodepoint_looks flags codepoint
          { key with type := .keysym, modifiers := csiModifiers arg }
          { key' with type := .keysym, modifiers := csiModifiers arg } h h'
        · rw [hnone, hnone']
          exact .none
        · rw [hk, hk']
          have hall := hlooks.orModifiers (csiModifiers arg)
          show SameKey (some (k.sym ≠ TermKeySym.unknown, _))
            (some (k'.sym ≠ TermKeySym.unknown, _))
          rw [← hsym]
          by_cases hunknown : k.sym = TermKeySym.unknown
          · rw [decide_eq_false (not_not_intro hunknown)]
            exact .lost hall.left hall.right
          · rw [decide_eq_true hunknown]
            exact .found hall
    · have hunknown : ∀ {k k' : TermKeyKey}, k.utf8.length = 7 → k'.utf8.length = 7 →
          SameKey
            (some ((k.setSym TermKeySym.unknown).sym ≠ TermKeySym.unknown,
            k.setSym TermKeySym.unknown))
            (some ((k'.setSym TermKeySym.unknown).sym ≠ TermKeySym.unknown,
              k'.setSym TermKeySym.unknown)) := by
        intro k k' hk hk'
        rw [sym_setSym, sym_setSym, decide_eq_false (not_not_intro rfl)]
        exact .lost hk hk'
      split
      · split
        · next info hinfo =>
          exact (csifuncs_proper (List.mem_of_getElem? hinfo)).sameKey _ h h'
        · exact hunknown h h'
      · exact hunknown h h'

theorem handleCsiU_steady : CsiHandler.Steady handleCsiU := by
  intro flags cmd arg key key' h h'
  unfold handleCsiU
  split
  · cases arg[0]? with
    | none => exact .none
    | some codepoint =>
      simp only [Option.bind_eq_bind, Option.bind_some]
      obtain ⟨hnone, hnone'⟩ | ⟨k, k', hk, hk', hlooks, -⟩ := @emitCodepoint_looks flags codepoint
        { key with type := .keysym, modifiers := csiModifiers arg }
        { key' with type := .keysym, modifiers := csiModifiers arg } h h'
      · rw [hnone, hnone']
        exact .none
      · rw [hk, hk']
        exact .found (hlooks.orModifiers (csiModifiers arg))
  · exact .lost h h'

/-- What a position leaves of a key is its first byte. -/
theorem sym_setLinecol {key key' : TermKeyKey} (h : key.mouse 0 = key'.mouse 0)
    (line col : BitVec 32) :
    (key.setLinecol line col).sym = (key'.setLinecol line col).sym := by
  unfold setLinecol
  dsimp only
  rw [sym_setMouse, sym_setMouse, h]

theorem sym_mouseKey (key key' : TermKeyKey) (arg0 arg1 arg2 : BitVec 64) :
    (mouseKey key arg0 arg1 arg2).sym = (mouseKey key' arg0 arg1 arg2).sym := by
  rw [mouseKey]
  refine sym_setLinecol ?_ _ _
  exact (mouse_setMouse key _ _ _ _).1.trans (mouse_setMouse key' _ _ _ _).1.symm

theorem utf8_mouseKey (key : TermKeyKey) (arg0 arg1 arg2 : BitVec 64) :
    (mouseKey key arg0 arg1 arg2).utf8 = key.utf8 := rfl

theorem type_mouseKey (key : TermKeyKey) (arg0 arg1 arg2 : BitVec 64) :
    (mouseKey key arg0 arg1 arg2).type = .mouse := rfl

theorem modifiers_mouseKey (key : TermKeyKey) (arg0 arg1 arg2 : BitVec 64) :
    (mouseKey key arg0 arg1 arg2).modifiers
      = ((charOfLong arg0 &&& 0x1c) >>> 2).toBitVec.setWidth 32 := rfl

theorem looks_mouseKey {key key' : TermKeyKey} (h : key.utf8.length = 7) (h' : key'.utf8.length = 7)
    (arg0 arg1 arg2 : BitVec 64) :
    Looks (mouseKey key arg0 arg1 arg2) (mouseKey key' arg0 arg1 arg2) := by
  refine .of_sym ?_ (sym_mouseKey key key' arg0 arg1 arg2) ?_ ?_ ?_ ?_
  · rw [type_mouseKey, type_mouseKey]
  · rw [modifiers_mouseKey, modifiers_mouseKey]
  · rw [type_mouseKey]
    simp
  · rw [utf8_mouseKey, h]
  · rw [utf8_mouseKey, h']

/-- `key->code.mouse[3] |= 0x80` -/
theorem looks_release {k k' : TermKeyKey} (h : Looks k k') (hsym : k.sym = k'.sym)
    (htype : k.type = .mouse) :
    Looks (k.setMouse (k.mouse 0) (k.mouse 1) (k.mouse 2) (k.mouse 3 ||| 0x80))
      (k'.setMouse (k'.mouse 0) (k'.mouse 1) (k'.mouse 2) (k'.mouse 3 ||| 0x80)) := by
  have hview := h.view
  simp only [TermKeyKey.view, KeyView.mk.injEq] at hview
  have hmod := hview.2.2.1
  rw [← hview.1, htype] at hmod
  refine .of_sym hview.1 ?_ (by simpa using hmod) (by rw [type_setMouse, htype]; simp) h.left
    h.right
  rw [sym_setMouse, sym_setMouse, mouse_eq_of_sym hsym (by decide : 0 < 4),
    mouse_eq_of_sym hsym (by decide : 1 < 4), mouse_eq_of_sym hsym (by decide : 2 < 4),
    mouse_eq_of_sym hsym (by decide : 3 < 4)]

theorem handleCsiM_steady : CsiHandler.Steady handleCsiM := by
  intro flags cmd arg key key' h h'
  unfold handleCsiM
  split
  · next arg0 arg1 arg2 rest =>
    have hlooks := looks_mouseKey h h' arg0 arg1 arg2
    split
    · exact .found hlooks
    · split
      · exact .found (looks_release hlooks (sym_mouseKey key key' arg0 arg1 arg2)
          (type_mouseKey key arg0 arg1 arg2))
      · exact .lost h h'
  · exact .lost h h'

theorem view_position {key key' : TermKeyKey} (h : key.type = .position)
    (h' : key'.type = .position)
    (line col : BitVec 32) : (key.setLinecol line col).view = (key'.setLinecol line col).view := by
  have hshift : ∀ (m0 m0' m1 m2 m3 : BitVec 8),
      (m3 ++ m2 ++ m1 ++ m0 : BitVec 32) >>> 8 = (m3 ++ m2 ++ m1 ++ m0' : BitVec 32) >>> 8 := by
    intro m0 m0' m1 m2 m3
    apply BitVec.eq_of_getLsbD_eq
    intro i hi
    have hbit : ∀ m : BitVec 8, (m3 ++ m2 ++ m1 ++ m).getLsbD (8 + i) =
      (m3 ++ m2 ++ m1).getLsbD (8 + i - 8) :=
      fun m ↦ by rw [BitVec.getLsbD_append, if_neg (by omega)]
    rw [BitVec.getLsbD_ushiftRight, BitVec.getLsbD_ushiftRight, hbit, hbit]
  have htype : (key.setLinecol line col).type = .position := h
  have htype' : (key'.setLinecol line col).type = .position := h'
  have hcode : (key.setLinecol line col).sym >>> 8 = (key'.setLinecol line col).sym >>> 8 := by
    unfold setLinecol
    dsimp only
    rw [sym_setMouse, sym_setMouse]
    exact hshift _ _ _ _ _
  simp only [TermKeyKey.view, htype, htype', hcode]
  simp

theorem handleCsiR_steady : CsiHandler.Steady handleCsiR := by
  intro flags cmd arg key key' h h'
  unfold handleCsiR
  split
  · split
    · exact .found ⟨view_position rfl rfl _ _, h, h'⟩
    · exact .lost h h'
  · exact handleCsiSs3Full_steady flags cmd arg h h'

theorem handleCsiY_steady : CsiHandler.Steady handleCsiY := by
  intro flags cmd arg key key' h h'
  unfold handleCsiY
  split
  · split
    · next arg0 arg1 rest =>
      have hview : ∀ m0 m1 m2 m3 : UInt8,
          TermKeyKey.view { key.setMouse m0 m1 m2 m3 with type := .modereport }
            = TermKeyKey.view { key'.setMouse m0 m1 m2 m3 with type := .modereport } := by
        intro m0 m1 m2 m3
        have hsym := (sym_setMouse key m0 m1 m2 m3).trans (sym_setMouse key' m0 m1 m2 m3).symm
        simp only [TermKeyKey.sym] at hsym
        simp [TermKeyKey.view, TermKeyKey.sym, hsym]
      exact .found ⟨hview _ _ _ _, h, h'⟩
    · exact .lost h h'
  · exact .lost h h'

theorem csiHandlers_steady {cmd : UInt8} {handler : CsiHandler}
    (h : csiHandlers cmd = some handler) :
    handler.Steady := by
  rw [csiHandlers] at h
  split at h
  · exact Option.some.inj h ▸ handleCsiR_steady
  split at h
  · exact Option.some.inj h ▸ handleCsiSs3Full_steady
  split at h
  · exact Option.some.inj h ▸ handleCsifunc_steady
  split at h
  · exact Option.some.inj h ▸ handleCsiU_steady
  split at h
  · exact Option.some.inj h ▸ handleCsiM_steady
  split at h
  · exact Option.some.inj h ▸ handleCsiY_steady
  · cases h

theorem csiHandle_steady : CsiHandler.Steady csiHandle := by
  intro flags cmd arg key key' h h'
  unfold csiHandle
  split
  · next handler hhandler => exact csiHandlers_steady hhandler flags cmd arg h h'
  · exact .lost h h'

theorem ss3Key_looks (flags : TermKeyFlags) (cmd : UInt8) {key key' : TermKeyKey}
    (h : key.utf8.length = 7) (h' : key'.utf8.length = 7) :
    (ss3Key flags cmd key).sym = (ss3Key flags cmd key').sym ∧
      (ss3Key flags cmd key).utf8.length = 7 ∧ (ss3Key flags cmd key').utf8.length = 7 ∧
        ((ss3Key flags cmd key).sym ≠ TermKeySym.unknown →
          Looks (ss3Key flags cmd key) (ss3Key flags cmd key')) := by
  have hentry : ∀ info : KeyInfo, info.Proper → ∀ {k k' : TermKeyKey}, k.utf8.length = 7 →
      k'.utf8.length = 7 →
      (info.write info.modifierSet k).sym = (info.write info.modifierSet k').sym ∧
        (info.write info.modifierSet k).utf8.length = 7 ∧
          (info.write info.modifierSet k').utf8.length = 7 ∧
            ((info.write info.modifierSet k).sym ≠ TermKeySym.unknown →
              Looks (info.write info.modifierSet k) (info.write info.modifierSet k')) := by
    refine fun info hinfo k k' hk hk' ↦
      ⟨(info.sym_write _ k).trans (info.sym_write _ k').symm, hk, hk', fun hne ↦ ?_⟩
    rw [info.sym_write] at hne
    exact hinfo.looks hne _ hk hk'
  unfold ss3Key
  dsimp only
  split
  · split
    · next hkp =>
      have htext : ∀ {l : List UInt8} {c : UInt8}, l.length = 7 → c ≠ 0 →
          ((l.set 0 c).set 1 0).takeWhile (· ≠ 0) = [c] := by
        rintro (_ | ⟨a, _ | ⟨b, l⟩⟩) c hl hc
        · cases hl
        · cases hl
        · simp [hc]
      have hlen : ∀ {k : TermKeyKey}, k.utf8.length = 7 →
          ((k.utf8.set 0 (ss3s cmd).2).set 1 0).length = 7 := by
        intro k hk
        rw [List.length_set, List.length_set, hk]
      refine ⟨rfl, hlen h, hlen h', fun _ ↦ ⟨?_, hlen h, hlen h'⟩⟩
      have hl := htext (l := ((csiSs3s cmd).write (csiSs3s cmd).modifierSet key).utf8) h hkp.2
      have hl' := htext (l := ((csiSs3s cmd).write (csiSs3s cmd).modifierSet key').utf8) h' hkp.2
      simp only [TermKeyKey.view, hl, hl', if_true]
    · exact hentry (ss3s cmd).1 (ss3s_proper cmd) h h'
  · exact hentry (csiSs3s cmd) (csiSs3s_proper cmd) h h'

end Rustyaxe.Termkey
