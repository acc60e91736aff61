import Mathlib.Data.List.Sort
import Rustyaxe.Config.Write
import Rustyaxe.Dict.Merge

/-!
# Saving a configuration

`cfg_save` and `cfg_save_overrides` of `config.c`.  The file that is there is renamed to a backup,
and a new one is written: the entries of the merged dictionary in the sections their keys ask for,
the sections of the servers, and whatever the save callbacks add.

A file is the list of the pieces that were written to it.  None of the writes is checked, so a
piece may be replaced by whatever of it has reached the file.

`cfg_save_values` goes on with a section as long as `cfg_save_entry_same_section` says so.  It asks
whether an entry has the same section as itself, so that only the length of the name is compared.
-/

set_option autoImplicit false

namespace Rustyaxe

/-! ## Files -/

/-- What is written in one go. -/
inductive SavePiece where
  /-- The header of a section, for the keys that start so. -/
  | header (keyPrefix sectionName : CStr)
  /-- The lines of `cfg_write_wrapped(fp, localKey, value)`, below the header for `keyPrefix` and
  for the entry of `key`. -/
  | setting (keyPrefix key localKey : CStr) (value : Option CStr)
  | blank
  /-- Bytes that say nothing of the kind. -/
  | output (bytes : List UInt8)
  deriving DecidableEq, Repr

/-- The bytes of a piece. -/
def SavePiece.text : SavePiece → List UInt8
  | .header _ sectionName => lbracket :: sectionName ++ [rbracket, newline]
  | .setting _ _ localKey value => cfgWriteWrapped localKey value
  | .blank => [newline]
  | .output bytes => bytes

/-- The bytes of a file. -/
def fileBytes (file : List SavePiece) : List UInt8 := file.flatMap SavePiece.text

theorem fileBytes_cons (p : SavePiece) (rest : List SavePiece) :
    fileBytes (p :: rest) = p.text ++ fileBytes rest := rfl

/-- The files that are there. -/
abbrev FileSystem := CStr → Option (List SavePiece)

/-- `cfg_save_cb_entry_t` -/
structure SaveCallback where
  ownsKey : Option (CStr → Bool)
  /-- What the callback writes to the file; its verdict is only logged. -/
  callback : (path : CStr) → List UInt8

/-- What saving depends on apart from its arguments. -/
structure SaveEnv where
  defaultCfg : Option Dict
  cfgSaveCallbacks : List SaveCallback
  /-- The date of today, as `%04d%02d%02d` prints it. -/
  date : CStr
  /-- The outcome of `stat` for a file that is there. -/
  stat : CStr → Bool
  rename : (path backup : CStr) → Bool
  /-- The outcome of `fopen(path, "w")`. -/
  fopen : CStr → Bool
  /-- The allocations of `dict_merge_new`. -/
  mergeCalloc : Bool
  mergeMemA : ℕ → StoreAlloc
  mergeMemB : ℕ → StoreAlloc
  /-- The outcomes of the calls of `realloc`, by their number. -/
  realloc : ℕ → Bool
  /-- The allocations of `cfg_print_servers`. -/
  seenCalloc : Bool
  seenMem : ℕ → StoreAlloc
  /-- What has reached the file of the piece with this number, if not all of it has. -/
  lost : ℕ → Option (List UInt8)

/-! ## The backup -/

section Backup

variable (env : SaveEnv)

/-- `file_exists` -/
def fileExists (fs : FileSystem) (path : CStr) : Bool := (fs path).isSome && env.stat path

/-- `snprintf(…, "%s.%04d%02d%02d.%02u.cfg.old", …)` -/
def backupName (path : CStr) (sequence : ℕ) : CStr :=
  path ++ dot :: env.date ++ dot ::
    ((if sequence < 10 then decimal 0 else []) ++ decimal sequence ++ lit ".cfg.old")

/-- A successful `rename(path, backup)`. -/
def FileSystem.move (fs : FileSystem) (path backup : CStr) : FileSystem :=
  Function.update (Function.update fs backup (fs path)) path none

/-- The loop over the names of backups, or `none` if the file could not be backed up. -/
def backupLoop (fs : FileSystem) (path : CStr) : (sequences : List ℕ) → Option FileSystem
  | [] => none
  | sequence :: rest =>
    let backup := backupName env path sequence
    if 4096 ≤ backup.length then none
    else if fileExists env fs backup then backupLoop fs path rest
    else if env.rename path backup then some (fs.move path backup)
    else none

/-- The backup of the file that is there. -/
def backUp (fs : FileSystem) (path : CStr) : Option FileSystem :=
  if fileExists env fs path then backupLoop env fs path (List.range' 1 99) else some fs

end Backup

/-! ## The entries -/

/-- `cfg_save_entry_t` -/
structure SaveEntry where
  key : CStr
  value : Option CStr
  deriving DecidableEq, Repr

/-- `cfg_save_entry_is_skipped` -/
def cfgSaveEntryIsSkipped (env : SaveEnv) (key : CStr) : Bool :=
  startsWith (lit "server:") key || startsWith (lit "network.") key ||
    env.cfgSaveCallbacks.any (fun cb ↦ cb.ownsKey.any fun ownsKey ↦ ownsKey key) ||
    key == lit "ui.gtk.css"

/-- The loop of `cfg_save_values` over the merged dictionary, or `none` if the array of the entries
could not be grown. -/
def collectEntries (env : SaveEnv) : List Keypair → (count capacity grown : ℕ) →
    Option (List SaveEntry)
  | [], _, _, _ => some []
  | kp :: rest, count, capacity, grown =>
    if cfgSaveEntryIsSkipped env kp.key then collectEntries env rest count capacity grown
    else if count = capacity then
      if env.realloc grown then
        (collectEntries env rest (count + 1) (if capacity = 0 then 64 else capacity * 2)
          (grown + 1)).map (⟨kp.key, enumerateValue kp.value⟩ :: ·)
      else none
    else
      (collectEntries env rest (count + 1) capacity grown).map
        (⟨kp.key, enumerateValue kp.value⟩ :: ·)

/-- `cfg_save_entry_compare` -/
def cfgSaveEntryCompare (a b : SaveEntry) : Ordering :=
  match strchr colon a.key, strchr colon b.key with
  | none, some _ => .lt
  | some _, none => .gt
  | none, none => strcmp a.key b.key
  | some aLen, some bLen =>
    let common := min aLen bLen
    let sectionCmp := strcmp (a.key.take common) (b.key.take common)
    if sectionCmp ≠ .eq then sectionCmp
    else if aLen ≠ bLen then if aLen < bLen then .lt else .gt
    else strcmp (a.key.drop (aLen + 1)) (b.key.drop (bLen + 1))

/-- `qsort(entries, …, cfg_save_entry_compare)` -/
def sortEntries (entries : List SaveEntry) : List SaveEntry :=
  entries.insertionSort fun a b ↦ (cfgSaveEntryCompare a b).isLE

/-- `cfg_save_entry_same_section` -/
def cfgSaveEntrySameSection (entry : SaveEntry) (sectionName : CStr) (sectionLen : ℕ) : Bool :=
  match strchr colon entry.key with
  | none => false
  | some n => n == sectionLen && entry.key.take sectionLen == sectionName.take sectionLen

/-- The loop over the keys without a section. -/
def printGeneral (entries : List SaveEntry) : List SavePiece :=
  (entries.takeWhile fun e ↦ (strchr colon e.key).isNone).map
    fun e ↦ .setting [] e.key e.key e.value

/-- The loop over the keys with a section. -/
def printSections : (fuel : ℕ) → List SaveEntry → List SavePiece
  | 0, _ => []
  | _ + 1, [] => []
  | fuel + 1, e :: rest =>
    match strchr colon e.key with
    | none => printSections fuel rest
    | some sectionLen =>
      if startsWith (lit "theme:") e.key then
        match strchr dot (e.key.drop 6) with
        | none => printSections fuel rest
        | some nameLen =>
          let length := 6 + nameLen + 1
          let inGroup := fun entry : SaveEntry ↦ startsWith (e.key.take length) entry.key
          .blank :: .header (e.key.take length) (lit "theme:" ++ (e.key.drop 6).take nameLen) ::
            ((e :: rest).takeWhile inGroup).map
              (fun entry ↦ .setting (e.key.take length) entry.key (entry.key.drop length)
                entry.value) ++
            printSections fuel ((e :: rest).dropWhile inGroup)
      else
        let sectionName :=
          if sectionLen = 8 ∧ startsWith (lit "pipeline") e.key then lit "pipelines"
          else e.key.take sectionLen
        -- every entry is compared with its own section
        let inGroup := fun entry : SaveEntry ↦ cfgSaveEntrySameSection entry entry.key sectionLen
        .blank :: .header (e.key.take (sectionLen + 1)) sectionName ::
          ((e :: rest).takeWhile inGroup).map
            (fun entry ↦ .setting (e.key.take (sectionLen + 1)) entry.key
              (entry.key.drop (sectionLen + 1)) entry.value) ++
          printSections fuel ((e :: rest).dropWhile inGroup)

/-- The sections of the sorted entries. -/
def printEntries (entries : List SaveEntry) : List SavePiece :=
  .header [] (lit "general") :: printGeneral entries ++
    printSections entries.length (entries.dropWhile fun e ↦ (strchr colon e.key).isNone)

/-! ## The servers -/

/-- The offset of the `'.'` at which the name of a server is taken to end. -/
def serverDot (name : CStr) : Option ℕ :=
  match strstr (lit ".server.") name with
  | some n => some n
  | none =>
    match [lit ".autojoin.rig", lit ".autojoin"].find? fun suffix ↦
        suffix.length < name.length && suffix.isSuffixOf name with
    | some suffix => some (name.length - suffix.length)
    | none => strchr dot name

/-- The section of a server. -/
def printServer (d : Dict) (name : CStr) : List SavePiece :=
  let keyPrefix := lit "server:" ++ name ++ [dot]
  .header keyPrefix (lit "server:" ++ name) ::
    ((dictEnumerateAll d).filter fun kp ↦ startsWith keyPrefix kp.key).map
      (fun kp ↦ .setting keyPrefix kp.key (kp.key.drop (7 + name.length + 1))
        (enumerateValue kp.value)) ++
    [.blank]

section Servers

variable (dictHash : CStr → UInt32) (env : SaveEnv)

/-- The loop of `cfg_print_servers`.  `seen` is `NULL` if it could not be allocated. -/
def printServersLoop (d : Dict) : List Keypair → (n : ℕ) → (seen : Option Dict) →
    Option (List SavePiece)
  | [], _, _ => some []
  | kp :: rest, n, seen =>
    if !startsWith (lit "server:") kp.key then printServersLoop d rest n seen
    else
      match serverDot (kp.key.drop 7) with
      | none => printServersLoop d rest n seen
      | some nameLen =>
        if 512 ≤ nameLen then printServersLoop d rest n seen
        else
          let name := (kp.key.drop 7).take nameLen
          match seen with
          | none => (printServersLoop d rest n none).map (printServer d name ++ ·)
          | some seen => do
            if (← dictGet dictHash seen name none).isSome then printServersLoop d rest n (some seen)
            else
              let (_, seen) ← dictAdd dictHash (env.seenMem n) seen name (some (lit "1"))
              (printServersLoop d rest (n + 1) (some seen)).map (printServer d name ++ ·)

/-- `cfg_print_servers` -/
def cfgPrintServers (d : Dict) : Option (List SavePiece) :=
  printServersLoop dictHash env d (dictEnumerateAll d) 0 (dictNewCall env.seenCalloc)

/-! ## Saving -/

/-- `dict_merge_new(complete ? default_cfg : d, d)` -/
def mergedCfg (d : Dict) (complete : Bool) : Option (Option Dict) :=
  match if complete then env.defaultCfg else some d with
  | none => some none
  | some defaults =>
    dictMergeNew dictHash env.mergeCalloc env.mergeMemA env.mergeMemB defaults d

/-- The entries that are to be written, or `none` if there is no memory for them. -/
def saveEntries (merged : Option Dict) : Option (List SaveEntry) :=
  collectEntries env ((merged.map dictEnumerateAll).getD []) 0 0 0

/-- `cfg_run_save_callbacks` -/
def cfgRunSaveCallbacks (path : CStr) : List SavePiece :=
  env.cfgSaveCallbacks.map fun cb ↦ .output (cb.callback path)

/-- What is written once the entries are there. -/
def savePieces (path : CStr) (complete : Bool) (entries : List SaveEntry)
    (servers : List SavePiece) : List SavePiece :=
  printEntries (sortEntries entries) ++ servers ++
    if complete then cfgRunSaveCallbacks env path else []

/-- What reaches the file. -/
def landed (pieces : List SavePiece) : List SavePiece :=
  pieces.zipIdx.map fun p ↦
    match env.lost p.2 with
    | none => p.1
    | some bytes => .output bytes

/-- `cfg_save_values`: what it returns, and the files that are there then. -/
def cfgSaveValues (fs : FileSystem) (d : Dict) (path : CStr) (complete : Bool) :
    Option (Bool × FileSystem) :=
  match backUp env fs path with
  | none => some (false, fs)
  | some fs =>
    if env.fopen path then do
      let merged ← mergedCfg dictHash env d complete
      match saveEntries env merged with
      | none => return (false, Function.update fs path (some []))
      | some entries =>
        let servers ← cfgPrintServers dictHash env d
        return (true, Function.update fs path
          (some (landed env (savePieces env path complete entries servers))))
    else some (false, fs)

/-- `cfg_save` -/
def cfgSave (fs : FileSystem) (d : Dict) (path : CStr) : Option (Bool × FileSystem) :=
  cfgSaveValues dictHash env fs d path true

/-- `cfg_save_overrides` -/
def cfgSaveOverrides (fs : FileSystem) (d : Dict) (path : CStr) : Option (Bool × FileSystem) :=
  cfgSaveValues dictHash env fs d path false

end Servers

end Rustyaxe
