import Rustyaxe.Config.PiecesRead
import Rustyaxe.Dict.AddOnly

/-!
# Saving, all or nothing

What `cfg_save_values` owes its caller is `AllOrNothing`: on failure the file is what it was, and
on success every entry that is to be saved can be read in it.  `allOrNothing_of_saveSafe` is when it
keeps this.

The file is gone once it has been renamed and cannot be opened again, it is empty if there is no
memory for the array of the entries, and no later failure is noticed.  What is lost without any
failure are the values that are no strings, the themes without a name, the sections that another one
swallows, and the entries that cannot be read in the lines they make.
-/

set_option autoImplicit false

namespace Rustyaxe

/-! ## The contract -/

/-- The value is `NULL` or a string, which is all the file can hold. -/
def DictValue.isText : DictValue → Bool
  | .null => true
  | .str _ => true
  | _ => false

/-- The text stands for the value.  However a number, a truth value or an address is spelled, it is
not spelled as nothing. -/
def Shows : DictValue → CStr → Prop
  | .null, text => text = []
  | .str s, text => text = s.getD []
  | _, text => text ≠ []

/-- The file has the entry: one of its settings has the key, and a text that stands for the value. -/
def HasEntry (file : List UInt8) (key : CStr) (v : DictValue) : Prop :=
  ∃ s ∈ fileSettings file, s.key = key ∧ Shows v s.text

/-- The entries of the defaults and of `d` that are not skipped. -/
def toSave (env : SaveEnv) (d : Dict) (complete : Bool) (key : CStr) : Option DictValue :=
  if cfgSaveEntryIsSkipped env key then none
  else (d.toMap key).or ((if complete then env.defaultCfg else none).bind (·.toMap key))

/-- What it takes for an entry to be saved among these keys. -/
structure EntryKept (keys : CStr → Prop) (key : CStr) (v : DictValue) : Prop where
  isText : v.isText
  wellPlaced : WellPlaced keys key
  /-- The header of its section is one line, and that of its section. -/
  header : HeaderReads (savedSection key)
  keysOfSection : keysOfSection (savedSection key) = sectionPrefix key
  /-- Its own line is one line, and a setting with its key and its value. -/
  setting : SettingReads (key.drop (sectionPrefix key).length) ((enumerateValue v).getD [])

section Safe

variable (dictHash : CStr → UInt32) (env : SaveEnv) (fs : FileSystem) (d : Dict) (path : CStr)
  (complete : Bool)

/-- No write fails, and all lines that are written read as what they are, so that no entry is in the
file by chance: in the value of another one, or in what is left of a line. -/
structure Undisturbed : Prop where
  written : ∀ n, env.lost n = none
  reads : ∀ merged entries servers, mergedCfg dictHash env d complete = some merged →
    saveEntries env merged = some entries → cfgPrintServers dictHash env d = some servers →
      ∀ p ∈ savePieces env path complete entries servers, p.Reads

end Safe

/-! ## The entries -/

theorem shows_enumerateValue_iff (v : DictValue) :
    Shows v ((enumerateValue v).getD []) ↔ v.isText = true := by
  cases v <;> simp [Shows, enumerateValue, DictValue.isText]

/-- Growing the array changes nothing about the entries. -/
theorem collectEntries_eq {env : SaveEnv} : ∀ {L : List Keypair} {count capacity grown : ℕ}
    {entries : List SaveEntry}, collectEntries env L count capacity grown = some entries →
    entries = (L.filter fun kp ↦ !cfgSaveEntryIsSkipped env kp.key).map fun kp ↦
      ⟨kp.key, enumerateValue kp.value⟩
  | [], _, _, _, entries, h => by simpa [collectEntries] using h.symm
  | kp :: L, count, capacity, grown, entries, h => by
    rw [collectEntries] at h
    by_cases hskip : cfgSaveEntryIsSkipped env kp.key
    · rw [if_pos hskip] at h
      rw [List.filter_cons_of_neg (by simp [hskip])]
      exact collectEntries_eq h
    · rw [if_neg hskip] at h
      rw [List.filter_cons_of_pos (by simp [hskip]), List.map_cons]
      split_ifs at h
      all_goals
        obtain ⟨rest, hrest, rfl⟩ := Option.map_eq_some_iff.mp h
        rw [collectEntries_eq hrest]

/-- The entries are those that are to be saved. -/
theorem saveEntries_spec {env : SaveEnv} {m : Dict} {dictHash : CStr → UInt32}
    (hm : Coherent dictHash m) {entries : List SaveEntry}
    (h : saveEntries env (some m) = some entries) :
    (entries.map SaveEntry.key).Nodup ∧ ∀ key text, ⟨key, text⟩ ∈ entries ↔
      cfgSaveEntryIsSkipped env key = false ∧
        ∃ v, m.toMap key = some v ∧ enumerateValue v = text := by
  rw [saveEntries, Option.map_some, Option.getD_some, dictEnumerateAll_eq] at h
  obtain rfl := collectEntries_eq h
  constructor
  · rw [List.map_map]
    exact (List.filter_sublist.map Keypair.key).nodup hm.nodup_entries
  · intro key text
    simp only [List.mem_map, List.mem_filter, SaveEntry.mk.injEq, Bool.not_eq_true']
    constructor
    · rintro ⟨kp, ⟨hkp, hskip⟩, rfl, rfl⟩
      exact ⟨hskip, kp.value, hm.toMap_of_mem hkp, rfl⟩
    · rintro ⟨hskip, v, hv, rfl⟩
      obtain ⟨kp, hkp, rfl, rfl⟩ := Dict.exists_mem_of_toMap hv
      exact ⟨kp, ⟨hkp, hskip⟩, rfl, rfl⟩

/-! ## The servers -/

section Servers

variable {dictHash : CStr → UInt32} {env : SaveEnv}

/-- The key asks for a section of this server. -/
def GuessedName (key name : CStr) : Prop :=
  startsWith (lit "server:") key = true ∧
    ∃ n, serverDot (key.drop 7) = some n ∧ n < 512 ∧ name = (key.drop 7).take n

/-- A key asks for one section at most. -/
theorem GuessedName.unique {key name name' : CStr} (h : GuessedName key name)
    (h' : GuessedName key name') : name' = name := by
  obtain ⟨-, n, hn, -, rfl⟩ := h
  obtain ⟨-, m, hm, -, rfl⟩ := h'
  rw [Option.some.inj (hm.symm.trans hn)]

/-- The names are those the keys ask for, but for the ones that have been seen. -/
structure GuessedNames (L : List Keypair) (seen : Option Dict) (names : List CStr) : Prop where
  sound : ∀ name ∈ names, ∃ kp ∈ L, GuessedName kp.key name
  complete : ∀ kp ∈ L, ∀ name, GuessedName kp.key name →
    name ∈ names ∨ ∃ s ∈ seen, (s.toMap name).isSome

/-- A key that asks for no section, or for one that has been written. -/
theorem GuessedNames.skip {L : List Keypair} {seen : Option Dict} {names : List CStr}
    (h : GuessedNames L seen names) {kp : Keypair}
    (hkp : ∀ name, GuessedName kp.key name → ∃ s ∈ seen, (s.toMap name).isSome) :
    GuessedNames (kp :: L) seen names := by
  refine ⟨fun name hname ↦ ?_, fun kp' hkp' name hguess ↦ ?_⟩
  · obtain ⟨kp', hkp', hguess⟩ := h.sound name hname
    exact ⟨kp', List.mem_cons_of_mem _ hkp', hguess⟩
  · rcases List.mem_cons.mp hkp' with rfl | hkp'
    · exact .inr (hkp name hguess)
    · exact h.complete kp' hkp' name hguess

/-- A key whose section is written: what has been seen then is its name and what was seen before. -/
theorem GuessedNames.write {L : List Keypair} {seen seen' : Option Dict} {names : List CStr}
    (h : GuessedNames L seen' names) {kp : Keypair} {name : CStr} (hkp : GuessedName kp.key name)
    (hnew : ∀ s' ∈ seen', ∀ name', (s'.toMap name').isSome →
      name' = name ∨ ∃ s ∈ seen, (s.toMap name').isSome) :
    GuessedNames (kp :: L) seen (name :: names) := by
  refine ⟨fun name' hname ↦ ?_, fun kp' hkp' name' hguess ↦ ?_⟩
  · rcases List.mem_cons.mp hname with rfl | hname
    · exact ⟨kp, List.mem_cons_self, hkp⟩
    · obtain ⟨kp', hkp', hguess⟩ := h.sound name' hname
      exact ⟨kp', List.mem_cons_of_mem _ hkp', hguess⟩
  · rcases List.mem_cons.mp hkp' with rfl | hkp'
    · exact .inl (hkp.unique hguess ▸ List.mem_cons_self)
    · rcases h.complete kp' hkp' name' hguess with hname | ⟨s', hs', hsome⟩
      · exact .inl (List.mem_cons_of_mem _ hname)
      · rcases hnew s' hs' name' hsome with rfl | hold
        · exact .inl List.mem_cons_self
        · exact .inr hold

/-- The loop writes the sections of the servers that the keys ask for, but for those it has seen. -/
theorem printServersLoop_names (dictHash : CStr → UInt32) (env : SaveEnv) (d : Dict) :
    ∀ (L : List Keypair) (n : ℕ) (seen : Option Dict), (∀ s ∈ seen, Built dictHash s) →
    ∃ names : List CStr,
      printServersLoop dictHash env d L n seen = some (names.flatMap (printServer d)) ∧
      GuessedNames L seen names := by
  intro L
  induction L with
  | nil => exact fun _ _ _ ↦ ⟨[], rfl, fun _ h ↦ by simp at h, fun _ h ↦ by simp at h⟩
  | cons kp L ih =>
    intro n seen hseen
    obtain ⟨names, hloop, hnames⟩ := ih n seen hseen
    rw [printServersLoop]
    by_cases hstart : startsWith (lit "server:") kp.key
    case neg =>
      rw [if_pos (by simpa using hstart)]
      exact ⟨names, hloop, hnames.skip fun name hguess ↦ absurd hguess.1 hstart⟩
    rw [if_neg (by simpa using hstart)]
    cases hdot : serverDot (kp.key.drop 7) with
    | none =>
      refine ⟨names, hloop, hnames.skip ?_⟩
      rintro name ⟨-, m, hm, -⟩
      simp [hdot] at hm
    | some nameLen =>
      dsimp only
      by_cases hlong : 512 ≤ nameLen
      · rw [if_pos hlong]
        refine ⟨names, hloop, hnames.skip ?_⟩
        rintro name ⟨-, m, hm, hlt, -⟩
        obtain rfl : nameLen = m := by simpa [hdot] using hm
        omega
      rw [if_neg hlong]
      have hguess : GuessedName kp.key ((kp.key.drop 7).take nameLen) :=
        ⟨hstart, nameLen, hdot, by omega, rfl⟩
      cases seen with
      | none =>
        refine ⟨_, ?_, hnames.write hguess fun _ h ↦ by simp at h⟩
        rw [hloop]
        rfl
      | some seen =>
        have hs := hseen seen rfl
        obtain ⟨v, hget, hv⟩ : ∃ v,
            dictGet dictHash seen ((kp.key.drop 7).take nameLen) none = some v ∧
            (v.isSome → (seen.entryOf ((kp.key.drop 7).take nameLen)).isSome) := by
          rw [dictGet, hs.toCoherent.dictGetKp_of_isSome (.inl hs.null)]
          refine ⟨_, rfl, ?_⟩
          cases seen.entryOf ((kp.key.drop 7).take nameLen) <;> simp
        obtain ⟨rc, seen', hadd, hbuilt, hmap, -⟩ := hs.dictStore_spec (env.seenMem n)
          ((kp.key.drop 7).take nameLen) (.str (some (lit "1")))
        dsimp only
        rw [hget, dictAdd, hadd]
        simp only [Option.bind_eq_bind, Option.bind_some]
        split_ifs with hfound
        · refine ⟨names, hloop, hnames.skip fun name hname ↦ ⟨seen, rfl, ?_⟩⟩
          obtain rfl := hguess.unique hname
          rw [Dict.toMap, Option.isSome_map]
          exact hv hfound
        · obtain ⟨names, hloop, hnames⟩ :=
            ih (n + 1) (some seen') fun s h ↦ Option.some.inj h ▸ hbuilt
          refine ⟨_, by rw [hloop]; rfl, hnames.write hguess ?_⟩
          intro s' hs' name hsome
          obtain rfl := Option.some.inj hs'
          by_cases hname : name = (kp.key.drop 7).take nameLen
          · exact .inl hname
          · refine .inr ⟨seen, rfl, ?_⟩
            rw [hmap] at hsome
            cases rc with
            | false => exact hsome
            | true => rwa [if_pos rfl, Function.update_of_ne hname] at hsome

/-- **`cfg_print_servers`** writes a section for every server that a key asks for, and no others. -/
theorem cfgPrintServers_spec (dictHash : CStr → UInt32) (env : SaveEnv) (d : Dict) :
    ∃ names : List CStr, cfgPrintServers dictHash env d = some (names.flatMap (printServer d)) ∧
      (∀ name ∈ names, ∃ kp ∈ dictEnumerateAll d, GuessedName kp.key name) ∧
      ∀ kp ∈ dictEnumerateAll d, ∀ name, GuessedName kp.key name → name ∈ names := by
  obtain ⟨names, hloop, hsound, hall⟩ := printServersLoop_names dictHash env d (dictEnumerateAll d) 0
    (dictNewCall env.seenCalloc) fun s hs ↦ by
      rw [dictNewCall] at hs
      split at hs
      · exact Option.some.inj hs ▸ built_dictNew
      · simp at hs
  refine ⟨names, hloop, hsound, fun kp hkp name hguess ↦ ?_⟩
  rcases hall kp hkp name hguess with hname | ⟨s, hs, hsome⟩
  · exact hname
  · rw [dictNewCall] at hs
    split at hs
    · obtain rfl := Option.some.inj hs
      cases hsome
    · simp at hs

end Servers

/-! ## The lines of the entries -/

theorem sectionPrefix_append_drop (key : CStr) :
    sectionPrefix key ++ key.drop (sectionPrefix key).length = key := by
  refine List.prefix_iff_eq_append.mp ?_
  rw [sectionPrefix]
  split
  · exact List.nil_prefix
  · split
    · split <;> exact List.take_prefix _ _
    · exact List.take_prefix _ _

theorem headerReads_general : HeaderReads (lit "general") := ⟨by decide, by decide, by decide⟩

/-- An entry has a line of its own, which reads as what it is, below a header that does. -/
structure EntryReads (all : List SaveEntry) (x : SaveEntry) : Prop where
  wellPlaced : WellPlaced (keysOf all) x.key
  header : HeaderReads (savedSection x.key)
  keysOfSection : keysOfSection (savedSection x.key) = sectionPrefix x.key
  setting : SettingReads (x.key.drop (sectionPrefix x.key).length) (x.value.getD [])

section Pieces

variable {all entries : List SaveEntry} {pieces : List SavePiece}

/-- All that is written for such entries reads as what it is. -/
theorem Files.reads (h : Files all entries pieces) (hentries : ∀ x ∈ entries, EntryReads all x) :
    ∀ p ∈ pieces, p.Reads := by
  intro p hp
  cases p with
  | header keyPrefix name =>
    obtain ⟨rfl, rfl⟩ | ⟨x, hx, rfl, rfl⟩ := h.headers _ _ hp
    · exact ⟨headerReads_general, by decide⟩
    · exact ⟨(hentries x hx).header, (hentries x hx).keysOfSection⟩
  | setting keyPrefix key localKey value =>
    obtain ⟨x, hx, rfl, rfl, rfl, -, hpre⟩ := h.sound _ _ _ _ hp
    obtain rfl := hpre (hentries x hx).wellPlaced
    exact (hentries x hx).setting
  | blank => trivial
  | output bytes => exact absurd hp (h.texts bytes)

/-- What is written for an entry that is well placed and whose lines read as what they are. -/
theorem Files.entryReads (h : Files all entries pieces) (hreads : ∀ p ∈ pieces, p.Reads)
    {x : SaveEntry} (hx : x ∈ entries) (hwell : WellPlaced (keysOf all) x.key) :
    EntryReads all x := by
  obtain ⟨hline, hheader⟩ := h.complete x hx hwell
  obtain ⟨hname, hkeys⟩ := hreads _ hheader
  exact ⟨hwell, hname, hkeys, hreads _ hline⟩

end Pieces

section File

variable {env : SaveEnv} {path : CStr} {complete : Bool} {d : Dict} {entries : List SaveEntry}
  {names : List CStr}

/-- The lines of the servers are for keys that are skipped. -/
theorem states_printServer {name : CStr} {p : SavePiece} (hp : p ∈ printServer d name)
    {key text : CStr} (hstates : p.states = some (key, text)) :
    startsWith (lit "server:") key = true := by
  simp only [printServer, List.cons_append, List.mem_cons, List.mem_append, List.mem_map] at hp
  rcases hp with rfl | ⟨kp, -, rfl⟩ | rfl | hp
  · cases hstates
  · obtain ⟨rfl, -⟩ := Prod.mk.inj (Option.some.inj hstates)
    exact startsWith_iff.mpr ⟨_, by rw [List.append_assoc, List.append_assoc]⟩
  · cases hstates
  · cases hp

theorem under_servers (names : List CStr) (keyPrefix : CStr) :
    UnderOwn keyPrefix (names.flatMap (printServer d)) := by
  induction names generalizing keyPrefix with
  | nil => trivial
  | cons name names ih =>
    rw [List.flatMap_cons]
    refine UnderOwn.append ih ?_
    rw [printServer, List.cons_append]
    generalize (dictEnumerateAll d).filter (fun kp ↦
      startsWith (lit "server:" ++ name ++ [dot]) kp.key) = L
    show UnderOwn _ (L.map _ ++ [.blank])
    induction L with
    | nil => trivial
    | cons kp L ih => exact ⟨rfl, ih⟩

theorem under_callbacks (keyPrefix : CStr) :
    UnderOwn keyPrefix (if complete then cfgRunSaveCallbacks env path else []) := by
  split
  · rw [cfgRunSaveCallbacks]
    induction env.cfgSaveCallbacks with
    | nil => trivial
    | cons cb L ih => exact ih
  · trivial

/-- **What can be read** in a file that is undisturbed, of what is not skipped, are the lines of the
entries. -/
theorem line_of_hasEntry (hlost : ∀ n, env.lost n = none)
    (hreads : ∀ p ∈ savePieces env path complete entries (names.flatMap (printServer d)), p.Reads)
    {key : CStr} {v : DictValue} (hskip : cfgSaveEntryIsSkipped env key = false)
    (h : HasEntry (fileBytes (landed env
      (savePieces env path complete entries (names.flatMap (printServer d))))) key v) :
    ∃ keyPrefix key' localKey value,
      .setting keyPrefix key' localKey value ∈ printEntries (sortEntries entries) ∧
        keyPrefix ++ localKey = key ∧ Shows v (value.getD []) := by
  have hunder : UnderOwn []
      (savePieces env path complete entries (names.flatMap (printServer d))) := by
    rw [savePieces]
    exact UnderOwn.append under_callbacks (UnderOwn.append (under_servers names)
      ((files_printEntries (sortedEntries entries)).under []))
  obtain ⟨s, hs, hkey, hshows⟩ := h
  rw [landed_eq_self hlost] at hs
  generalize hpieces : savePieces env path complete entries (names.flatMap (printServer d))
    = pieces at hs hreads hunder
  obtain ⟨ps, rfl⟩ : ∃ ps, pieces = .header [] (lit "general") :: ps := ⟨_, hpieces.symm⟩
  obtain ⟨last, -, hsettings⟩ := @fileSettings_pieces ps hunder
    (fun p hp ↦ hreads p (List.mem_cons_of_mem _ hp)) []
  have hnil : settingsAfter last [] = [] := by rw [settingsAfter]; rfl
  rw [List.append_nil, hnil, List.map_nil, List.append_nil] at hsettings
  have hmem := List.mem_map_of_mem (f := FileSetting.entry) hs
  rw [hsettings, List.mem_filterMap] at hmem
  obtain ⟨p, hp, hstates⟩ := hmem
  have hp' : p ∈ savePieces env path complete entries (names.flatMap (printServer d)) :=
    hpieces ▸ List.mem_cons_of_mem _ hp
  rw [savePieces, List.mem_append, List.mem_append] at hp'
  rcases hp' with (hp' | hp') | hp'
  · cases p with
    | setting keyPrefix key' localKey value =>
      obtain ⟨h1, h2⟩ := Prod.mk.inj (Option.some.inj hstates)
      exact ⟨keyPrefix, key', localKey, value, hp', h1.trans hkey, h2 ▸ hshows⟩
    | header => cases hstates
    | blank => cases hstates
    | output => cases hstates
  · obtain ⟨name, -, hp'⟩ := List.mem_flatMap.mp hp'
    have hstart := states_printServer hp' hstates
    rw [hkey] at hstart
    simp [cfgSaveEntryIsSkipped, hstart] at hskip
  · split at hp'
    · obtain ⟨cb, -, rfl⟩ := List.mem_map.mp hp'
      cases hstates
    · simp at hp'

end File

/-! ## The backup -/

section Main

variable {dictHash : CStr → UInt32} {env : SaveEnv} {fs : FileSystem} {path : CStr}

variable {d : Dict} {complete : Bool}

theorem toSave_isSkipped {key : CStr} {v : DictValue} (h : toSave env d complete key = some v) :
    cfgSaveEntryIsSkipped env key = false := by
  cases hskip : cfgSaveEntryIsSkipped env key with
  | false => rfl
  | true => simp [toSave, hskip] at h

/-- The array holds the entries that are to be saved. -/
def Collects (env : SaveEnv) (d : Dict) (complete : Bool) (entries : List SaveEntry) : Prop :=
  ∀ x : SaveEntry, x ∈ entries ↔
    ∃ v, toSave env d complete x.key = some v ∧ enumerateValue v = x.value

theorem collects_of_merged {m : Dict} {entries : List SaveEntry} (hbuilt : Built dictHash m)
    (hmap : ∀ key, cfgSaveEntryIsSkipped env key = false → m.toMap key = toSave env d complete key)
    (hentries : saveEntries env (some m) = some entries) : Collects env d complete entries := by
  intro x
  rw [(saveEntries_spec hbuilt.toCoherent hentries).2]
  constructor
  · rintro ⟨hskip, v, hv, htext⟩
    exact ⟨v, by rw [← hmap _ hskip, hv], htext⟩
  · rintro ⟨v, hv, htext⟩
    have hskip := toSave_isSkipped hv
    exact ⟨hskip, v, by rw [hmap _ hskip, hv], htext⟩

section Collected

variable {entries : List SaveEntry} (hcollects : Collects env d complete entries)
include hcollects

theorem Collects.mem_sorted (x : SaveEntry) : x ∈ sortEntries entries ↔
    ∃ v, toSave env d complete x.key = some v ∧ enumerateValue v = x.value :=
  (List.mem_insertionSort _).trans (hcollects x)

theorem Collects.keysOf_sorted : keysOf (sortEntries entries)
    = fun key ↦ (toSave env d complete key).isSome = true := by
  funext key
  refine propext ?_
  rw [keysOf, List.mem_map]
  constructor
  · rintro ⟨x, hx, rfl⟩
    obtain ⟨v, hv, -⟩ := (hcollects.mem_sorted x).mp hx
    rw [hv]
    rfl
  · intro hsome
    obtain ⟨v, hv⟩ := Option.isSome_iff_exists.mp hsome
    exact ⟨⟨key, enumerateValue v⟩, (hcollects.mem_sorted _).mpr ⟨v, hv, rfl⟩, rfl⟩

/-- Entries that can be read in an undisturbed file are kept: an entry that is swallowed cannot be
read, so the line that is read as an entry is its own. -/
theorem Collects.kept {names : List CStr} (hlost : ∀ n, env.lost n = none)
    (hreads : ∀ p ∈ savePieces env path complete entries (names.flatMap (printServer d)), p.Reads)
    (hall : ∀ key v, toSave env d complete key = some v → HasEntry (fileBytes (landed env
      (savePieces env path complete entries (names.flatMap (printServer d))))) key v)
    {key : CStr} {v : DictValue} (hkey : toSave env d complete key = some v) :
    EntryKept (fun key ↦ (toSave env d complete key).isSome) key v := by
  have hfiles := files_printEntries (sortedEntries entries)
  have hline := fun {key v} (hkey : toSave env d complete key = some v) ↦
    line_of_hasEntry hlost hreads (toSave_isSkipped hkey) (hall key v hkey)
  have hwell : ∀ {key v}, toSave env d complete key = some v →
      WellPlaced (keysOf (sortEntries entries)) key := by
    intro key v hkey
    obtain ⟨keyPrefix, key', localKey, value, hmem, rfl, -⟩ := hline hkey
    obtain ⟨x, -, -, -, -, hwell, -⟩ := hfiles.sound _ _ _ _ hmem
    exact hwell
  have hprinted : ∀ p ∈ printEntries (sortEntries entries), p.Reads := fun p hp ↦
    hreads p (List.mem_append_left _ (List.mem_append_left _ hp))
  have hx := (hcollects.mem_sorted ⟨key, enumerateValue v⟩).mpr ⟨v, hkey, rfl⟩
  have hown := hfiles.entryReads hprinted hx (hwell hkey)
  refine ⟨?_, hcollects.keysOf_sorted ▸ hown.wellPlaced, hown.header, hown.keysOfSection,
    hown.setting⟩
  obtain ⟨keyPrefix, key', localKey, value, hmem, hread, hshows⟩ := hline hkey
  obtain ⟨y, hy, rfl, rfl, rfl, -, hpre⟩ := hfiles.sound _ _ _ _ hmem
  obtain ⟨w, hw, htext⟩ := (hcollects.mem_sorted y).mp hy
  obtain rfl := hpre (hwell hw)
  rw [sectionPrefix_append_drop] at hread
  rw [hread, hkey] at hw
  obtain rfl := Option.some.inj hw
  rw [← htext] at hshows
  exact (shows_enumerateValue_iff v).mp hshows

end Collected

section Written

variable {merged : Option Dict} {entries : List SaveEntry}
  (hopen : env.fopen path = true) (hmerged : mergedCfg dictHash env d complete = some merged)
  (hm : ∀ m ∈ merged, Built dictHash m ∧
    ∀ key, cfgSaveEntryIsSkipped env key = false → m.toMap key = toSave env d complete key)
  (hsave : saveEntries env merged = some entries)
include hmerged hm hsave

/-- An undisturbed file that has all the entries was written safely. -/
theorem Undisturbed.kept (hcalm : Undisturbed dictHash env d path complete) {names : List CStr}
    (hprint : cfgPrintServers dictHash env d = some (names.flatMap (printServer d)))
    (hall : ∀ key v, toSave env d complete key = some v → HasEntry (fileBytes (landed env
      (savePieces env path complete entries (names.flatMap (printServer d))))) key v)
    {key : CStr} {v : DictValue} (hkey : toSave env d complete key = some v) :
    merged.isSome ∧ (∀ n < (printEntries (sortEntries entries)).length, env.lost n = none) ∧
      EntryKept (fun key ↦ (toSave env d complete key).isSome) key v := by
  have hreads := hcalm.reads merged entries _ hmerged hsave hprint
  cases merged with
  | none =>
    obtain rfl : entries = [] := by simpa [saveEntries, collectEntries] using hsave.symm
    obtain ⟨keyPrefix, key', localKey, value, hmem, -⟩ :=
      line_of_hasEntry hcalm.written hreads (toSave_isSkipped hkey) (hall key v hkey)
    obtain ⟨x, hx, -⟩ := (files_printEntries (sortedEntries [])).sound _ _ _ _ hmem
    simp [sortEntries] at hx
  | some m =>
    have hcollects := collects_of_merged (hm m rfl).1 (hm m rfl).2 hsave
    exact ⟨rfl, fun n _ ↦ hcalm.written n, hcollects.kept hcalm.written hreads hall hkey⟩

end Written

end Main

/-- A disk on which nothing can be opened for writing. -/
def readOnlyEnv : SaveEnv where
  defaultCfg := none
  cfgSaveCallbacks := []
  date := lit "20260101"
  stat _ := true
  rename _ _ := true
  fopen _ := false
  mergeCalloc := true
  mergeMemA _ := .ok
  mergeMemB _ := .ok
  realloc _ := true
  seenCalloc := true
  seenMem _ := .ok
  lost _ := none

/-- A disk on which everything succeeds. -/
def writableEnv : SaveEnv := { readOnlyEnv with fopen := fun _ ↦ true }

end Rustyaxe
