import Rustyaxe.Config.AllOrNothing
import Rustyaxe.Config.Reading

/-!
# The sections of a saved configuration

The keys of the five kinds that `cfg_load_depth` knows itself, and what `cfg_save_overrides` writes
for them.  Each of its sections is faithful: the name of the section is the one that the loader
puts before the rest of the key, however the key has been divided (`saved_printEntries` and
`faithful_printServer`).
-/

set_option autoImplicit false

namespace Rustyaxe

/-! ## Keys -/

/-- A word of a key. -/
structure IsToken (s : CStr) : Prop where
  head : s.head?.any isalnum
  chars : ∀ c ∈ s, isKeyChar c

/-- The keys of the sections that are built in. -/
inductive IsSectionedKey : CStr → Prop where
  | general {key : CStr} (hkey : IsToken key) : IsSectionedKey key
  | server {name key : CStr} (hname : IsToken name) (hkey : IsToken key) :
      IsSectionedKey (lit "server:" ++ (name ++ dot :: key))
  | theme {name key : CStr} (hname : IsToken name) (hkey : IsToken key) :
      IsSectionedKey (lit "theme:" ++ (name ++ dot :: key))
  | site {key : CStr} (hkey : IsToken key) : IsSectionedKey (lit "site:" ++ key)
  | callsignLookup {key : CStr} (hkey : IsToken key) :
      IsSectionedKey (lit "callsign-lookup:" ++ key)

theorem IsToken.ne_nil {s : CStr} (h : IsToken s) : s ≠ [] := by
  rintro rfl
  simpa using h.head

theorem IsToken.not_mem {s : CStr} (h : IsToken s) {c : UInt8} (hc : isKeyChar c = false) :
    c ∉ s := fun hmem ↦ isKeyChar.ne (h.chars c hmem) hc rfl

theorem IsToken.isLineKey {s : CStr} (h : IsToken s) : IsLineKey s where
  chars := h.chars
  not_include hinclude := by
    obtain ⟨c, rest, rfl⟩ := List.exists_cons_of_ne_nil h.ne_nil
    have hc : isalnum c := by simpa using h.head
    have hdot : tolower c = dot := (List.cons.inj hinclude).1
    revert hc hdot
    refine forall_byte ?_ c
    decide +kernel

/-- The characters of a name and what follows it. -/
theorem isKeyChar_of_mem {name key : CStr} (hname : IsToken name) (hkey : IsToken key) :
    ∀ c ∈ name ++ dot :: key, isKeyChar c := fun c hc ↦ by
  rw [List.mem_append, List.mem_cons] at hc
  rcases hc with hc | rfl | hc
  · exact hname.chars c hc
  · decide
  · exact hkey.chars c hc

/-- What starts with the name of another section is no key of a server. -/
theorem IsSectionedKey.of_server {key : CStr} (h : IsSectionedKey key)
    (hserver : startsWith (lit "server:") key = true) :
    ∃ rest, key = lit "server:" ++ rest ∧ (∀ c ∈ rest, isKeyChar c) ∧ dot ∈ rest := by
  cases h with
  | general hkey =>
    obtain ⟨l, rfl⟩ := startsWith_iff.mp hserver
    exact absurd (by simp [lit, colon]) (hkey.not_mem (c := colon) (by decide))
  | server hname hkey => exact ⟨_, rfl, isKeyChar_of_mem hname hkey, by simp⟩
  | theme => cases hserver
  | site => cases hserver
  | callsignLookup => cases hserver

theorem site_append (l : CStr) : lit "site:" ++ l = lit "site" ++ colon :: l := by
  simp [lit, colon]

theorem callsignLookup_append (l : CStr) :
    lit "callsign-lookup:" ++ l = lit "callsign-lookup" ++ colon :: l := by
  simp [lit, colon]

/-- The keys that are not of a server: without a section, of a theme, or of one of the others. -/
theorem IsSectionedKey.cases_section {key : CStr} (h : IsSectionedKey key)
    (hserver : startsWith (lit "server:") key = false) :
    IsToken key ∨
      (∃ name l, key = lit "theme:" ++ (name ++ dot :: l) ∧ dot ∉ name ∧
        ∀ c ∈ name ++ dot :: l, isKeyChar c) ∨
      ∃ s l, key = s ++ colon :: l ∧ (s = lit "site" ∨ s = lit "callsign-lookup") ∧ IsToken l := by
  cases h with
  | general hkey => exact .inl hkey
  | server => cases hserver
  | @theme name₀ key₀ hname hkey =>
    obtain ⟨name, l, heq, hdot⟩ :=
      List.eq_append_cons_of_mem (show dot ∈ name₀ ++ dot :: key₀ by simp)
    exact .inr (.inl ⟨name, l, by rw [heq], hdot, heq ▸ isKeyChar_of_mem hname hkey⟩)
  | @site l hkey => exact .inr (.inr ⟨lit "site", l, site_append l, .inl rfl, hkey⟩)
  | @callsignLookup l hkey =>
    exact .inr (.inr ⟨lit "callsign-lookup", l, callsignLookup_append l, .inr rfl, hkey⟩)

/-! ## Lines -/

/-- The key has a line `localKey=…`.  The keys of servers have one in every section that is written
for a server with a fitting name. -/
inductive WrittenAs (d : Dict) : (key localKey : CStr) → Prop where
  | entry {key localKey : CStr} (hserver : startsWith (lit "server:") key = false)
      (hkey : key = sectionPrefix key ++ localKey) : WrittenAs d key localKey
  | server {k name localKey : CStr} (hk : (d.toMap k).isSome) (hname : GuessedName k name) :
      WrittenAs d (lit "server:" ++ (name ++ dot :: localKey)) localKey

/-- Tokens under keys of the sections that are built in, none of which is left out. -/
structure IsSectionedCfg (env : SaveEnv) (d : Dict) : Prop where
  key : ∀ key, (d.toMap key).isSome → IsSectionedKey key ∧ key.length < 100
  saved : ∀ key, (d.toMap key).isSome → cfgSaveEntryIsSkipped env key = true →
    startsWith (lit "server:") key = true
  value : ∀ key v, d.toMap key = some v → ∃ text, v = .str (some text) ∧ IsTokenValue text

/-- Every line fits into the buffer of the loader, and none looks like a directive. -/
def LinesFit (d : Dict) : Prop :=
  ∀ key localKey text, WrittenAs d key localKey → d.toMap key = some (.str (some text)) →
    localKey.length + 1 + text.length < cfgBufSize ∧ localKey.map tolower ≠ lit ".include"

theorem WrittenAs.length_le {d : Dict} {key localKey : CStr} (h : WrittenAs d key localKey) :
    localKey.length ≤ key.length := by
  cases h with
  | entry hserver hkey =>
    rw [hkey, List.length_append]
    omega
  | server =>
    simp only [List.length_append, List.length_cons]
    omega

/-! ## What the loader makes of a line -/

theorem assignment_general {key v : CStr} (hk : IsLineKey key) (hv : backslash ∉ v) :
    assignment (lit "general") key v = some (key, v) := by
  rw [assignment]
  rw [if_pos (by decide), hk.rdropWhile_eq, cfgExpandFormatEscapes_eq_self hv, ite_self]

theorem assignment_theme {name l v : CStr}
    (hlen : (lit "theme:" ++ (name ++ dot :: l)).length ≤ fullkeyMax) :
    assignment (lit "theme:" ++ name) l v = some (lit "theme:" ++ (name ++ dot :: l), v) := by
  have hgeneral : strcaseeq (lit "theme:" ++ name) (lit "general") = false := rfl
  have htheme : startsWithCase (lit "theme:") (lit "theme:" ++ name) = true := rfl
  have hdrop : (lit "theme:" ++ name).drop 6 = name := rfl
  rw [assignment]
  rw [hgeneral, if_neg (by simp), if_pos htheme, hdrop, List.append_assoc,
    List.take_of_length_le hlen]

theorem assignment_server {name l v : CStr}
    (hlen : (lit "server:" ++ (name ++ dot :: l)).length ≤ fullkeyMax) :
    assignment (lit "server:" ++ name) l v = some (lit "server:" ++ (name ++ dot :: l), v) := by
  have hgeneral : strcaseeq (lit "server:" ++ name) (lit "general") = false := rfl
  have htheme : startsWithCase (lit "theme:") (lit "server:" ++ name) = false := rfl
  have hserver : startsWithCase (lit "server:") (lit "server:" ++ name) = true := rfl
  have hdrop : (lit "server:" ++ name).drop 7 = name := rfl
  rw [assignment]
  rw [hgeneral, if_neg (by simp), htheme, if_neg (by simp), if_pos hserver, hdrop,
    List.append_assoc, List.take_of_length_le hlen]

theorem assignment_plain {s l v : CStr} (hs : s = lit "site" ∨ s = lit "callsign-lookup")
    (hl : IsToken l) (hlen : (s ++ colon :: l).length ≤ fullkeyMax) :
    assignment s l v = some (s ++ colon :: l, v) := by
  have hne : l.rdropWhile isBlank ≠ [] := by
    rw [hl.isLineKey.rdropWhile_eq]
    exact hl.ne_nil
  rcases hs with rfl | rfl
  · rw [← site_append] at hlen ⊢
    rw [assignment]
    rw [if_neg (by decide), if_neg (by decide), if_neg (by decide), if_neg hne,
      if_neg (by decide), hl.isLineKey.rdropWhile_eq, List.take_of_length_le hlen]
  · rw [← callsignLookup_append] at hlen ⊢
    rw [assignment]
    rw [if_neg (by decide), if_neg (by decide), if_neg (by decide), if_neg hne,
      if_pos (by decide), hl.isLineKey.rdropWhile_eq, List.take_of_length_le hlen]

section Lines

variable {env : SaveEnv} {d : Dict} (hd : IsSectionedCfg env d)
include hd

theorem isSectionName_of_key {kind name l : CStr}
    (hkey : (d.toMap (kind ++ (name ++ dot :: l))).isSome) (hkind : kind ≠ [])
    (hkindChars : ∀ c ∈ kind, isKeyChar c ∨ c = colon) (hchars : ∀ c ∈ name, isKeyChar c) :
    IsSectionName (kind ++ name) where
  ne_nil := by simp [hkind]
  chars c hc := (List.mem_append.mp hc).elim (hkindChars c) fun h ↦ .inl (hchars c h)
  length_le := by
    have hshort := (hd.key _ hkey).2
    simp only [List.length_append, List.length_cons] at hshort ⊢
    omega

variable (hfit : LinesFit d)
include hfit

/-- A line is in order if its section is. -/
theorem lineAssigns_of_written {sectionName key localKey v : CStr}
    (hkey : d.toMap key = some (.str (some v))) (hwritten : WrittenAs d key localKey)
    (hchars : ∀ c ∈ localKey, isKeyChar c) (hbuiltin : isBuiltinSection sectionName = true)
    (hassign : assignment sectionName localKey v = some (key, v)) :
    LineAssigns sectionName key localKey v := by
  obtain ⟨hlen, hinclude⟩ := hfit key localKey v hwritten hkey
  obtain ⟨text, htext, hv⟩ := hd.value key _ hkey
  obtain rfl : v = text := by simpa using htext
  have hle := hwritten.length_le
  have hshort := (hd.key key (Option.isSome_iff_exists.mpr ⟨_, hkey⟩)).2
  refine ⟨hbuiltin, ⟨hchars, hinclude⟩, hv, ?_, hlen, hassign⟩
  rw [wrapIndent, cfgBufSize]
  omega

variable {v : CStr}

theorem lineAssigns_general {key : CStr} (hkey : d.toMap key = some (.str (some v)))
    (htoken : IsToken key) : LineAssigns (lit "general") key key v := by
  have hcolon : colon ∉ key := htoken.not_mem (by decide)
  have hwritten : WrittenAs d key key := by
    refine .entry ?_ ?_
    · rw [Bool.eq_false_iff]
      intro hserver
      obtain ⟨l, rfl⟩ := startsWith_iff.mp hserver
      exact hcolon (by simp [lit, colon])
    · rw [sectionPrefix, strchr, if_neg hcolon]
      rfl
  obtain ⟨text, htext, hv⟩ := hd.value key _ hkey
  obtain rfl : v = text := by simpa using htext
  exact lineAssigns_of_written hd hfit hkey hwritten htoken.chars (by decide)
    (assignment_general htoken.isLineKey hv.no_backslash)

theorem lineAssigns_theme {name l : CStr}
    (hkey : d.toMap (lit "theme:" ++ (name ++ dot :: l)) = some (.str (some v)))
    (hname : dot ∉ name) (hchars : ∀ c ∈ l, isKeyChar c) :
    LineAssigns (lit "theme:" ++ name) (lit "theme:" ++ (name ++ dot :: l)) l v := by
  have hshort := (hd.key _ (Option.isSome_iff_exists.mpr ⟨_, hkey⟩)).2
  refine lineAssigns_of_written hd hfit hkey (.entry rfl ?_) hchars rfl
    (assignment_theme (by rw [fullkeyMax]; omega))
  rw [sectionPrefix_theme hname]
  simp

theorem lineAssigns_plain {s l : CStr} (hkey : d.toMap (s ++ colon :: l) = some (.str (some v)))
    (hs : s = lit "site" ∨ s = lit "callsign-lookup") (hl : IsToken l) :
    LineAssigns s (s ++ colon :: l) l v := by
  have hshort := (hd.key _ (Option.isSome_iff_exists.mpr ⟨_, hkey⟩)).2
  refine lineAssigns_of_written hd hfit hkey (.entry ?_ ?_) hl.chars ?_
    (assignment_plain hs hl (by rw [fullkeyMax]; omega))
  · rcases hs with rfl | rfl <;> rfl
  · have hcolon : colon ∉ s := by rcases hs with rfl | rfl <;> decide
    have hne : s ≠ lit "theme" := by rcases hs with rfl | rfl <;> decide
    rw [sectionPrefix_of_ne hcolon hne]
    simp
  · rcases hs with rfl | rfl <;> decide

end Lines

/-! ## The sections of the entries -/

/-- What an entry assigns. -/
def SaveEntry.assigned (e : SaveEntry) : Option (CStr × CStr) := e.value.map (e.key, ·)

/-- Whatever the section before them, the pieces are faithful and assign what the entries do. -/
structure SavedAs (entries : List SaveEntry) (pieces : List SavePiece) : Prop where
  faithful : ∀ sectionName, Faithful sectionName pieces
  assigned : pieces.filterMap SavePiece.assigned = entries.filterMap SaveEntry.assigned

/-- Lines of one section. -/
theorem Faithful.lines {α : Type} {f : α → SavePiece} {sectionName : CStr}
    {rest : List SavePiece} (hrest : Faithful sectionName rest) : ∀ {L : List α},
    (∀ x ∈ L, ∃ keyPrefix key localKey v, f x = .setting keyPrefix key localKey (some v) ∧
      LineAssigns sectionName key localKey v) → Faithful sectionName (L.map f ++ rest)
  | [], _ => hrest
  | x :: L, h => by
    obtain ⟨keyPrefix, key, localKey, v, hx, hline⟩ := h x List.mem_cons_self
    rw [List.map_cons, List.cons_append, hx]
    exact .setting hline (hrest.lines fun y hy ↦ h y (List.mem_cons_of_mem _ hy))

theorem assigned_lines {keyPrefix : CStr} (localOf : SaveEntry → CStr) (L : List SaveEntry) :
    (L.map fun x ↦ SavePiece.setting keyPrefix x.key (localOf x) x.value).filterMap
      SavePiece.assigned = L.filterMap SaveEntry.assigned := by
  rw [List.filterMap_map]
  congr 1
  funext x
  rw [Function.comp, SaveEntry.assigned]
  cases x.value <;> rfl

/-- A section of the entries, and the rest. -/
theorem SavedAs.group {entries : List SaveEntry} {p : SaveEntry → Bool}
    {keyPrefix name : CStr} {localOf : SaveEntry → CStr} {pieces : List SavePiece}
    (hname : IsSectionName name)
    (hlines : ∀ x ∈ entries.takeWhile p, ∃ v, x.value = some v ∧
      LineAssigns name x.key (localOf x) v) (hrest : SavedAs (entries.dropWhile p) pieces) :
    SavedAs entries (.blank :: .header keyPrefix name ::
      (entries.takeWhile p).map (fun x ↦ .setting keyPrefix x.key (localOf x) x.value) ++
        pieces) := by
  constructor
  · intro sectionName
    refine .blank (.header hname ((hrest.faithful name).lines fun x hx ↦ ?_))
    obtain ⟨v, hv, hline⟩ := hlines x hx
    exact ⟨keyPrefix, x.key, localOf x, v, by rw [hv], hline⟩
  · rw [List.cons_append, List.cons_append, List.filterMap_cons_none rfl,
      List.filterMap_cons_none rfl, List.filterMap_append, assigned_lines, hrest.assigned,
      ← List.filterMap_append, List.takeWhile_append_dropWhile]

section Sections

variable {env : SaveEnv} {d : Dict} (hd : IsSectionedCfg env d) (hfit : LinesFit d)

/-- An entry of `d` that is not of a server. -/
structure EntryOf (d : Dict) (x : SaveEntry) : Prop where
  value : d.toMap x.key = some (.str x.value)
  notServer : startsWith (lit "server:") x.key = false

include hd

theorem EntryOf.exists_value {x : SaveEntry} (hx : EntryOf d x) :
    ∃ v, x.value = some v ∧ d.toMap x.key = some (.str (some v)) := by
  obtain ⟨v, hv, -⟩ := hd.value _ _ hx.value
  have hvalue : x.value = some v := by simpa using hv
  exact ⟨v, hvalue, hvalue ▸ hx.value⟩

theorem EntryOf.cases_section {x : SaveEntry} (hx : EntryOf d x) (hcolon : colon ∈ x.key) :
    (∃ name l, x.key = lit "theme:" ++ (name ++ dot :: l) ∧ dot ∉ name ∧
        ∀ c ∈ name ++ dot :: l, isKeyChar c) ∨
      ∃ s l, x.key = s ++ colon :: l ∧ (s = lit "site" ∨ s = lit "callsign-lookup") ∧
        IsToken l := by
  have hsome : (d.toMap x.key).isSome := Option.isSome_iff_exists.mpr ⟨_, hx.value⟩
  rcases (hd.key _ hsome).1.cases_section hx.notServer with h | h
  · exact absurd hcolon (h.not_mem (by decide))
  · exact h

include hfit

/-- An entry that begins with the name of a theme has its line below the header of the theme. -/
theorem EntryOf.assigns_theme {x : SaveEntry} (hx : EntryOf d x) (hcolon : colon ∈ x.key)
    {name : CStr} (hname : dot ∉ name)
    (hstart : startsWith (lit "theme:" ++ (name ++ [dot])) x.key = true) :
    ∃ v, x.value = some v ∧ LineAssigns (lit "theme:" ++ name) x.key
      (x.key.drop (lit "theme:" ++ (name ++ [dot])).length) v := by
  obtain ⟨l, hl⟩ := startsWith_iff.mp hstart
  obtain ⟨v, hv, hxv⟩ := hx.exists_value hd
  refine ⟨v, hv, ?_⟩
  rw [hl, List.drop_left]
  have hassoc : lit "theme:" ++ (name ++ [dot]) ++ l = lit "theme:" ++ (name ++ dot :: l) := by
    simp
  rw [hl, hassoc] at hxv
  rw [hassoc]
  refine lineAssigns_theme hd hfit hxv hname fun c hc ↦ ?_
  rcases hx.cases_section hd hcolon with ⟨name', l', hkey, -, hchars⟩ | ⟨s, l', hkey, hs, -⟩
  · rw [hl, hassoc, List.append_cancel_left_eq] at hkey
    exact hchars c (hkey ▸ by simp [hc])
  · rw [hl, hassoc] at hkey
    rcases hs with rfl | rfl <;> cases hkey

/-- The sections have names of different lengths, so an entry whose section has a name as long is
one of the section. -/
theorem EntryOf.assigns_section {x : SaveEntry} (hx : EntryOf d x) (hcolon : colon ∈ x.key)
    {s : CStr} (hs : s = lit "site" ∨ s = lit "callsign-lookup")
    (hlen : strchr colon x.key = some s.length) :
    ∃ v, x.value = some v ∧ LineAssigns s x.key (x.key.drop (s ++ [colon]).length) v := by
  obtain ⟨v, hv, hxv⟩ := hx.exists_value hd
  refine ⟨v, hv, ?_⟩
  rcases hx.cases_section hd hcolon with ⟨name, l, hkey, -⟩ | ⟨s', l, hkey, hs', hl⟩
  · have hfive : strchr colon x.key = some 5 :=
      hkey ▸ strchr_append (s := lit "theme") (by decide) _
    rw [hfive] at hlen
    rcases hs with rfl | rfl <;> cases hlen
  · have hs'colon : colon ∉ s' := by rcases hs' with rfl | rfl <;> decide
    rw [hkey, strchr_append hs'colon, Option.some.injEq] at hlen
    obtain rfl : s' = s := by
      rcases hs with rfl | rfl <;> rcases hs' with rfl | rfl <;> first | rfl | cases hlen
    have hdrop : x.key.drop (s' ++ [colon]).length = l := by
      rw [hkey, show s' ++ colon :: l = s' ++ [colon] ++ l by simp, List.drop_left]
    rw [hdrop, hkey]
    exact lineAssigns_plain hd hfit (hkey ▸ hxv) hs hl

/-- The sections of the sorted entries. -/
theorem savedAs_printSections : ∀ (fuel : ℕ) (entries : List SaveEntry), entries.length ≤ fuel →
    (∀ x ∈ entries, EntryOf d x ∧ colon ∈ x.key) → SavedAs entries (printSections fuel entries)
  | 0, entries, hfuel, _ => by
    obtain rfl := List.length_eq_zero_iff.mp (Nat.le_zero.mp hfuel)
    exact ⟨fun _ ↦ .nil, rfl⟩
  | fuel + 1, [], _, _ => ⟨fun _ ↦ .nil, rfl⟩
  | fuel + 1, e :: rest, hfuel, hentries => by
    have hrest : ∀ {p : SaveEntry → Bool}, p e = true →
        SavedAs ((e :: rest).dropWhile p) (printSections fuel ((e :: rest).dropWhile p)) := by
      intro p hp
      rw [List.dropWhile_cons_of_pos hp]
      refine savedAs_printSections fuel _ ?_ fun x hx ↦
        hentries x (List.mem_cons_of_mem _ ((List.dropWhile_sublist p).mem hx))
      exact (List.length_dropWhile_le _ _).trans (Nat.succ_le_succ_iff.mp hfuel)
    have hsome (x : SaveEntry) (hx : x ∈ e :: rest) : (d.toMap x.key).isSome :=
      Option.isSome_iff_exists.mpr ⟨_, (hentries x hx).1.value⟩
    obtain ⟨he, hcolon⟩ := hentries e List.mem_cons_self
    rcases he.cases_section hd hcolon with ⟨name, l, hkey, hname, hchars⟩ | ⟨s, l, hkey, hs, hl⟩
    · rw [printSections_theme fuel rest hname hkey]
      refine SavedAs.group ?_ (fun x hx ↦ ?_) (hrest (startsWith_iff.mpr ⟨l, by rw [hkey]; simp⟩))
      · refine isSectionName_of_key hd (hkey ▸ hsome e List.mem_cons_self) (by decide)
          (by decide +kernel) fun c hc ↦ hchars c (by simp [hc])
      · have hx' := hentries x ((List.takeWhile_sublist _).mem hx)
        exact hx'.1.assigns_theme hd hfit hx'.2 hname (List.mem_takeWhile_imp
          (p := fun x : SaveEntry ↦ startsWith (lit "theme:" ++ (name ++ [dot])) x.key) hx)
    · have hscolon : colon ∉ s := by rcases hs with rfl | rfl <;> decide
      have hn : strchr colon e.key = some s.length := hkey ▸ strchr_append hscolon l
      have hname : s ≠ lit "theme" ∧ s ≠ lit "pipeline" := by
        rcases hs with rfl | rfl <;> decide
      rw [printSections_section fuel rest hscolon hname.1 hkey, if_neg hname.2]
      refine SavedAs.group ?_ (fun x hx ↦ ?_) (hrest ((cfgSaveEntrySameSection_self _ _).mpr hn))
      · rcases hs with rfl | rfl <;> exact ⟨by decide, by decide +kernel, by decide⟩
      · have hx' := hentries x ((List.takeWhile_sublist _).mem hx)
        refine hx'.1.assigns_section hd hfit hx'.2 hs ?_
        exact (cfgSaveEntrySameSection_self _ _).mp (List.mem_takeWhile_imp
          (p := fun x : SaveEntry ↦ cfgSaveEntrySameSection x x.key s.length) hx)

/-- **The sections of the sorted entries**, and `[general]` before them. -/
theorem savedAs_printEntries {entries : List SaveEntry}
    (hsorted : entries.Pairwise fun a b ↦ a.sortKey ≤ b.sortKey)
    (hentries : ∀ x ∈ entries, EntryOf d x) : SavedAs entries (printEntries entries) := by
  have hrest : SavedAs (entries.dropWhile fun e ↦ (strchr colon e.key).isNone)
      (printSections entries.length (entries.dropWhile fun e ↦ (strchr colon e.key).isNone)) := by
    refine savedAs_printSections hd hfit _ _ (List.length_dropWhile_le _ _) fun x hx ↦
      ⟨hentries x ((List.dropWhile_sublist _).mem hx), ?_⟩
    by_contra hcolon
    simpa [strchr, hcolon] using colon_of_mem_dropWhile hsorted hx
  have hgeneral : ∀ x ∈ entries.takeWhile fun e ↦ (strchr colon e.key).isNone,
      ∃ v, x.value = some v ∧ LineAssigns (lit "general") x.key x.key v := by
    intro x hx
    have hnone := List.mem_takeWhile_imp
      (p := fun e : SaveEntry ↦ (strchr colon e.key).isNone) hx
    have hcolon : colon ∉ x.key := fun h ↦ by simp [strchr, h] at hnone
    have hmem := hentries x ((List.takeWhile_sublist _).mem hx)
    obtain ⟨v, hv, hxv⟩ := hmem.exists_value hd
    refine ⟨v, hv, lineAssigns_general hd hfit hxv ?_⟩
    rcases (hd.key _ (Option.isSome_iff_exists.mpr ⟨_, hxv⟩)).1.cases_section hmem.notServer with
      h | ⟨name, l, hkey, -⟩ | ⟨s, l, hkey, -⟩
    · exact h
    · exact absurd (by rw [hkey]; simp [lit, colon]) hcolon
    · exact absurd (by rw [hkey]; simp) hcolon
  rw [printEntries, printGeneral]
  constructor
  · intro sectionName
    refine .header ⟨by decide, by decide +kernel, by decide⟩
      ((hrest.faithful _).lines fun x hx ↦ ?_)
    obtain ⟨v, hv, hline⟩ := hgeneral x hx
    exact ⟨[], x.key, x.key, v, by rw [hv], hline⟩
  · rw [List.cons_append, List.filterMap_cons_none rfl, List.filterMap_append,
      assigned_lines SaveEntry.key, hrest.assigned, ← List.filterMap_append,
      List.takeWhile_append_dropWhile]

end Sections

/-! ## The sections of the servers -/

theorem strstr_eq_some {needle : CStr} : ∀ {s : CStr} {n : ℕ}, strstr needle s = some n →
    startsWith needle (s.drop n) = true
  | [], n, h => by
    rw [strstr] at h
    split at h
    · next hnil => rw [hnil]; rfl
    · cases h
  | c :: s, n, h => by
    rw [strstr] at h
    split at h
    · next hstart =>
      obtain rfl := Option.some.inj h
      exact hstart
    · obtain ⟨m, hm, rfl⟩ := Option.map_eq_some_iff.mp h
      rw [List.drop_succ_cons]
      exact strstr_eq_some hm

/-- The name of a server ends at a dot. -/
theorem serverDot_eq_some {s : CStr} {n : ℕ} (h : serverDot s = some n) :
    ∃ l, s = s.take n ++ dot :: l := by
  have hdrop : ∀ {l : CStr}, s.drop n = dot :: l → ∃ l, s = s.take n ++ dot :: l :=
    fun {l} hl ↦ ⟨l, by rw [← hl, List.take_append_drop]⟩
  rw [serverDot] at h
  cases hstr : strstr (lit ".server.") s with
  | some m =>
    obtain rfl : m = n := by simpa [hstr] using h
    obtain ⟨l, hl⟩ := startsWith_iff.mp (strstr_eq_some hstr)
    exact hdrop hl
  | none =>
    rw [hstr] at h
    dsimp only at h
    split at h
    · next suffix hfind =>
      obtain rfl := Option.some.inj h
      have hmem := List.mem_of_find?_eq_some hfind
      have hsuffix := List.find?_some hfind
      rw [Bool.and_eq_true, List.isSuffixOf_iff_suffix] at hsuffix
      obtain ⟨t, ht⟩ := hsuffix.2
      have hlen : s.length - suffix.length = t.length := by
        rw [← ht, List.length_append]
        omega
      have hs : s.drop (s.length - suffix.length) = suffix := by
        rw [hlen, ← ht, List.drop_left]
      have hdot : ∃ l, suffix = dot :: l := by
        simp only [List.mem_cons, List.not_mem_nil, or_false] at hmem
        rcases hmem with rfl | rfl <;> exact ⟨_, rfl⟩
      obtain ⟨l, hl⟩ := hdot
      exact hdrop (hs.trans hl)
    · obtain ⟨before, after, hs, -, rfl⟩ := strchr_eq_some h
      exact hdrop (by rw [hs, List.drop_left])

theorem serverDot_isSome {s : CStr} (h : dot ∈ s) : (serverDot s).isSome := by
  rw [serverDot]
  split
  · rfl
  · split
    · rfl
    · rw [strchr, if_pos h]
      rfl

/-- The key of a server asks for the section of one name, in which it has a line. -/
theorem exists_guessedName {rest : CStr} (hdot : dot ∈ rest) (hlen : rest.length < 512) :
    ∃ name l, GuessedName (lit "server:" ++ rest) name ∧ rest = name ++ dot :: l := by
  obtain ⟨n, hn⟩ := Option.isSome_iff_exists.mp (serverDot_isSome hdot)
  obtain ⟨l, hl⟩ := serverDot_eq_some hn
  have hlength := congrArg List.length hl
  rw [List.length_append, List.length_cons, List.length_take] at hlength
  exact ⟨rest.take n, l, ⟨startsWith_iff.mpr ⟨rest, rfl⟩, n, hn, by omega, rfl⟩, hl⟩

theorem GuessedName.eq_append {key name : CStr} (h : GuessedName key name) :
    ∃ l, key = lit "server:" ++ (name ++ dot :: l) := by
  obtain ⟨hstart, n, hn, -, rfl⟩ := h
  obtain ⟨rest, rfl⟩ := startsWith_iff.mp hstart
  obtain ⟨l, hl⟩ := serverDot_eq_some hn
  exact ⟨l, congrArg _ hl⟩

section Servers

variable {dictHash : CStr → UInt32} {env : SaveEnv} {d : Dict} (hcoherent : Coherent dictHash d)
include hcoherent

/-- The section of a server assigns values of `d`, to every key that starts with the name. -/
theorem mem_assigned_printServer (name : CStr) (a : CStr × CStr) :
    a ∈ (printServer d name).filterMap SavePiece.assigned ↔
      d.toMap a.1 = some (.str (some a.2)) ∧
        startsWith (lit "server:" ++ name ++ [dot]) a.1 = true := by
  have henumerate : ∀ v : DictValue, enumerateValue v = some a.2 ↔ v = .str (some a.2) := by
    intro v
    cases v <;> simp [enumerateValue]
  rw [printServer, List.mem_filterMap]
  constructor
  · rintro ⟨p, hp, hassigned⟩
    rw [List.cons_append, List.mem_cons, List.mem_append, List.mem_map, List.mem_singleton] at hp
    rcases hp with rfl | ⟨kp, hkp, rfl⟩ | rfl
    · cases hassigned
    · rw [List.mem_filter, dictEnumerateAll_eq] at hkp
      obtain ⟨hmem, hstart⟩ := hkp
      have hvalue := hcoherent.toMap_of_mem hmem
      cases hv : enumerateValue kp.value with
      | none => simp [SavePiece.assigned, hv] at hassigned
      | some v =>
        rw [hv] at hassigned
        obtain rfl : (kp.key, v) = a := by simpa [SavePiece.assigned] using hassigned
        exact ⟨by rw [hvalue, (henumerate _).mp hv], hstart⟩
    · cases hassigned
  · rintro ⟨hmap, hstart⟩
    obtain ⟨kp, hmem, hkey, hvalue⟩ := Dict.exists_mem_of_toMap hmap
    have hfilter : kp ∈ (dictEnumerateAll d).filter fun kp ↦
        startsWith (lit "server:" ++ name ++ [dot]) kp.key := by
      rw [List.mem_filter, dictEnumerateAll_eq, hkey]
      exact ⟨hmem, hstart⟩
    refine ⟨_, List.mem_append_left _ (List.mem_cons_of_mem _ (List.mem_map_of_mem hfilter)), ?_⟩
    rw [(henumerate _).mpr hvalue, hkey]
    rfl

variable (hd : IsSectionedCfg env d) (hfit : LinesFit d)
include hd hfit

/-- **The section of a server** is faithful. -/
theorem faithful_printServer {k name : CStr} (hk : (d.toMap k).isSome) (hname : GuessedName k name)
    {rest : List SavePiece} (hrest : ∀ sectionName, Faithful sectionName rest)
    (sectionName : CStr) : Faithful sectionName (printServer d name ++ rest) := by
  have hchars : ∀ {l}, (d.toMap (lit "server:" ++ (name ++ dot :: l))).isSome →
      ∀ c ∈ name ++ dot :: l, isKeyChar c := by
    intro l hl
    obtain ⟨rest', hrest', hchars, -⟩ := (hd.key _ hl).1.of_server (startsWith_iff.mpr ⟨_, rfl⟩)
    rw [List.append_cancel_left_eq] at hrest'
    rwa [hrest']
  have hheader : IsSectionName (lit "server:" ++ name) := by
    obtain ⟨l, rfl⟩ := hname.eq_append
    exact isSectionName_of_key hd hk (by decide) (by decide +kernel) fun c hc ↦
      hchars hk c (by simp [hc])
  rw [printServer, List.append_assoc, List.cons_append]
  refine .header hheader (Faithful.lines (.blank (hrest _)) fun kp hkp ↦ ?_)
  rw [List.mem_filter, dictEnumerateAll_eq] at hkp
  obtain ⟨hmem, hstart⟩ := hkp
  obtain ⟨l, hl⟩ := startsWith_iff.mp hstart
  have hmap := hcoherent.toMap_of_mem hmem
  obtain ⟨v, hv, -⟩ := hd.value _ _ hmap
  have hassoc : lit "server:" ++ name ++ [dot] ++ l = lit "server:" ++ (name ++ dot :: l) := by simp
  have hdrop : kp.key.drop (7 + name.length + 1) = l := by
    rw [hl]
    refine List.drop_left' ?_
    rw [List.length_append, List.length_append]
    rfl
  rw [hdrop, hv]
  refine ⟨_, kp.key, l, v, rfl, ?_⟩
  rw [hv, hl, hassoc] at hmap
  rw [hl, hassoc]
  have hsome := Option.isSome_iff_exists.mpr ⟨_, hmap⟩
  have hshort := (hd.key _ hsome).2
  exact lineAssigns_of_written hd hfit hmap (.server hk hname)
    (fun c hc ↦ hchars hsome c (by simp [hc])) rfl
    (assignment_server (by rw [fullkeyMax]; omega))

end Servers

end Rustyaxe
