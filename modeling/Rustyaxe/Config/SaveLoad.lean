import Rustyaxe.Config.LineLimit
import Rustyaxe.Config.SavedSections

/-!
# Saving and loading again

A configuration that `cfg_save_overrides` has written is loaded as what it was
(`saveRoundTrips_of_linesFit`), if its keys are those of the sections that are built in, its values
are tokens, and its lines fit into the buffer of the loader.

A longer line does not survive: `cfg_load` cuts it at the end of its buffer, so no value that it
stores is longer than that (`length_of_cfgLoad`).  Neither does a key such as `server:a..include`,
whose line is taken for a directive.
-/

set_option autoImplicit false

namespace Rustyaxe

open Assignments

variable {dictHash : CStr → UInt32}

/-- `cfg_save_overrides` writes a file that `cfg_load` loads as `d`. -/
def SaveRoundTrips (dictHash : CStr → UInt32) (env : SaveEnv) (lenv : LoadEnv) (fs : FileSystem)
    (d : Dict) (path : CStr) : Prop :=
  ∃ fs' file d', cfgSaveOverrides dictHash env fs d path = some (true, fs') ∧
    fs' path = some file ∧
    cfgLoad dictHash (lenv.withFile path (fileBytes file)) path = some (some d') ∧
    d'.toMap = d.toMap

/-- Every call that saving depends on succeeds. -/
structure SaveEnv.Succeeds (env : SaveEnv) (fs : FileSystem) (path : CStr) : Prop where
  backUp : (backUp env fs path).isSome
  fopen : env.fopen path = true
  mergeCalloc : env.mergeCalloc = true
  mergeMemA : ∀ n, env.mergeMemA n = .ok
  mergeMemB : ∀ n, env.mergeMemB n = .ok
  realloc : ∀ n, env.realloc n = true
  lost : ∀ n, env.lost n = none

/-! ## The round trip -/

theorem collectEntries_isSome {env : SaveEnv} (hrealloc : ∀ n, env.realloc n = true) :
    ∀ (L : List Keypair) (count capacity grown : ℕ),
      (collectEntries env L count capacity grown).isSome
  | [], _, _, _ => rfl
  | kp :: L, count, capacity, grown => by
    rw [collectEntries]
    split
    · exact collectEntries_isSome hrealloc L _ _ _
    · split
      · rw [if_pos (hrealloc grown), Option.isSome_map]
        exact collectEntries_isSome hrealloc L _ _ _
      · rw [Option.isSome_map]
        exact collectEntries_isSome hrealloc L _ _ _

theorem Faithful.append {sectionName : CStr} {pieces rest : List SavePiece}
    (h : Faithful sectionName pieces) (hrest : ∀ sectionName, Faithful sectionName rest) :
    Faithful sectionName (pieces ++ rest) := by
  induction h with
  | nil => exact hrest _
  | blank _ ih => exact .blank ih
  | header hname _ ih => exact .header hname ih
  | setting hline _ ih => exact .setting hline ih

section Main

variable {env : SaveEnv} {lenv : LoadEnv} {fs : FileSystem} {d : Dict} {path : CStr}
  (hcoherent : Coherent dictHash d)
include hcoherent

/-- What is written, if all goes well: the entries, in order, and the servers. -/
theorem cfgSaveOverrides_file (henv : env.Succeeds fs path) :
    ∃ (fs' : FileSystem) (entries : List SaveEntry) (names : List CStr),
      cfgSaveOverrides dictHash env fs d path = some (true, fs') ∧
      fs' path = some (printEntries (sortEntries entries) ++ names.flatMap (printServer d)) ∧
      (entries.map SaveEntry.key).Nodup ∧
      (∀ key text, ⟨key, text⟩ ∈ entries ↔ cfgSaveEntryIsSkipped env key = false ∧
        ∃ v, d.toMap key = some v ∧ enumerateValue v = text) ∧
      (∀ name ∈ names, ∃ k, (d.toMap k).isSome ∧ GuessedName k name) ∧
      ∀ k name, (d.toMap k).isSome → GuessedName k name → name ∈ names := by
  obtain ⟨fs₁, hfs₁⟩ := Option.isSome_iff_exists.mp henv.backUp
  obtain ⟨merged, hmerged, hmap, hsome⟩ :=
    dictMergeNew_spec hcoherent hcoherent env.mergeCalloc env.mergeMemA env.mergeMemB
  obtain ⟨m, rfl⟩ := Option.isSome_iff_exists.mp
    (hsome henv.mergeCalloc henv.mergeMemA henv.mergeMemB)
  obtain ⟨hbuilt, hmap⟩ := hmap m rfl
  replace hmap : m.toMap = d.toMap := funext fun key ↦ by rw [hmap, Option.or_self]
  obtain ⟨entries, hentries⟩ := Option.isSome_iff_exists.mp
    (collectEntries_isSome henv.realloc (dictEnumerateAll m) 0 0 0)
  obtain ⟨names, hnames, hsound, hall⟩ := cfgPrintServers_spec dictHash env d
  obtain ⟨hnodup, hmem⟩ := saveEntries_spec hbuilt.toCoherent
    (show saveEntries env (some m) = _ from hentries)
  rw [hmap] at hmem
  refine ⟨Function.update fs₁ path _, entries, names, ?_, Function.update_self .., hnodup, hmem,
    fun name hname ↦ ?_, fun k name hk hguess ↦ ?_⟩
  · have hsave : saveEntries env (some m) = some entries := hentries
    have hcfg : mergedCfg dictHash env d false = some (some m) := hmerged
    rw [cfgSaveOverrides, cfgSaveValues, hfs₁]
    simp only [henv.fopen, if_true, hcfg, Option.bind_eq_bind, Option.bind_some, hsave, hnames]
    rw [landed_eq_self henv.lost, savePieces, if_neg (by simp), List.append_nil]
    rfl
  · obtain ⟨kp, hkp, hguess⟩ := hsound name hname
    rw [dictEnumerateAll_eq] at hkp
    exact ⟨kp.key, Option.isSome_iff_exists.mpr ⟨_, hcoherent.toMap_of_mem hkp⟩, hguess⟩
  · obtain ⟨v, hv⟩ := Option.isSome_iff_exists.mp hk
    obtain ⟨kp, hkp, rfl, -⟩ := Dict.exists_mem_of_toMap hv
    exact hall kp (by rwa [dictEnumerateAll_eq]) name hguess

/-- What is written for a configuration of strings. -/
theorem cfgSaveOverrides_eq (henv : env.Succeeds fs path)
    (hvalue : ∀ key v, d.toMap key = some v → ∃ text, v = .str (some text))
    (hsaved : ∀ key, (d.toMap key).isSome → cfgSaveEntryIsSkipped env key = true →
      startsWith (lit "server:") key = true) :
    ∃ (fs' : FileSystem) (entries : List SaveEntry) (names : List CStr),
      cfgSaveOverrides dictHash env fs d path = some (true, fs') ∧
      fs' path = some (printEntries (sortEntries entries) ++ names.flatMap (printServer d)) ∧
      (entries.map SaveEntry.key).Nodup ∧ (∀ x ∈ entries, EntryOf d x) ∧
      (∀ key v, d.toMap key = some (.str (some v)) → startsWith (lit "server:") key = false →
        ⟨key, some v⟩ ∈ entries) ∧
      (∀ name ∈ names, ∃ k, (d.toMap k).isSome ∧ GuessedName k name) ∧
      ∀ k name, (d.toMap k).isSome → GuessedName k name → name ∈ names := by
  obtain ⟨fs', entries, names, hsave, hfile, hnodup, hmem, hguessed, hnames⟩ :=
    cfgSaveOverrides_file hcoherent henv
  refine ⟨fs', entries, names, hsave, hfile, hnodup, fun x hx ↦ ?_, fun key v hkey hserver ↦ ?_,
    hguessed, hnames⟩
  · obtain ⟨hskip, v, hv, htext⟩ := (hmem x.key x.value).mp hx
    obtain ⟨text, rfl⟩ := hvalue _ _ hv
    refine ⟨by rw [hv, ← htext]; rfl, ?_⟩
    rw [Bool.eq_false_iff]
    intro hserver
    simp [cfgSaveEntryIsSkipped, hserver] at hskip
  · refine (hmem key (some v)).mpr ⟨?_, _, hkey, rfl⟩
    rw [Bool.eq_false_iff]
    intro hskip
    have hstart := hsaved key (Option.isSome_iff_exists.mpr ⟨_, hkey⟩) hskip
    rw [hserver] at hstart
    cases hstart

/-- The sections of the servers are faithful. -/
theorem faithful_servers (hd : IsSectionedCfg env d) (hfit : LinesFit d) : ∀ {names : List CStr},
    (∀ name ∈ names, ∃ k, (d.toMap k).isSome ∧ GuessedName k name) →
    ∀ sectionName, Faithful sectionName (names.flatMap (printServer d))
  | [], _, _ => .nil
  | name :: names, hguessed, sectionName => by
    obtain ⟨k, hk, hguess⟩ := hguessed name List.mem_cons_self
    rw [List.flatMap_cons]
    exact faithful_printServer hcoherent hd hfit hk hguess
      (faithful_servers hd hfit fun name hname ↦ hguessed name (List.mem_cons_of_mem _ hname)) _

/-- **What has been saved is loaded again**: no key is lost, none is added, and none gets into
another section. -/
theorem saveRoundTrips_of_linesFit (henv : env.Succeeds fs path) (hlenv : lenv.AllocOk)
    (hd : IsSectionedCfg env d) (hfit : LinesFit d) : SaveRoundTrips dictHash env lenv fs d path := by
  obtain ⟨fs', entries, names, hsave, hfile, -, hentryOf, hentries, hguessed, hnames⟩ :=
    cfgSaveOverrides_eq hcoherent henv
      (fun key v hv ↦ let ⟨text, htext, _⟩ := hd.value key v hv; ⟨text, htext⟩) hd.saved
  have hsaved : SavedAs (sortEntries entries) (printEntries (sortEntries entries)) :=
    savedAs_printEntries hd hfit (sortedEntries entries) fun x hx ↦
      hentryOf x ((List.mem_insertionSort _).mp hx)
  have hfaithful : Faithful [] (printEntries (sortEntries entries) ++ names.flatMap (printServer d)) :=
    (hsaved.faithful []).append (faithful_servers hcoherent hd hfit hguessed)
  obtain ⟨d', hload, hmap⟩ : ∃ d', cfgLoad dictHash (lenv.withFile path (fileBytes _)) path
      = some (some d') ∧ d'.toMap = lastValue _ := cfgLoad_faithful hlenv path hfaithful
  refine ⟨fs', _, d', hsave, hfile, hload, hmap.trans (lastValue_eq_of_mem ?_ ?_)⟩
  · intro a ha
    obtain ⟨⟨key, v⟩, hmem, rfl⟩ := List.mem_map.mp ha
    rw [List.filterMap_append, List.mem_append, hsaved.assigned] at hmem
    rcases hmem with hmem | hmem
    · obtain ⟨x, hx, hassigned⟩ := List.mem_filterMap.mp hmem
      have hvalue := (hentryOf x ((List.mem_insertionSort _).mp hx)).value
      rw [SaveEntry.assigned, Option.map_eq_some_iff] at hassigned
      obtain ⟨w, hw, heq⟩ := hassigned
      cases heq
      rw [hw] at hvalue
      exact hvalue
    · rw [List.filterMap_flatMap, List.mem_flatMap] at hmem
      obtain ⟨name, -, hmem⟩ := hmem
      exact ((mem_assigned_printServer hcoherent name (key, v)).mp hmem).1
  · intro key hkey
    obtain ⟨w, hw⟩ := Option.isSome_iff_exists.mp hkey
    obtain ⟨v, rfl, -⟩ := hd.value _ _ hw
    refine ⟨.str (some v), List.mem_map_of_mem (f := storedAs) (a := (key, v)) ?_⟩
    rw [List.filterMap_append, List.mem_append, hsaved.assigned]
    cases hserver : startsWith (lit "server:") key with
    | false =>
      refine .inl (List.mem_filterMap.mpr ⟨⟨key, some v⟩, ?_, rfl⟩)
      exact (List.mem_insertionSort _).mpr (hentries key v hw hserver)
    | true =>
      -- it has a line in the section that it asks for itself
      obtain ⟨hsectioned, hshort⟩ := hd.key key hkey
      obtain ⟨rest, rfl, -, hdot⟩ := hsectioned.of_server hserver
      rw [List.length_append] at hshort
      obtain ⟨name, l, hguess, rfl⟩ := exists_guessedName hdot (by omega)
      rw [List.filterMap_flatMap, List.mem_flatMap]
      refine .inr ⟨name, hnames _ name hkey hguess, ?_⟩
      exact (mem_assigned_printServer hcoherent name (_, v)).mpr
        ⟨hw, startsWith_iff.mpr ⟨l, by simp⟩⟩

end Main

/-! ## The limits -/

theorem writableEnv_succeeds (path : CStr) : writableEnv.Succeeds (fun _ ↦ none) path where
  backUp := rfl
  fopen := rfl
  mergeCalloc := rfl
  mergeMemA _ := rfl
  mergeMemB _ := rfl
  realloc _ := rfl
  lost _ := rfl

/-- A configuration of one key. -/
theorem exists_oneKey (dictHash : CStr → UInt32) (key v : CStr) :
    ∃ d, dictAdd dictHash .ok dictNew key (some v) = some (true, d) ∧ Coherent dictHash d ∧
      ∀ k, d.toMap k = if k = key then some (.str (some v)) else none := by
  have hnew : Built dictHash dictNew := built_dictNew
  obtain ⟨rc, d, hadd, hd, hmap, hrc⟩ := hnew.dictStore_spec .ok key (.str (some v))
  obtain rfl := hrc rfl
  refine ⟨d, hadd, hd.toCoherent, fun k ↦ ?_⟩
  rw [hmap, if_pos rfl, Function.update_apply]
  rfl

/-- A key and a token make a configuration of sections. -/
theorem isSectionedCfg_oneKey {env : SaveEnv} {key v : CStr} {d : Dict}
    (hmap : ∀ k, d.toMap k = if k = key then some (.str (some v)) else none)
    (hkey : IsSectionedKey key) (hlen : key.length < 100)
    (hsaved : cfgSaveEntryIsSkipped env key = true → startsWith (lit "server:") key = true)
    (hv : IsTokenValue v) : IsSectionedCfg env d := by
  have honly : ∀ {k}, (d.toMap k).isSome → k = key := by
    intro k hk
    by_contra hne
    rw [hmap, if_neg hne] at hk
    cases hk
  refine ⟨fun k hk ↦ ?_, fun k hk ↦ ?_, fun k w hk ↦ ?_⟩
  · obtain rfl := honly hk
    exact ⟨hkey, hlen⟩
  · obtain rfl := honly hk
    exact hsaved
  · obtain rfl := honly (Option.isSome_iff_exists.mpr ⟨w, hk⟩)
    rw [hmap, if_pos rfl] at hk
    exact ⟨v, (Option.some.inj hk).symm, hv⟩

theorem isTokenValue_replicate (n : ℕ) : IsTokenValue (List.replicate (n + 1) 0x61) := by
  have hmem : ∀ {c : UInt8}, c ∈ List.replicate (n + 1) 0x61 → c = 0x61 := fun {c} hc ↦
    (List.mem_replicate.mp hc).2
  refine ⟨by simp, fun c hc ↦ ?_, fun h ↦ ?_, fun h ↦ ?_⟩
  · rw [hmem hc]
    decide
  · exact absurd (hmem h) (by decide)
  · exact absurd (hmem (h.subset (by simp : slash ∈ [slash, star]))) (by decide)

/-- **A value as long as the buffer is not loaded again.** -/
theorem not_saveRoundTrips_of_length {lenv : LoadEnv} (hlenv : lenv.AllocOk)
    (hcallbacks : lenv.cfgCallbacks = []) {env : SaveEnv} {fs : FileSystem} {d : Dict}
    {path key v : CStr} (hkey : d.toMap key = some (.str (some v)))
    (hlen : cfgBufSize ≤ v.length) : ¬ SaveRoundTrips dictHash env lenv fs d path := by
  rintro ⟨fs', file, d', -, -, hload, hmap⟩
  rw [← hmap] at hkey
  have hok : (lenv.withFile path (fileBytes file)).AllocOk := ⟨hlenv.calloc, hlenv.mem⟩
  have hlt := length_of_cfgLoad hok hcallbacks hload hkey
  omega

/-- A configuration of one key, whose line would be a directive. -/
def includeCfg : Dict :=
  ((dictAdd dictHashMurmur .ok dictNew (lit "server:a..include") (some (lit "x"))).map
    Prod.snd).getD dictNew

/-- The line `.include=x` asks for a file that is not there. -/
theorem not_saveRoundTrips_include :
    ¬ SaveRoundTrips dictHashMurmur writableEnv bareEnv (fun _ ↦ none) includeCfg (lit "rig.cfg") := by
  rintro ⟨fs', file, d', hsave, hfile, hload, -⟩
  have hbytes : ((cfgSaveOverrides dictHashMurmur writableEnv (fun _ ↦ none) includeCfg
      (lit "rig.cfg")).bind fun r ↦ (r.2 (lit "rig.cfg")).map fileBytes)
      = some (lit "[general]\n[server:a]\n.include=x\n\n") := by
    decide +kernel
  have hnone : cfgLoad dictHashMurmur (bareEnv.withFile (lit "rig.cfg")
      (lit "[general]\n[server:a]\n.include=x\n\n")) (lit "rig.cfg") = none := by
    rw [← Option.isNone_iff_eq_none]
    decide +kernel
  rw [hsave, Option.bind_some] at hbytes
  dsimp only at hbytes
  rw [hfile, Option.map_some, Option.some.injEq] at hbytes
  rw [hbytes, hnone] at hload
  cases hload

/-- Neither a long value nor the key `server:a..include` survives. -/
theorem not_saveRoundTrips :
    (∃ d, dictAdd dictHashMurmur .ok dictNew (lit "k") (some (List.replicate 32768 0x61))
        = some (true, d) ∧ IsSectionedCfg writableEnv d ∧
      ¬ SaveRoundTrips dictHashMurmur writableEnv bareEnv (fun _ ↦ none) d (lit "rig.cfg")) ∧
    ∃ d, dictAdd dictHashMurmur .ok dictNew (lit "server:a..include") (some (lit "x"))
        = some (true, d) ∧ IsSectionedCfg writableEnv d ∧
      ¬ SaveRoundTrips dictHashMurmur writableEnv bareEnv (fun _ ↦ none) d (lit "rig.cfg") := by
  constructor
  · obtain ⟨d, hadd, -, hmap⟩ := exists_oneKey dictHashMurmur (lit "k")
      (List.replicate 32768 0x61)
    refine ⟨d, hadd, isSectionedCfg_oneKey hmap (.general ⟨by decide, by decide +kernel⟩)
      (by decide) (fun h ↦ absurd h (by decide)) (isTokenValue_replicate 32767), ?_⟩
    exact not_saveRoundTrips_of_length allocOk_bareEnv rfl
      (by rw [hmap, if_pos rfl]) (by rw [List.length_replicate]; decide)
  · obtain ⟨d, hadd, -, hmap⟩ := exists_oneKey dictHashMurmur
      (lit "server:a..include") (lit "x")
    have hname : IsToken (lit "a.") := ⟨by decide, by decide +kernel⟩
    have hinclude : IsToken (lit "include") := ⟨by decide, by decide +kernel⟩
    refine ⟨d, hadd, isSectionedCfg_oneKey hmap (.server hname hinclude) (by decide)
      (fun _ ↦ by decide) ⟨by decide, by decide +kernel, by decide, by decide⟩, ?_⟩
    have hcfg : includeCfg = d := by rw [includeCfg, hadd]; rfl
    exact hcfg ▸ not_saveRoundTrips_include

/-- The name of the server has a dot in it. -/
theorem saveRoundTrips_of_linesFit_server :
    ∃ d, dictAdd dictHashMurmur .ok dictNew (lit "server:my.rig.server.host") (some (lit "shack"))
        = some (true, d) ∧
      SaveRoundTrips dictHashMurmur writableEnv bareEnv (fun _ ↦ none) d (lit "rig.cfg") := by
  obtain ⟨d, hadd, hcoherent, hmap⟩ := exists_oneKey dictHashMurmur
    (lit "server:my.rig.server.host") (lit "shack")
  have hname : IsToken (lit "my.rig") := ⟨by decide, by decide +kernel⟩
  have hhost : IsToken (lit "server.host") := ⟨by decide, by decide +kernel⟩
  refine ⟨d, hadd, saveRoundTrips_of_linesFit hcoherent (writableEnv_succeeds _) allocOk_bareEnv
    (isSectionedCfg_oneKey hmap (.server hname hhost) (by decide) (fun _ ↦ by decide)
      ⟨by decide, by decide +kernel, by decide, by decide⟩) ?_⟩
  intro key localKey text hwritten hkey
  rw [hmap] at hkey
  split_ifs at hkey with hserver
  subst hserver
  obtain rfl : lit "shack" = text := by simpa using hkey
  generalize hk : lit "server:my.rig.server.host" = key at hwritten
  cases hwritten with
  | entry hstart => exact absurd (hk ▸ hstart) (by decide)
  | @server k name localKey hsome hguess =>
    obtain rfl : k = lit "server:my.rig.server.host" := by
      by_contra hne
      rw [hmap, if_neg hne] at hsome
      cases hsome
    obtain ⟨-, n, hn, -, rfl⟩ := hguess
    have hsix : serverDot ((lit "server:my.rig.server.host").drop 7) = some 6 := by
      decide +kernel
    obtain rfl : 6 = n := by simpa [hsix] using hn
    obtain rfl : localKey = lit "server.host" := by
      have hcut : lit "server:my.rig.server.host" = lit "server:" ++
        (((lit "server:my.rig.server.host").drop 7).take 6 ++ dot :: lit "server.host") := rfl
      rw [hcut, List.append_cancel_left_eq] at hk
      exact (List.cons.inj (List.append_cancel_left hk)).2.symm
    exact ⟨by decide, by decide⟩

end Rustyaxe
