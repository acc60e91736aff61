import Mathlib.Data.List.Perm.Subperm
import Rustyaxe.Config.Modules

/-!
# The order of the modules

`cfg_modules_get` numbers the modules by their places in the hash table.  The section that they come
from has an order of its own, so the two agree only by chance; and a name with `.options` in it is
cut off there (`cfgModulesGet_iff`).
-/

set_option autoImplicit false

namespace Rustyaxe

open Assignments

/-! ## The lines of a section -/

/-- The name that a line lists. -/
def lineName (buf : CStr) : CStr :=
  ((buf.takeWhile (· ≠ equals)).rdropWhile isspace).dropWhile isspace

/-- The options that a line lists. -/
def lineOptions (buf : CStr) : CStr :=
  ((buf.dropWhile (· ≠ equals)).tail.dropWhile isspace).rdropWhile isspace

/-- A module, without `.so` at its end, and its options. -/
def listedModule (buf : CStr) : CStr × CStr := (dropSo (lineName buf), lineOptions buf)

/-- The lines of a section, with distinct names. -/
structure ListsModules (lines : List CStr) : Prop where
  setting : ∀ buf ∈ lines, equals ∈ buf
  name_ne : ∀ buf ∈ lines, lineName buf ≠ []
  name_lt : ∀ buf ∈ lines, (lineName buf).length < 100
  nodup : (lines.map lineName).Nodup

/-- The lines of `[modules]` go to `cfg_modules_section_cb` one after the other. -/
def loadModules (dictHash : CStr → UInt32) (path : CStr) : (line : ℕ) → List CStr → Dict → Option Dict
  | _, [], cfg => some cfg
  | line, buf :: lines, cfg => do
    let r ← cfgModulesSectionCb dictHash true .ok path line (lit "modules") buf cfg
    loadModules dictHash path (line + 1) lines r.2

/-- What is stored for a line. -/
def storedLine (buf : CStr) : CStr × CStr := (moduleKey (listedModule buf).1, (listedModule buf).2)

theorem length_dropSo_le (name : CStr) : (dropSo name).length ≤ name.length := by
  rw [dropSo]
  split
  · exact List.length_take_le' _ _
  · exact Nat.le_refl _

theorem length_moduleKey (name : CStr) : (moduleKey name).length = name.length + 15 := by
  rw [moduleKey, List.length_append, List.length_append]
  have h15 : (lit "module:").length = 7 ∧ (lit ".options").length = 8 := ⟨rfl, rfl⟩
  omega

section Load

variable {dictHash : CStr → UInt32}

theorem cfgModulesSectionCb_line {buf : CStr} (hset : equals ∈ buf) (hne : lineName buf ≠ [])
    (hlt : (lineName buf).length < 100) (path : CStr) (line : ℕ) {d : Dict} (hd : Built dictHash d) :
    ∃ d', cfgModulesSectionCb dictHash true .ok path line (lit "modules") buf d = some (true, d') ∧
      Built dictHash d' ∧ d'.toMap = overlay d.toMap [storedAs (storedLine buf)] := by
  obtain ⟨rc, d', hstore, hd', hmap, hrc⟩ :=
    hd.dictStore_spec .ok (moduleKey (listedModule buf).1) (.str (some (listedModule buf).2))
  obtain rfl := hrc rfl
  refine ⟨d', ?_, hd', by rw [hmap, if_pos rfl, storedAs, overlay_singleton]; rfl⟩
  have hlen := length_dropSo_le (lineName buf)
  have hkey := length_moduleKey (dropSo (lineName buf))
  have hname : ¬moduleNameSize ≤ (lineName buf).length := by
    rw [moduleNameSize]
    omega
  have hroom : ¬moduleKeySize ≤ (moduleKey (dropSo (lineName buf))).length := by
    rw [moduleKeySize]
    omega
  rw [cfgModulesSectionCb, if_neg (by simp), if_neg (by simp), if_neg (by simpa using hset)]
  dsimp only
  rw [← lineName, ← lineOptions, if_neg hne, if_neg hname, if_neg hroom]
  exact hstore

/-- **A section is loaded** as what its lines list. -/
theorem loadModules_spec (path : CStr) : ∀ {lines : List CStr} (line : ℕ) {d : Dict},
    ListsModules lines → Built dictHash d →
    ∃ d', loadModules dictHash path line lines d = some d' ∧ Built dictHash d' ∧
      d'.toMap = overlay d.toMap (lines.map fun buf ↦ storedAs (storedLine buf))
  | [], _, d, _, hd => ⟨d, rfl, hd, rfl⟩
  | buf :: lines, line, d, hlines, hd => by
    obtain ⟨d₁, hcb, hd₁, hmap₁⟩ := cfgModulesSectionCb_line (hlines.setting buf List.mem_cons_self)
      (hlines.name_ne buf List.mem_cons_self) (hlines.name_lt buf List.mem_cons_self) path line hd
    obtain ⟨d', hload, hd', hmap⟩ := loadModules_spec path (line + 1)
      ⟨fun b hb ↦ hlines.setting b (List.mem_cons_of_mem _ hb),
        fun b hb ↦ hlines.name_ne b (List.mem_cons_of_mem _ hb),
        fun b hb ↦ hlines.name_lt b (List.mem_cons_of_mem _ hb),
        (List.nodup_cons.mp hlines.nodup).2⟩ hd₁
    refine ⟨d', by rw [loadModules, hcb]; exact hload, hd', ?_⟩
    rw [hmap, hmap₁, ← overlay_append]
    rfl

end Load

/-! ## The names that come back -/

theorem options_of_startsWith {c : UInt8} {name : CStr}
    (h : lit ".options" <+: c :: (name ++ lit ".options")) : lit ".options" <:+: c :: name := by
  by_cases hlen : (lit ".options").length ≤ (c :: name).length
  · exact (List.prefix_of_prefix_length_le h (List.prefix_append (c :: name) _) hlen).isInfix
  · -- the dot behind a shorter name would be another character of `.options`
    have hdots : ∀ k < 8, 1 ≤ k → (lit ".options")[k]? ≠ (lit ".options")[0]? := by decide
    obtain ⟨rest, hrest⟩ := h
    have hk : (c :: name).length < 8 := Nat.not_le.mp hlen
    have hget := congrArg (fun l : CStr ↦ l[(c :: name).length]?) hrest
    rw [← List.cons_append] at hget
    rw [List.getElem?_append_left hk, List.getElem?_append_right (Nat.le_refl _), Nat.sub_self] at hget
    exact (hdots _ hk (by simp) hget).elim

/-- `strstr` finds the end of the name, or the first `.options` in it. -/
theorem strstr_options : ∀ name : CStr, ∃ n,
    strstr (lit ".options") (name ++ lit ".options") = some n ∧ n ≤ name.length ∧ ¬lit ".options" <:+: name.take n ∧
    (¬lit ".options" <:+: name → n = name.length)
  | [] => by
    have hnil : ¬lit ".options" <:+: [] := fun h ↦ absurd h.length_le (by decide)
    exact ⟨0, rfl, Nat.le_refl 0, hnil, fun _ ↦ rfl⟩
  | c :: name => by
    rw [List.cons_append, strstr, startsWith]
    by_cases hpre : lit ".options" <+: c :: (name ++ lit ".options")
    · rw [if_pos (List.isPrefixOf_iff_prefix.mpr hpre)]
      refine ⟨0, rfl, Nat.zero_le _, ?_, fun hno ↦ ?_⟩
      · exact fun h ↦ absurd h.length_le (by rw [List.take_zero]; decide)
      · exact (hno (options_of_startsWith hpre)).elim
    · rw [if_neg (by simpa [List.isPrefixOf_iff_prefix] using hpre)]
      obtain ⟨n, hn, hle, hno, heq⟩ := strstr_options name
      refine ⟨n + 1, by rw [hn, Option.map_some], Nat.succ_le_succ hle, fun h ↦ ?_, fun h ↦ ?_⟩
      · rw [List.take_succ_cons, List.infix_cons_iff] at h
        refine h.elim (fun h ↦ hpre (h.trans ?_)) hno
        exact List.cons_prefix_cons.mpr
          ⟨rfl, (List.take_prefix _ _).trans (List.prefix_append _ _)⟩
      · rw [List.length_cons, heq fun hname ↦ h (List.infix_cons_iff.mpr (.inr hname))]

/-- **The name that comes back** has no `.options` in it, and is the name that was stored if that
had none. -/
theorem moduleOf_fst {kp : Keypair} {name : CStr} (hkey : kp.key = moduleKey name)
    (hlt : name.length < 100) :
    ¬lit ".options" <:+: (moduleOf kp).1 ∧ (¬lit ".options" <:+: name → (moduleOf kp).1 = name) := by
  obtain ⟨n, hn, hle, hno, heq⟩ := strstr_options name
  have hdrop : kp.key.drop 7 = name ++ lit ".options" := by
    rw [hkey, moduleKey, List.append_assoc]
    exact @List.drop_left _ (lit "module:") _
  have hname : (moduleOf kp).1 = name.take n := by
    have hsize : ¬moduleNameSize ≤ n := by
      rw [moduleNameSize]
      omega
    rw [moduleOf, hdrop, hn]
    dsimp only [Option.getD_some]
    rw [if_neg hsize, List.take_append_of_le_length hle]
  rw [hname]
  refine ⟨hno, fun h ↦ ?_⟩
  rw [heq h, List.take_length]

/-! ## The order -/

section Order

variable {dictHash : CStr → UInt32}

/-- The entries of the modules, in the order of the table. -/
def moduleEntries (d : Dict) : List Keypair := d.entries.filter fun kp ↦ isModuleKey kp.key

/-- The keys that are stored for the lines. -/
def storedKeys (lines : List CStr) : List CStr := lines.map fun buf ↦ (storedLine buf).1

variable {lines : List CStr} {d₀ d : Dict}
  (hmap : d.toMap = overlay d₀.toMap (lines.map fun buf ↦ storedAs (storedLine buf)))
include hmap

/-- What a line has stored is there. -/
theorem mem_keys_of_line {key : CStr} (hkey : key ∈ storedKeys lines) :
    key ∈ (moduleEntries d).map Keypair.key := by
  obtain ⟨buf, hbuf, rfl⟩ := List.mem_map.mp hkey
  have hsome : (d.toMap (storedLine buf).1).isSome := by
    have hlast : (lastValue (lines.map fun buf ↦ storedAs (storedLine buf))
        (storedLine buf).1).isSome :=
      lastValue_isSome_of_mem (List.mem_map.mpr ⟨buf, hbuf, rfl⟩)
    rw [hmap, overlay, Option.isSome_or, hlast, Bool.true_or]
  obtain ⟨v, hv⟩ := Option.isSome_iff_exists.mp hsome
  obtain ⟨kp, hkp, hkey, -⟩ := Dict.exists_mem_of_toMap hv
  refine List.mem_map.mpr ⟨kp, List.mem_filter.mpr ⟨hkp, ?_⟩, hkey⟩
  rw [hkey]
  exact isModuleKey_moduleKey _

variable (hd : Coherent dictHash d) (hno : ∀ key, isModuleKey key = true → d₀.toMap key = none)
include hd hno

/-- An entry of a module is one that a line has stored. -/
theorem exists_line_of_mem {kp : Keypair} (hkp : kp ∈ moduleEntries d) :
    ∃ buf ∈ lines, kp.key = (storedLine buf).1 ∧ kp.value = .str (some (lineOptions buf)) := by
  obtain ⟨hmem, hkey⟩ := List.mem_filter.mp hkp
  have hval := hd.toMap_of_mem hmem
  rw [hmap, overlay, hno _ hkey, Option.or_none] at hval
  obtain ⟨buf, hbuf, heq⟩ := List.mem_map.mp (mem_of_lastValue hval)
  rw [storedAs, Prod.mk.injEq] at heq
  exact ⟨buf, hbuf, heq.1.symm, heq.2.symm⟩

/-- **The keys of the modules stand in the table in the order of the section** exactly if they are
enumerated in this order. -/
theorem keys_eq_iff : (moduleEntries d).map Keypair.key = storedKeys lines ↔
    (storedKeys lines).Sublist (d.entries.map Keypair.key) := by
  constructor
  · intro h
    rw [← h]
    exact List.filter_sublist.map _
  · intro h
    have hall : (storedKeys lines).filter isModuleKey = storedKeys lines :=
      List.filter_eq_self.mpr fun key hkey ↦ by
        obtain ⟨buf, -, rfl⟩ := List.mem_map.mp hkey
        exact isModuleKey_moduleKey _
    have hsub : (storedKeys lines).Sublist ((moduleEntries d).map Keypair.key) := by
      have hfilter := h.filter isModuleKey
      rw [hall, List.filter_map] at hfilter
      exact hfilter
    have hnodup : ((moduleEntries d).map Keypair.key).Nodup :=
      (List.filter_sublist.map _).nodup hd.nodup_entries
    refine (hsub.eq_of_length_le ?_).symm
    have hsubset : (moduleEntries d).map Keypair.key ⊆ storedKeys lines := fun key hkey ↦ by
      obtain ⟨kp, hkp, rfl⟩ := List.mem_map.mp hkey
      obtain ⟨buf, hbuf, hk, -⟩ := exists_line_of_mem hmap hd hno hkp
      exact List.mem_map.mpr ⟨buf, hbuf, hk.symm⟩
    exact (List.subperm_of_subset hnodup hsubset).length_le

/-- The options of a line, if no other line is stored under its key. -/
theorem toMap_storedLine (hnodup : (storedKeys lines).Nodup) {buf : CStr} (hbuf : buf ∈ lines) :
    d.toMap (storedLine buf).1 = some (.str (some (lineOptions buf))) := by
  obtain ⟨kp, hkp, hkey⟩ := List.mem_map.mp (mem_keys_of_line hmap (List.mem_map.mpr ⟨buf, hbuf, rfl⟩))
  obtain ⟨buf', hbuf', hkey', hval⟩ := exists_line_of_mem hmap hd hno hkp
  obtain rfl : buf' = buf := List.inj_on_of_nodup_map hnodup hbuf' hbuf (hkey'.symm.trans hkey)
  rw [← hkey, hd.toMap_of_mem (List.mem_filter.mp hkp).1, hval]

/-- **The modules are enumerated as listed** exactly if they stand in the table in this order, and
no name has `.options` in it. -/
theorem modules_eq_iff (hlines : ListsModules lines) :
    (moduleEntries d).map moduleOf = lines.map listedModule ↔
      (storedKeys lines).Sublist (d.entries.map Keypair.key) ∧
        ∀ buf ∈ lines, ¬lit ".options" <:+: (listedModule buf).1 := by
  have hshort : ∀ buf ∈ lines, (listedModule buf).1.length < 100 := fun buf hbuf ↦
    Nat.lt_of_le_of_lt (length_dropSo_le _) (hlines.name_lt buf hbuf)
  rw [← keys_eq_iff hmap hd hno]
  constructor
  · intro h
    have hfree : ∀ buf ∈ lines, ¬lit ".options" <:+: (listedModule buf).1 := by
      intro buf hbuf
      obtain ⟨kp, hkp, hmodule⟩ := List.mem_map.mp (h ▸ List.mem_map.mpr ⟨buf, hbuf, rfl⟩)
      obtain ⟨buf', hbuf', hkey, -⟩ := exists_line_of_mem hmap hd hno hkp
      rw [← hmodule]
      exact (moduleOf_fst hkey (hshort buf' hbuf')).1
    refine ⟨?_, hfree⟩
    -- the names are the stored ones, so the keys can be read off them
    have hkeys : (moduleEntries d).map Keypair.key
        = ((moduleEntries d).map moduleOf).map fun m ↦ moduleKey m.1 := by
      rw [List.map_map]
      refine List.map_congr_left fun kp hkp ↦ ?_
      obtain ⟨buf, hbuf, hkey, -⟩ := exists_line_of_mem hmap hd hno hkp
      rw [Function.comp_apply, (moduleOf_fst hkey (hshort buf hbuf)).2 (hfree buf hbuf)]
      exact hkey
    rw [hkeys, h, List.map_map]
    rfl
  · rintro ⟨hkeys, hfree⟩
    have hnodup : (storedKeys lines).Nodup := by
      rw [← hkeys]
      exact (List.filter_sublist.map _).nodup hd.nodup_entries
    -- what is enumerated for an entry is a matter of its key
    have hmodule : ∀ kp ∈ moduleEntries d, ∀ buf ∈ lines, kp.key = (storedLine buf).1 →
        moduleOf kp = listedModule buf := by
      intro kp hkp buf hbuf hkey
      have hval := hd.toMap_of_mem (List.mem_filter.mp hkp).1
      rw [hkey, toMap_storedLine hmap hd hno hnodup hbuf, Option.some.injEq] at hval
      refine Prod.ext ((moduleOf_fst hkey (hshort buf hbuf)).2 (hfree buf hbuf)) ?_
      rw [moduleOf, ← hval]
      rfl
    have hlen : (moduleEntries d).length = lines.length := by
      have h := congrArg List.length hkeys
      rwa [storedKeys, List.length_map, List.length_map] at h
    refine List.ext_getElem (by rw [List.length_map, List.length_map, hlen]) fun i hi hi' ↦ ?_
    rw [List.length_map] at hi hi'
    rw [List.getElem_map, List.getElem_map]
    refine hmodule _ (List.getElem_mem hi) _ (List.getElem_mem hi') ?_
    have hget := congrArg (fun l : List CStr ↦ l[i]?) hkeys
    dsimp only [storedKeys] at hget
    rw [List.getElem?_map, List.getElem?_map, List.getElem?_eq_getElem hi,
      List.getElem?_eq_getElem hi'] at hget
    exact Option.some.inj hget

end Order

/-! ## The enumeration -/

/-- **`cfg_modules_get` returns the modules of a section as listed**, and then `NULL`, exactly if
their keys stand in the hash table in the order of the section, and no name has `.options` in it. -/
theorem cfgModulesGet_iff {dictHash : CStr → UInt32} {d₀ : Dict} (hd₀ : Built dictHash d₀)
    (hno : ∀ key, isModuleKey key = true → d₀.toMap key = none) {lines : List CStr}
    (hlines : ListsModules lines) (path : CStr) (line : ℕ) :
    ∃ d, loadModules dictHash path line lines d₀ = some d ∧
      ((∀ index, cfgModulesGet d index = (lines.map listedModule)[index]?) ↔
        (storedKeys lines).Sublist (d.entries.map Keypair.key) ∧
          ∀ buf ∈ lines, ¬lit ".options" <:+: (listedModule buf).1) := by
  obtain ⟨d, hload, hd, hmap⟩ := loadModules_spec path line hlines hd₀
  refine ⟨d, hload, ?_⟩
  rw [← modules_eq_iff hmap hd.toCoherent hno hlines]
  constructor
  · intro h
    refine List.ext_getElem? fun index ↦ ?_
    rw [← h index, cfgModulesGet_eq, dictEnumerateAll_eq, List.getElem?_map]
    rfl
  · intro h index
    rw [← h, cfgModulesGet_eq, dictEnumerateAll_eq, List.getElem?_map]
    rfl

/-- Two modules, which stand in the order of the table. -/
def mqttGtk : List CStr := [lit "mqtt = host=x", lit "gtk.so = a=b"]

theorem listsModules_mqttGtk : ListsModules mqttGtk where
  setting := by decide +kernel
  name_ne := by decide +kernel
  name_lt := by decide +kernel
  nodup := by decide +kernel

theorem cfgModulesGet_iff_mqttGtk :
    ∃ d, loadModules dictHashMurmur (lit "a.cfg") 1 mqttGtk dictNew = some d ∧
      ∀ index, cfgModulesGet d index
        = [(lit "mqtt", lit "host=x"), (lit "gtk", lit "a=b")][index]? := by
  have hlisted : mqttGtk.map listedModule = [(lit "mqtt", lit "host=x"), (lit "gtk", lit "a=b")] := by
    decide +kernel
  have hkeys : (loadModules dictHashMurmur (lit "a.cfg") 1 mqttGtk dictNew).map
      (fun d ↦ d.entries.map Keypair.key) = some (storedKeys mqttGtk) := by
    decide +kernel
  obtain ⟨d, hload, hiff⟩ := cfgModulesGet_iff built_dictNew (fun _ _ ↦ rfl) listsModules_mqttGtk
    (lit "a.cfg") 1
  rw [hload, Option.map_some, Option.some.injEq] at hkeys
  rw [← hlisted]
  exact ⟨d, hload, hiff.mpr ⟨hkeys ▸ .refl _, by decide +kernel⟩⟩

/-- `mqtt` is listed behind `gtk`, and enumerated before it. -/
theorem not_modulesAsListed_mqtt : ListsModules [lit "gtk=", lit "mqtt="] ∧
    ∃ d, loadModules dictHashMurmur (lit "a.cfg") 1 [lit "gtk=", lit "mqtt="] dictNew = some d ∧
      ¬∀ index, cfgModulesGet d index = ([lit "gtk=", lit "mqtt="].map listedModule)[index]? := by
  have hfirst : (loadModules dictHashMurmur (lit "a.cfg") 1 [lit "gtk=", lit "mqtt="] dictNew).map
      (cfgModulesGet · 0) = some (some (lit "mqtt", [])) := by
    decide +kernel
  refine ⟨⟨by decide +kernel, by decide +kernel, by decide +kernel, by decide +kernel⟩, ?_⟩
  obtain ⟨d, hd, hmqtt⟩ := Option.map_eq_some_iff.mp hfirst
  refine ⟨d, hd, fun h ↦ ?_⟩
  rw [h 0] at hmqtt
  exact absurd hmqtt (by decide +kernel)

end Rustyaxe
