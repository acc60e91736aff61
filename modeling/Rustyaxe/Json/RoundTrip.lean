import Mathlib.Data.List.Induction
import Rustyaxe.Json.Keys

/-!
# Through `dict2json` and back

`encodeTree` is the tree `dict2json` builds, with leaves for texts.  A path has a value in it
exactly if some key splits into it, whatever the order of the entries; from that and from what the
keys are like follows what is printed, what the decoder makes of it, and that the entries come back
(`roundTrips_of_keysOk`).
-/

set_option autoImplicit false

namespace Rustyaxe

open JsonNode

/-! ## The tree of a dictionary -/

/-- The tree of `dict2json`, for these entries. -/
def encodeTree (kps : List Keypair) : JsonNode Leaf :=
  kps.foldl (fun root kp ↦ jsonInsert (tokens kp.key) kp.value.leaf root) .null

theorem encodeTree_concat (kps : List Keypair) (kp : Keypair) :
    encodeTree (kps ++ [kp]) = jsonInsert (tokens kp.key) kp.value.leaf (encodeTree kps) := by
  rw [encodeTree, List.foldl_append]
  rfl

theorem dict2json_eq (printf : Printf) {d : Dict} (h : ∀ kp ∈ d.entries, kp.value.Plain) :
    dict2json printf d = dumpJson ((encodeTree d.entries).map Leaf.text) := by
  have htree : ∀ kps : List Keypair, (∀ kp ∈ kps, kp.value.Plain) →
      kps.foldl (fun root kp ↦ jsonInsert (tokens kp.key) (jsonVal printf kp.value) root) .null
        = (encodeTree kps).map Leaf.text := by
    intro kps
    induction kps using List.reverseRecOn with
    | nil => exact fun _ ↦ rfl
    | append_singleton kps kp ih =>
      intro hplain
      rw [encodeTree_concat, map_jsonInsert, List.foldl_append,
        ih fun k hk ↦ hplain k (List.mem_append_left _ hk),
        leaf_text printf (hplain kp (List.mem_append_right _ List.mem_cons_self))]
      rfl
  rw [dict2json, dictEnumerateAll_eq, htree _ h]

theorem tidy_encodeTree {kps : List Keypair} (h : ∀ kp ∈ kps, 0 ∉ kp.key) :
    (encodeTree kps).Tidy Segment := by
  induction kps using List.reverseRecOn with
  | nil => trivial
  | append_singleton kps kp ih =>
    rw [encodeTree_concat]
    refine (ih fun k hk ↦ h k (List.mem_append_left _ hk)).jsonInsert (fun t ht ↦ ?_) _
    exact segment_of_mem_tokens (h kp (List.mem_append_right _ List.mem_cons_self)) ht

/-- A value in the tree is that of an entry. -/
theorem exists_of_get_encodeTree {kps : List Keypair} {path : List CStr} {x : Leaf}
    (h : (encodeTree kps).get path = some x) :
    ∃ kp ∈ kps, tokens kp.key = path ∧ kp.value.leaf = x := by
  induction kps using List.reverseRecOn with
  | nil => simp [encodeTree] at h
  | append_singleton kps kp ih =>
    rw [encodeTree_concat] at h
    have hih : (encodeTree kps).get path = some x →
        ∃ kp' ∈ kps ++ [kp], tokens kp'.key = path ∧ kp'.value.leaf = x := fun h ↦ by
      obtain ⟨kp', hmem, hkp'⟩ := ih h
      exact ⟨kp', List.mem_append_left _ hmem, hkp'⟩
    by_cases hne : tokens kp.key = []
    · rw [hne, jsonInsert] at h
      exact hih h
    · rw [get_jsonInsert hne] at h
      split at h
      · rename_i heq
        exact ⟨kp, List.mem_append_right _ List.mem_cons_self, heq.symm, Option.some_inj.mp h⟩
      · exact hih h

/-- Every entry has left a value in the tree, its own or that of a later one. -/
theorem get_encodeTree_ne_none {kps : List Keypair} {kp : Keypair} (h : kp ∈ kps)
    (hne : tokens kp.key ≠ []) : (encodeTree kps).get (tokens kp.key) ≠ none := by
  induction kps using List.reverseRecOn with
  | nil => simp at h
  | append_singleton kps kp' ih =>
    rw [encodeTree_concat]
    by_cases hne' : tokens kp'.key = []
    · rw [hne', jsonInsert]
      refine ih ((List.mem_append.mp h).resolve_right fun hmem ↦ ?_)
      rw [List.mem_singleton.mp hmem] at hne
      exact hne hne'
    · rw [get_jsonInsert hne']
      split
      · simp
      · rename_i hdiff
        refine ih ((List.mem_append.mp h).resolve_right fun hmem ↦ hdiff ?_)
        rw [List.mem_singleton.mp hmem]

/-- With keys that split differently, every entry has its value in the tree. -/
theorem get_encodeTree {kps : List Keypair} {kp : Keypair} (h : kp ∈ kps)
    (hne : tokens kp.key ≠ [])
    (hinj : ∀ kp' ∈ kps, tokens kp'.key = tokens kp.key → kp' = kp) :
    (encodeTree kps).get (tokens kp.key) = some kp.value.leaf := by
  obtain ⟨x, hx⟩ := Option.ne_none_iff_exists'.mp (get_encodeTree_ne_none h hne)
  obtain ⟨kp', hmem, heq, rfl⟩ := exists_of_get_encodeTree hx
  rw [hx, hinj kp' hmem heq]

/-! ## The round trip -/

section RoundTrip

variable (strtod : CStr → UInt64 × CStr × Bool) (dictHash : CStr → UInt32) (printf : Printf)

/-- What is printed for the dictionary is accepted, and gives one with the same keys and, under
each, the same value. -/
def RoundTrips (d : Dict) : Prop :=
  ∃ d', json2dict strtod dictHash (dict2json printf d) = some (some d') ∧
    ∀ k, Option.Rel SameValue (d.toMap k) (d'.toMap k)

/-- The keys of a dictionary. -/
def Dict.keys (d : Dict) : List CStr := d.entries.map Keypair.key

variable {dictHash}

theorem KeysOk.entry {d : Dict} (hkeys : KeysOk d.keys) {kp : Keypair} (h : kp ∈ d.entries) :
    KeyOk kp.key :=
  hkeys.each _ (List.mem_map_of_mem h)

/-- Every node is on the way to a key. -/
theorem KeysOk.node_ok {d : Dict} (hkeys : KeysOk d.keys)
    (hnul : ∀ kp ∈ d.entries, 0 ∉ kp.key) {n : List CStr × Option Leaf}
    (hn : n ∈ (encodeTree d.entries).nodes) : PathOk n.1 ∧ n.1.length ≤ jsonMaxDepth := by
  obtain ⟨q, x, hx⟩ := exists_get (tidy_encodeTree hnul) hn
  obtain ⟨kp, hmem, heq, -⟩ := exists_of_get_encodeTree hx
  obtain ⟨s, path, hs, -⟩ := head_of_mem_nodes hn
  have hok := hkeys.entry hmem
  refine ⟨(heq ▸ hok.pathOk).of_append (by simp [hs]), ?_⟩
  have hdepth := hok.depth
  rw [← hok.tokens_eq, heq, List.length_append] at hdepth
  omega

section KeysOk

variable {d : Dict} (hd : Coherent dictHash d) (hkeys : KeysOk d.keys)
include hd hkeys

theorem KeysOk.tokens_inj {kp kp' : Keypair} (h : kp ∈ d.entries) (h' : kp' ∈ d.entries)
    (heq : tokens kp'.key = tokens kp.key) : kp' = kp := by
  have hk : kp'.key = kp.key := by
    rw [← (hkeys.entry h).flatKey_tokens, ← (hkeys.entry h').flatKey_tokens, heq]
  exact List.inj_on_of_nodup_map hd.nodup_entries h' h hk

/-- The nodes that show a value are the entries. -/
theorem KeysOk.shown_iff (hnul : ∀ kp ∈ d.entries, 0 ∉ kp.key) {path : List CStr} {x : Leaf} :
    (path, some x) ∈ (encodeTree d.entries).nodes ↔
      ∃ kp ∈ d.entries, tokens kp.key = path ∧ kp.value.leaf = x := by
  rw [mem_nodes_iff (tidy_encodeTree hnul)]
  constructor
  · exact fun h ↦ exists_of_get_encodeTree h.1
  · rintro ⟨kp, hmem, rfl, rfl⟩
    have hok := hkeys.entry hmem
    refine ⟨get_encodeTree hmem hok.pathOk.ne_nil fun kp' h' heq ↦ hkeys.tokens_inj hd hmem h' heq,
      fun q hq ↦ ?_⟩
    by_contra hsome
    obtain ⟨y, hy⟩ := Option.ne_none_iff_exists'.mp hsome
    obtain ⟨kp', hmem', heq, -⟩ := exists_of_get_encodeTree hy
    exact hkeys.prefixFree _ (List.mem_map_of_mem hmem) _ (List.mem_map_of_mem hmem')
      ((hok.dotPrefix_iff (hkeys.entry hmem')).mpr ⟨q, hq, heq⟩)

/-- **Keys that are fine come back**, with their values. -/
theorem roundTrips_of_keysOk (hnul : ∀ kp ∈ d.entries, 0 ∉ kp.key)
    (hplain : ∀ kp ∈ d.entries, kp.value.Plain) : RoundTrips strtod dictHash printf d := by
  have hP : ∀ key, Segment key → 0 ∉ key := fun _ h ↦ h.2.2
  have htidy := tidy_encodeTree hnul
  have hnodup : (((encodeTree d.entries).nodes.map Prod.fst).map flatKey).Nodup := by
    refine List.Nodup.map_on (fun p hp q hq heq ↦ ?_) (nodup_nodes htidy)
    obtain ⟨n, hn, rfl⟩ := List.mem_map.mp hp
    obtain ⟨m, hm, rfl⟩ := List.mem_map.mp hq
    rw [← (hkeys.node_ok hnul hn).1.splitOn_flatKey, heq, (hkeys.node_ok hnul hm).1.splitOn_flatKey]
  have hacc : Acceptable strtod (.obj (encodeTree d.entries).toMembers) :=
    (acceptable_printed_iff strtod hP htidy).mpr ⟨fun n hn ↦ (hkeys.node_ok hnul hn).2,
      (List.pairwise_map.mp (List.pairwise_map.mp hnodup)).imp fun {u v} hne _ ↦ hne.symm⟩
  obtain ⟨d', hjson, hd'⟩ := json2dict_complete strtod dictHash
    (dumpJson_spells (encodeTree d.entries)) hacc
  rw [← dict2json_eq printf hplain] at hjson
  have hmap : ∀ k x, d'.toMap k = some x ↔ ∃ v, d.toMap k = some v ∧ v.leaf.value = x := by
    intro k x
    rw [hd'.table.toCoherent.toMap_eq_some_iff, hd'.holds.mem_iff, leaves_printed strtod hP htidy]
    simp only [List.mem_filterMap, Option.map_eq_some_iff, Prod.exists, Prod.mk.injEq]
    constructor
    · rintro ⟨path, o, hn, leaf, rfl, rfl, rfl⟩
      obtain ⟨kp, hmem, rfl, rfl⟩ := (hkeys.shown_iff hd hnul).mp hn
      refine ⟨kp.value, ?_, rfl⟩
      rw [(hkeys.entry hmem).flatKey_tokens, hd.toMap_eq_some_iff]
      exact List.mem_map.mpr ⟨kp, hmem, rfl⟩
    · rintro ⟨v, hv, rfl⟩
      rw [hd.toMap_eq_some_iff] at hv
      obtain ⟨kp, hmem, heq⟩ := List.mem_map.mp hv
      obtain ⟨rfl, rfl⟩ := Prod.mk.inj heq
      exact ⟨tokens kp.key, some kp.value.leaf,
        (hkeys.shown_iff hd hnul).mpr ⟨kp, hmem, rfl, rfl⟩, _, rfl,
        (hkeys.entry hmem).flatKey_tokens, rfl⟩
  refine ⟨d', hjson, fun k ↦ ?_⟩
  cases hv : d.toMap k with
  | none =>
    have hnone : d'.toMap k = none := by
      by_contra hsome
      obtain ⟨x, hx⟩ := Option.ne_none_iff_exists'.mp hsome
      obtain ⟨v, hv', -⟩ := (hmap k x).mp hx
      rw [hv] at hv'
      simp at hv'
    rw [hnone]
    exact .none
  | some v =>
    rw [(hmap k _).mpr ⟨v, hv, rfl⟩]
    refine .some (leaf_same ?_)
    rw [hd.toMap_eq_some_iff] at hv
    obtain ⟨kp, hmem, heq⟩ := List.mem_map.mp hv
    obtain ⟨-, rfl⟩ := Prod.mk.inj heq
    exact hplain kp hmem

end KeysOk

/-- **`dict2json` is undone by `json2dict`**, for every dictionary of strings, booleans, nulls and
integers whose keys are fine, and for every order in which the hash function puts the entries. -/
theorem dict2json_roundTrips {d : Dict} (hd : Coherent dictHash d) (hkeys : KeysOk d.keys)
    (hnul : ∀ kp ∈ d.entries, 0 ∉ kp.key) (hplain : ∀ kp ∈ d.entries, kp.value.Plain) :
    RoundTrips strtod dictHash printf d :=
  roundTrips_of_keysOk strtod printf hd hkeys hnul hplain

end RoundTrip

/-! ### A dictionary with an object in it -/

/-- A `strtod` that converts nothing. -/
def strtodNone : CStr → UInt64 × CStr × Bool := fun s ↦ (0, s, false)

/-- A `printf` for dictionaries without floating-point values. -/
def printfNone : Printf := ⟨fun _ ↦ [], fun _ ↦ []⟩

/-- The name of a rig, with a quote in it. -/
def rigName : Dict :=
  dictStoreAt dictNew 1 (lit "rig.name") (.str (some (lit "a\"b")))
    (dictHashMurmur (lit "rig.name"))

/-- Its frequency, too. -/
def rigFreq : Dict :=
  dictStoreAt rigName 3 (lit "rig.freq") (.int (-7)) (dictHashMurmur (lit "rig.freq"))

/-- Two settings of a rig, and one beside them. -/
def rigDict : Dict := dictStoreAt rigFreq 5 (lit "vfo") (.bool true) (dictHashMurmur (lit "vfo"))

theorem wellFormed_rigDict : WellFormed dictHashMurmur rigDict := by
  have hname : WellFormed dictHashMurmur rigName :=
    wellFormed_dictNew.store (lit "rig.name") (.str (some (lit "a\"b"))) (by decide +kernel)
      (by decide +kernel) ⟨0, by decide +kernel, by decide +kernel⟩
  have hfreq : WellFormed dictHashMurmur rigFreq :=
    hname.store (lit "rig.freq") (.int (-7)) (by decide +kernel) (by decide +kernel)
      ⟨0, by decide +kernel, by decide +kernel⟩
  exact hfreq.store (lit "vfo") (.bool true) (by decide +kernel) (by decide +kernel)
    ⟨0, by decide +kernel, by decide +kernel⟩

theorem keysOk_rigDict : KeysOk rigDict.keys := by
  have hkeys : rigDict.keys = [lit "rig.name", lit "rig.freq", lit "vfo"] := by decide +kernel
  rw [hkeys]
  refine ⟨fun k hk ↦ ?_, by decide +kernel⟩
  simp only [List.mem_cons, List.not_mem_nil, or_false] at hk
  rcases hk with rfl | rfl | rfl
  · exact ⟨by decide +kernel, by decide +kernel, by decide +kernel⟩
  · exact ⟨by decide +kernel, by decide +kernel, by decide +kernel⟩
  · exact ⟨by decide +kernel, by decide +kernel, by decide +kernel⟩

theorem dict2json_roundTrips_rigDict :
    dict2json printfNone rigDict
        = lit "\x7b\"vfo\":true,\"rig\":\x7b\"freq\":-7,\"name\":\"a\\\"b\"\x7d\x7d" ∧
      RoundTrips strtodNone dictHashMurmur printfNone rigDict := by
  have hentries : rigDict.entries.map Keypair.value
      = [.str (some (lit "a\"b")), .int (-7), .bool true] := by decide +kernel
  refine ⟨by decide +kernel, dict2json_roundTrips strtodNone printfNone
    wellFormed_rigDict.toCoherent keysOk_rigDict (by decide +kernel) fun kp hkp ↦ ?_⟩
  have hmem := List.mem_map_of_mem (f := Keypair.value) hkp
  rw [hentries] at hmem
  simp only [List.mem_cons, List.not_mem_nil, or_false] at hmem
  rcases hmem with h | h | h
  · rw [h, DictValue.Plain]
    decide +kernel
  · rw [h]
    trivial
  · rw [h]
    trivial

end Rustyaxe
