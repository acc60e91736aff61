import Rustyaxe.Config.Get
import Rustyaxe.Dict.Accessors

/-!
# Typed settings

`cfg_set_value` of `config.c`.  The table `defcfg` gives a setting a type, and the text of a new
value must be one of that type.  What the text stands for is `Defconfig.Denotes`, and
`storedSetting` is the text that is stored for it.

The setting is stored under the key that the caller has spelled, while `cfg_get` is asked for the
one of the table; and a minus sign behind a blank escapes the test for it (`cfgSetValue_iff`).
-/

set_option autoImplicit false

namespace Rustyaxe

/-! ## The table -/

/-- `defconfig_type_t` -/
inductive DefconfigType where
  | string | bool | int | uint | float | path | password | enum
  deriving DecidableEq, Repr

/-- `defconfig_t`, without its help text. -/
structure Defconfig where
  key : CStr
  val : Option CStr
  type : DefconfigType
  choices : Option CStr
  deriving DecidableEq, Repr

/-- `cfg_defconfig_find` -/
def cfgDefconfigFind (defcfg : Option (List Defconfig)) (key : CStr) : Option Defconfig :=
  defcfg.bind fun defcfg ↦ defcfg.find? fun entry ↦ strcaseeq entry.key key

/-- `strtok_r(choices, "|", &save)` until it returns `NULL`: empty tokens are skipped. -/
def choiceTokens (choices : CStr) : List CStr := (choices.splitOn 0x7c).filter (· ≠ [])

/-! ## Setting a value -/

/-- `sizeof(canonical)` -/
def canonicalSize : ℕ := 128

/-- `snprintf(canonical, sizeof(canonical), …)` -/
def canonical (text : CStr) : CStr := text.take (canonicalSize - 1)

/-- What `cfg_set_value` stores for a value, if it takes it.  The number that `strtod` reads, if
that is the whole text, is printed by `strtod` in the model. -/
def storedSetting (strtod : CStr → Option CStr) (entry : Defconfig) (value : CStr) : Option CStr :=
  match entry.type with
  | .bool =>
    -- the comparisons are those of `parse_bool_string`
    match parseBoolString value with
    | some b => some (canonical (if b then lit "true" else lit "false"))
    | none => none
  | .int =>
    let (n, ep, erange) := strtoll value
    if erange ∨ ep = value ∨ ep ≠ [] then none else some (canonical (decimalInt n))
  | .uint =>
    if value.head? = some minus then none
    else
      let (n, ep, erange) := strtoull value
      if erange ∨ ep = value ∨ ep ≠ [] then none else some (canonical (decimal n))
  | .float => (strtod value).map canonical
  | .enum =>
    let choices := entry.choices.getD []
    if choices ≠ [] ∧ ¬(choiceTokens choices).any (strcaseeq · value) then none else some value
  | _ => some value

/-- `cfg_set_value` -/
def cfgSetValue (dictHash : CStr → UInt32) (strtod : CStr → Option CStr) (mem : StoreAlloc)
    (defcfg : Option (List Defconfig)) (key value : CStr) (s : CfgState) :
    Option (Bool × CfgState) :=
  match s.cfg, cfgDefconfigFind defcfg key with
  | some cfg, some entry =>
    match storedSetting strtod entry value with
    | none => some (false, s)
    | some stored => do
      let d ← s.dicts cfg
      let r ← dictAdd dictHash mem d key (some stored)
      if r.1 then
        some (true, (reloadEventRun none (reloadEventRun (some key) (s.setDict cfg (some r.2))).2).2)
      else some (false, s.setDict cfg (some r.2))
  | _, _ => some (false, s)

/-! ## The values -/

/-- The words for a truth value. -/
def boolWords (b : Bool) : List CStr :=
  if b then [lit "true", lit "yes", lit "on", lit "1"] else [lit "false", lit "no", lit "off", lit "0"]

/-- What the text of a setting stands for; a choice is written in lower case. -/
inductive SettingValue where
  | bool (b : Bool)
  | int (n : ℤ)
  | choice (name : CStr)
  deriving DecidableEq, Repr

namespace Defconfig

variable (entry : Defconfig)

/-- One of the four types whose values are tested. -/
def Typed : Prop :=
  entry.type = .bool ∨ entry.type = .int ∨ entry.type = .uint ∨ entry.type = .enum

/-- The choices of the entry. -/
def choiceList : List CStr := choiceTokens (entry.choices.getD [])

/-- The text stands for a legal value of the type of the entry. -/
def Denotes (text : CStr) : SettingValue → Prop
  | .bool b => entry.type = .bool ∧ ∃ word ∈ boolWords b, strcaseeq text word
  | .int n => WholeInt text n ∧
    (entry.type = .int ∧ -2 ^ 63 ≤ n ∧ n < 2 ^ 63 ∨ entry.type = .uint ∧ 0 ≤ n ∧ n < 2 ^ 64)
  | .choice name => entry.type = .enum ∧ name = text.map tolower ∧
    ∃ choice ∈ entry.choiceList, strcaseeq choice text

/-- The texts that `cfg_set_value` judges rightly. -/
structure Judged (value : CStr) : Prop where
  /-- A minus sign at the beginning is refused, and one behind a blank is not. -/
  uint : entry.type = .uint → ∀ n, WholeInt value n →
    if value.head? = some minus then n ≠ 0 else 0 ≤ n ∨ n ≤ -2 ^ 64
  /-- An entry without choices takes every text. -/
  enum : entry.type = .enum → entry.choices.getD [] ≠ []

end Defconfig

theorem strcaseeq_digit {d : UInt8} (hd : isdigit d = true) {s : CStr} :
    strcaseeq s [d] = true ↔ s = [d] := by
  have hlower : ∀ c, isdigit (tolower c) = true → tolower c = c :=
    forall_byte (by decide +kernel)
  have hself : tolower d = d := by
    revert hd
    exact forall_byte (p := fun d ↦ isdigit d = true → tolower d = d) (by decide +kernel) d
  rw [strcaseeq, beq_iff_eq, List.map_singleton, hself]
  constructor
  · intro h
    obtain ⟨c, rfl, hc⟩ := List.map_eq_singleton_iff.mp h
    rw [← hlower c (by rw [hc]; exact hd), hc]
  · rintro rfl
    rw [List.map_singleton, hself]

theorem parseBoolString_eq (s : CStr) : parseBoolString s
    = if (boolWords true).any (strcaseeq s) then some true
      else if (boolWords false).any (strcaseeq s) then some false else none := by
  have hone : (s == lit "1") = strcaseeq s (lit "1") :=
    Bool.eq_iff_iff.mpr (beq_iff_eq.trans (strcaseeq_digit (d := 0x31) rfl).symm)
  have hzero : (s == lit "0") = strcaseeq s (lit "0") :=
    Bool.eq_iff_iff.mpr (beq_iff_eq.trans (strcaseeq_digit (d := 0x30) rfl).symm)
  rw [parseBoolString, hone, hzero]
  simp only [boolWords, if_true, Bool.false_eq_true, if_false, List.any_cons, List.any_nil,
    Bool.or_false, Bool.or_assoc]

theorem boolWords_disjoint : ∀ yes ∈ boolWords true, ∀ no ∈ boolWords false,
    strcaseeq yes no = false := by
  decide +kernel

/-- `parse_bool_string` knows the words of a truth value. -/
theorem parseBoolString_iff {s : CStr} {b : Bool} :
    parseBoolString s = some b ↔ ∃ word ∈ boolWords b, strcaseeq s word := by
  have hany (b : Bool) : (boolWords b).any (strcaseeq s) = true ↔
      ∃ word ∈ boolWords b, strcaseeq s word := List.any_eq_true
  rw [parseBoolString_eq, ← hany]
  cases htrue : (boolWords true).any (strcaseeq s) with
  | true =>
    have hfalse : (boolWords false).any (strcaseeq s) = false := by
      obtain ⟨yes, hyes, hs⟩ := (hany true).mp htrue
      rw [Bool.eq_false_iff]
      intro h
      obtain ⟨no, hno, hs'⟩ := (hany false).mp h
      have hne := boolWords_disjoint yes hyes no hno
      rw [strcaseeq, beq_iff_eq] at hs hs'
      rw [strcaseeq, ← hs, hs', beq_self_eq_true] at hne
      cases hne
    cases b with
    | true => simp [htrue]
    | false => simp [hfalse]
  | false =>
    cases b with
    | true => cases (boolWords false).any (strcaseeq s) <;> simp [htrue]
    | false => cases (boolWords false).any (strcaseeq s) <;> simp

theorem Defconfig.Denotes.unique {entry : Defconfig} {text : CStr} {v w : SettingValue}
    (hv : entry.Denotes text v) (hw : entry.Denotes text w) : v = w := by
  cases v with
  | bool b =>
    cases w with
    | bool c =>
      rw [Option.some.inj ((parseBoolString_iff.mpr hv.2).symm.trans (parseBoolString_iff.mpr hw.2))]
    | int n => rcases hw.2 with h | h <;> cases hv.1.symm.trans h.1
    | choice name => cases hv.1.symm.trans hw.1
  | int n =>
    cases w with
    | bool c => rcases hv.2 with h | h <;> cases hw.1.symm.trans h.1
    | int m => rw [hv.1.unique hw.1]
    | choice name => rcases hv.2 with h | h <;> cases hw.1.symm.trans h.1
  | choice name =>
    cases w with
    | bool c => cases hv.1.symm.trans hw.1
    | int n => rcases hw.2 with h | h <;> cases hv.1.symm.trans h.1
    | choice other => rw [hv.2.1, hw.2.1]

/-! ## The stored text -/

theorem canonical_eq {text : CStr} (h : text.length < canonicalSize) : canonical text = text :=
  List.take_of_length_le (Nat.le_sub_one_of_lt h)

theorem canonical_decimalInt {n : ℤ} (hn : n.natAbs ≤ 2 ^ 64) :
    canonical (decimalInt n) = decimalInt n := by
  have h20 : 2 ^ 64 < 10 ^ 20 := by decide
  have hlen := length_decimalInt_le (k := 20) (by decide) (Nat.lt_of_le_of_lt hn h20)
  exact canonical_eq (Nat.lt_of_le_of_lt hlen (by decide))

section Text

variable {strtod : CStr → Option CStr} {entry : Defconfig} {value text : CStr}

theorem storedSetting_bool (htype : entry.type = .bool) :
    storedSetting strtod entry value = some text ↔
      ∃ b, (∃ word ∈ boolWords b, strcaseeq value word) ∧
        text = if b then lit "true" else lit "false" := by
  have hcanonical (b : Bool) : canonical (if b then lit "true" else lit "false")
      = if b then lit "true" else lit "false" := by
    cases b <;> rfl
  simp only [storedSetting, htype, ← parseBoolString_iff]
  cases parseBoolString value with
  | none => simp
  | some b => simp only [hcanonical, Option.some.injEq, exists_eq_left', eq_comm]

/-- The test after a conversion. -/
theorem refused_iff {ep : CStr} {erange : Bool} :
    ¬(erange ∨ ep = value ∨ ep ≠ []) ↔ value ≠ [] ∧ ep = [] ∧ erange = false := by
  constructor
  · intro h
    have hep : ep = [] := by
      by_contra hne
      exact h (.inr (.inr hne))
    subst hep
    exact ⟨fun hvalue ↦ h (.inr (.inl hvalue.symm)), rfl,
      by simpa using fun herange ↦ h (.inl herange)⟩
  · rintro ⟨hvalue, rfl, rfl⟩ h
    rcases h with h | h | h
    · cases h
    · exact hvalue h.symm
    · exact h rfl

theorem storedSetting_int (htype : entry.type = .int) :
    storedSetting strtod entry value = some text ↔
      ∃ n, WholeInt value n ∧ -2 ^ 63 ≤ n ∧ n < 2 ^ 63 ∧ text = decimalInt n := by
  simp only [storedSetting, htype]
  have hwhole (m : ℤ) := strtoll_whole_iff (s := value) (n := m)
  generalize strtoll value = conversion at hwhole ⊢
  obtain ⟨n, ep, erange⟩ := conversion
  by_cases htaken : value ≠ [] ∧ ep = [] ∧ erange = false
  · rw [if_neg (refused_iff.mpr htaken)]
    obtain ⟨hne, rfl, rfl⟩ := htaken
    obtain ⟨hn, hlo, hhi⟩ := (hwhole n).mp ⟨hne, rfl⟩
    rw [canonical_decimalInt (by omega), Option.some.injEq]
    constructor
    · rintro rfl
      exact ⟨n, hn, hlo, hhi, rfl⟩
    · rintro ⟨m, hm, -, -, rfl⟩
      rw [hm.unique hn]
  · rw [if_pos (by rwa [← refused_iff, not_not] at htaken)]
    refine ⟨nofun, fun ⟨m, hm, hlo, hhi, _⟩ ↦ ?_⟩
    obtain ⟨hne, h⟩ := (hwhole m).mpr ⟨hm, hlo, hhi⟩
    cases h
    exact (htaken ⟨hne, rfl, rfl⟩).elim

theorem storedSetting_uint (htype : entry.type = .uint) :
    storedSetting strtod entry value = some text ↔ value.head? ≠ some minus ∧
      ∃ n, WholeInt value n ∧ -2 ^ 64 < n ∧ n < 2 ^ 64 ∧ text = decimalInt (n % 2 ^ 64) := by
  simp only [storedSetting, htype]
  by_cases hminus : value.head? = some minus
  · rw [if_pos hminus]
    exact ⟨nofun, fun h ↦ (h.1 hminus).elim⟩
  · rw [if_neg hminus]
    have hwhole (m : ℕ) := strtoull_whole_iff (s := value) (m := m)
    generalize strtoull value = conversion at hwhole ⊢
    obtain ⟨m, ep, erange⟩ := conversion
    dsimp only
    by_cases htaken : value ≠ [] ∧ ep = [] ∧ erange = false
    · rw [if_neg (refused_iff.mpr htaken)]
      obtain ⟨hne, rfl, rfl⟩ := htaken
      obtain ⟨n, hn, hlo, hhi, hm⟩ := (hwhole m).mp ⟨hne, rfl⟩
      rw [decimal_eq_decimalInt, canonical_decimalInt (by omega), Option.some.injEq, hm]
      constructor
      · rintro rfl
        exact ⟨hminus, n, hn, hlo, hhi, rfl⟩
      · rintro ⟨-, n', hn', -, -, rfl⟩
        rw [hn'.unique hn]
    · rw [if_pos (by rwa [← refused_iff, not_not] at htaken)]
      refine ⟨nofun, fun ⟨_, n, hn, hlo, hhi, _⟩ ↦ ?_⟩
      have hmod : 0 ≤ n % 2 ^ 64 := Int.emod_nonneg n (by decide)
      obtain ⟨hne, h⟩ := (hwhole (n % 2 ^ 64).toNat).mpr
        ⟨n, hn, hlo, hhi, Int.toNat_of_nonneg hmod⟩
      cases h
      exact (htaken ⟨hne, rfl, rfl⟩).elim

theorem storedSetting_enum (htype : entry.type = .enum) :
    storedSetting strtod entry value = some text ↔ text = value ∧
      (entry.choices.getD [] = [] ∨ ∃ choice ∈ entry.choiceList, strcaseeq choice value) := by
  simp only [storedSetting, htype, Defconfig.choiceList, ← List.any_eq_true]
  by_cases hchoices : entry.choices.getD [] = []
  · rw [if_neg fun h ↦ h.1 hchoices]
    simp only [Option.some.injEq, hchoices, true_or, and_true, eq_comm]
  · by_cases hany : (choiceTokens (entry.choices.getD [])).any (strcaseeq · value) = true
    · rw [if_neg fun h ↦ h.2 hany]
      simp only [Option.some.injEq, hany, or_true, and_true, eq_comm]
    · rw [if_pos ⟨hchoices, hany⟩]
      exact ⟨nofun, fun h ↦ (h.2.elim hchoices hany).elim⟩

/-- **What is stored for a legal value** stands for the same value. -/
theorem storedSetting_denotes {v : SettingValue} (hv : entry.Denotes value v)
    (h : storedSetting strtod entry value = some text) : entry.Denotes text v := by
  cases v with
  | bool b =>
    obtain ⟨htype, hb⟩ := hv
    obtain ⟨c, hc, rfl⟩ := (storedSetting_bool htype).mp h
    obtain rfl : c = b :=
      Option.some.inj ((parseBoolString_iff.mpr hc).symm.trans (parseBoolString_iff.mpr hb))
    refine ⟨htype, parseBoolString_iff.mp ?_⟩
    cases c <;> decide +kernel
  | int n =>
    obtain ⟨hn, ⟨htype, hlo, hhi⟩ | ⟨htype, hlo, hhi⟩⟩ := hv
    · obtain ⟨m, hm, -, -, rfl⟩ := (storedSetting_int htype).mp h
      rw [hm.unique hn]
      exact ⟨wholeInt_decimalInt n, .inl ⟨htype, hlo, hhi⟩⟩
    · obtain ⟨-, m, hm, -, -, rfl⟩ := (storedSetting_uint htype).mp h
      rw [hm.unique hn, Int.emod_eq_of_lt hlo hhi]
      exact ⟨wholeInt_decimalInt n, .inr ⟨htype, hlo, hhi⟩⟩
  | choice name =>
    obtain ⟨rfl, -⟩ := (storedSetting_enum hv.1).mp h
    exact hv

theorem SettingValue.exists_iff {P : SettingValue → Prop} : (∃ v, P v) ↔
    (∃ b, P (.bool b)) ∨ (∃ n, P (.int n)) ∨ ∃ name, P (.choice name) := by
  constructor
  · rintro ⟨v, hv⟩
    cases v with
    | bool b => exact .inl ⟨b, hv⟩
    | int n => exact .inr (.inl ⟨n, hv⟩)
    | choice name => exact .inr (.inr ⟨name, hv⟩)
  · rintro (⟨b, h⟩ | ⟨n, h⟩ | ⟨name, h⟩)
    exacts [⟨_, h⟩, ⟨_, h⟩, ⟨_, h⟩]

theorem judged_of_ne (huint : entry.type ≠ .uint) (henum : entry.type ≠ .enum) :
    entry.Judged value :=
  ⟨fun h ↦ (huint h).elim, fun h ↦ (henum h).elim⟩

/-- The texts that are legal, and those that are taken, for a number without a sign. -/
theorem uint_iff_judged (htype : entry.type = .uint) :
    ((value.head? ≠ some minus ∧ ∃ n, WholeInt value n ∧ -2 ^ 64 < n ∧ n < 2 ^ 64) ↔
      ∃ n, WholeInt value n ∧ 0 ≤ n ∧ n < 2 ^ 64) ↔ entry.Judged value := by
  constructor
  · intro h
    refine ⟨fun _ n hn ↦ ?_, fun henum ↦ by cases htype.symm.trans henum⟩
    split
    · next hminus =>
      rintro rfl
      exact (h.mpr ⟨0, hn, by decide, by decide⟩).1 hminus
    · next hminus =>
      by_contra hneg
      obtain ⟨m, hm, hnonneg, -⟩ := h.mp ⟨hminus, n, hn, by omega, by omega⟩
      obtain rfl := hm.unique hn
      omega
  · rintro ⟨hjudged, -⟩
    constructor
    · rintro ⟨hminus, n, hn, hlo, hhi⟩
      have h := hjudged htype n hn
      rw [if_neg hminus] at h
      exact ⟨n, hn, by omega, hhi⟩
    · rintro ⟨n, hn, hlo, hhi⟩
      refine ⟨fun hminus ↦ ?_, n, hn, by omega, hhi⟩
      have h := hjudged htype n hn
      rw [if_pos hminus] at h
      have hneg := hn.nonpos hminus
      omega

/-- **A text is taken exactly if it is legal**, for the texts that are judged rightly and no others. -/
theorem taken_iff_legal (htyped : entry.Typed) :
    ((∃ text, storedSetting strtod entry value = some text) ↔ ∃ v, entry.Denotes value v) ↔
      entry.Judged value := by
  rw [SettingValue.exists_iff]
  rcases htyped with htype | htype | htype | htype
  · refine iff_of_true ?_ (judged_of_ne (by simp [htype]) (by simp [htype]))
    simp only [storedSetting_bool htype, Defconfig.Denotes, htype]
    rw [exists_comm]
    simp
  · refine iff_of_true ?_ (judged_of_ne (by simp [htype]) (by simp [htype]))
    simp only [storedSetting_int htype, Defconfig.Denotes, htype]
    rw [exists_comm]
    simp
  · rw [← uint_iff_judged htype]
    simp only [storedSetting_uint htype, Defconfig.Denotes, htype]
    rw [exists_and_left, exists_comm]
    simp
  · have hjudged : entry.Judged value ↔ entry.choices.getD [] ≠ [] :=
      ⟨fun h ↦ h.enum htype, fun h ↦ ⟨fun huint ↦ (by cases htype.symm.trans huint), fun _ ↦ h⟩⟩
    rw [hjudged]
    simp only [storedSetting_enum htype, Defconfig.Denotes, htype]
    by_cases hchoices : entry.choices.getD [] = []
    · have hnone : entry.choiceList = [] := by
        rw [Defconfig.choiceList, hchoices]
        rfl
      simp [hchoices, hnone]
    · simp [hchoices]

end Text

/-! ## The configuration -/

/-- `cfg_get` in a state, where `defaultCfg` is the pointer `default_cfg`. -/
def CfgState.get (s : CfgState) (dictHash : CStr → UInt32) (defaultCfg : Option ℕ) (key : CStr) :
    Option (Option CStr) :=
  cfgGet dictHash s.live (defaultCfg.bind s.dicts) key

/-- There is a configuration, and nothing has been deleted from a dictionary. -/
structure CfgState.Ready (dictHash : CStr → UInt32) (s : CfgState) : Prop where
  live : ∃ d, s.live = some d
  built : ∀ p d, s.dicts p = some d → Built dictHash d

/-- A call of `cfg_set_value` that does as it should, whatever the outcomes of its allocations: the
legal values are taken, what is looked up for the key of the entry is the value, and nothing has
happened after a refusal. -/
def SetsTyped (dictHash : CStr → UInt32) (strtod : CStr → Option CStr)
    (defcfg : Option (List Defconfig)) (defaultCfg : Option ℕ) (entry : Defconfig) (key value : CStr)
    (s : CfgState) : Prop :=
  ∀ mem, ∃ rc s', cfgSetValue dictHash strtod mem defcfg key value s = some (rc, s') ∧
    (mem = .ok → (rc = true ↔ ∃ v, entry.Denotes value v)) ∧
    (rc = true → ∃ v text, entry.Denotes value v ∧
      s'.get dictHash defaultCfg entry.key = some (some text) ∧ entry.Denotes text v) ∧
    (rc = false → s' = s)

/-- The key is spelled as in the table, or what is there stands for the new value already. -/
def Reaches (dictHash : CStr → UInt32) (defaultCfg : Option ℕ) (entry : Defconfig) (key value : CStr)
    (s : CfgState) : Prop :=
  ∀ v, entry.Denotes value v → key = entry.key ∨
    ∃ text, s.get dictHash defaultCfg entry.key = some (some text) ∧ entry.Denotes text v

section Set

variable {dictHash : CStr → UInt32} {strtod : CStr → Option CStr} {defcfg : Option (List Defconfig)}
  {defaultCfg : Option ℕ} {entry : Defconfig} {key value : CStr} {s : CfgState}

/-- What `cfg_get` finds, in a state whose dictionaries are in order. -/
theorem CfgState.get_eq (hbuilt : ∀ p d, s.dicts p = some d → Built dictHash d) (k : CStr) :
    s.get dictHash defaultCfg k = some (settingOf s.live (defaultCfg.bind s.dicts) k) := by
  refine cfgGet_eq (fun c hc ↦ ?_) (fun c hc ↦ ?_) k
  · obtain ⟨p, -, hp⟩ := Option.bind_eq_some_iff.mp hc
    exact hbuilt p c hp
  · obtain ⟨p, -, hp⟩ := Option.bind_eq_some_iff.mp hc
    exact hbuilt p c hp

theorem CfgState.setDict_self {p : ℕ} {d : Dict} (h : s.dicts p = some d) :
    s.setDict p (some d) = s := by
  rw [CfgState.setDict, ← h, Function.update_eq_self]

/-- A text that is stored for one key. -/
theorem textOf_update {d d' : Dict} {stored : CStr}
    (hmap : d'.toMap = Function.update d.toMap key (some (.str (some stored)))) (k : CStr) :
    textOf (some d') k = if k = key then some stored else textOf (some d) k := by
  rw [textOf, Option.bind_some, hmap, Function.update_apply]
  split <;> rfl

/-- What `cfg_get` finds after a text has been stored in the live configuration, which may be the
defaults as well. -/
theorem settingOf_setDict {p : ℕ} (hcfg : s.cfg = some p) {d d' : Dict} (hp : s.dicts p = some d)
    {stored : CStr} (hmap : d'.toMap = Function.update d.toMap key (some (.str (some stored))))
    (k : CStr) :
    settingOf (s.setDict p (some d')).live (defaultCfg.bind (s.setDict p (some d')).dicts) k
      = if k = key then some stored else settingOf s.live (defaultCfg.bind s.dicts) k := by
  have htext := textOf_update hmap k
  have hlive : (s.setDict p (some d')).live = some d' := by
    have hpointer : (s.setDict p (some d')).cfg = some p := hcfg
    rw [CfgState.live, hpointer, Option.bind_some, setDict_dicts, if_pos rfl]
  have hlive₀ : s.live = some d := by rw [CfgState.live, hcfg, Option.bind_some, hp]
  rw [settingOf, settingOf, hlive, hlive₀, htext]
  split
  · rw [Option.some_or]
  · next hne =>
    rw [if_neg hne] at htext
    refine congrArg _ ?_
    cases defaultCfg with
    | none => rfl
    | some q =>
      rw [Option.bind_some, Option.bind_some, setDict_dicts]
      split
      · next hq => rw [htext, hq, hp]
      · rfl

variable (strtod defaultCfg value) in
/-- **One call of `cfg_set_value`**: a text that is not taken changes nothing, and one that is taken
is stored under the key of the call if the memory suffices. -/
theorem cfgSetValue_step (hs : s.Ready dictHash)
    (hfind : cfgDefconfigFind defcfg key = some entry) (mem : StoreAlloc) :
    ∃ rc s', cfgSetValue dictHash strtod mem defcfg key value s = some (rc, s') ∧
      (rc = false → s' = s) ∧
      (mem = .ok → (rc = true ↔ ∃ text, storedSetting strtod entry value = some text)) ∧
      (rc = true → ∃ text, storedSetting strtod entry value = some text ∧
        ∀ k, s'.get dictHash defaultCfg k
          = if k = key then some (some text) else s.get dictHash defaultCfg k) := by
  obtain ⟨⟨d, hlive⟩, hbuilt⟩ := hs
  obtain ⟨p, hcfg, hp⟩ := Option.bind_eq_some_iff.mp hlive
  simp only [cfgSetValue, hcfg, hfind]
  cases htext : storedSetting strtod entry value with
  | none => exact ⟨false, s, rfl, fun _ ↦ rfl, fun _ ↦ by simp, nofun⟩
  | some stored =>
    obtain ⟨rc, d', hstore, hd', hmap, hok⟩ :=
      (hbuilt p d hp).dictStore_spec mem key (.str (some stored))
    have hstep := (hbuilt p d hp).dictStore_step hstore
    have hadd : dictAdd dictHash mem d key (some stored) = some (rc, d') := hstore
    simp only [hp, hadd, Option.bind_eq_bind, Option.bind_some]
    cases rc with
    | false =>
      cases hstep
      refine ⟨false, s, by rw [if_neg Bool.false_ne_true, CfgState.setDict_self hp], fun _ ↦ rfl,
        fun h ↦ ?_, nofun⟩
      cases hok h
    | true =>
      refine ⟨true, _, if_pos rfl, nofun, fun _ ↦ ⟨fun _ ↦ ⟨stored, rfl⟩, fun _ ↦ rfl⟩,
        fun _ ↦ ⟨stored, rfl, fun k ↦ ?_⟩⟩
      have hbuilt' : ∀ q c, (s.setDict p (some d')).dicts q = some c → Built dictHash c := by
        intro q c hq
        rw [setDict_dicts] at hq
        split at hq
        · cases hq
          exact hd'
        · exact hbuilt q c hq
      have hget : CfgState.get (s.setDict p (some d')) dictHash defaultCfg k
          = if k = key then some (some stored) else s.get dictHash defaultCfg k := by
        rw [CfgState.get_eq hbuilt', CfgState.get_eq hbuilt,
          settingOf_setDict hcfg hp (by rw [hmap, if_pos rfl]) k]
        split <;> rfl
      exact hget

/-- **`cfg_set_value` does as it should** exactly if the text is judged rightly, and the key is
spelled as in the table or the value is there already. -/
theorem cfgSetValue_iff (hs : s.Ready dictHash)
    (hfind : cfgDefconfigFind defcfg key = some entry) (htyped : entry.Typed) :
    SetsTyped dictHash strtod defcfg defaultCfg entry key value s ↔
      entry.Judged value ∧ Reaches dictHash defaultCfg entry key value s := by
  constructor
  · intro h
    obtain ⟨rc, s', hcall, hlegal, hset, -⟩ := h .ok
    obtain ⟨rc', s'', hcall', -, htaken, hstored⟩ :=
      cfgSetValue_step strtod defaultCfg value hs hfind .ok
    cases hcall.symm.trans hcall'
    refine ⟨(taken_iff_legal htyped).mp ((htaken rfl).symm.trans (hlegal rfl)), fun v hv ↦ ?_⟩
    obtain ⟨w, text, hw, hfound, hdenotes⟩ := hset ((hlegal rfl).mpr ⟨v, hv⟩)
    obtain ⟨stored, -, hget⟩ := hstored ((hlegal rfl).mpr ⟨v, hv⟩)
    rw [hget] at hfound
    split at hfound
    · next hkey => exact .inl hkey.symm
    · exact .inr ⟨text, hfound, hw.unique hv ▸ hdenotes⟩
  · rintro ⟨hjudged, hreaches⟩ mem
    obtain ⟨rc, s', hcall, hfalse, htaken, hget⟩ :=
      cfgSetValue_step strtod defaultCfg value hs hfind mem
    have hlegal : (∃ text, storedSetting strtod entry value = some text) ↔
        ∃ v, entry.Denotes value v :=
      (taken_iff_legal htyped).mpr hjudged
    refine ⟨rc, s', hcall, fun hmem ↦ (htaken hmem).trans hlegal, fun hrc ↦ ?_, hfalse⟩
    obtain ⟨stored, hstored, hget⟩ := hget hrc
    obtain ⟨v, hv⟩ := hlegal.mp ⟨stored, hstored⟩
    have hdenotes := storedSetting_denotes hv hstored
    by_cases hkey : entry.key = key
    · exact ⟨v, stored, hv, by rw [hget, if_pos hkey], hdenotes⟩
    · obtain heq | ⟨text, hfound, htext⟩ := hreaches v hv
      · exact (hkey heq.symm).elim
      · exact ⟨v, text, hv, by rw [hget, if_neg hkey, hfound], htext⟩

end Set

/-- The entry for a port. -/
def portEntry : Defconfig := ⟨lit "port", none, .uint, none⟩

/-- An empty configuration, without defaults and callbacks. -/
def emptyCfg : CfgState where
  dicts p := if p = 0 then some dictNew else none
  cfg := some 0
  reloadEvents := []
  runs := []
  calls := []

theorem ready_emptyCfg : emptyCfg.Ready dictHashMurmur where
  live := ⟨dictNew, rfl⟩
  built p d h := by
    rw [emptyCfg] at h
    dsimp only at h
    split at h
    · cases h
      exact built_dictNew
    · cases h

theorem cfgSetValue_iff_port :
    SetsTyped dictHashMurmur (fun _ ↦ none) (some [portEntry]) none portEntry (lit "port") (lit "8080")
        emptyCfg ↔
      portEntry.Judged (lit "8080") ∧
        Reaches dictHashMurmur none portEntry (lit "port") (lit "8080") emptyCfg :=
  cfgSetValue_iff ready_emptyCfg (by decide +kernel) (.inr (.inr (.inl rfl)))

/-- What is set as `Port` is not found as `port`. -/
theorem not_setsTyped_Port : cfgDefconfigFind (some [portEntry]) (lit "Port") = some portEntry ∧
    ¬SetsTyped dictHashMurmur (fun _ ↦ none) (some [portEntry]) none portEntry (lit "Port")
      (lit "8080") emptyCfg := by
  refine ⟨by decide +kernel, fun h ↦ ?_⟩
  obtain ⟨rc, s', hcall, -, hset, -⟩ := h .ok
  have hcalled : (cfgSetValue dictHashMurmur (fun _ ↦ none) .ok (some [portEntry]) (lit "Port")
      (lit "8080") emptyCfg).map (fun r ↦ (r.1, r.2.get dictHashMurmur none portEntry.key))
      = some (true, some none) := by
    decide +kernel
  rw [hcall, Option.map_some, Option.some.injEq, Prod.mk.injEq] at hcalled
  obtain ⟨v, text, -, hfound, -⟩ := hset hcalled.1
  cases hfound.symm.trans hcalled.2

end Rustyaxe
