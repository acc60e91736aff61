import Rustyaxe.Config.Reload
import Rustyaxe.Dict.AddOnly

/-!
# Looking up a setting

`cfg_get` of `config.c`: a setting is read from the live configuration, and from the defaults where
that has none.  `Readable.cfgGet_eq` says so without the hash tables.
-/

set_option autoImplicit false

namespace Rustyaxe

section Hash

variable (dictHash : CStr → UInt32)

/-- `dict_get(d, key, NULL)`, where `d` may be `NULL`. -/
def dictGetOf : (d : Option Dict) → (key : CStr) → Option (Option CStr)
  | none, _ => some none
  | some d, key => dictGet dictHash d key none

/-- `cfg_get`, with the dictionaries that `cfg` and `default_cfg` point to. -/
def cfgGet (cfg defaultCfg : Option Dict) (key : CStr) : Option (Option CStr) := do
  let p ← dictGetOf dictHash cfg key
  if p.isSome then some p else dictGetOf dictHash defaultCfg key

end Hash

/-- A table in which every lookup returns. -/
structure Readable (dictHash : CStr → UInt32) (d : Dict) : Prop extends Coherent dictHash d where
  returns : LookupsReturn dictHash d

/-- The text that a dictionary has for a key. -/
def textOf (d : Option Dict) (key : CStr) : Option CStr :=
  (d.bind (·.toMap key)).bind enumerateValue

/-- The text of a setting. -/
def settingOf (cfg defaultCfg : Option Dict) (key : CStr) : Option CStr :=
  (textOf cfg key).or (textOf defaultCfg key)

section Spec

variable {dictHash : CStr → UInt32}

theorem Built.readable {d : Dict} (hd : Built dictHash d) : Readable dictHash d :=
  ⟨hd.toCoherent, hd.toCoherent.lookupsReturn_of_hasNull hd.null⟩

theorem Readable.dictGetKp_eq {d : Dict} (hd : Readable dictHash d) (key : CStr) :
    dictGetKp dictHash d key = some (d.entryOf key) := by
  obtain ⟨i, hi⟩ := hd.returns key
  have hreturns : ∃ r, dictGetKp dictHash d key = some r := by
    rw [dictGetKp, hi]
    cases hs : d.slot i <;> exact ⟨_, by simp [hs]; rfl⟩
  obtain ⟨r, hr⟩ := hreturns
  rw [hr, hd.dictGetKp_eq_some hr]

theorem Readable.dictGetOf_eq {d : Option Dict} (hd : ∀ c ∈ d, Readable dictHash c) (key : CStr) :
    dictGetOf dictHash d key = some (textOf d key) := by
  cases d with
  | none => rfl
  | some d =>
    rw [dictGetOf, dictGet, (hd d rfl).dictGetKp_eq, textOf, Option.bind_some, Dict.toMap]
    cases d.entryOf key with
    | none => rfl
    | some kp =>
      obtain ⟨k, v, h⟩ := kp
      cases v <;> rfl

/-- **`cfg_get` reads the live configuration, and the defaults where that has no text.** -/
theorem Readable.cfgGet_eq {cfg defaultCfg : Option Dict} (hcfg : ∀ c ∈ cfg, Readable dictHash c)
    (hdefault : ∀ c ∈ defaultCfg, Readable dictHash c) (key : CStr) :
    cfgGet dictHash cfg defaultCfg key = some (settingOf cfg defaultCfg key) := by
  rw [cfgGet, dictGetOf_eq hcfg, dictGetOf_eq hdefault, settingOf]
  cases textOf cfg key <;> rfl

theorem dictGetOf_eq {d : Option Dict} (hd : ∀ c ∈ d, Built dictHash c) (key : CStr) :
    dictGetOf dictHash d key = some (textOf d key) :=
  Readable.dictGetOf_eq (fun c hc ↦ (hd c hc).readable) key

theorem cfgGet_eq {cfg defaultCfg : Option Dict} (hcfg : ∀ c ∈ cfg, Built dictHash c)
    (hdefault : ∀ c ∈ defaultCfg, Built dictHash c) (key : CStr) :
    cfgGet dictHash cfg defaultCfg key = some (settingOf cfg defaultCfg key) :=
  Readable.cfgGet_eq (fun c hc ↦ (hcfg c hc).readable) (fun c hc ↦ (hdefault c hc).readable) key

end Spec

end Rustyaxe
