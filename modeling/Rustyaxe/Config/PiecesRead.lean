import Rustyaxe.Config.FileSettings
import Rustyaxe.Config.SaveOrder

/-!
# The settings of what is saved

A file that is made of pieces has the settings that the pieces say, as long as each of them, taken
by itself, reads as what it is (`fileSettings_pieces`), and whatever follows them.
-/

set_option autoImplicit false

namespace Rustyaxe

/-- The piece, taken by itself, reads as what it is. -/
def SavePiece.Reads : SavePiece → Prop
  | .header keyPrefix sectionName =>
    HeaderReads sectionName ∧ keysOfSection sectionName = keyPrefix
  | .setting _ _ localKey value => SettingReads localKey (value.getD [])
  | .blank => True
  | .output bytes => bytes = []

/-- The key and the text of a line below the header of its section. -/
def SavePiece.states : SavePiece → Option (CStr × CStr)
  | .setting keyPrefix _ localKey value => some (keyPrefix ++ localKey, value.getD [])
  | _ => none

/-- The key and the text of a setting. -/
def FileSetting.entry (s : FileSetting) : CStr × CStr := (s.key, s.text)

/-- **What the pieces say**, by induction on them: a header takes the place of the one before it. -/
theorem settingsAfter_pieces (rest : List UInt8) : ∀ {pieces : List SavePiece}
    {sectionName keyPrefix : CStr}, sectionName ≠ [] → keysOfSection sectionName = keyPrefix →
    UnderOwn keyPrefix pieces → (∀ p ∈ pieces, p.Reads) → ∃ last, last ≠ [] ∧
      (settingsAfter sectionName (fileBytes pieces ++ rest)).map FileSetting.entry
        = pieces.filterMap SavePiece.states ++ (settingsAfter last rest).map FileSetting.entry := by
  intro pieces
  induction pieces with
  | nil => exact fun hne _ _ _ ↦ ⟨_, hne, rfl⟩
  | cons p pieces ih =>
    intro sectionName keyPrefix hne hkeys hunder hreads
    rw [List.forall_mem_cons] at hreads
    obtain ⟨hp, hreads⟩ := hreads
    rw [fileBytes_cons, List.append_assoc]
    cases p with
    | header keyPrefix' name =>
      rw [SavePiece.text, settingsAfter_header sectionName hp.1, List.filterMap_cons_none rfl]
      exact ih hp.1.ne_nil hp.2 hunder hreads
    | setting keyPrefix' key localKey value =>
      obtain ⟨rfl, hunder⟩ := hunder
      obtain ⟨last, hlast, hsettings⟩ := ih hne hkeys hunder hreads
      refine ⟨last, hlast, ?_⟩
      have hstates : (SavePiece.setting keyPrefix' key localKey value).states
          = some (keyPrefix' ++ localKey, value.getD []) := rfl
      rw [SavePiece.text, settingsAfter_setting hne hp, List.map_cons, hsettings,
        List.filterMap_cons_some hstates, List.cons_append, FileSetting.entry, FileSetting.key, hkeys]
    | blank =>
      rw [SavePiece.text, List.singleton_append, settingsAfter_newline,
        List.filterMap_cons_none rfl]
      exact ih hne hkeys hunder hreads
    | output bytes =>
      obtain rfl : bytes = [] := hp
      rw [SavePiece.text, List.nil_append, List.filterMap_cons_none rfl]
      exact ih hne hkeys hunder hreads

/-- **The settings of a file** that begins with the header `[general]`. -/
theorem fileSettings_pieces {pieces : List SavePiece} (hunder : UnderOwn [] pieces)
    (hreads : ∀ p ∈ pieces, p.Reads) (rest : List UInt8) : ∃ last, last ≠ [] ∧
      (fileSettings (fileBytes (.header [] (lit "general") :: pieces) ++ rest)).map
        FileSetting.entry
        = pieces.filterMap SavePiece.states ++ (settingsAfter last rest).map FileSetting.entry := by
  have hgeneral : HeaderReads (lit "general") := ⟨by decide, by decide, by decide⟩
  rw [fileBytes_cons, List.append_assoc, SavePiece.text, fileSettings,
    settingsAfter_header [] hgeneral]
  exact settingsAfter_pieces rest hgeneral.ne_nil (by decide) hunder hreads

/-! ## What reaches the file -/

/-- All of the file lands if nothing is lost. -/
theorem landed_eq_self {env : SaveEnv} (hlost : ∀ n, env.lost n = none) (pieces : List SavePiece) :
    landed env pieces = pieces := by
  rw [landed]
  simp only [hlost]
  exact List.zipIdx_map_fst 0 pieces

end Rustyaxe
