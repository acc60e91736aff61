import Rustyaxe.CString

/-!
# Access rules

`acl.c`: an ordered list of rules is checked against a subject whose address or user name may not
be known yet.  A rule that could match once more is known answers `ACL_DEFER`, and so does the
whole list if no earlier rule decides.

`AclResult.LE` puts `ACL_DEFER` below every answer and `AclSubject.Le` orders subjects by what is
known about them.  Matching and checking are monotone for these two orders
(`aclRuleMatch_mono`, `aclCheck_mono`), so a decision, once taken, is final.
-/

set_option autoImplicit false

namespace Rustyaxe

/-- `acl_result_t` -/
inductive AclResult where
  | noMatch | allow | deny | defer
  deriving DecidableEq, Repr

/-- `acl_principal_t` -/
inductive AclPrincipal where
  | any | user | group
  deriving DecidableEq, Repr

/-- `acl_rule_t` -/
structure AclRule where
  address : Vector UInt8 16
  /-- `0` for any address, else `4` or `6`. -/
  family : UInt32
  prefixLen : UInt32
  kind : AclPrincipal
  principal : CStr
  allow : Bool

/-- `acl_subject_t`.  The callback and its context are one function of the group's name. -/
structure AclSubject where
  address : Vector UInt8 16
  /-- `0` while the address is unknown. -/
  family : UInt32
  /-- `none` while the identity is unknown; the empty name is the known anonymous user. -/
  user : Option CStr
  inGroup : Option (CStr → Bool)
  ignoreCase : Bool

/-- Byte `i` of an address. -/
def addressByte (address : Vector UInt8 16) (i : ℕ) : UInt8 := address.toList.getD i 0

/-- The address tests of `acl_rule_match`, made when the rule names a network and the address of
the subject is known. -/
def addressMatch (rule : AclRule) (subject : AclSubject) : Bool :=
  if (rule.family ≠ 4 ∧ rule.family ≠ 6) ∨
      rule.prefixLen > (if rule.family = 4 then 32 else 128) ∨ rule.family ≠ subject.family then
    false
  else
    let bytes := rule.prefixLen.toNat / 8
    let bits := rule.prefixLen.toNat % 8
    if rule.address.toList.take bytes ≠ subject.address.toList.take bytes then false
    else if bits ≠ 0 ∧ (addressByte rule.address bytes ^^^ addressByte subject.address bytes)
        &&& (255 <<< UInt8.ofNat (8 - bits)) ≠ 0 then
      false
    else true

/-- What `acl_rule_match` answers once nothing it tests stands against the rule. -/
def ruleDecision (rule : AclRule) (subject : AclSubject) : AclResult :=
  let pending := rule.family ≠ 0 ∧ subject.family = 0
  if pending then .defer else if rule.allow then .allow else .deny

/-- The comparison of user names in `acl_rule_match`. -/
def sameUser (ignoreCase : Bool) (principal user : CStr) : Bool :=
  if ignoreCase then strcaseeq principal user else principal == user

/-- The part of `acl_rule_match` after the address. -/
def principalMatch (rule : AclRule) (subject : AclSubject) : AclResult :=
  match rule.kind, subject.user with
  | .any, _ => ruleDecision rule subject
  | _, none => .defer
  | .user, some user =>
    if sameUser subject.ignoreCase rule.principal user then ruleDecision rule subject else .noMatch
  | .group, some _ =>
    match subject.inGroup with
    | none => .noMatch
    | some inGroup => if inGroup rule.principal then ruleDecision rule subject else .noMatch

/-- `acl_rule_match` -/
def aclRuleMatch (rule : AclRule) (subject : AclSubject) : AclResult :=
  if rule.family ≠ 0 ∧ subject.family ≠ 0 ∧ addressMatch rule subject = false then .noMatch
  else principalMatch rule subject

/-- The loop of `acl_check`. -/
def aclCheckRules : List AclRule → AclSubject → AclResult
  | [], _ => .deny
  | rule :: rules, subject =>
    let result := aclRuleMatch rule subject
    if result ≠ .noMatch then result else aclCheckRules rules subject

/-- `acl_check`; `none` is a `NULL` pointer. -/
def aclCheck (rules : Option (List AclRule)) (subject : Option AclSubject) : AclResult :=
  match rules, subject with
  | some rules, some subject => aclCheckRules rules subject
  | _, _ => .deny

/-! ## The order of information -/

/-- `ACL_DEFER` may turn into any answer, and the others into nothing else. -/
def AclResult.Le (a b : AclResult) : Prop := a = .defer ∨ a = b

/-- `s'` knows all that `s` knows, and may know a user name or an address that `s` lacks. -/
structure AclSubject.Le (s s' : AclSubject) : Prop where
  address : s.family ≠ 0 → s'.family = s.family ∧ s'.address = s.address
  user : s.user ≠ none → s'.user = s.user
  inGroup : s'.inGroup = s.inGroup
  ignoreCase : s'.ignoreCase = s.ignoreCase

theorem AclResult.Le.refl (a : AclResult) : a.Le a := .inr rfl

/-- A rule on a network never answers for good while the address is unknown. -/
theorem principalMatch_pending {rule : AclRule} {s : AclSubject}
    (h : rule.family ≠ 0 ∧ s.family = 0) : (principalMatch rule s).Le .noMatch := by
  have hdec : ruleDecision rule s = .defer := if_pos h
  rw [principalMatch, hdec]
  cases rule.kind with
  | any => exact .inl rfl
  | user =>
    cases s.user with
    | none => exact .inl rfl
    | some user => dsimp only; split <;> simp [AclResult.Le]
  | group =>
    cases s.user with
    | none => exact .inl rfl
    | some user =>
      cases s.inGroup with
      | none => exact .inr rfl
      | some inGroup => dsimp only; split <;> simp [AclResult.Le]

section Mono

variable {s s' : AclSubject} (h : s.Le s')
include h

/-- The address tests agree when both addresses are known. -/
theorem AclSubject.Le.addressMatch_eq (rule : AclRule) (hs : s.family ≠ 0) :
    addressMatch rule s' = addressMatch rule s := by
  obtain ⟨hfam, haddr⟩ := h.address hs
  rw [addressMatch, addressMatch, hfam, haddr]

/-- All that may change in the answer of a rule nothing stands against is a pending address. -/
theorem AclSubject.Le.ruleDecision (rule : AclRule) :
    (ruleDecision rule s).Le (ruleDecision rule s') := by
  by_cases hp : rule.family ≠ 0 ∧ s.family = 0
  · exact .inl (if_pos hp)
  · refine .inr ?_
    have hp' : ¬ (rule.family ≠ 0 ∧ s'.family = 0) := by
      rintro ⟨hr, hs'⟩
      have hs : s.family ≠ 0 := fun hs ↦ hp ⟨hr, hs⟩
      exact hs ((h.address hs).1 ▸ hs')
    rw [Rustyaxe.ruleDecision, Rustyaxe.ruleDecision, if_neg hp, if_neg hp']

/-- The principal tests agree, or the identity was unknown. -/
theorem AclSubject.Le.principalMatch (rule : AclRule) :
    (principalMatch rule s).Le (principalMatch rule s') := by
  have hdec := h.ruleDecision rule
  rw [Rustyaxe.principalMatch, Rustyaxe.principalMatch, h.inGroup, h.ignoreCase]
  cases hu : s.user with
  | none =>
    cases rule.kind with
    | any => simpa using hdec
    | user => exact .inl rfl
    | group => exact .inl rfl
  | some user =>
    rw [h.user (by simp [hu]), hu]
    cases rule.kind with
    | any => exact hdec
    | user =>
      dsimp only
      split
      · exact hdec
      · exact .refl _
    | group =>
      cases s.inGroup with
      | none => exact .refl _
      | some inGroup =>
        dsimp only
        split
        · exact hdec
        · exact .refl _

/-- **A rule that has answered gives the same answer to a subject of whom more is known.** -/
theorem aclRuleMatch_mono (rule : AclRule) : (aclRuleMatch rule s).Le (aclRuleMatch rule s') := by
  have hmatch := h.principalMatch rule
  rw [aclRuleMatch, aclRuleMatch]
  by_cases hs : s.family = 0
  · rw [if_neg (fun h ↦ h.2.1 hs)]
    by_cases hs' : rule.family ≠ 0 ∧ s'.family ≠ 0 ∧ addressMatch rule s' = false
    · -- the address came to be known, and does not match
      rw [if_pos hs']
      exact principalMatch_pending ⟨hs'.1, hs⟩
    · rw [if_neg hs']
      exact hmatch
  · rw [(h.address hs).1, h.addressMatch_eq rule hs]
    split
    · exact .refl _
    · exact hmatch

/-- **A decision, once taken, is final.** -/
theorem aclCheckRules_mono : ∀ rules : List AclRule,
    (aclCheckRules rules s).Le (aclCheckRules rules s')
  | [] => .refl _
  | rule :: rules => by
    rw [aclCheckRules, aclCheckRules]
    rcases aclRuleMatch_mono h rule with hr | hr
    · exact .inl (by simp [hr])
    · rw [← hr]
      split
      · exact .refl _
      · exact aclCheckRules_mono rules

end Mono

/-! ## With everything known -/

theorem aclRuleMatch_ne_defer {s : AclSubject} (hf : s.family ≠ 0) (hu : s.user ≠ none)
    (rule : AclRule) : aclRuleMatch rule s ≠ .defer := by
  have hdec : ruleDecision rule s ≠ .defer := by
    rw [ruleDecision, if_neg (fun h ↦ hf h.2)]
    split <;> simp
  obtain ⟨user, hu⟩ := Option.ne_none_iff_exists'.mp hu
  rw [aclRuleMatch, principalMatch, hu]
  split
  · simp
  · cases rule.kind with
    | any => exact hdec
    | user => dsimp only; split <;> first | exact hdec | simp
    | group =>
      cases s.inGroup with
      | none => simp
      | some inGroup => dsimp only; split <;> first | exact hdec | simp

theorem aclCheckRules_ne_defer {s : AclSubject} (hf : s.family ≠ 0) (hu : s.user ≠ none) :
    ∀ rules : List AclRule, aclCheckRules rules s ≠ .defer
  | [] => by simp [aclCheckRules]
  | rule :: rules => by
    rw [aclCheckRules]
    split
    · exact aclRuleMatch_ne_defer hf hu rule
    · exact aclCheckRules_ne_defer hf hu rules

/-- **Decisions on partial information are final, and complete information always decides.** -/
theorem aclCheck_final (rules : Option (List AclRule)) (s : AclSubject) :
    (∀ s' : AclSubject, s.Le s' →
      aclCheck rules (some s) = .allow ∨ aclCheck rules (some s) = .deny →
      aclCheck rules (some s') = aclCheck rules (some s)) ∧
    (s.family ≠ 0 → s.user ≠ none → aclCheck rules (some s) ≠ .defer) := by
  cases rules with
  | none => exact ⟨fun s' _ _ ↦ rfl, fun _ _ ↦ by simp [aclCheck]⟩
  | some rules =>
    refine ⟨fun s' h hd ↦ ?_, fun hf hu ↦ aclCheckRules_ne_defer hf hu rules⟩
    simp only [aclCheck] at hd ⊢
    rcases aclCheckRules_mono h rules with hr | hr
    · simp [hr] at hd
    · exact hr.symm

/-- `192.0.2.0/24` -/
def exampleNetwork : Vector UInt8 16 := ⟨#[192, 0, 2, 0, 0, 0, 0, 0, 0, 0, 0, 0, 0, 0, 0, 0], rfl⟩

/-- A subject of whom only the user name is known. -/
def exampleSubject : AclSubject := ⟨exampleNetwork, 0, some [103], none, false⟩

theorem aclCheck_final_user :
    let rules := [⟨exampleNetwork, 4, 24, .user, [111], true⟩, ⟨exampleNetwork, 0, 0, .any, [], false⟩]
    aclCheck (some rules) (some { exampleSubject with family := 4 }) = .deny ∧
      aclCheck (some rules) (some { exampleSubject with family := 4 }) ≠ .defer := by
  intro rules
  have h : exampleSubject.Le { exampleSubject with family := 4 } :=
    ⟨fun h ↦ absurd rfl h, fun _ ↦ rfl, rfl, rfl⟩
  refine ⟨((aclCheck_final (some rules) exampleSubject).1 _ h (.inr ?_)).trans ?_,
    (aclCheck_final (some rules) _).2 (by decide) (by decide)⟩
  · decide
  · decide

end Rustyaxe
