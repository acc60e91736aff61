import Rustyaxe.Acl.Selectors
import Rustyaxe.Lib.BitString

/-!
# Matching networks

`acl_rule_match` compares the first bits of two addresses with `memcmp` and a mask.  The addresses
have been normalised before: an IPv4-mapped one is stored as the IPv4 address it maps, by
`acl_subject_init` always, and by `network_parse` where the prefix takes in all of what maps it.

`aclRuleMatch_iff_covers` says that a rule on a network matches the addresses that begin with the
same bits, and the two notations of an IPv4 network make no difference (`cidr_matching`).
-/

set_option autoImplicit false

namespace Rustyaxe

open BitString

/-! ## Bits of addresses -/

/-- The bits of an address, the highest first. -/
def Ip.bits (ip : Ip) : List Bool := BitString.bits ip.bytes

/-- An IPv4-mapped address as the IPv4 address that it maps. -/
def Ip.normal (ip : Ip) : Ip :=
  match ip.unmapped? with
  | some bytes => .v4 bytes
  | none => ip

/-- The address is of the family of the network and begins with its bits. -/
def Covers (net : Ip × ℕ) (ip : Ip) : Prop :=
  net.1.family = ip.family ∧ net.1.bits.take net.2 = ip.bits.take net.2

/-- The address is stored in these bytes. -/
def StoredIn (ip : Ip) (address : Vector UInt8 16) : Prop :=
  address.toList.take ip.bytes.length = ip.bytes

theorem Ip.width_eq (ip : Ip) : ip.width = 8 * ip.bytes.length := by
  cases ip with
  | v4 b => rw [bytes, b.length_toList]; rfl
  | v6 b => rw [bytes, b.length_toList]; rfl

theorem StoredIn.take_bits {ip : Ip} {address : Vector UInt8 16} (h : StoredIn ip address) {n : ℕ}
    (hn : n ≤ ip.width) : (BitString.bits address.toList).take n = ip.bits.take n := by
  rw [Ip.bits, ← h, bits_take, List.take_take, min_eq_left]
  rwa [← ip.width_eq]

/-- **The bytes and the mask compare the bits of the prefix.** -/
theorem addressMatch_iff {rule : AclRule} {subject : AclSubject}
    (hfamily : rule.family = 4 ∨ rule.family = 6)
    (hlen : rule.prefixLen.toNat ≤ if rule.family = 4 then 32 else 128) :
    addressMatch rule subject = true ↔ rule.family = subject.family ∧
      (BitString.bits rule.address.toList).take rule.prefixLen.toNat
        = (BitString.bits subject.address.toList).take rule.prefixLen.toNat := by
  have hle : rule.prefixLen.toNat ≤ 128 := hlen.trans (by split <;> decide)
  have hsplit : 8 * (rule.prefixLen.toNat / 8) + rule.prefixLen.toNat % 8 = rule.prefixLen.toNat :=
    Nat.div_add_mod _ _
  have hbits := take_bits_eq_iff (l := rule.address.toList) (m := subject.address.toList)
    (n := rule.prefixLen.toNat / 8) (r := rule.prefixLen.toNat % 8) (Nat.mod_lt _ (by decide))
    (by rw [Vector.length_toList]; omega) (by rw [Vector.length_toList]; omega)
  rw [hsplit] at hbits
  have hguard : ¬rule.prefixLen > (if rule.family = 4 then 32 else 128) := by
    rw [gt_iff_lt, UInt32.lt_iff_toNat_lt, not_lt]
    split at hlen <;> rename_i h <;> simpa [h] using hlen
  have hknown : ¬(rule.family ≠ 4 ∧ rule.family ≠ 6) := by
    rwa [not_and_or, not_not, not_not]
  rw [hbits, addressMatch]
  by_cases hsame : rule.family = subject.family
  · rw [if_neg (by rw [not_or, not_or, not_not]; exact ⟨hknown, hguard, hsame⟩),
      and_iff_right hsame]
    dsimp only
    by_cases htake : rule.address.toList.take (rule.prefixLen.toNat / 8)
        = subject.address.toList.take (rule.prefixLen.toNat / 8)
    · rw [if_neg (not_not.mpr htake), and_iff_right htake, addressByte, addressByte]
      split
      case isTrue h => exact iff_of_false Bool.false_ne_true fun h' ↦ h.2 (h' h.1)
      case isFalse h => exact iff_of_true rfl fun hpos ↦ not_not.mp fun h' ↦ h ⟨hpos, h'⟩
    · rw [if_pos htake]
      exact iff_of_false Bool.false_ne_true fun h ↦ htake h.1
  · rw [if_pos (.inr (.inr hsame))]
    exact iff_of_false Bool.false_ne_true fun h ↦ hsame h.1

/-! ## Rules and subjects that are read -/

theorem mappedTail_mappedAddress (bytes : Vector UInt8 4) :
    mapped (mappedAddress bytes) = true ∧ mappedTail (mappedAddress bytes) = bytes := by
  have hlist : (mappedAddress bytes).toList = mappedBytes ++ bytes.toList := by
    rw [mappedAddress, Vector.toList_mk, Array.toList_append]
    rfl
  constructor
  · have htake : (mappedBytes ++ bytes.toList).take 12 = mappedBytes := List.take_left' rfl
    rw [mapped, hlist, htake]
    exact beq_self_eq_true _
  · refine Vector.ext fun i hi ↦ ?_
    have hbyte : (mappedBytes ++ bytes.toList)[i + 12]? = bytes.toList[i]? :=
      List.getElem?_append_right (Nat.le_add_left 12 i)
    rw [mappedTail, Vector.getElem_ofFn, addressByte, hlist, List.getD_eq_getElem?_getD, hbyte,
      List.getElem?_eq_getElem (by rwa [Vector.length_toList]), Vector.getElem_toList,
      Option.getD_some]

/-- A text with `::ffff:` before an IPv4 address is its mapped address. -/
theorem InetPton.Documented.ipOf_mapped {inet : InetPton} (hinet : inet.Documented) {t : CStr}
    {b : Vector UInt8 4} (h : inet.v4 t = some b) :
    ipOf inet t = some (.v4 b) ∧
      ipOf inet (lit "::ffff:" ++ t) = some (.v6 (mappedAddress b)) := by
  refine ⟨by rw [ipOf, h], ?_⟩
  have hv4 : inet.v4 (lit "::ffff:" ++ t) = none := by
    rw [Option.eq_none_iff_forall_not_mem]
    intro b' hb'
    have hchars := (hinet.v4_text _ b' hb').2.2 colon (List.mem_append_left _ (by decide))
    exact absurd hchars (by decide)
  rw [ipOf, hv4, hinet.mapped t b h]
  rfl

theorem normalNetwork_mapped (b : Vector UInt8 4) (p : ℕ) :
    normalNetwork (.v6 (mappedAddress b)) (96 + p) = (.v4 b, p) := by
  obtain ⟨hmapped, htail⟩ := mappedTail_mappedAddress b
  rw [normalNetwork, Ip.unmapped?, if_pos hmapped, htail]
  dsimp only
  rw [if_pos (Nat.le_add_right 96 p), Nat.add_sub_cancel_left]

theorem normal_mapped (b : Vector UInt8 4) : (Ip.v6 (mappedAddress b)).normal = .v4 b := by
  obtain ⟨hmapped, htail⟩ := mappedTail_mappedAddress b
  rw [Ip.normal, Ip.unmapped?, if_pos hmapped, htail]

theorem Ip.family_cases (ip : Ip) : ip.family = 4 ∨ ip.family = 6 := by
  cases ip with
  | v4 => exact .inl rfl
  | v6 => exact .inr rfl

theorem Ip.family_ne_zero (ip : Ip) : ip.family ≠ 0 := by
  obtain h | h := ip.family_cases <;> rw [h] <;> decide

theorem normalNetwork_le {ip : Ip} {len : ℕ} (h : len ≤ ip.width) :
    (normalNetwork ip len).2 ≤ (normalNetwork ip len).1.width := by
  rw [normalNetwork]
  cases hmap : ip.unmapped? with
  | none => exact h
  | some bytes =>
    dsimp only
    split
    · have := h.trans ip.width_le
      exact (by omega : len - 96 ≤ 32)
    · exact h

/-- What `acl_subject_init` leaves in a subject. -/
theorem aclSubjectInit_eq {inet : InetPton} {text user : Option CStr}
    {inGroup : Option (CStr → Bool)} {subject : AclSubject}
    (h : aclSubjectInit inet text user inGroup = (true, subject)) :
    subject.user = user ∧ subject.inGroup = inGroup ∧ subject.ignoreCase = false ∧
      ((text = none ∧ subject.family = 0) ∨ ∃ t a, text = some t ∧ ipOf inet t = some a ∧
        subject.family = a.normal.family ∧ StoredIn a.normal subject.address) := by
  unfold aclSubjectInit at h
  cases text with
  | none =>
    cases h
    exact ⟨rfl, rfl, rfl, .inl ⟨rfl, rfl⟩⟩
  | some t =>
    dsimp only at h
    rw [addressParse_eq] at h
    cases ha : ipOf inet t with
    | none =>
      rw [ha] at h
      cases h
    | some a =>
      rw [ha, Option.map_some] at h
      dsimp only at h
      cases a with
      | v4 b =>
        rw [if_neg (by simp [Ip.family])] at h
        cases h
        exact ⟨rfl, rfl, rfl, .inr ⟨t, _, rfl, ha, rfl, take_padded b⟩⟩
      | v6 b =>
        by_cases hb : mapped b
        · have hnormal : (Ip.v6 b).normal = .v4 (mappedTail b) := by
            rw [Ip.normal, Ip.unmapped?, if_pos hb]
          rw [if_pos ⟨rfl, hb⟩] at h
          cases h
          refine ⟨rfl, rfl, rfl, .inr ⟨t, _, rfl, ha, ?_⟩⟩
          rw [hnormal]
          exact ⟨rfl, take_moveMapped b⟩
        · have hnormal : (Ip.v6 b).normal = .v6 b := by
            rw [Ip.normal, Ip.unmapped?, if_neg hb]
          rw [if_neg (fun h ↦ hb h.2)] at h
          cases h
          refine ⟨rfl, rfl, rfl, .inr ⟨t, _, rfl, ha, ?_⟩⟩
          rw [hnormal]
          exact ⟨rfl, List.take_length⟩

theorem Ip.width_of_family {a b : Ip} (h : a.family = b.family) : a.width = b.width := by
  cases a <;> cases b <;> first | rfl | cases h

section Match

variable {rule : AclRule} {ip : Ip} {len : ℕ} (hfor : rule.IsFor (.net ip len))
  (hle : len ≤ ip.width)
include hfor hle

/-- A rule on a network and a subject with an address. -/
theorem addressMatch_iff_covers {subject : AclSubject} {a : Ip}
    (hfamily : subject.family = a.family) (haddress : StoredIn a subject.address) :
    addressMatch rule subject = true ↔ Covers (normalNetwork ip len) a := by
  obtain ⟨hrule, hlen, hstored⟩ := hfor
  have hwidth := normalNetwork_le hle
  have hknown := (normalNetwork ip len).1.family_cases
  rw [← hrule] at hknown
  have hbound : rule.prefixLen.toNat ≤ if rule.family = 4 then 32 else 128 := by
    rw [hlen, hrule]
    cases hnet : (normalNetwork ip len).1 with
    | v4 => rw [hnet] at hwidth; exact hwidth
    | v6 => rw [hnet] at hwidth; exact hwidth
  have hnet : StoredIn (normalNetwork ip len).1 rule.address := hstored
  rw [addressMatch_iff hknown hbound, Covers, hrule, hfamily, hlen, hnet.take_bits hwidth]
  refine and_congr_right fun hsame ↦ ?_
  rw [haddress.take_bits (hwidth.trans_eq (Ip.width_of_family hsame))]

/-- **A rule on a network matches** the subjects whose address is of the same family and begins with
the same bits. -/
theorem aclRuleMatch_iff_covers (hany : rule.kind = .any) {inet : InetPton}
    {text user : Option CStr} {inGroup : Option (CStr → Bool)} {subject : AclSubject}
    (hsubject : aclSubjectInit inet text user inGroup = (true, subject)) :
    (aclRuleMatch rule subject = .allow ∨ aclRuleMatch rule subject = .deny) ↔
      ∃ t a, text = some t ∧ ipOf inet t = some a ∧ Covers (normalNetwork ip len) a.normal := by
  have hrule : rule.family ≠ 0 := hfor.1 ▸ Ip.family_ne_zero _
  obtain ⟨-, -, -, ⟨rfl, hunknown⟩ | ⟨t, a, rfl, ha, hfamily, hstored⟩⟩ :=
    aclSubjectInit_eq hsubject
  · refine iff_of_false ?_ (by rintro ⟨t, a, h, -⟩; cases h)
    rw [aclRuleMatch, if_neg (fun h ↦ h.2.1 hunknown), principalMatch, hany]
    dsimp only
    rw [ruleDecision, if_pos ⟨hrule, hunknown⟩]
    decide
  · have hknown : subject.family ≠ 0 := hfamily ▸ Ip.family_ne_zero _
    have hmatch := addressMatch_iff_covers hfor hle hfamily hstored
    have hdecision : principalMatch rule subject = if rule.allow then .allow else .deny := by
      rw [principalMatch, hany]
      exact if_neg fun h ↦ hknown h.2
    rw [aclRuleMatch, hdecision]
    by_cases hcovers : Covers (normalNetwork ip len) a.normal
    · rw [if_neg (fun h ↦ Bool.false_ne_true (h.2.2.symm.trans (hmatch.mpr hcovers)))]
      refine iff_of_true ?_ ⟨t, a, rfl, ha, hcovers⟩
      split
      · exact .inl rfl
      · exact .inr rfl
    · rw [if_pos ⟨hrule, hknown, Bool.eq_false_iff.mpr fun h ↦ hcovers (hmatch.mp h)⟩]
      refine iff_of_false (by decide) ?_
      rintro ⟨t', a', ht, ha', hcovers'⟩
      cases ht
      cases ha'.symm.trans ha
      exact hcovers hcovers'

end Match

/-! ## The two notations -/

theorem exists_aclSubjectInit {inet : InetPton} {t : CStr} {a : Ip} (h : ipOf inet t = some a)
    (user : Option CStr) (inGroup : Option (CStr → Bool)) :
    ∃ subject, aclSubjectInit inet (some t) user inGroup = (true, subject) := by
  rw [aclSubjectInit]
  dsimp only
  rw [addressParse_eq, h, Option.map_some]
  dsimp only
  split <;> exact ⟨_, rfl⟩

theorem aclRuleMatch_congr {rule rule' : AclRule} {s s' : AclSubject}
    (hfamily : rule.family = rule'.family) (hkind : rule.kind = rule'.kind)
    (hname : rule.principal = rule'.principal) (hallow : rule.allow = rule'.allow)
    (hsubject : s.family = s'.family) (huser : s.user = s'.user) (hgroup : s.inGroup = s'.inGroup)
    (hcase : s.ignoreCase = s'.ignoreCase)
    (hmatch : rule.family ≠ 0 → s.family ≠ 0 → addressMatch rule s = addressMatch rule' s') :
    aclRuleMatch rule s = aclRuleMatch rule' s' := by
  have hdecision : ruleDecision rule s = ruleDecision rule' s' := by
    rw [ruleDecision, ruleDecision, hfamily, hsubject, hallow]
  have hprincipal : principalMatch rule s = principalMatch rule' s' := by
    rw [principalMatch, principalMatch, hdecision, hkind, huser, hgroup, hname, hcase]
  rw [aclRuleMatch, aclRuleMatch, hprincipal]
  by_cases hknown : rule.family ≠ 0 ∧ s.family ≠ 0
  · rw [hmatch hknown.1 hknown.2, hfamily, hsubject]
  · rw [if_neg (fun h ↦ hknown ⟨h.1, h.2.1⟩),
      if_neg (fun h ↦ hknown ⟨hfamily ▸ h.1, hsubject ▸ h.2.1⟩)]

theorem Selects.le_width {inet : InetPton} {selector name : CStr} {kind : AclPrincipal} {ip : Ip}
    {len : ℕ}
    (h : Selects inet selector kind name (.net ip len)) : len ≤ ip.width := by
  cases h with
  | network htext => exact htext.le_width
  | userAt _ htext => exact htext.le_width
  | groupAt _ htext => exact htext.le_width

section Parse

variable {inet : InetPton} (hinet : inet.Documented)
include hinet

/-- What a rule has been read from. -/
theorem selects_of_aclRuleParse {rule₀ rule : AclRule} {allow : Bool} {selector : CStr}
    (h : aclRuleParse inet rule₀ allow selector = (true, rule)) :
    ∃ name net, Selects inet selector rule.kind name net ∧ rule.IsFor net ∧
      parsedRule inet allow selector = some rule := by
  rw [aclRuleParse] at h
  cases hr : parsedRule inet allow selector with
  | none =>
    rw [hr] at h
    cases h
  | some r =>
    rw [hr] at h
    cases h
    obtain ⟨-, -, kind, name, net, hselects, rfl⟩ := (parsedRule_eq_some_iff hinet _ _ _).mp hr
    have hconstrains := hselects.constrains allow
    exact ⟨name, net, hconstrains.kind.symm ▸ hselects, hconstrains.network, rfl⟩

/-- A rule that is read tests addresses as a network does, if it tests any. -/
theorem exists_net_of_aclRuleParse {rule₀ rule : AclRule} {allow : Bool} {selector : CStr}
    (h : aclRuleParse inet rule₀ allow selector = (true, rule)) (hfamily : rule.family ≠ 0) :
    ∃ ip len name, Selects inet selector rule.kind name (.net ip len) ∧
      rule.IsFor (.net ip len) := by
  obtain ⟨name, net, hselects, hfor, -⟩ := selects_of_aclRuleParse hinet h
  cases net with
  | all => exact (hfamily hfor).elim
  | net ip len => exact ⟨ip, len, name, hselects, hfor⟩

/-- **Rules on networks** match the addresses that begin with the same bits. -/
theorem aclRuleMatch_network {rule₀ rule : AclRule} {allow : Bool} {selector : CStr}
    (h : aclRuleParse inet rule₀ allow selector = (true, rule)) (hany : rule.kind = .any)
    (hfamily : rule.family ≠ 0) : ∃ ip len, NetworkText inet selector (.net ip len) ∧
      len ≤ ip.width ∧ ∀ text user inGroup subject,
        aclSubjectInit inet text user inGroup = (true, subject) →
        ((aclRuleMatch rule subject = .allow ∨ aclRuleMatch rule subject = .deny) ↔
          ∃ t a, text = some t ∧ ipOf inet t = some a ∧
            Covers (normalNetwork ip len) a.normal) := by
  obtain ⟨ip, len, name, hselects, hfor⟩ := exists_net_of_aclRuleParse hinet h hfamily
  have hle := hselects.le_width
  rw [hany] at hselects
  cases hselects with
  | network htext =>
    exact ⟨ip, len, htext, hle, fun text user inGroup subject hsubject ↦
      aclRuleMatch_iff_covers hfor hle hany hsubject⟩

theorem NetworkText.bytes {text : CStr} {net : Network} (h : NetworkText inet text net) :
    ∀ c ∈ text, isspace c = false ∧ c ≠ equals := by
  have hchar : ∀ c, isIpChar c → isspace c = false ∧ c ≠ equals := fun c hc ↦
    ⟨(isIpChar_spec hc).2.2.2.2.2, (isIpChar_spec hc).2.2.2.2.1⟩
  cases net with
  | all => obtain rfl | rfl := h <;> decide +kernel
  | net ip len =>
    obtain ⟨hip, -⟩ | ⟨t, ds, rfl, hip, -, hdigits, -⟩ := h
    · exact fun c hc ↦ hchar c ((hinet.ipOf_text hip).2 c hc)
    · rw [List.forall_mem_append, List.forall_mem_cons]
      refine ⟨fun c hc ↦ hchar c ((hinet.ipOf_text hip).2 c hc), by decide, fun c hc ↦ hchar c ?_⟩
      simp [isIpChar, isxdigit, hdigits c hc]

/-- A network is read if its text is short enough. -/
theorem aclRuleParse_networkText {text : CStr} {net : Network} (h : NetworkText inet text net)
    (hsize : text.length < networkSize) (rule₀ : AclRule) (allow : Bool) :
    aclRuleParse inet rule₀ allow text
      = (true, (AclRule.ofPrincipal allow .any []).onNetwork net) := by
  have hparse := (parsedRule_eq_some_iff hinet allow text _).mpr
    ⟨hsize.trans (by decide), h.bytes hinet, _, _, _, .network h hsize, rfl⟩
  rw [aclRuleParse, hparse]

end Parse

/-- The digits spell a number. -/
def SpellsLength (ds : CStr) (len : ℕ) : Prop :=
  ds ≠ [] ∧ (∀ c ∈ ds, isdigit c) ∧ digitsVal ds = len

/-- Both selectors are taken, and the rules answer every subject alike. -/
def SameRules (inet : InetPton) (selector selector' : CStr) : Prop :=
  ∀ rule₀ allow, ∃ rule rule', aclRuleParse inet rule₀ allow selector = (true, rule) ∧
    aclRuleParse inet rule₀ allow selector' = (true, rule') ∧ ∀ text user inGroup subject,
      aclSubjectInit inet text user inGroup = (true, subject) →
        aclRuleMatch rule subject = aclRuleMatch rule' subject

/-- Both texts are addresses, and every rule answers the subjects alike. -/
def SameSubjects (inet : InetPton) (t t' : CStr) : Prop :=
  ∀ user inGroup, ∃ s s', aclSubjectInit inet (some t) user inGroup = (true, s) ∧
    aclSubjectInit inet (some t') user inGroup = (true, s') ∧ ∀ rule₀ allow selector rule,
      aclRuleParse inet rule₀ allow selector = (true, rule) →
        aclRuleMatch rule s = aclRuleMatch rule s'

section Notations

variable {inet : InetPton} (hinet : inet.Documented) {t : CStr} {b : Vector UInt8 4}
  (ht : inet.v4 t = some b)
include hinet ht

/-- A network in either notation. -/
theorem sameRules_mapped {p : ℕ} (hp : p ≤ 32) {ds ds' : CStr} (hds : SpellsLength ds p)
    (hds' : SpellsLength ds' (96 + p)) (hsize : (t ++ slash :: ds).length < networkSize)
    (hsize' : (lit "::ffff:" ++ t ++ slash :: ds').length < networkSize) :
    SameRules inet (t ++ slash :: ds) (lit "::ffff:" ++ t ++ slash :: ds') := by
  obtain ⟨hip, hip'⟩ := hinet.ipOf_mapped ht
  have htext : NetworkText inet (t ++ slash :: ds) (.net (.v4 b) p) :=
    .inr ⟨t, ds, rfl, hip, hds.1, hds.2.1, hds.2.2, hp⟩
  have htext' : NetworkText inet (lit "::ffff:" ++ t ++ slash :: ds')
      (.net (.v6 (mappedAddress b)) (96 + p)) :=
    .inr ⟨_, ds', rfl, hip', hds'.1, hds'.2.1, hds'.2.2, by rw [Ip.width]; omega⟩
  intro rule₀ allow
  refine ⟨_, _, aclRuleParse_networkText hinet htext hsize rule₀ allow,
    aclRuleParse_networkText hinet htext' hsize' rule₀ allow, ?_⟩
  intro text user inGroup subject hsubject
  have hbase : (AclRule.ofPrincipal allow .any []).family = 0 := rfl
  have hfor := isFor_onNetwork hbase htext
  have hfor' := isFor_onNetwork hbase htext'
  obtain ⟨hallow, hkind, hname⟩ := (AclRule.ofPrincipal allow .any []).onNetwork_rest
    (.net (.v4 b) p)
  obtain ⟨hallow', hkind', hname'⟩ := (AclRule.ofPrincipal allow .any []).onNetwork_rest
    (.net (.v6 (mappedAddress b)) (96 + p))
  have hnormal := normalNetwork_mapped b p
  refine aclRuleMatch_congr ?_ (hkind.trans hkind'.symm) (hname.trans hname'.symm)
    (hallow.trans hallow'.symm) rfl rfl rfl rfl fun _ hknown ↦ ?_
  · rw [hfor.1, hfor'.1, hnormal]
    rfl
  · obtain ⟨-, -, -, ⟨-, hunknown⟩ | ⟨-, a, -, -, hfamily, hstored⟩⟩ := aclSubjectInit_eq hsubject
    · exact (hknown hunknown).elim
    · rw [Bool.eq_iff_iff, addressMatch_iff_covers hfor htext.le_width hfamily hstored,
        addressMatch_iff_covers hfor' htext'.le_width hfamily hstored, hnormal]
      rfl

/-- A subject in either notation. -/
theorem sameSubjects_mapped : SameSubjects inet t (lit "::ffff:" ++ t) := by
  obtain ⟨hip, hip'⟩ := hinet.ipOf_mapped ht
  intro user inGroup
  obtain ⟨s, hs⟩ := exists_aclSubjectInit hip user inGroup
  obtain ⟨s', hs'⟩ := exists_aclSubjectInit hip' user inGroup
  refine ⟨s, s', hs, hs', fun rule₀ allow selector rule hrule ↦ ?_⟩
  obtain ⟨huser, hgroup, hcase, haddress⟩ := aclSubjectInit_eq hs
  obtain ⟨huser', hgroup', hcase', haddress'⟩ := aclSubjectInit_eq hs'
  obtain ⟨hnone, -⟩ | ⟨t₁, a, ht₁, ha, hfamily, hstored⟩ := haddress
  · cases hnone
  obtain ⟨hnone, -⟩ | ⟨t₁', a', ht₁', ha', hfamily', hstored'⟩ := haddress'
  · cases hnone
  cases ht₁
  cases ht₁'
  cases hip.symm.trans ha
  cases hip'.symm.trans ha'
  rw [normal_mapped] at hfamily' hstored'
  refine aclRuleMatch_congr rfl rfl rfl rfl (hfamily.trans hfamily'.symm)
    (huser.trans huser'.symm) (hgroup.trans hgroup'.symm) (hcase.trans hcase'.symm)
    fun hnet _ ↦ ?_
  obtain ⟨ip, len, name, hselects, hfor⟩ := exists_net_of_aclRuleParse hinet hrule hnet
  rw [Bool.eq_iff_iff, addressMatch_iff_covers hfor hselects.le_width hfamily hstored,
    addressMatch_iff_covers hfor hselects.le_width hfamily' hstored']
  rfl

end Notations

/-- **Matching networks.**  A rule on a network matches a subject whose address, normalised, is of
the family of the network and begins with its bits; and writing an IPv4 network or subject as an
IPv4-mapped one makes no difference. -/
theorem cidr_matching {inet : InetPton} (hinet : inet.Documented) :
    (∀ rule₀ allow selector rule, aclRuleParse inet rule₀ allow selector = (true, rule) →
      rule.kind = .any → rule.family ≠ 0 → ∃ ip len, NetworkText inet selector (.net ip len) ∧
        len ≤ ip.width ∧ ∀ text user inGroup subject,
          aclSubjectInit inet text user inGroup = (true, subject) →
          ((aclRuleMatch rule subject = .allow ∨ aclRuleMatch rule subject = .deny) ↔
            ∃ t a, text = some t ∧ ipOf inet t = some a ∧
              Covers (normalNetwork ip len) a.normal)) ∧
    ∀ t b, inet.v4 t = some b → SameSubjects inet t (lit "::ffff:" ++ t) ∧ ∀ p ≤ 32,
      SameRules inet (t ++ slash :: decimal p)
        (lit "::ffff:" ++ t ++ slash :: decimal (96 + p)) ∧
      ∀ ds ds', SpellsLength ds p → SpellsLength ds' (96 + p) →
        (t ++ slash :: ds).length < networkSize →
        (lit "::ffff:" ++ t ++ slash :: ds').length < networkSize →
        SameRules inet (t ++ slash :: ds) (lit "::ffff:" ++ t ++ slash :: ds') := by
  refine ⟨fun rule₀ allow selector rule h hany hfamily ↦ aclRuleMatch_network hinet h hany hfamily,
    fun t b ht ↦ ⟨sameSubjects_mapped hinet ht, fun p hp ↦ ⟨?_, fun ds ds' hds hds' ↦
      sameRules_mapped hinet ht hp hds hds'⟩⟩⟩
  have hspells : ∀ n, SpellsLength (decimal n) n := fun n ↦
    ⟨decimal_ne_nil n, fun c hc ↦ isdigit_of_mem_decimal hc, digitsVal_decimal n⟩
  have hlen := (hinet.v4_text t b ht).2.1
  have hshort : (decimal p).length ≤ 2 := length_decimal_le (by decide) (by omega)
  have hshort' : (decimal (96 + p)).length ≤ 3 := length_decimal_le (by decide) (by omega)
  have hword : (lit "::ffff:").length = 7 := by decide
  refine sameRules_mapped hinet ht hp (hspells p) (hspells (96 + p)) ?_ ?_ <;>
    simp only [List.length_append, List.length_cons, networkSize] <;> omega

theorem cidr_matching_oneAddress :
    SameRules oneAddress (lit "10.2.3.4" ++ slash :: decimal 8)
      (lit "::ffff:" ++ lit "10.2.3.4" ++ slash :: decimal (96 + 8)) :=
  ((cidr_matching documented_oneAddress).2 (lit "10.2.3.4") _ rfl).2 8 (by decide) |>.1

end Rustyaxe
