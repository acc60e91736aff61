import Rustyaxe.Acl
import Rustyaxe.Strtol

/-!
# Selectors of access rules

`acl_rule_parse` of `acl.c` reads a selector: a network, a user or a group, or both.  What a
selector may look like is `Selects`, and what the rule then says is `Constrains`.  The tests of the
parser come one after the other, and a text that fails as a network must not be taken for a user;
`parsedRule_eq_some_iff` shows that they leave just these readings (`aclRuleParse_iff`).

A network is cut off at 64 bytes, with its zeros.  Which texts are addresses is up to `inet_pton`.
-/

set_option autoImplicit false

namespace Rustyaxe

/-! ## Addresses -/

/-- `inet_pton`, for both families. -/
structure InetPton where
  v4 : CStr → Option (Vector UInt8 4)
  v6 : CStr → Option (Vector UInt8 16)

/-- The first bytes of an IPv4-mapped address. -/
def mappedBytes : List UInt8 := [0, 0, 0, 0, 0, 0, 0, 0, 0, 0, 0xff, 0xff]

/-- The IPv4-mapped address. -/
def mappedAddress (bytes : Vector UInt8 4) : Vector UInt8 16 :=
  ⟨mappedBytes.toArray ++ bytes.toArray, by rw [Array.size_append, bytes.size_toArray]; rfl⟩

/-- What `inet_pton` is documented to do: an IPv4 address is in dotted decimal, an IPv6 address has
hexadecimal digits, colons and dots, and `::ffff:` before an IPv4 address maps it. -/
structure InetPton.Documented (inet : InetPton) : Prop where
  v4_text : ∀ t b, inet.v4 t = some b → t ≠ [] ∧ t.length ≤ 15 ∧ ∀ c ∈ t, isdigit c ∨ c = dot
  v6_text : ∀ t b, inet.v6 t = some b → t ≠ [] ∧ ∀ c ∈ t, isxdigit c ∨ c = colon ∨ c = dot
  mapped : ∀ t b, inet.v4 t = some b → inet.v6 (lit "::ffff:" ++ t) = some (mappedAddress b)

/-- `mapped` -/
def mapped (address : Vector UInt8 16) : Bool := address.toList.take 12 == mappedBytes

/-- `memmove(address, address + 12, 4)` -/
def moveMapped (address : Vector UInt8 16) : Vector UInt8 16 :=
  Vector.ofFn fun i ↦ addressByte address (if i.val < 4 then i.val + 12 else i.val)

/-- The first four bytes of an address of zeros, written over. -/
def padded (bytes : Vector UInt8 4) : Vector UInt8 16 := bytes.append (Vector.replicate 12 0)

/-- `address_parse`: the address and its family. -/
def addressParse (inet : InetPton) (ip : CStr) : Option (Vector UInt8 16 × UInt32) :=
  match inet.v4 ip with
  | some bytes => some (padded bytes, 4)
  | none => (inet.v6 ip).map fun address ↦ (address, 6)

/-! ## Networks -/

/-- `sizeof(ip)` -/
def networkSize : ℕ := 64

/-- The loop over the digits after the slash. -/
def prefixDigits : (digits : CStr) → (len : ℕ) → Option ℕ
  | [], len => some len
  | c :: digits, len =>
    if isdigit c = false ∨ len > 128 then none
    else prefixDigits digits (len * 10 + (c.toNat - 0x30))

/-- The prefix length after the slash, if there is one. -/
def prefixParse (text : CStr) : Option (Option ℕ) :=
  match strchr slash text with
  | none => some none
  | some n =>
    let digits := text.drop (n + 1)
    if digits = [] then none else (prefixDigits digits 0).map some

/-- The part of `network_parse` after the address. -/
def networkStore (rule : AclRule) (address : Vector UInt8 16) (family : UInt32) (len : Option ℕ) :
    Option AclRule :=
  let bits := if family = 4 then 32 else 128
  let len := len.getD bits
  if len > bits then none
  else if family = 6 ∧ mapped address ∧ 96 ≤ len then
    some { rule with
      address := moveMapped address, family := 4, prefixLen := UInt32.ofNat (len - 96) }
  else some { rule with address, family, prefixLen := UInt32.ofNat len }

/-- `network_parse` -/
def networkParse (inet : InetPton) (rule : AclRule) (text : CStr) : Option AclRule :=
  if text = lit "all" ∨ text = lit "*" then some rule
  else if networkSize ≤ text.length then none
  else
    (prefixParse text).bind fun len ↦
      (addressParse inet (text.takeWhile (· ≠ slash))).bind fun parsed ↦
        networkStore rule parsed.1 parsed.2 len

/-! ## Selectors -/

/-- `ACL_PRINCIPAL_MAX` -/
def aclPrincipalMax : ℕ := 127

/-- A token of digits and dots, with a dot in it. -/
def isDottedNumber (copy : CStr) : Bool :=
  copy.all (fun c ↦ isdigit c || c == dot) && copy.contains dot

/-- `principal` and `network`.  What `address_parse` stores here is overwritten in
`network_parse`. -/
def selectorParts (inet : InetPton) (copy : CStr) : Option (Option CStr × Option CStr) :=
  match strrchr atSign copy with
  | some (n + 1) => some (some (copy.take (n + 1)), some (copy.drop (n + 2)))
  | _ =>
    if copy.head? = some atSign then some (some copy, none)
    else if copy = lit "all" ∨ copy = lit "*" ∨ slash ∈ copy ∨ colon ∈ copy ∨
        (addressParse inet copy).isSome then
      some (none, some copy)
    else if isDottedNumber copy then none
    else some (some copy, none)

/-- The part of `acl_rule_parse` about the principal. -/
def principalParse (parsed : AclRule) : (principal : Option CStr) → Option AclRule
  | none => some parsed
  | some principal =>
    let kind := if principal.head? = some atSign then .group else .user
    let principal := if kind = .group then principal.tail else principal
    if principal = [] ∨ aclPrincipalMax < principal.length ∨ atSign ∈ principal then none
    else some { parsed with kind, principal }

/-- `parsed` before anything is read. -/
def AclRule.zero (allow : Bool) : AclRule := ⟨Vector.replicate 16 0, 0, 0, .any, [], allow⟩

/-- The part of `acl_rule_parse` after the two are told apart. -/
def partsParse (inet : InetPton) (allow : Bool) (principal network : Option CStr) :
    Option AclRule :=
  (principalParse (.zero allow) principal).bind fun parsed ↦
    match network with
    | none => some parsed
    | some network => networkParse inet parsed network

/-- What `acl_rule_parse` has parsed in the end. -/
def parsedRule (inet : InetPton) (allow : Bool) (selector : CStr) : Option AclRule :=
  if selector = [] ∨ 256 ≤ selector.length then none
  else if selector.any fun c ↦ isspace c || c == equals then none
  else (selectorParts inet selector).bind fun parts ↦ partsParse inet allow parts.1 parts.2

/-- `acl_rule_parse`, with the rule that it writes to. -/
def aclRuleParse (inet : InetPton) (rule : AclRule) (allow : Bool) (selector : CStr) :
    Bool × AclRule :=
  match parsedRule inet allow selector with
  | some parsed => (true, parsed)
  | none => (false, rule)

/-- `acl_subject_init` -/
def aclSubjectInit (inet : InetPton) (ip user : Option CStr) (inGroup : Option (CStr → Bool)) :
    Bool × AclSubject :=
  let subject := ⟨Vector.replicate 16 0, 0, user, inGroup, false⟩
  match ip with
  | none => (true, subject)
  | some ip =>
    match addressParse inet ip with
    | none => (false, subject)
    | some (address, family) =>
      if family = 6 ∧ mapped address then
        (true, { subject with address := moveMapped address, family := 4 })
      else (true, { subject with address, family })

/-! ## What a selector says -/

/-- The last four bytes of an address. -/
def mappedTail (address : Vector UInt8 16) : Vector UInt8 4 :=
  Vector.ofFn fun i ↦ addressByte address (i.val + 12)

/-- An address of one of the families. -/
inductive Ip where
  | v4 (bytes : Vector UInt8 4)
  | v6 (bytes : Vector UInt8 16)
  deriving DecidableEq, Repr

namespace Ip

/-- The number of the family. -/
def family : Ip → UInt32
  | v4 _ => 4
  | v6 _ => 6

/-- The number of bits. -/
def width : Ip → ℕ
  | v4 _ => 32
  | v6 _ => 128

def bytes : Ip → List UInt8
  | v4 bytes => bytes.toList
  | v6 bytes => bytes.toList

/-- How the address is stored. -/
def stored : Ip → Vector UInt8 16
  | v4 bytes => padded bytes
  | v6 bytes => bytes

/-- The IPv4 address that an IPv4-mapped one maps. -/
def unmapped? : Ip → Option (Vector UInt8 4)
  | v4 _ => none
  | v6 bytes => if mapped bytes then some (mappedTail bytes) else none

end Ip

/-- The address that a text is. -/
def ipOf (inet : InetPton) (t : CStr) : Option Ip :=
  match inet.v4 t with
  | some bytes => some (.v4 bytes)
  | none => (inet.v6 t).map .v6

/-- The addresses that a rule is for. -/
inductive Network where
  | all
  | net (ip : Ip) (len : ℕ)
  deriving DecidableEq, Repr

/-- An IPv4-mapped network is an IPv4 network, if its prefix takes in all that maps it. -/
def normalNetwork (ip : Ip) (len : ℕ) : Ip × ℕ :=
  match ip.unmapped? with
  | some bytes => if 96 ≤ len then (.v4 bytes, len - 96) else (ip, len)
  | none => (ip, len)

/-- The text is `all` or `*`, an address, or an address with a prefix length. -/
def NetworkText (inet : InetPton) (text : CStr) : Network → Prop
  | .all => text = lit "all" ∨ text = lit "*"
  | .net ip len => (ipOf inet text = some ip ∧ len = ip.width) ∨
    ∃ t ds, text = t ++ slash :: ds ∧ ipOf inet t = some ip ∧ ds ≠ [] ∧ (∀ c ∈ ds, isdigit c) ∧
      digitsVal ds = len ∧ len ≤ ip.width

/-- A name that fits the rule. -/
def IsName (name : CStr) : Prop := name ≠ [] ∧ name.length ≤ aclPrincipalMax ∧ atSign ∉ name

/-- A token that is not meant for a network. -/
def IsUserToken (inet : InetPton) (name : CStr) : Prop :=
  name ≠ lit "all" ∧ name ≠ lit "*" ∧ slash ∉ name ∧ colon ∉ name ∧ ipOf inet name = none ∧
    isDottedNumber name = false

/-- **The selectors**, with the principal and the network that they stand for. -/
inductive Selects (inet : InetPton) : CStr → AclPrincipal → CStr → Network → Prop
  | network {text : CStr} {net : Network} : NetworkText inet text net → text.length < networkSize →
      Selects inet text .any [] net
  | group {name : CStr} : IsName name → Selects inet (atSign :: name) .group name .all
  | user {name : CStr} : IsName name → IsUserToken inet name → Selects inet name .user name .all
  | userAt {name text : CStr} {net : Network} : IsName name → NetworkText inet text net →
      text.length < networkSize → Selects inet (name ++ atSign :: text) .user name net
  | groupAt {name text : CStr} {net : Network} : IsName name → NetworkText inet text net →
      text.length < networkSize → Selects inet (atSign :: (name ++ atSign :: text)) .group name net

/-- The rule is for the network. -/
def AclRule.IsFor (rule : AclRule) : Network → Prop
  | .all => rule.family = 0
  | .net ip len => rule.family = (normalNetwork ip len).1.family ∧
    rule.prefixLen.toNat = (normalNetwork ip len).2 ∧
    rule.address.toList.take (normalNetwork ip len).1.bytes.length = (normalNetwork ip len).1.bytes

/-- The rule is for the principal and the network, and no more. -/
structure Constrains (rule : AclRule) (allow : Bool) (kind : AclPrincipal) (name : CStr)
    (net : Network) : Prop where
  allow : rule.allow = allow
  kind : rule.kind = kind
  principal : rule.principal = name
  network : rule.IsFor net

/-! ## Reading a network -/

/-- The characters of an address. -/
def isIpChar (c : UInt8) : Bool := isxdigit c || c == colon || c == dot

theorem isIpChar_spec {c : UInt8} (h : isIpChar c) :
    c ≠ atSign ∧ c ≠ slash ∧ c ≠ star ∧ c ≠ 0x6c ∧ c ≠ equals ∧ isspace c = false := by
  revert h
  refine forall_byte ?_ c
  decide +kernel

theorem InetPton.Documented.ipOf_text {inet : InetPton} (hinet : inet.Documented) {t : CStr}
    {ip : Ip} (h : ipOf inet t = some ip) : t ≠ [] ∧ ∀ c ∈ t, isIpChar c := by
  rw [ipOf] at h
  cases hv4 : inet.v4 t with
  | some b =>
    obtain ⟨hne, -, hchars⟩ := hinet.v4_text t b hv4
    refine ⟨hne, fun c hc ↦ ?_⟩
    obtain hdigit | rfl := hchars c hc
    · simp [isIpChar, isxdigit, hdigit]
    · rfl
  | none =>
    rw [hv4] at h
    obtain ⟨b, hv6, -⟩ := Option.map_eq_some_iff.mp h
    obtain ⟨hne, hchars⟩ := hinet.v6_text t b hv6
    refine ⟨hne, fun c hc ↦ ?_⟩
    obtain hdigit | rfl | rfl := hchars c hc
    · simp [isIpChar, hdigit]
    · rfl
    · rfl

theorem addressParse_eq (inet : InetPton) (t : CStr) :
    addressParse inet t = (ipOf inet t).map fun ip ↦ (ip.stored, ip.family) := by
  rw [addressParse, ipOf]
  cases inet.v4 t with
  | some b => rfl
  | none => cases inet.v6 t <;> rfl

/-- The value of the digits read after a number. -/
theorem le_foldl_digits (ds : CStr) (n : ℕ) :
    n ≤ ds.foldl (fun n c ↦ 10 * n + (c.toNat - 0x30)) n := by
  induction ds generalizing n with
  | nil => exact le_rfl
  | cons c ds ih => exact (by omega : n ≤ 10 * n + (c.toNat - 0x30)).trans (ih _)

theorem prefixDigits_sound {ds : CStr} {n m : ℕ} (h : prefixDigits ds n = some m) :
    (∀ c ∈ ds, isdigit c) ∧ ds.foldl (fun n c ↦ 10 * n + (c.toNat - 0x30)) n = m := by
  induction ds generalizing n with
  | nil => exact ⟨fun c hc ↦ (List.not_mem_nil hc).elim, Option.some.inj h⟩
  | cons c ds ih =>
    rw [prefixDigits] at h
    split at h
    case isTrue => cases h
    case isFalse hguard =>
      rw [not_or, Bool.not_eq_false] at hguard
      obtain ⟨hdigits, hval⟩ := ih h
      rw [Nat.mul_comm] at hval
      exact ⟨List.forall_mem_cons.mpr ⟨hguard.1, hdigits⟩, hval⟩

/-- The guard against large numbers stops no number that is small enough. -/
theorem prefixDigits_complete {ds : CStr} {n : ℕ} (hds : ∀ c ∈ ds, isdigit c)
    (hle : ds.foldl (fun n c ↦ 10 * n + (c.toNat - 0x30)) n ≤ 128) :
    prefixDigits ds n = some (ds.foldl (fun n c ↦ 10 * n + (c.toNat - 0x30)) n) := by
  induction ds generalizing n with
  | nil => rfl
  | cons c ds ih =>
    have hn : n ≤ 128 := (le_foldl_digits (c :: ds) n).trans hle
    rw [List.forall_mem_cons] at hds
    rw [List.foldl_cons] at hle ⊢
    rw [prefixDigits, if_neg (by rw [hds.1]; simp; omega), Nat.mul_comm n 10, ih hds.2 hle]

theorem prefixParse_of_not_mem {text : CStr} (h : slash ∉ text) :
    prefixParse text = some none ∧ text.takeWhile (· ≠ slash) = text := by
  have hall : ∀ c ∈ text, decide (c ≠ slash) = true := fun c hc ↦
    decide_eq_true fun heq ↦ h (heq ▸ hc)
  rw [prefixParse, strchr, if_neg h]
  exact ⟨rfl, List.takeWhile_eq_self_iff.mpr hall⟩

theorem prefixParse_append {t : CStr} (h : slash ∉ t) (ds : CStr) :
    prefixParse (t ++ slash :: ds) = (if ds = [] then none else (prefixDigits ds 0).map some) ∧
      (t ++ slash :: ds).takeWhile (· ≠ slash) = t := by
  have hall : ∀ c ∈ t, decide (c ≠ slash) = true := fun c hc ↦
    decide_eq_true fun heq ↦ h (heq ▸ hc)
  rw [prefixParse, strchr_append h]
  dsimp only
  rw [← List.drop_drop, List.drop_left]
  exact ⟨rfl, takeWhile_append_of_all hall (by simp)⟩

/-- The rule with a network in it. -/
def AclRule.onNetwork (rule : AclRule) : Network → AclRule
  | .all => rule
  | .net ip len =>
    if ip.unmapped?.isSome ∧ 96 ≤ len then
      { rule with
        address := moveMapped ip.stored, family := 4, prefixLen := UInt32.ofNat (len - 96) }
    else { rule with address := ip.stored, family := ip.family, prefixLen := UInt32.ofNat len }

theorem Ip.width_le (ip : Ip) : ip.width ≤ 128 := by
  cases ip with
  | v4 => exact (by decide : 32 ≤ 128)
  | v6 => exact le_rfl

theorem networkStore_eq (rule : AclRule) (ip : Ip) (len : Option ℕ) :
    networkStore rule ip.stored ip.family len =
      if len.getD ip.width ≤ ip.width then some (rule.onNetwork (.net ip (len.getD ip.width)))
      else none := by
  have hbits : (if ip.family = 4 then 32 else 128) = ip.width := by cases ip <;> rfl
  have hmapped : (ip.family = 6 ∧ mapped ip.stored = true) ↔ ip.unmapped?.isSome = true := by
    cases ip with
    | v4 b => simp [Ip.family, Ip.unmapped?]
    | v6 b => by_cases hb : mapped b <;> simp [Ip.family, Ip.unmapped?, Ip.stored, hb]
  simp only [networkStore, hbits, ← and_assoc, hmapped, AclRule.onNetwork]
  by_cases hle : len.getD ip.width ≤ ip.width
  · rw [if_neg (by omega), if_pos hle]
    split <;> rfl
  · rw [if_pos (by omega), if_neg hle]

theorem ipOf_ne {inet : InetPton} (hinet : inet.Documented) {t : CStr} {ip : Ip}
    (h : ipOf inet t = some ip) : ¬(t = lit "all" ∨ t = lit "*") := by
  have hchars := (hinet.ipOf_text h).2
  rintro (rfl | rfl)
  · exact (isIpChar_spec (hchars 0x6c (by decide))).2.2.2.1 rfl
  · exact (isIpChar_spec (hchars star (by decide))).2.2.1 rfl

theorem slash_notMem_of_ipOf {inet : InetPton} (hinet : inet.Documented) {t : CStr} {ip : Ip}
    (h : ipOf inet t = some ip) : slash ∉ t := fun hmem ↦
  (isIpChar_spec ((hinet.ipOf_text h).2 slash hmem)).2.1 rfl

/-- **The networks that are read**, and what the rule is then. -/
theorem networkParse_eq_some_iff {inet : InetPton} (hinet : inet.Documented) (rule : AclRule)
    (text : CStr) (r : AclRule) : networkParse inet rule text = some r ↔
      ∃ net, NetworkText inet text net ∧ text.length < networkSize ∧ r = rule.onNetwork net := by
  constructor
  · intro h
    rw [networkParse] at h
    split at h
    case isTrue hall =>
      refine ⟨.all, hall, ?_, (Option.some.inj h).symm⟩
      obtain rfl | rfl := hall <;> decide
    case isFalse =>
    split at h
    case isTrue => cases h
    case isFalse hsize =>
    by_cases hslash : slash ∈ text
    · obtain ⟨t, ds, rfl, ht⟩ := List.eq_append_cons_of_mem hslash
      obtain ⟨hparse, htake⟩ := prefixParse_append ht ds
      rw [hparse, htake, addressParse_eq] at h
      split at h
      case isTrue => cases h
      case isFalse hds =>
      obtain ⟨len, hlen, h⟩ := Option.bind_eq_some_iff.mp h
      obtain ⟨m, hm, rfl⟩ := Option.map_eq_some_iff.mp hlen
      obtain ⟨parsed, haddress, h⟩ := Option.bind_eq_some_iff.mp h
      obtain ⟨ip, hip, rfl⟩ := Option.map_eq_some_iff.mp haddress
      rw [networkStore_eq, Option.getD_some] at h
      split at h
      case isTrue hle =>
        obtain ⟨hdigits, hval⟩ := prefixDigits_sound hm
        exact ⟨.net ip m, .inr ⟨t, ds, rfl, hip, hds, hdigits, hval, hle⟩, by omega,
          (Option.some.inj h).symm⟩
      case isFalse => cases h
    · obtain ⟨hparse, htake⟩ := prefixParse_of_not_mem hslash
      rw [hparse, htake, addressParse_eq, Option.bind_some] at h
      obtain ⟨parsed, haddress, h⟩ := Option.bind_eq_some_iff.mp h
      obtain ⟨ip, hip, rfl⟩ := Option.map_eq_some_iff.mp haddress
      rw [networkStore_eq, Option.getD_none, if_pos le_rfl] at h
      exact ⟨.net ip ip.width, .inl ⟨hip, rfl⟩, by omega, (Option.some.inj h).symm⟩
  · rintro ⟨net, hnet, hsize, rfl⟩
    rw [networkParse]
    cases net with
    | all => exact if_pos hnet
    | net ip len =>
      obtain ⟨hip, rfl⟩ | ⟨t, ds, rfl, hip, hne, hdigits, rfl, hle⟩ := hnet
      · obtain ⟨hparse, htake⟩ := prefixParse_of_not_mem (slash_notMem_of_ipOf hinet hip)
        rw [if_neg (ipOf_ne hinet hip), if_neg (by omega), hparse, htake, addressParse_eq, hip]
        exact (networkStore_eq rule ip none).trans (if_pos le_rfl)
      · obtain ⟨hparse, htake⟩ := prefixParse_append (slash_notMem_of_ipOf hinet hip) ds
        have hall : ¬(t ++ slash :: ds = lit "all" ∨ t ++ slash :: ds = lit "*") := by
          rintro (heq | heq)
          · exact absurd (heq ▸ (by simp) : slash ∈ lit "all") (by decide)
          · exact absurd (heq ▸ (by simp) : slash ∈ lit "*") (by decide)
        have hdigitsVal := prefixDigits_complete (n := 0) hdigits
          (hle.trans ip.width_le)
        rw [if_neg hall, if_neg (by omega), hparse, htake, addressParse_eq, hip, if_neg hne,
          hdigitsVal]
        exact (networkStore_eq rule ip (some (digitsVal ds))).trans (if_pos hle)

/-! ## Reading a selector -/

/-- The rule that has only a principal. -/
def AclRule.ofPrincipal (allow : Bool) (kind : AclPrincipal) (name : CStr) : AclRule :=
  { AclRule.zero allow with kind, principal := name }

theorem principalParse_eq_some_iff (allow : Bool) (principal : CStr) (r : AclRule) :
    principalParse (.zero allow) (some principal) = some r ↔ ∃ name, IsName name ∧
      ((principal = name ∧ r = .ofPrincipal allow .user name) ∨
        (principal = atSign :: name ∧ r = .ofPrincipal allow .group name)) := by
  have hparse : ∀ kind name, (if name = [] ∨ aclPrincipalMax < name.length ∨ atSign ∈ name then none
      else some { AclRule.zero allow with kind, principal := name }) = some r ↔
        IsName name ∧ r = .ofPrincipal allow kind name := by
    intro kind name
    by_cases h : name = [] ∨ aclPrincipalMax < name.length ∨ atSign ∈ name
    · rw [if_pos h]
      refine iff_of_false (by simp) fun hname ↦ ?_
      obtain ⟨hne, hlen, hat⟩ := hname.1
      obtain h | h | h := h
      · exact hne h
      · omega
      · exact hat h
    · rw [if_neg h, Option.some.injEq, eq_comm]
      rw [not_or, not_or, not_lt] at h
      exact (and_iff_right h).symm
  rw [principalParse]
  by_cases hhead : principal.head? = some atSign
  · obtain ⟨name, rfl⟩ : ∃ name, principal = atSign :: name := by
      cases principal with
      | nil => cases hhead
      | cons c name => exact ⟨name, by rw [Option.some.inj hhead]⟩
    rw [if_pos hhead]
    refine (hparse .group name).trans ⟨fun h ↦ ⟨name, h.1, .inr ⟨rfl, h.2⟩⟩, ?_⟩
    rintro ⟨name', hname, ⟨rfl, -⟩ | ⟨heq, hr⟩⟩
    · exact (hname.2.2 List.mem_cons_self).elim
    · cases heq
      exact ⟨hname, hr⟩
  · rw [if_neg hhead]
    refine (hparse .user principal).trans ⟨fun h ↦ ⟨principal, h.1, .inl ⟨rfl, h.2⟩⟩, ?_⟩
    rintro ⟨name, hname, ⟨rfl, hr⟩ | ⟨rfl, -⟩⟩
    · exact ⟨hname, hr⟩
    · exact (hhead rfl).elim

section Parts

variable (inet : InetPton)

theorem selectorParts_at {a b : CStr} (ha : a ≠ []) (hb : atSign ∉ b) :
    selectorParts inet (a ++ atSign :: b) = some (some a, some b) := by
  obtain ⟨n, hn⟩ := Nat.exists_eq_succ_of_ne_zero (List.length_pos_iff.mpr ha).ne'
  have hdrop : (a ++ atSign :: b).drop (a.length + 1) = b := by
    rw [← List.drop_drop, List.drop_left]
    rfl
  rw [selectorParts, strrchr_append a hb, hn]
  dsimp only
  rw [← Nat.succ_eq_add_one n, ← hn, List.take_left]
  rw [hn] at hdrop
  rw [show n + 2 = n.succ + 1 from rfl, hdrop]

theorem selectorParts_group {name : CStr} (hname : atSign ∉ name) :
    selectorParts inet (atSign :: name) = some (some (atSign :: name), none) := by
  rw [selectorParts, ← List.nil_append (atSign :: name), strrchr_append [] hname]
  exact if_pos rfl

/-- The tests that make a selector without an `@` a network. -/
def IsNetworkToken (copy : CStr) : Prop :=
  copy = lit "all" ∨ copy = lit "*" ∨ slash ∈ copy ∨ colon ∈ copy ∨
    (addressParse inet copy).isSome = true

instance (copy : CStr) : Decidable (IsNetworkToken inet copy) :=
  inferInstanceAs (Decidable (_ ∨ _ ∨ _ ∨ _ ∨ _))

theorem selectorParts_bare {copy : CStr} (hat : atSign ∉ copy) :
    selectorParts inet copy = if IsNetworkToken inet copy then some (none, some copy)
      else if isDottedNumber copy then none else some (some copy, none) := by
  have hhead : copy.head? ≠ some atSign := fun h ↦ hat (List.mem_of_head? h)
  rw [selectorParts, strrchr_eq_none_iff.mpr hat]
  exact if_neg hhead

end Parts

theorem isUserToken_iff {inet : InetPton} {name : CStr} :
    IsUserToken inet name ↔ ¬IsNetworkToken inet name ∧ isDottedNumber name = false := by
  rw [IsUserToken, IsNetworkToken, addressParse_eq, Option.isSome_map]
  simp only [not_or, Option.not_isSome_iff_eq_none, and_assoc, ne_eq]

section Parse

variable {inet : InetPton} (hinet : inet.Documented)
include hinet

/-- A text that is a network has no `@`, and passes one of the tests for it. -/
theorem NetworkText.isNetworkToken {text : CStr} {net : Network} (h : NetworkText inet text net) :
    text ≠ [] ∧ atSign ∉ text ∧ IsNetworkToken inet text := by
  cases net with
  | all => obtain rfl | rfl := h <;> exact ⟨by decide, by decide, by simp [IsNetworkToken]⟩
  | net ip len =>
    have hat : ∀ t, ipOf inet t = some ip → t ≠ [] ∧ atSign ∉ t := fun t ht ↦
      ⟨(hinet.ipOf_text ht).1, fun hmem ↦
        (isIpChar_spec ((hinet.ipOf_text ht).2 atSign hmem)).1 rfl⟩
    obtain ⟨hip, -⟩ | ⟨t, ds, rfl, hip, -, hdigits, -⟩ := h
    · obtain ⟨hne, hat⟩ := hat _ hip
      refine ⟨hne, hat, ?_⟩
      rw [IsNetworkToken, addressParse_eq, hip]
      simp
    · obtain ⟨hne, hat⟩ := hat _ hip
      have hds : atSign ∉ ds := fun hmem ↦ absurd (hdigits _ hmem) (by decide)
      refine ⟨by simp, ?_, .inr (.inr (.inl (by simp)))⟩
      rw [List.mem_append, List.mem_cons, not_or, not_or]
      exact ⟨hat, by decide, hds⟩

theorem Selects.ne_nil {selector name : CStr} {kind : AclPrincipal} {net : Network}
    (h : Selects inet selector kind name net) : selector ≠ [] := by
  cases h with
  | network htext => exact (htext.isNetworkToken hinet).1
  | group => exact List.cons_ne_nil _ _
  | user hname => exact hname.1
  | userAt => simp
  | groupAt => exact List.cons_ne_nil _ _

/-- Every selector is read as what it is. -/
theorem Selects.parts {selector name : CStr} {kind : AclPrincipal} {net : Network}
    (h : Selects inet selector kind name net) (allow : Bool) :
    (selectorParts inet selector).bind (fun parts ↦ partsParse inet allow parts.1 parts.2)
      = some ((AclRule.ofPrincipal allow kind name).onNetwork net) := by
  have hprincipal := principalParse_eq_some_iff allow
  have hnetwork := networkParse_eq_some_iff hinet
  cases h with
  | network htext hsize =>
    obtain ⟨-, hat, htoken⟩ := htext.isNetworkToken hinet
    rw [selectorParts_bare inet hat, if_pos htoken]
    exact (hnetwork _ _ _).mpr ⟨_, htext, hsize, rfl⟩
  | group hname =>
    rw [selectorParts_group inet hname.2.2, Option.bind_some, partsParse,
      (hprincipal _ _).mpr ⟨_, hname, .inr ⟨rfl, rfl⟩⟩]
    rfl
  | user hname huser =>
    obtain ⟨htoken, hdotted⟩ := isUserToken_iff.mp huser
    rw [selectorParts_bare inet hname.2.2, if_neg htoken, hdotted, if_neg Bool.false_ne_true,
      Option.bind_some, partsParse, (hprincipal _ _).mpr ⟨_, hname, .inl ⟨rfl, rfl⟩⟩]
    rfl
  | userAt hname htext hsize =>
    rw [selectorParts_at inet hname.1 (htext.isNetworkToken hinet).2.1, Option.bind_some,
      partsParse, (hprincipal _ _).mpr ⟨_, hname, .inl ⟨rfl, rfl⟩⟩]
    exact (hnetwork _ _ _).mpr ⟨_, htext, hsize, rfl⟩
  | groupAt hname htext hsize =>
    rw [← List.cons_append, selectorParts_at inet (List.cons_ne_nil _ _)
      (htext.isNetworkToken hinet).2.1, Option.bind_some, partsParse,
      (hprincipal _ _).mpr ⟨_, hname, .inr ⟨rfl, rfl⟩⟩]
    exact (hnetwork _ _ _).mpr ⟨_, htext, hsize, rfl⟩

/-- What is read is a selector. -/
theorem selects_of_parts {selector : CStr} {allow : Bool} {r : AclRule}
    (h : (selectorParts inet selector).bind (fun parts ↦ partsParse inet allow parts.1 parts.2)
      = some r) : ∃ kind name net, Selects inet selector kind name net := by
  have hprincipal := principalParse_eq_some_iff allow
  have hnetwork := networkParse_eq_some_iff hinet
  cases hat : strrchr atSign selector with
  | none =>
    rw [strrchr_eq_none_iff] at hat
    rw [selectorParts_bare inet hat] at h
    split at h
    case isTrue =>
      obtain ⟨net, htext, hsize, -⟩ := (hnetwork _ _ _).mp h
      exact ⟨_, _, _, .network htext hsize⟩
    case isFalse htoken =>
    split at h
    case isTrue => cases h
    case isFalse hdotted =>
      rw [Option.bind_some, partsParse] at h
      obtain ⟨parsed, hparsed, -⟩ := Option.bind_eq_some_iff.mp h
      obtain ⟨name, hname, ⟨rfl, -⟩ | ⟨rfl, -⟩⟩ := (hprincipal _ _).mp hparsed
      · exact ⟨_, _, _, .user hname (isUserToken_iff.mpr ⟨htoken, Bool.eq_false_iff.mpr hdotted⟩)⟩
      · exact (hat List.mem_cons_self).elim
  | some n =>
    obtain ⟨before, after, rfl, hafter, -⟩ := strrchr_eq_some hat
    by_cases hbefore : before = []
    · subst hbefore
      rw [List.nil_append, selectorParts_group inet hafter, Option.bind_some, partsParse] at h
      obtain ⟨parsed, hparsed, -⟩ := Option.bind_eq_some_iff.mp h
      obtain ⟨name, hname, ⟨heq, -⟩ | ⟨heq, -⟩⟩ := (hprincipal _ _).mp hparsed
      · exact (hname.2.2 (heq ▸ List.mem_cons_self)).elim
      · cases heq
        exact ⟨_, _, _, .group hname⟩
    · rw [selectorParts_at inet hbefore hafter, Option.bind_some, partsParse] at h
      obtain ⟨parsed, hparsed, h⟩ := Option.bind_eq_some_iff.mp h
      obtain ⟨net, htext, hsize, -⟩ := (hnetwork _ _ _).mp h
      obtain ⟨name, hname, ⟨rfl, -⟩ | ⟨rfl, -⟩⟩ := (hprincipal _ _).mp hparsed
      · exact ⟨_, _, _, .userAt hname htext hsize⟩
      · exact ⟨_, _, _, .groupAt hname htext hsize⟩

/-- **The parser reads the selectors**, and nothing else. -/
theorem parsedRule_eq_some_iff (allow : Bool) (selector : CStr) (r : AclRule) :
    parsedRule inet allow selector = some r ↔
      selector.length < 256 ∧ (∀ c ∈ selector, isspace c = false ∧ c ≠ equals) ∧
        ∃ kind name net, Selects inet selector kind name net ∧
          r = (AclRule.ofPrincipal allow kind name).onNetwork net := by
  have hchars : (selector.any fun c ↦ isspace c || c == equals) = true ↔
      ¬∀ c ∈ selector, isspace c = false ∧ c ≠ equals := by
    rw [← Bool.not_eq_false, not_iff_not]
    simp
  rw [parsedRule]
  constructor
  · intro h
    split at h
    case isTrue => cases h
    case isFalse hlen =>
    split at h
    case isTrue => cases h
    case isFalse hbytes =>
      obtain ⟨kind, name, net, hselects⟩ := selects_of_parts hinet h
      rw [hchars, not_not] at hbytes
      rw [hselects.parts hinet] at h
      exact ⟨by omega, hbytes, kind, name, net, hselects, (Option.some.inj h).symm⟩
  · rintro ⟨hlen, hbytes, kind, name, net, hselects, rfl⟩
    rw [if_neg (not_or.mpr ⟨hselects.ne_nil hinet, by omega⟩), if_neg (fun h ↦ hchars.mp h hbytes)]
    exact hselects.parts hinet allow

end Parse

/-! ## What the rule says -/

theorem take_padded (bytes : Vector UInt8 4) :
    (padded bytes).toList.take bytes.toList.length = bytes.toList := by
  have h : (padded bytes).toList = bytes.toList ++ (Vector.replicate 12 (0 : UInt8)).toList :=
    Vector.toList_append
  rw [h, List.take_left]

/-- The bytes of the IPv4 address come to the front. -/
theorem take_moveMapped (address : Vector UInt8 16) :
    (moveMapped address).toList.take (mappedTail address).toList.length
      = (mappedTail address).toList := by
  rw [Vector.length_toList, moveMapped, mappedTail]
  refine List.ext_getElem (by simp) fun i hi hi' ↦ ?_
  rw [Vector.length_toList] at hi'
  rw [List.getElem_take, Vector.getElem_toList, Vector.getElem_toList, Vector.getElem_ofFn,
    Vector.getElem_ofFn]
  exact congrArg _ (if_pos hi')

theorem NetworkText.le_width {inet : InetPton} {text : CStr} {ip : Ip} {len : ℕ}
    (h : NetworkText inet text (.net ip len)) : len ≤ ip.width := by
  obtain ⟨-, rfl⟩ | ⟨-, -, -, -, -, -, -, hle⟩ := h
  · exact le_rfl
  · exact hle

theorem isFor_onNetwork {rule : AclRule} (hrule : rule.family = 0) {inet : InetPton} {text : CStr}
    {net : Network} (h : NetworkText inet text net) : (rule.onNetwork net).IsFor net := by
  cases net with
  | all => exact hrule
  | net ip len =>
    have hle := h.le_width.trans ip.width_le
    have hofNat : ∀ n ≤ 128, (UInt32.ofNat n).toNat = n := fun n hn ↦
      UInt32.toNat_ofNat_of_lt' (by rw [UInt32.size]; omega)
    rw [AclRule.onNetwork, AclRule.IsFor, normalNetwork]
    cases ip with
    | v4 b => exact ⟨rfl, hofNat len hle, take_padded b⟩
    | v6 b =>
      have htake : b.toList.take b.toList.length = b.toList := List.take_length
      by_cases hb : mapped b
      · rw [Ip.unmapped?, if_pos hb, Option.isSome_some]
        by_cases hlen : 96 ≤ len
        · rw [if_pos ⟨rfl, hlen⟩]
          dsimp only
          rw [if_pos hlen]
          exact ⟨rfl, hofNat _ (by omega), take_moveMapped b⟩
        · rw [if_neg (fun h ↦ hlen h.2)]
          dsimp only
          rw [if_neg hlen]
          exact ⟨rfl, hofNat len hle, htake⟩
      · rw [Ip.unmapped?, if_neg hb, if_neg (by simp)]
        exact ⟨rfl, hofNat len hle, htake⟩

theorem AclRule.onNetwork_rest (rule : AclRule) (net : Network) :
    (rule.onNetwork net).allow = rule.allow ∧ (rule.onNetwork net).kind = rule.kind ∧
      (rule.onNetwork net).principal = rule.principal := by
  cases net with
  | all => exact ⟨rfl, rfl, rfl⟩
  | net ip len =>
    rw [onNetwork]
    split <;> exact ⟨rfl, rfl, rfl⟩

theorem Selects.constrains {inet : InetPton} {selector name : CStr} {kind : AclPrincipal}
    {net : Network} (h : Selects inet selector kind name net) (allow : Bool) :
    Constrains ((AclRule.ofPrincipal allow kind name).onNetwork net) allow kind name net := by
  obtain ⟨hallow, hkind, hname⟩ := (AclRule.ofPrincipal allow kind name).onNetwork_rest net
  refine ⟨hallow, hkind, hname, ?_⟩
  cases h with
  | network htext => exact isFor_onNetwork rfl htext
  | group => exact rfl
  | user => exact rfl
  | userAt _ htext => exact isFor_onNetwork rfl htext
  | groupAt _ htext => exact isFor_onNetwork rfl htext

/-- **A selector is taken** if it is one of the grammar, without blanks and `=`; the rule is then
for what the selector says, and else is as it was. -/
theorem aclRuleParse_iff {inet : InetPton} (hinet : inet.Documented) (rule : AclRule) (allow : Bool)
    (selector : CStr) :
    ((aclRuleParse inet rule allow selector).1 = true ↔
      selector.length < 256 ∧ (∀ c ∈ selector, isspace c = false ∧ c ≠ equals) ∧
        ∃ kind name net, Selects inet selector kind name net) ∧
    ((aclRuleParse inet rule allow selector).1 = true → ∀ kind name net,
      Selects inet selector kind name net →
        Constrains (aclRuleParse inet rule allow selector).2 allow kind name net) ∧
    ((aclRuleParse inet rule allow selector).1 = false →
      (aclRuleParse inet rule allow selector).2 = rule) := by
  have hparse := parsedRule_eq_some_iff hinet allow selector
  rw [aclRuleParse]
  cases hr : parsedRule inet allow selector with
  | none =>
    refine ⟨iff_of_false Bool.false_ne_true ?_, fun h ↦ absurd h Bool.false_ne_true, fun _ ↦ rfl⟩
    rintro ⟨hlen, hbytes, kind, name, net, hselects⟩
    cases hr.symm.trans ((hparse _).mpr ⟨hlen, hbytes, kind, name, net, hselects, rfl⟩)
  | some r =>
    obtain ⟨hlen, hbytes, kind, name, net, hselects, rfl⟩ := (hparse r).mp hr
    refine ⟨iff_of_true rfl ⟨hlen, hbytes, kind, name, net, hselects⟩,
      fun _ kind' name' net' h ↦ ?_, fun h ↦ absurd h.symm Bool.false_ne_true⟩
    have hsame := (hparse _).mpr ⟨hlen, hbytes, kind', name', net', h, rfl⟩
    rw [← Option.some.inj (hsame.symm.trans hr)]
    exact h.constrains allow

/-- An `inet_pton` that knows one address, and its mapped form. -/
def oneAddress : InetPton where
  v4 t := if t = lit "10.2.3.4" then some #v[10, 2, 3, 4] else none
  v6 t := if t = lit "::ffff:10.2.3.4" then some (mappedAddress #v[10, 2, 3, 4]) else none

theorem documented_oneAddress : oneAddress.Documented where
  v4_text t b h := by
    obtain ⟨rfl, -⟩ := (Option.ite_none_right_eq_some ..).mp h
    decide +kernel
  v6_text t b h := by
    obtain ⟨rfl, -⟩ := (Option.ite_none_right_eq_some ..).mp h
    decide +kernel
  mapped t b h := by
    obtain ⟨rfl, hb⟩ := (Option.ite_none_right_eq_some ..).mp h
    cases hb
    decide +kernel

/-- `10.2.3.4/8`, with its eight in some digits. -/
theorem networkText_oneAddress {ds : CStr} (hne : ds ≠ []) (hds : ∀ c ∈ ds, isdigit c)
    (hval : digitsVal ds = 8) : NetworkText oneAddress (lit "10.2.3.4" ++ slash :: ds)
      (.net (.v4 #v[10, 2, 3, 4]) 8) :=
  .inr ⟨_, ds, rfl, by decide +kernel, hne, hds, hval, by decide⟩

/-- `guest@10.2.3.4/8` -/
def guestSelector : CStr := lit "guest" ++ atSign :: (lit "10.2.3.4" ++ slash :: lit "8")

theorem selects_guest :
    Selects oneAddress guestSelector .user (lit "guest") (.net (.v4 #v[10, 2, 3, 4]) 8) :=
  .userAt ⟨by decide +kernel, by decide +kernel, by decide +kernel⟩
    (networkText_oneAddress (by decide +kernel) (by decide +kernel) (by decide +kernel))
    (by decide +kernel)

theorem aclRuleParse_iff_guest :
    Constrains (aclRuleParse oneAddress (.zero false) true guestSelector).2 true .user
      (lit "guest") (.net (.v4 #v[10, 2, 3, 4]) 8) := by
  have h := aclRuleParse_iff documented_oneAddress (.zero false) true guestSelector
  have htaken := h.1.mpr ⟨by decide +kernel, by decide +kernel, _, _, _, selects_guest⟩
  exact h.2.1 htaken _ _ _ selects_guest

/-- A network with too many zeros before the length of its prefix. -/
def zerosSelector : CStr := lit "10.2.3.4" ++ slash :: (List.replicate 55 0x30 ++ lit "8")

theorem not_aclRuleParse_zeros :
    oneAddress.Documented ∧ zerosSelector.length < 256 ∧
      (∀ c ∈ zerosSelector, isspace c = false ∧ c ≠ equals) ∧
      NetworkText oneAddress zerosSelector (.net (.v4 #v[10, 2, 3, 4]) 8) ∧
      (aclRuleParse oneAddress (.zero false) true zerosSelector).1 = false :=
  ⟨documented_oneAddress, by decide +kernel, by decide +kernel,
    networkText_oneAddress (by decide +kernel) (by decide +kernel) (by decide +kernel),
    by decide +kernel⟩

end Rustyaxe
