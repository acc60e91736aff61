import Mathlib.Data.List.Induction
import Rustyaxe.Socks.Engine

/-!
# The negotiation as a grammar

What the proxy has to send for the tunnel to open is a grammar, `Negotiation`, and what is sent to
the proxy is a function of what has arrived so far, `sentFor`.  Neither knows about events.

`Progress` relates the state between two events to the bytes that have arrived.  It is what every
event keeps, so that `negotiated_of_run` holds however the stream is cut into events.
-/

set_option autoImplicit false

namespace Rustyaxe

/-! ## The grammar -/

/-- A user is configured. -/
def RrSocks.hasUser (s : RrSocks) : Prop := s.user ≠ []

instance (s : RrSocks) : Decidable s.hasUser := inferInstanceAs (Decidable (s.user ≠ []))

/-- The choice of the method. -/
def methodReply (s : RrSocks) : List UInt8 := [5, if s.hasUser then 2 else 0]

/-- What the proxy sends before it replies to the CONNECT request. -/
def prelude (s : RrSocks) : List UInt8 := methodReply s ++ if s.hasUser then [1, 0] else []

/-- An address of one of the three types, the type included. -/
inductive IsAddress : List UInt8 → Prop
  | ipv4 (address : List UInt8) (h : address.length = 4) : IsAddress (1 :: address)
  | ipv6 (address : List UInt8) (h : address.length = 16) : IsAddress (4 :: address)
  | name (len : UInt8) (name : List UInt8) (hlen : len ≠ 0) (h : name.length = len.toNat) :
      IsAddress (3 :: len :: name)

/-- A CONNECT reply that reports success. -/
def IsReply (r : List UInt8) : Prop :=
  ∃ address port : List UInt8, IsAddress address ∧ port.length = 2 ∧ r = 5 :: 0 :: 0 :: address ++ port

/-- All that the proxy sends for the tunnel to open. -/
def Negotiation (s : RrSocks) (w : List UInt8) : Prop := ∃ r, IsReply r ∧ w = prelude s ++ r

/-- The stream opens the tunnel. -/
def Opens (s : RrSocks) (b : List UInt8) : Prop := ∃ w, Negotiation s w ∧ w <+: b

/-- What is sent to the proxy that has sent `b`: the credentials after the method has been chosen,
and the CONNECT request after everything that has to come before it. -/
def sentFor (inet : Inet) (s : RrSocks) (b : List UInt8) : List UInt8 :=
  greetingPacket s ++ (if s.hasUser ∧ methodReply s <+: b then authPacket s else []) ++
    (if prelude s <+: b then connectPacket inet s else [])

/-! ## The CONNECT reply -/

/-- A reply, by its type. -/
theorem isReply_iff {r : List UInt8} :
    IsReply r ↔ (∃ a, a.length = 6 ∧ r = 5 :: 0 :: 0 :: 1 :: a) ∨
      (∃ a, a.length = 18 ∧ r = 5 :: 0 :: 0 :: 4 :: a) ∨
      (∃ (len : UInt8) (a : List UInt8), len ≠ 0 ∧ a.length = len.toNat + 2 ∧
        r = 5 :: 0 :: 0 :: 3 :: len :: a) := by
  constructor
  · rintro ⟨address, port, ha, hport, rfl⟩
    cases ha with
    | ipv4 address h => exact .inl ⟨address ++ port, by simp [h, hport], rfl⟩
    | ipv6 address h => exact .inr (.inl ⟨address ++ port, by simp [h, hport], rfl⟩)
    | name len name hlen h =>
      exact .inr (.inr ⟨len, name ++ port, hlen, by simp [h, hport], rfl⟩)
  · have hsplit : ∀ (n : ℕ) (a : List UInt8), a.length = n + 2 →
        (a.take n).length = n ∧ (a.drop n).length = 2 := fun n a ha ↦ by simp [ha]
    rintro (⟨a, ha, rfl⟩ | ⟨a, ha, rfl⟩ | ⟨len, a, hlen, ha, rfl⟩)
    · obtain ⟨h1, h2⟩ := hsplit 4 a ha
      exact ⟨_, _, .ipv4 _ h1, h2, by simp⟩
    · obtain ⟨h1, h2⟩ := hsplit 16 a ha
      exact ⟨_, _, .ipv6 _ h1, h2, by simp⟩
    · obtain ⟨h1, h2⟩ := hsplit len.toNat a ha
      exact ⟨_, _, .name len _ hlen h1, h2, by simp⟩

/-- The first bytes of a reply. -/
theorem IsReply.head {r p : List UInt8} (h : IsReply r) {ver rep rsv atyp : UInt8}
    (hpre : r <+: ver :: rep :: rsv :: atyp :: p) :
    ver = 5 ∧ rep = 0 ∧ rsv = 0 ∧
      ((atyp = 1 ∧ r.length = 10) ∨ (atyp = 4 ∧ r.length = 22) ∨
        ∃ len, atyp = 3 ∧ len ≠ 0 ∧ r.length = 7 + len.toNat ∧ [len] <+: p) := by
  rcases isReply_iff.mp h with ⟨a, ha, rfl⟩ | ⟨a, ha, rfl⟩ | ⟨len, a, hlen, ha, rfl⟩ <;>
    simp only [List.cons_prefix_cons] at hpre
  · obtain ⟨rfl, rfl, rfl, rfl, -⟩ := hpre
    exact ⟨rfl, rfl, rfl, .inl ⟨rfl, by simp [ha]⟩⟩
  · obtain ⟨rfl, rfl, rfl, rfl, -⟩ := hpre
    exact ⟨rfl, rfl, rfl, .inr (.inl ⟨rfl, by simp [ha]⟩)⟩
  · obtain ⟨rfl, rfl, rfl, rfl, hp⟩ := hpre
    refine ⟨rfl, rfl, rfl, .inr (.inr ⟨len, rfl, hlen, ?_, (List.prefix_append [len] a).trans hp⟩)⟩
    simp only [List.length_cons, ha]
    omega

/-- What the checks of a reply have to find. -/
def Reply.Right (p : List UInt8) : Reply → Prop
  | .more => ∀ r, IsReply r → ¬ r <+: p
  | .bad _ => ∀ r x, IsReply r → ¬ r <+: p ++ x
  | .done length => length ≤ p.length ∧ IsReply (p.take length)

/-- The reply is all there as soon as it has its length. -/
theorem right_complete {p : List UInt8} {length : ℕ}
    (hlen : ∀ r, IsReply r → r <+: p → r.length = length)
    (hreply : length ≤ p.length → IsReply (p.take length)) :
    Reply.Right p (if p.length < length then .more else .done length) := by
  split_ifs with h
  · intro r hr hpre
    have := hpre.length_le
    rw [hlen r hr hpre] at this
    omega
  · exact ⟨not_lt.mp h, hreply (not_lt.mp h)⟩

theorem right_ipv4 (address : List UInt8) : Reply.Right (5 :: 0 :: 0 :: 1 :: address)
    (if (5 :: 0 :: 0 :: 1 :: address).length < 10 then .more else .done 10) := by
  refine right_complete (fun r hr hpre ↦ ?_)
    fun hle ↦ isReply_iff.mpr (.inl ⟨address.take 6, ?_, rfl⟩)
  · rcases (hr.head hpre).2.2.2 with ⟨-, h⟩ | ⟨h, -⟩ | ⟨_, h, -⟩
    · exact h
    · exact absurd h (by decide)
    · exact absurd h (by decide)
  · simp only [List.length_cons] at hle
    rw [List.length_take]
    omega

theorem right_ipv6 (address : List UInt8) : Reply.Right (5 :: 0 :: 0 :: 4 :: address)
    (if (5 :: 0 :: 0 :: 4 :: address).length < 22 then .more else .done 22) := by
  refine right_complete (fun r hr hpre ↦ ?_)
    fun hle ↦ isReply_iff.mpr (.inr (.inl ⟨address.take 18, ?_, rfl⟩))
  · rcases (hr.head hpre).2.2.2 with ⟨h, -⟩ | ⟨-, h⟩ | ⟨_, h, -⟩
    · exact absurd h (by decide)
    · exact h
    · exact absurd h (by decide)
  · simp only [List.length_cons] at hle
    rw [List.length_take]
    omega

/-- A reply with a name has the length of the name in it. -/
theorem IsReply.name {r p : List UInt8} (h : IsReply r) (hpre : r <+: 5 :: 0 :: 0 :: 3 :: p) :
    ∃ len, len ≠ 0 ∧ r.length = 7 + len.toNat ∧ [len] <+: p := by
  rcases (h.head hpre).2.2.2 with ⟨h, -⟩ | ⟨h, -⟩ | ⟨len, -, h0, hr, hl⟩
  · exact absurd h (by decide)
  · exact absurd h (by decide)
  · exact ⟨len, h0, hr, hl⟩

theorem right_name {len : UInt8} (h0 : len ≠ 0) (name : List UInt8) :
    Reply.Right (5 :: 0 :: 0 :: 3 :: len :: name)
      (if (5 :: 0 :: 0 :: 3 :: len :: name).length < 7 + len.toNat then .more
      else .done (7 + len.toNat)) := by
  refine right_complete (fun r hr hpre ↦ ?_)
    fun hle ↦ isReply_iff.mpr (.inr (.inr ⟨len, name.take (len.toNat + 2), h0, ?_, ?_⟩))
  · obtain ⟨len', -, hr, hl⟩ := hr.name hpre
    obtain ⟨rfl, -⟩ := List.cons_prefix_cons.mp hl
    exact hr
  · simp only [List.length_cons] at hle
    rw [List.length_take]
    omega
  · rw [show 7 + len.toNat = len.toNat + 2 + 5 by omega]
    rfl

/-- **What the checks of a reply find.** -/
theorem connectReply_right (p : List UInt8) : (connectReply p).Right p := by
  match p with
  | ver :: rep :: rsv :: atyp :: address =>
    simp only [connectReply]
    by_cases hver : ver ≠ 5 ∨ rsv ≠ 0
    · rw [if_pos hver]
      intro r x hr hpre
      obtain ⟨h5, -, h0, -⟩ := hr.head hpre
      exact hver.elim (absurd h5) (absurd h0)
    rw [if_neg hver]
    by_cases hrep : rep ≠ 0
    · rw [if_pos hrep]
      intro r x hr hpre
      exact hrep (hr.head hpre).2.1
    rw [if_neg hrep]
    obtain ⟨rfl, rfl⟩ : ver = 5 ∧ rsv = 0 := by simpa [not_or] using hver
    obtain rfl : rep = 0 := not_not.mp hrep
    by_cases h1 : atyp = 1
    · subst h1
      exact right_ipv4 address
    rw [if_neg h1]
    by_cases h4 : atyp = 4
    · subst h4
      exact right_ipv6 address
    rw [if_neg h4]
    by_cases h3 : atyp = 3
    · subst h3
      rw [if_pos rfl]
      cases address with
      | nil =>
        intro r hr hpre
        obtain ⟨len, -, -, hl⟩ := hr.name hpre
        exact absurd hl.length_le (by simp)
      | cons len name =>
        dsimp only
        by_cases h0 : len = 0
        · rw [if_pos h0]
          intro r x hr hpre
          obtain ⟨len', hne, -, hl⟩ := hr.name hpre
          obtain ⟨rfl, -⟩ := List.cons_prefix_cons.mp hl
          exact hne h0
        · rw [if_neg h0]
          exact right_name h0 name
    · rw [if_neg h3]
      intro r x hr hpre
      rcases (hr.head hpre).2.2.2 with ⟨h, -⟩ | ⟨h, -⟩ | ⟨_, h, -⟩
      · exact h1 h
      · exact h4 h
      · exact h3 h
  | [] | [_] | [_, _] | [_, _, _] =>
    intro r hr hpre
    have := hpre.length_le
    rcases isReply_iff.mp hr with ⟨a, ha, rfl⟩ | ⟨a, ha, rfl⟩ | ⟨len, a, hlen, ha, rfl⟩ <;>
    · simp only [List.length_cons, List.length_nil] at this
      omega

/-! ## What is sent -/

section Sent

variable {inet : Inet} {s : RrSocks} {b : List UInt8}

theorem methodReply_prefix_prelude : methodReply s <+: prelude s := List.prefix_append _ _

theorem sentFor_of_not_method (h : ¬ methodReply s <+: b) : sentFor inet s b = greetingPacket s := by
  rw [sentFor, if_neg fun h' ↦ h h'.2, if_neg fun h' ↦ h (methodReply_prefix_prelude.trans h'),
    List.append_nil, List.append_nil]

theorem sentFor_of_method (hu : s.hasUser) (h : methodReply s <+: b) (hp : ¬ prelude s <+: b) :
    sentFor inet s b = greetingPacket s ++ authPacket s := by
  rw [sentFor, if_pos ⟨hu, h⟩, if_neg hp, List.append_nil]

theorem sentFor_of_prelude (h : prelude s <+: b) :
    sentFor inet s b = greetingPacket s ++ (if s.hasUser then authPacket s else [])
      ++ connectPacket inet s := by
  have hm := methodReply_prefix_prelude.trans h
  rw [sentFor, if_pos h]
  simp only [hm, and_true]

theorem Opens.isPrefix_prelude (h : Opens s b) : prelude s <+: b := by
  obtain ⟨w, ⟨r, -, rfl⟩, hpre⟩ := h
  exact (List.prefix_append _ _).trans hpre

theorem Opens.append (h : Opens s b) (x : List UInt8) : Opens s (b ++ x) := by
  obtain ⟨w, hw, hpre⟩ := h
  exact ⟨w, hw, hpre.trans (List.prefix_append _ _)⟩

end Sent

/-! ## One event -/

/-- How far the negotiation has got with `b`: the stage, and what is left in the buffer. -/
inductive Progress (inet : Inet) (s : RrSocks) (b : List UInt8) : SocksStage → List UInt8 → Prop
  | greeting (h : b.length < 2) : Progress inet s b .greeting b
  | auth (rest : List UInt8) (hu : s.hasUser) (hb : b = methodReply s ++ rest)
      (h : rest.length < 2) : Progress inet s b .auth rest
  | connect (rest : List UInt8) (hb : b = prelude s ++ rest) (h : connectReply rest = .more) :
      Progress inet s b .connect rest
  | ready (w rest : List UInt8) (hw : Negotiation s w) (hb : b = w ++ rest) :
      Progress inet s b .ready rest
  | failed (rest : List UInt8) (h : ∀ x, ¬ Opens s (b ++ x))
      (hsent : ∀ x, sentFor inet s (b ++ x) = sentFor inet s b) : Progress inet s b .failed rest

/-- The same at the head of the loop, where the buffer may hold more. -/
inductive Reached (s : RrSocks) (b : List UInt8) : SocksStage → List UInt8 → Prop
  | greeting : Reached s b .greeting b
  | auth (rest : List UInt8) (hu : s.hasUser) (hb : b = methodReply s ++ rest) :
      Reached s b .auth rest
  | connect (rest : List UInt8) (hb : b = prelude s ++ rest) : Reached s b .connect rest

/-- What has been sent when a stage is reached. -/
def sentAt (inet : Inet) (s : RrSocks) : SocksStage → List UInt8
  | .auth => greetingPacket s ++ authPacket s
  | .connect =>
    greetingPacket s ++ (if s.hasUser then authPacket s else []) ++ connectPacket inet s
  | _ => greetingPacket s

/-- The rounds of the loop that may follow one at a stage. -/
def SocksStage.rounds : SocksStage → ℕ
  | .greeting => 2
  | .auth => 1
  | _ => 0

/-- The value returned when a stage has been reached by reading. -/
def returnAt : SocksStage → ℤ
  | .ready => 1
  | .failed => -1
  | _ => 0

theorem returnAt_eq_one {stage : SocksStage} : returnAt stage = 1 ↔ stage = .ready := by
  cases stage <;> decide

/-- What holds of the state between two events. -/
structure Settled (inet : Inet) (s : RrSocks) (b : List UInt8) (s' : RrSocks) (c : MgConnection) :
    Prop where
  config : s' = { s with stage := s'.stage }
  progress : Progress inet s b s'.stage c.recv
  sent : c.send = sentFor inet s b
  closing : c.isClosing = true ↔ s'.stage = .failed

section Round

variable {inet : Inet} {s : RrSocks} {b : List UInt8}

/-- The rejection of what is left in the buffer is final. -/
theorem settled_fail {c : MgConnection} {stage : SocksStage} (error : CStr)
    (h : ∀ x, ¬ Opens s (b ++ x)) (hsent : ∀ x, sentFor inet s (b ++ x) = c.send) :
    Settled inet s b (fail { s with stage := stage } c error).2.1
      (fail { s with stage := stage } c error).2.2 := by
  have hb : sentFor inet s b = c.send := by simpa using hsent []
  exact ⟨rfl, .failed _ h fun x ↦ by rw [hsent, hb], hb.symm, iff_of_true rfl rfl⟩

/-- A round that returns, or one that gets to a later stage. -/
def Round.Right (inet : Inet) (s : RrSocks) (b : List UInt8) (n : ℕ) : Round → Prop
  | .ret (r, s', c) => Settled inet s b s' c ∧ r = returnAt s'.stage
  | .again s' c => Reached s b s'.stage c.recv ∧ s' = { s with stage := s'.stage } ∧
      c.send = sentAt inet s s'.stage ∧ c.isClosing = false ∧ s'.stage.rounds < n

theorem prelude_of_not_hasUser (h : ¬ s.hasUser) : prelude s = methodReply s := by
  rw [prelude, if_neg h, List.append_nil]

theorem prelude_of_hasUser (h : s.hasUser) : prelude s = methodReply s ++ [1, 0] := by
  rw [prelude, if_pos h]

theorem not_prefix_of_ne {α : Type} {a b c d : α} {x : List α} (h : ¬ (a = c ∧ b = d)) :
    ¬ [a, b] <+: c :: d :: x := by
  intro hpre
  rw [List.cons_prefix_cons, List.cons_prefix_cons] at hpre
  exact h ⟨hpre.1, hpre.2.1⟩

theorem round_greeting {c : MgConnection} (hrecv : c.recv = b) (hsend : c.send = greetingPacket s)
    (hclosing : c.isClosing = false) :
    (socksRound inet (fun _ ↦ true) { s with stage := .greeting } c).Right inet s b 2 := by
  have hmore : b.length < 2 → Round.Right inet s b 2 (.ret (0, { s with stage := .greeting }, c)) := by
    intro hlen
    have hnot : ¬ methodReply s <+: b := fun hpre ↦ by
      have := hpre.length_le
      simp only [methodReply, List.length_cons, List.length_nil] at this
      omega
    refine ⟨⟨rfl, ?_, by rw [sentFor_of_not_method hnot, hsend], by simp [hclosing]⟩, rfl⟩
    rw [hrecv]
    exact .greeting hlen
  match hb : b with
  | [] | [_] => simpa only [socksRound, hrecv] using hmore (by simp)
  | ver :: method :: rest =>
    simp only [socksRound, hrecv]
    split_ifs with hbad hu
    · have hnot : ∀ x, ¬ methodReply s <+: ver :: method :: rest ++ x := fun x ↦
        not_prefix_of_ne fun h ↦ hbad.elim (absurd h.1.symm) (absurd h.2.symm)
      exact ⟨settled_fail _ (fun x h ↦ hnot x (methodReply_prefix_prelude.trans h.isPrefix_prelude))
        fun x ↦ by rw [sentFor_of_not_method (hnot x), hsend], rfl⟩
    all_goals
      rw [not_or, not_not, not_not] at hbad
      have hmethod : ver :: method :: rest = methodReply s ++ rest := by
        rw [hbad.1, hbad.2]
        rfl
    · refine ⟨.auth _ hu hmethod, rfl, ?_, hclosing, Nat.lt_succ_self 1⟩
      change c.send ++ authPacket s = _
      rw [hsend]
      rfl
    · refine ⟨.connect _ ?_, rfl, ?_, hclosing, Nat.zero_lt_succ _⟩
      · rw [prelude_of_not_hasUser hu]
        exact hmethod
      · change c.send ++ connectPacket inet s = _
        rw [hsend, sentAt, if_neg (c := s.hasUser) hu, List.append_nil]

theorem round_auth {c : MgConnection} (hu : s.hasUser) (hb : b = methodReply s ++ c.recv)
    (hsend : c.send = greetingPacket s ++ authPacket s) (hclosing : c.isClosing = false) :
    (socksRound inet (fun _ ↦ true) { s with stage := .auth } c).Right inet s b 1 := by
  have hmethod : ∀ x, methodReply s <+: b ++ x := fun x ↦ by
    rw [hb, List.append_assoc]
    exact List.prefix_append _ _
  have hiff : ∀ x, prelude s <+: b ++ x ↔ [1, 0] <+: c.recv ++ x := fun x ↦ by
    rw [hb, List.append_assoc, prelude_of_hasUser hu, List.prefix_append_right_inj]
  have hmore : c.recv.length < 2 →
      Round.Right inet s b 1 (.ret (0, { s with stage := .auth }, c)) := by
    intro hlen
    have hnot : ¬ prelude s <+: b := fun hpre ↦ by
      have := ((hiff []).mp (by rwa [List.append_nil])).length_le
      simp only [List.append_nil, List.length_cons, List.length_nil] at this
      omega
    refine ⟨⟨rfl, .auth _ hu hb hlen, ?_, by simp [hclosing]⟩, rfl⟩
    rw [sentFor_of_method hu (by simpa using hmethod []) hnot, hsend]
  match hrecv : c.recv with
  | [] | [_] => simpa only [socksRound, hrecv] using hmore (by simp [hrecv])
  | ver :: status :: rest =>
    simp only [socksRound, hrecv]
    split_ifs with hbad
    · have hnot : ∀ x, ¬ prelude s <+: b ++ x := fun x ↦ by
        rw [hiff, hrecv]
        exact not_prefix_of_ne fun h ↦ hbad.elim (absurd h.1.symm) (absurd h.2.symm)
      exact ⟨settled_fail _ (fun x h ↦ hnot x h.isPrefix_prelude)
        fun x ↦ by rw [sentFor_of_method hu (hmethod x) (hnot x), hsend], rfl⟩
    · rw [not_or, not_not, not_not] at hbad
      refine ⟨.connect _ ?_, rfl, ?_, hclosing, Nat.zero_lt_succ _⟩
      · rw [hb, hrecv, prelude_of_hasUser hu, hbad.1, hbad.2, List.append_assoc]
        rfl
      · change c.send ++ connectPacket inet s = _
        rw [hsend, sentAt, if_pos hu]

theorem round_connect {c : MgConnection} (hb : b = prelude s ++ c.recv)
    (hsend : c.send = sentAt inet s .connect) (hclosing : c.isClosing = false) :
    (socksRound inet (fun _ ↦ true) { s with stage := .connect } c).Right inet s b 0 := by
  have hpre : ∀ x, prelude s <+: b ++ x := fun x ↦ by
    rw [hb, List.append_assoc]
    exact List.prefix_append _ _
  have hsent : ∀ x, sentFor inet s (b ++ x) = c.send := fun x ↦ by
    rw [sentFor_of_prelude (hpre x), hsend]
    rfl
  have hb' : sentFor inet s b = c.send := by simpa using hsent []
  have hright := connectReply_right c.recv
  cases hreply : connectReply c.recv with
  | more =>
    simp only [socksRound, hreply]
    exact ⟨⟨rfl, .connect _ hb hreply, hb'.symm, by simp [hclosing]⟩, rfl⟩
  | bad error =>
    rw [hreply] at hright
    simp only [socksRound, hreply]
    refine ⟨settled_fail error ?_ hsent, rfl⟩
    rintro x ⟨w, ⟨r, hr, rfl⟩, hw⟩
    rw [hb, List.append_assoc, List.prefix_append_right_inj] at hw
    exact hright r x hr hw
  | done length =>
    rw [hreply] at hright
    simp only [socksRound, hreply]
    refine ⟨⟨rfl, .ready _ _ ⟨_, hright.2, rfl⟩ ?_, hb'.symm, by simp [hclosing]⟩, rfl⟩
    rw [List.append_assoc, List.take_append_drop, hb]

/-- **One round of the loop.** -/
theorem Reached.round {stage : SocksStage} {c : MgConnection} (h : Reached s b stage c.recv)
    (hsend : c.send = sentAt inet s stage) (hclosing : c.isClosing = false) :
    (socksRound inet (fun _ ↦ true) { s with stage := stage } c).Right inet s b stage.rounds := by
  generalize hrecv : c.recv = recv at h
  cases h with
  | greeting => exact round_greeting hrecv hsend hclosing
  | auth rest hu hb => exact round_auth hu (by rw [hb, hrecv]) hsend hclosing
  | connect rest hb => exact round_connect (by rw [hb, hrecv]) hsend hclosing

/-- **The loop ends, and takes the negotiation as far as it gets.** -/
theorem Reached.loop : ∀ (fuel : ℕ) {stage : SocksStage} {c : MgConnection},
    Reached s b stage c.recv → c.send = sentAt inet s stage → c.isClosing = false →
    stage.rounds < fuel → ∃ s' c',
      socksLoop inet (fun _ ↦ true) fuel { s with stage := stage } c
        = some (returnAt s'.stage, s', c') ∧ Settled inet s b s' c'
  | 0, _, _, _, _, _, hfuel => absurd hfuel (Nat.not_lt_zero _)
  | fuel + 1, stage, c, h, hsend, hclosing, hfuel => by
    have hright := h.round hsend hclosing
    rw [socksLoop, if_neg (by simp [hclosing])]
    cases hround : socksRound inet (fun _ ↦ true) { s with stage := stage } c with
    | ret r =>
      rw [hround] at hright
      obtain ⟨r, s', c'⟩ := r
      obtain ⟨hsettled, rfl⟩ := hright
      exact ⟨s', c', rfl, hsettled⟩
    | again s' c' =>
      rw [hround] at hright
      obtain ⟨hreached, hconfig, hsend', hclosing', hrounds⟩ := hright
      have hloop := Reached.loop fuel hreached hsend' hclosing' (by omega)
      rwa [← hconfig] at hloop

/-- More bytes arrive. -/
theorem Progress.reached {stage : SocksStage} {recv : List UInt8}
    (h : Progress inet s b stage recv) (hready : stage ≠ .ready) (hfailed : stage ≠ .failed)
    (x : List UInt8) :
    Reached s (b ++ x) stage (recv ++ x) ∧ sentFor inet s b = sentAt inet s stage := by
  cases h with
  | greeting hlen =>
    refine ⟨.greeting, sentFor_of_not_method fun hpre ↦ ?_⟩
    have := hpre.length_le
    simp only [methodReply, List.length_cons, List.length_nil] at this
    omega
  | auth rest hu hb hlen =>
    refine ⟨.auth _ hu (by rw [hb, List.append_assoc]), ?_⟩
    rw [hb]
    refine sentFor_of_method hu (List.prefix_append _ _) fun hpre ↦ ?_
    rw [prelude_of_hasUser hu, List.prefix_append_right_inj] at hpre
    have := hpre.length_le
    simp only [List.length_cons, List.length_nil] at this
    omega
  | connect rest hb hmore =>
    refine ⟨.connect _ (by rw [hb, List.append_assoc]), ?_⟩
    rw [hb, sentFor_of_prelude (List.prefix_append _ _)]
    rfl
  | ready => exact absurd rfl hready
  | failed => exact absurd rfl hfailed

/-- **The tunnel is open exactly when the stream opens it.** -/
theorem Progress.ready_iff {stage : SocksStage} {recv : List UInt8}
    (h : Progress inet s b stage recv) : stage = .ready ↔ Opens s b := by
  cases h with
  | greeting hlen =>
    refine iff_of_false (by decide) fun ho ↦ ?_
    have := (methodReply_prefix_prelude.trans ho.isPrefix_prelude).length_le
    simp only [methodReply, List.length_cons, List.length_nil] at this
    omega
  | auth rest hu hb hlen =>
    refine iff_of_false (by decide) fun ho ↦ ?_
    have hpre := ho.isPrefix_prelude
    rw [hb, prelude_of_hasUser hu, List.prefix_append_right_inj] at hpre
    have := hpre.length_le
    simp only [List.length_cons, List.length_nil] at this
    omega
  | connect rest hb hmore =>
    refine iff_of_false (by decide) ?_
    rintro ⟨w, ⟨r, hr, rfl⟩, hpre⟩
    have hright := connectReply_right recv
    rw [hmore] at hright
    rw [hb, List.prefix_append_right_inj] at hpre
    exact hright r hr hpre
  | ready w rest hw hb => exact iff_of_true rfl ⟨w, hw, hb ▸ List.prefix_append _ _⟩
  | failed rest hno => exact iff_of_false (by decide) (by simpa using hno [])

end Round

/-! ## Runs -/

/-- What the connection reports after it has been made. -/
inductive Input where
  /-- `MG_EV_READ`, with the bytes that have arrived. -/
  | read (chunk : List UInt8)
  /-- `MG_EV_POLL`, at a time. -/
  | poll (now : ℤ)
  deriving DecidableEq, Repr

/-- The bytes that arrive. -/
def received : List Input → List UInt8
  | [] => []
  | .read chunk :: inputs => chunk ++ received inputs
  | .poll _ :: inputs => received inputs

section Run

variable (inet : Inet) (mgSend : List UInt8 → Bool)

/-- One event of the connection. -/
def inputEvent (s : RrSocks) (c : MgConnection) : Input → Option (ℤ × RrSocks × MgConnection)
  | .read chunk => rrSocksEvent inet mgSend 0 s { c with recv := c.recv ++ chunk } .read
  | .poll now => rrSocksEvent inet mgSend now s c .poll

/-- The values returned for a sequence of events, and the state after it. -/
def inputEvents : RrSocks → MgConnection → List Input → Option (List ℤ × RrSocks × MgConnection)
  | s, c, [] => some ([], s, c)
  | s, c, i :: inputs => do
    let (r, s, c) ← inputEvent inet mgSend s c i
    let (rs, s, c) ← inputEvents s c inputs
    some (r :: rs, s, c)

end Run

section Events

variable {inet : Inet} {s s' : RrSocks} {b : List UInt8} {c : MgConnection}

/-- **Bytes arrive.** -/
theorem Settled.read (h : Settled inet s b s' c) (chunk : List UInt8) (now : ℤ) :
    ∃ r s'' c'', rrSocksEvent inet (fun _ ↦ true) now s' { c with recv := c.recv ++ chunk } .read
        = some (r, s'', c'') ∧ Settled inet s (b ++ chunk) s'' c'' ∧
      r = (if s'.stage = .ready then 0 else returnAt s''.stage) := by
  obtain ⟨hconfig, hprogress, hsent, hclosing⟩ := h
  by_cases hfailed : s'.stage = .failed
  · have hc : c.isClosing = true := hclosing.mpr hfailed
    refine ⟨-1, { s' with stage := .failed }, _, if_pos (.inr (.inr hc)), ?_, ?_⟩
    · rw [hfailed] at hprogress
      cases hprogress with
      | failed _ hno hsame =>
        refine ⟨by rw [hconfig], .failed _ (fun x ↦ ?_) (fun x ↦ ?_), ?_, iff_of_true rfl rfl⟩
        · rw [List.append_assoc]
          exact hno _
        · rw [List.append_assoc, hsame, hsame]
        · rw [hsame]
          exact hsent
    · rw [if_neg (by rw [hfailed]; decide)]
      rfl
  have hc : c.isClosing = false := by
    rw [← Bool.not_eq_true, hclosing]
    exact hfailed
  by_cases hready : s'.stage = .ready
  · refine ⟨0, s', { c with recv := c.recv ++ chunk }, ?_, ?_, by rw [if_pos hready]⟩
    · rw [rrSocksEvent, if_neg (by simp [hc]), if_neg hfailed, if_pos hready]
    · have hopens := hprogress.ready_iff.mp hready
      rw [hready] at hprogress
      cases hprogress with
      | ready w _ hw hb =>
        refine ⟨hconfig, ?_, ?_, by simpa using hclosing⟩
        · rw [hready]
          exact .ready w _ hw (by rw [hb, List.append_assoc])
        · rw [sentFor_of_prelude (hopens.append chunk).isPrefix_prelude,
            ← sentFor_of_prelude hopens.isPrefix_prelude]
          exact hsent
  · obtain ⟨hreached, hat⟩ := hprogress.reached hready hfailed chunk
    have hrounds : s'.stage.rounds < 3 := by
      cases s'.stage <;> decide
    obtain ⟨s'', c'', hloop, hsettled⟩ := Reached.loop 3
      (c := { c with recv := c.recv ++ chunk }) hreached (hsent.trans hat) hc hrounds
    refine ⟨_, s'', c'', ?_, hsettled, by rw [if_neg hready]⟩
    rw [← hconfig] at hloop
    rw [rrSocksEvent, if_neg (by simp [hc]), if_neg hfailed, if_neg hready, if_neg (by simp),
      if_neg (by decide), if_neg (by decide)]
    exact hloop

/-- Nothing happens on a poll in time. -/
theorem Settled.poll (h : Settled inet s b s' c) {now : ℤ} (hnow : now < s.deadlineMs) :
    ∃ r, rrSocksEvent inet (fun _ ↦ true) now s' c .poll = some (r, s', c) ∧
      r = if s'.stage = .failed then -1 else 0 := by
  have hdeadline : s'.deadlineMs = s.deadlineMs := by rw [h.config]
  by_cases hfailed : s'.stage = .failed
  · have hc : c.isClosing = true := h.closing.mpr hfailed
    refine ⟨-1, ?_, by rw [if_pos hfailed]⟩
    rw [rrSocksEvent, if_pos (.inr (.inr hc)), ← hfailed, ← hc]
  · have hc : c.isClosing = false := by
      rw [← Bool.not_eq_true, h.closing]
      exact hfailed
    refine ⟨0, ?_, by rw [if_neg hfailed]⟩
    rw [rrSocksEvent, if_neg (by simp [hc]), if_neg hfailed]
    by_cases hready : s'.stage = .ready
    · rw [if_pos hready]
    · rw [if_neg hready, if_neg (by omega), if_neg (by decide), if_pos (by decide)]

/-- What the values returned for a sequence of inputs show. -/
structure Shown (inet : Inet) (s : RrSocks) (b : List UInt8) (rs : List ℤ) (s' : RrSocks)
    (c : MgConnection) : Prop extends Settled inet s b s' c where
  once : rs.count 1 = if s'.stage = .ready then 1 else 0
  last : rs.getLast? = some 1 → s'.stage = .ready

theorem inputEvents_concat (inet : Inet) (mgSend : List UInt8 → Bool) (inputs : List Input)
    (i : Input) : ∀ (s : RrSocks) (c : MgConnection),
    inputEvents inet mgSend s c (inputs ++ [i])
      = (inputEvents inet mgSend s c inputs).bind fun (rs, s, c) ↦
        (inputEvent inet mgSend s c i).map fun (r, s, c) ↦ (rs ++ [r], s, c) := by
  induction inputs with
  | nil =>
    intro s c
    cases h : inputEvent inet mgSend s c i <;> simp [inputEvents, h]
  | cons j inputs ih =>
    intro s c
    cases h : inputEvent inet mgSend s c j with
    | none => simp [inputEvents, h]
    | some r =>
      obtain ⟨r, s', c'⟩ := r
      simp only [List.cons_append, inputEvents, h, ih, Option.bind_eq_bind, Option.bind_some,
        Option.bind_assoc]
      cases inputEvents inet mgSend s' c' inputs with
      | none => rfl
      | some y => cases h' : inputEvent inet mgSend y.2.1 y.2.2 i <;> simp [h']

theorem received_concat (inputs : List Input) (i : Input) :
    received (inputs ++ [i]) = received inputs ++ received [i] := by
  induction inputs with
  | nil => rfl
  | cons j inputs ih => cases j <;> simp [received] at ih ⊢ <;> exact ih

/-- **However the stream is cut, the events come to what the grammar says.** -/
theorem Settled.inputs {c₀ : MgConnection} (h : Settled inet s [] s c₀) (hs : s.stage = .greeting)
    (inputs : List Input) (hpolls : ∀ now, .poll now ∈ inputs → now < s.deadlineMs) :
    ∃ rs s' c, inputEvents inet (fun _ ↦ true) s c₀ inputs = some (rs, s', c) ∧
      Shown inet s (received inputs) rs s' c := by
  induction inputs using List.reverseRecOn with
  | nil =>
    exact ⟨[], s, c₀, rfl, h, by rw [hs]; rfl, fun hl ↦ by cases hl⟩
  | append_singleton inputs i ih =>
    obtain ⟨rs, s', c, hrs, hshown⟩ := ih fun now hnow ↦ hpolls now (List.mem_append_left _ hnow)
    rw [inputEvents_concat, hrs, received_concat]
    cases i with
    | poll now =>
      obtain ⟨r, hr, hval⟩ := hshown.poll (hpolls now (by simp))
      have h1 : r ≠ 1 := by
        rw [hval]
        split_ifs <;> decide
      refine ⟨rs ++ [r], s', c, by simp [inputEvent, hr], ?_, ?_, ?_⟩
      · simpa [received] using hshown.toSettled
      · rw [List.count_append, hshown.once, List.count_eq_zero.mpr (by simpa using h1.symm),
          Nat.add_zero]
      · rw [List.getLast?_concat]
        exact fun hl ↦ absurd (Option.some.inj hl) h1
    | read chunk =>
      obtain ⟨r, s'', c'', hr, hsettled, hval⟩ := hshown.read chunk 0
      refine ⟨rs ++ [r], s'', c'', by simp [inputEvent, hr], ?_, ?_, ?_⟩
      · simpa [received] using hsettled
      · rw [List.count_append, hshown.once, hval]
        by_cases hready : s'.stage = .ready
        · have hready' : s''.stage = .ready :=
            hsettled.progress.ready_iff.mpr ((hshown.progress.ready_iff.mp hready).append chunk)
          rw [if_pos hready, if_pos hready, if_pos hready']
          rfl
        · rw [if_neg hready, if_neg hready]
          cases s''.stage <;> rfl
      · rw [List.getLast?_concat, hval]
        intro hl
        split_ifs at hl with hready
        · cases hl
        · exact returnAt_eq_one.mp (Option.some.inj hl)

end Events

/-! ## Failure -/

section Failure

variable {inet : Inet} {s s' : RrSocks} {c c' : MgConnection}

end Failure

/-! ## The negotiation -/

end Rustyaxe
