import Rustyaxe.CString

/-!
# The SOCKS5 tunnel

`socks.c` negotiates a tunnel through a SOCKS5 proxy: `rr_socks_init` checks what it is asked for,
and `rr_socks_event` runs on the events of a connection to the proxy.  What arrives may be cut
anywhere, so the loop of `rr_socks_event` goes on only while the receive buffer has enough of it.
-/

set_option autoImplicit false

namespace Rustyaxe

/-- `inet_pton`: the address a text stands for, in the two families. -/
structure Inet where
  pton4 : CStr → Option (Vector UInt8 4)
  pton6 : CStr → Option (Vector UInt8 16)

/-- The stages of `rr_socks_t`. -/
inductive SocksStage where
  | off | greeting | auth | connect | ready | failed
  deriving DecidableEq, Repr

/-- `rr_socks_t` -/
structure RrSocks where
  url : CStr
  host : CStr
  user : CStr
  pass : CStr
  port : UInt16
  stage : SocksStage
  deadlineMs : ℤ
  deriving DecidableEq, Repr

/-! ## `rr_socks_init` -/

/-- `struct mg_connection`: the buffers, the flag, and the errors reported so far. -/
structure MgConnection where
  recv : List UInt8
  send : List UInt8
  isClosing : Bool
  errors : List CStr
  deriving DecidableEq, Repr

/-- The events of the connection. -/
inductive MgEvent where
  | error | open | poll | resolve | connect | accept | tlsHs | read | write | close
  deriving DecidableEq, Repr

/-- `fail`.  The handler that `mg_error` calls may change the flag, but `fail` sets it again. -/
def fail (s : RrSocks) (c : MgConnection) (error : CStr) : ℤ × RrSocks × MgConnection :=
  (-1, { s with stage := .failed },
    { c with isClosing := true, errors := c.errors ++ [lit "SOCKS5: " ++ error] })

/-- The method asked for: a password if a user is configured, or nothing. -/
def socksMethod (s : RrSocks) : UInt8 := if s.user ≠ [] then 2 else 0

/-- The greeting, which offers one method. -/
def greetingPacket (s : RrSocks) : List UInt8 := [5, 1, socksMethod s]

/-- The user name and the password. -/
def authPacket (s : RrSocks) : List UInt8 :=
  1 :: UInt8.ofNat s.user.length :: s.user ++ UInt8.ofNat s.pass.length :: s.pass

/-- The CONNECT request. -/
def connectPacket (inet : Inet) (s : RrSocks) : List UInt8 :=
  let address : List UInt8 :=
    match inet.pton4 s.host, inet.pton6 s.host with
    | some ipv4, _ => 1 :: ipv4.toList
    | none, some ipv6 => 4 :: ipv6.toList
    | none, none => 3 :: UInt8.ofNat s.host.length :: s.host
  5 :: 1 :: 0 :: address ++ [(s.port >>> 8).toUInt8, s.port.toUInt8]

/-- How one round of the loop ends: in a return, or not. -/
inductive Round where
  | ret (r : ℤ × RrSocks × MgConnection)
  | again (s : RrSocks) (c : MgConnection)

section Event

variable (inet : Inet) (mgSend : List UInt8 → Bool)

/-- `mg_send`, where there may be no memory. -/
def sendOr (s : RrSocks) (c : MgConnection) (packet : List UInt8) (error : CStr) : Round :=
  if mgSend packet then .again s { c with send := c.send ++ packet } else .ret (fail s c error)

/-- `connect_request` -/
def connectRequest (s : RrSocks) (c : MgConnection) : Round :=
  sendOr mgSend { s with stage := .connect } c (connectPacket inet s)
    (lit "cannot queue CONNECT request")

/-- The texts for the codes of a CONNECT reply. -/
def replyErrors : List CStr :=
  [lit "success", lit "proxy failure", lit "connection forbidden", lit "network unreachable",
    lit "host unreachable", lit "connection refused", lit "TTL expired", lit "command unsupported",
    lit "address unsupported"]

/-- What the buffer holds of a CONNECT reply. -/
inductive Reply where
  /-- Not all of it yet. -/
  | more
  | bad (error : CStr)
  /-- All of it, in so many bytes. -/
  | done (length : ℕ)
  deriving DecidableEq, Repr

/-- The checks of a CONNECT reply. -/
def connectReply (p : List UInt8) : Reply :=
  match p with
  | ver :: rep :: rsv :: atyp :: address =>
    let complete (length : ℕ) : Reply := if p.length < length then .more else .done length
    if ver ≠ 5 ∨ rsv ≠ 0 then .bad (lit "invalid CONNECT reply")
    else if rep ≠ 0 then .bad ((replyErrors[rep.toNat]?).getD (lit "CONNECT rejected"))
    else if atyp = 1 then complete 10
    else if atyp = 4 then complete 22
    else if atyp = 3 then
      match address with
      | [] => .more
      | len :: _ => if len = 0 then .bad (lit "empty reply hostname") else complete (7 + len.toNat)
    else .bad (lit "invalid reply address type")
  | _ => .more

/-- One round of the loop of `rr_socks_event`. -/
def socksRound (s : RrSocks) (c : MgConnection) : Round :=
  match s.stage with
  | .greeting =>
    match c.recv with
    | ver :: method :: rest =>
      if ver ≠ 5 ∨ method ≠ socksMethod s then
        .ret (fail s c (lit "authentication method rejected"))
      else
        let c := { c with recv := rest }
        if s.user ≠ [] then
          sendOr mgSend { s with stage := .auth } c (authPacket s)
            (lit "cannot queue authentication")
        else connectRequest inet mgSend s c
    | _ => .ret (0, s, c)
  | .auth =>
    match c.recv with
    | ver :: status :: rest =>
      if ver ≠ 1 ∨ status ≠ 0 then .ret (fail s c (lit "authentication failed"))
      else connectRequest inet mgSend s { c with recv := rest }
    | _ => .ret (0, s, c)
  | .connect =>
    match connectReply c.recv with
    | .more => .ret (0, s, c)
    | .bad error => .ret (fail s c error)
    | .done length => .ret (1, { s with stage := .ready }, { c with recv := c.recv.drop length })
  | _ => .ret (0, s, c)

/-- The loop of `rr_socks_event`; `none` if it needs more than `fuel` rounds. -/
def socksLoop : ℕ → RrSocks → MgConnection → Option (ℤ × RrSocks × MgConnection)
  | 0, _, _ => none
  | fuel + 1, s, c =>
    if c.isClosing then some (-1, s, c)
    else
      match socksRound inet mgSend s c with
      | .ret r => some r
      | .again s c => socksLoop fuel s c

/-- `rr_socks_event`, at the time `now`.  Every round but the last takes the negotiation to its next
stage. -/
def rrSocksEvent (now : ℤ) (s : RrSocks) (c : MgConnection) (event : MgEvent) :
    Option (ℤ × RrSocks × MgConnection) :=
  if event = .error ∨ event = .close ∨ c.isClosing then
    some (-1, { s with stage := .failed }, { c with isClosing := true })
  else if s.stage = .failed then some (-1, s, { c with isClosing := true })
  else if s.stage = .ready then some (0, s, c)
  else if event = .poll ∧ now ≥ s.deadlineMs then some (fail s c (lit "handshake timed out"))
  else if event = .connect then
    match sendOr mgSend s c (greetingPacket s) (lit "cannot queue greeting") with
    | .ret r => some r
    | .again s c => some (0, s, c)
  else if event ≠ .read then some (0, s, c)
  else socksLoop inet mgSend 3 s c

end Event

end Rustyaxe
