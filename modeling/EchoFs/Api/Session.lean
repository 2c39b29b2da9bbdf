import Mathlib.Data.List.Induction
import EchoFs.Api.Receive
import EchoFs.Library.Transition

/-! One connection: `send_request` of the client library with its loops over `write()` and
`read()`, a `session` of the daemon's listener, and the bytes under way between them. The
daemon's callback is left open here. -/

namespace EchoFs.Api.Session
open ByteOrder Checked Transition

/-- Where `send_request` is. -/
inductive Client where
  | idle
  | sendPrefix (left : Bytes)
  | sendBody (left : Bytes)
  | recvPrefix (got : Bytes)
  | recvBody (size : ℕ) (block got : Bytes)
  -- the buffer of the response, or an error
  | returned (buffer : Option Bytes)
deriving DecidableEq

/-- What a `session` waits for; at the end it is gone with its socket. -/
inductive Server where
  | readHeader (got : Bytes)
  | readBody (size : ℕ) (got : Bytes)
  | writeResponse (left : Bytes)
  | gone
deriving DecidableEq

namespace Client

/-- What is handed to `write()`. -/
def sending : Client → Bytes
  | sendPrefix left | sendBody left => left
  | _ => []

/-- The bytes `read()` is asked for. -/
def wants : Client → ℕ
  | recvPrefix got => 8 - got.length
  | recvBody size _ got => size - got.length
  | _ => 0

/-- `write()` has taken `n` bytes. -/
def wrote (request : Bytes) (n : ℕ) : Client → Client
  | sendPrefix left => if left.drop n = [] then sendBody request else sendPrefix (left.drop n)
  | sendBody left => if left.drop n = [] then recvPrefix [] else sendBody (left.drop n)
  | c => c

/-- `recv_message` after its first `recv_data`. -/
def afterPrefix (host : Order) (malloc : Malloc) (got : Bytes) : Client :=
  let msgSize := htonll host (load host (prefixBytes got))
  if msgSize = 0 then returned none
  else match malloc msgSize with
    | none => returned none
    | some msgData => recvBody msgSize msgData.1 []

/-- `recv_message` after its second `recv_data`. -/
def afterBody (block got : Bytes) : Client := returned (some (got ++ block.drop got.length))

/-- `read()` has brought bytes. -/
def received (host : Order) (malloc : Malloc) (bytes : Bytes) : Client → Client
  | recvPrefix got =>
    if 8 ≤ (got ++ bytes).length then afterPrefix host malloc (got ++ bytes)
    else recvPrefix (got ++ bytes)
  | recvBody size block got =>
    if size ≤ (got ++ bytes).length then afterBody block (got ++ bytes)
    else recvBody size block (got ++ bytes)
  | c => c

/-- `read()` has found the end of the stream, and `errno` is not `EINTR`. -/
def ended (host : Order) (malloc : Malloc) : Client → Client
  | recvPrefix got => afterPrefix host malloc got
  | recvBody _ block got => afterBody block got
  | c => c

/-- The bytes of the frame that the client has yet to send. -/
def unsent (host : Order) (request : Bytes) : Client → Bytes
  | idle => encodeResponse host request
  | sendPrefix left => left ++ request
  | sendBody left => left
  | _ => []

end Client

namespace Server

def wants : Server → ℕ
  | readHeader got => 8 - got.length
  | readBody size got => size - got.length
  | _ => 0

/-- `decode_header` and the test of `do_read_request_body` -/
def afterHeader (host : Order) (header : Bytes) : Server :=
  let expected := htonll host (load host header)
  if expected = 0 then gone else readBody expected []

def received (host : Order) (bytes : Bytes) : Server → Server
  | readHeader got =>
    if 8 ≤ (got ++ bytes).length then afterHeader host (got ++ bytes) else readHeader (got ++ bytes)
  | readBody size got => readBody size (got ++ bytes)
  | s => s

/-- After the callback: the response is encoded and written, unless it cannot be encoded. -/
def answered (host : Order) : Option Bytes → Server
  | some body => writeResponse (encodeResponse host body)
  | none => gone

def sending : Server → Bytes
  | writeResponse left => left
  | _ => []

/-- No handler is left when the last byte is written. -/
def wrote (n : ℕ) : Server → Server
  | writeResponse left => if left.drop n = [] then gone else writeResponse (left.drop n)
  | s => s

end Server

/-- Both ends and the streams between them. The last five fields are history: the calls of
the callback, a response that was not written to its end, what `read()` gave the client,
the `errno` when `recv_message` began, and whether the client has met the end of the stream. -/
structure Connection where
  request : Bytes
  client : Client
  errno : Errno
  toServer : Bytes
  server : Server
  toClient : Bytes
  calls : List (Bytes × Option Bytes)
  cut : Bool
  reads : List ReadEvent
  began : Errno
  eof : Bool
deriving DecidableEq

def Connection.start (request : Bytes) (errno : Errno) : Connection :=
  ⟨request, .idle, errno, [], .readHeader [], [], [], false, [], errno, false⟩

inductive Event where
  | connect
  | refused
  | clientWrite (n : ℕ)
  | clientRead (n : ℕ)
  | clientEof
  | clientInterrupted
  | clientFails (code : ℕ)
  | serverRead (n : ℕ)
  | call (request : Bytes) (reply : Option Bytes)
  | serverWrite (n : ℕ)
  | serverFails
deriving DecidableEq

namespace Connection

/-- The client has `n` bytes of its message taken. -/
def clientWrite (c : Connection) (n : ℕ) : Connection :=
  { c with
    client := c.client.wrote c.request n
    toServer := c.toServer ++ c.client.sending.take n
    began := c.errno }

/-- A result of `read()` that the client sees. -/
def sees (c : Connection) (e : ReadEvent) : List ReadEvent :=
  if c.client.wants = 0 then c.reads else c.reads ++ [e]

def clientRead (host : Order) (malloc : Malloc) (c : Connection) (first : UInt8)
    (more rest : Bytes) : Connection :=
  { c with
    client := c.client.received host malloc (first :: more)
    toClient := rest
    reads := c.sees (.data first more) }

def serverRead (host : Order) (c : Connection) (n : ℕ) : Connection :=
  { c with server := c.server.received host (c.toServer.take n), toServer := c.toServer.drop n }

def serverWrite (c : Connection) (n : ℕ) : Connection :=
  { c with server := c.server.wrote n, toClient := c.toClient ++ c.server.sending.take n }

end Connection

/-- One turn of a loop on either side. At most `cap` bytes are under way in one direction;
a call that transfers bytes transfers at least one. -/
inductive Step (host : Order) (malloc : Malloc) (cap : ℕ) : Connection → Event → Connection → Prop
  | connect {c : Connection} (hc : c.client = .idle) (hne : c.request ≠ []) :
      Step host malloc cap c .connect { c with
        client := .sendPrefix (store host (htonll host c.request.length)) }
  -- no daemon, or nothing to send
  | refused {c : Connection} (hc : c.client = .idle) :
      Step host malloc cap c .refused { c with client := .returned none }
  | clientWrite {c : Connection} {n : ℕ} (hn : 0 < n) (hle : n ≤ c.client.sending.length)
      (hcap : c.toServer.length + n ≤ cap) :
      Step host malloc cap c (.clientWrite n) (c.clientWrite n)
  | clientRead {c : Connection} {first : UInt8} {more rest : Bytes}
      (hle : (first :: more).length ≤ c.client.wants) (hin : c.toClient = first :: more ++ rest) :
      Step host malloc cap c (.clientRead (first :: more).length)
        (c.clientRead host malloc first more rest)
  -- with a stale `EINTR` the loop goes on without end
  | clientEof {c : Connection} (hwants : 0 < c.client.wants) (hin : c.toClient = [])
      (hgone : c.server = .gone) (herr : c.errno ≠ .eintr) :
      Step host malloc cap c .clientEof { c with
        client := c.client.ended host malloc, eof := true }
  -- where the stream has ended `read()` does not fail
  | clientInterrupted {c : Connection} (hbusy : c.client.sending ≠ [] ∨ 0 < c.client.wants)
      (heof : c.eof = false) :
      Step host malloc cap c .clientInterrupted { c with
        errno := .eintr, reads := c.sees (.error .eintr) }
  | clientFails {c : Connection} {code : ℕ} (hbusy : c.client.sending ≠ [] ∨ 0 < c.client.wants)
      (heof : c.eof = false) :
      Step host malloc cap c (.clientFails code) { c with
        client := .returned none, errno := .other code, reads := c.sees (.error (.other code)) }
  | serverRead {c : Connection} {n : ℕ} (hn : 0 < n) (hle : n ≤ c.server.wants)
      (hin : n ≤ c.toServer.length) :
      Step host malloc cap c (.serverRead n) (c.serverRead host n)
  -- the reply is a vector, and its size a `size_t`
  | call {c : Connection} {body : Bytes} {reply : Option Bytes}
      (hs : c.server = .readBody body.length body)
      (hlen : ∀ b, reply = some b → b.length < 2 ^ 64) :
      Step host malloc cap c (.call body reply) { c with
        server := .answered host reply, calls := c.calls ++ [(body, reply)] }
  | serverWrite {c : Connection} {n : ℕ} (hn : 0 < n) (hle : n ≤ c.server.sending.length)
      (hcap : c.toClient.length + n ≤ cap) :
      Step host malloc cap c (.serverWrite n) (c.serverWrite n)
  | serverFails {c : Connection} (hs : c.server ≠ .gone) :
      Step host malloc cap c .serverFails { c with
        server := .gone, cut := c.cut || !c.server.sending.isEmpty }

/-- The turn that an event stands for, where it can be made. -/
def Connection.turn (host : Order) (malloc : Malloc) (cap : ℕ) (c : Connection) :
    Event → Option Connection
  | .connect =>
    if c.client = .idle ∧ c.request ≠ [] then
      some { c with client := .sendPrefix (store host (htonll host c.request.length)) }
    else none
  | .refused => if c.client = .idle then some { c with client := .returned none } else none
  | .clientWrite n =>
    if 0 < n ∧ n ≤ c.client.sending.length ∧ c.toServer.length + n ≤ cap then
      some (c.clientWrite n)
    else none
  | .clientRead n =>
    match c.toClient.take n with
    | [] => none
    | first :: more =>
      if (first :: more).length = n ∧ n ≤ c.client.wants then
        some (c.clientRead host malloc first more (c.toClient.drop n))
      else none
  | .clientEof =>
    if 0 < c.client.wants ∧ c.toClient = [] ∧ c.server = .gone ∧ c.errno ≠ .eintr then
      some { c with client := c.client.ended host malloc, eof := true }
    else none
  | .clientInterrupted =>
    if (c.client.sending ≠ [] ∨ 0 < c.client.wants) ∧ c.eof = false then
      some { c with errno := .eintr, reads := c.sees (.error .eintr) }
    else none
  | .clientFails code =>
    if (c.client.sending ≠ [] ∨ 0 < c.client.wants) ∧ c.eof = false then
      some { c with
        client := .returned none, errno := .other code, reads := c.sees (.error (.other code)) }
    else none
  | .serverRead n =>
    if 0 < n ∧ n ≤ c.server.wants ∧ n ≤ c.toServer.length then some (c.serverRead host n) else none
  | .call body reply =>
    if c.server = .readBody body.length body ∧ (reply.getD []).length < 2 ^ 64 then
      some { c with server := .answered host reply, calls := c.calls ++ [(body, reply)] }
    else none
  | .serverWrite n =>
    if 0 < n ∧ n ≤ c.server.sending.length ∧ c.toClient.length + n ≤ cap then
      some (c.serverWrite n)
    else none
  | .serverFails =>
    if c.server ≠ .gone then
      some { c with server := .gone, cut := c.cut || !c.server.sending.isEmpty }
    else none

/-- What an `if` without an `else` gives. -/
theorem of_guard {α : Type} {p : Prop} [Decidable p] {x y : α}
    (h : (if p then some x else none) = some y) : p ∧ x = y := by
  split_ifs at h with hp
  exact ⟨hp, Option.some.inj h⟩

theorem step_of_turn {host : Order} {malloc : Malloc} {cap : ℕ} {c c' : Connection} {e : Event}
    (h : c.turn host malloc cap e = some c') : Step host malloc cap c e c' := by
  cases e with
  | connect =>
    obtain ⟨⟨hc, hne⟩, rfl⟩ := of_guard h
    exact .connect hc hne
  | refused =>
    obtain ⟨hc, rfl⟩ := of_guard h
    exact .refused hc
  | clientWrite n =>
    obtain ⟨⟨hn, hle, hcap⟩, rfl⟩ := of_guard h
    exact .clientWrite hn hle hcap
  | clientRead n =>
    dsimp only [Connection.turn] at h
    split at h
    next => cases h
    next first more htake =>
      have hin : c.toClient = first :: more ++ c.toClient.drop n := by
        rw [← htake, List.take_append_drop]
      obtain ⟨⟨rfl, hle⟩, rfl⟩ := of_guard h
      exact .clientRead hle hin
  | clientEof =>
    obtain ⟨⟨hwants, hin, hgone, herr⟩, rfl⟩ := of_guard h
    exact .clientEof hwants hin hgone herr
  | clientInterrupted =>
    obtain ⟨⟨hbusy, heof⟩, rfl⟩ := of_guard h
    exact .clientInterrupted hbusy heof
  | clientFails code =>
    obtain ⟨⟨hbusy, heof⟩, rfl⟩ := of_guard h
    exact .clientFails hbusy heof
  | serverRead n =>
    obtain ⟨⟨hn, hle, hin⟩, rfl⟩ := of_guard h
    exact .serverRead hn hle hin
  | call body reply =>
    obtain ⟨⟨hs, hlen⟩, rfl⟩ := of_guard h
    refine .call hs fun b hb => ?_
    subst hb
    exact hlen
  | serverWrite n =>
    obtain ⟨⟨hn, hle, hcap⟩, rfl⟩ := of_guard h
    exact .serverWrite hn hle hcap
  | serverFails =>
    obtain ⟨hs, rfl⟩ := of_guard h
    exact .serverFails hs

/-- Turns one after the other. -/
def Connection.turns (host : Order) (malloc : Malloc) (cap : ℕ) (c : Connection)
    (l : List Event) : Option Connection :=
  l.foldlM (Connection.turn host malloc cap) c

theorem run_of_turns {host : Order} {malloc : Malloc} {cap : ℕ} {c : Connection} (l : List Event) :
    ∀ {c' : Connection}, c.turns host malloc cap l = some c' →
      Run (Step host malloc cap) c l c' := by
  unfold Connection.turns
  induction l using List.reverseRecOn with
  | nil =>
    intro c' h
    exact Option.some.inj h ▸ .nil
  | append_singleton l e ih =>
    intro c' h
    rw [List.foldlM_append] at h
    obtain ⟨c₁, hl, he⟩ := Option.bind_eq_some_iff.mp h
    have hturn : c₁.turn host malloc cap e = some c' := by simpa using he
    exact (ih hl).snoc (step_of_turn hturn)

/-- The message of the client has a `size_t` for its length. -/
def Started (c : Connection) : Prop := ∃ q errno, q.length < 2 ^ 64 ∧ c = .start q errno

def Reachable (host : Order) (malloc : Malloc) (cap : ℕ) : Connection → Prop :=
  Reach Started (Step host malloc cap)

/-! ### The invariant of a connection -/

/-- The client has had no byte of a response. -/
def Client.Silent : Client → Prop
  | recvPrefix got => got = []
  | recvBody _ _ _ => False
  | returned (some _) => False
  | _ => True

/-- A loop that runs has bytes left to transfer. -/
def Client.Pending (request : Bytes) : Client → Prop
  | sendPrefix left => left ≠ [] ∧ request ≠ []
  | sendBody left => left ≠ []
  | recvPrefix got => got.length < 8
  | recvBody size _ got => got.length < size
  | _ => True

/-- The client has `b` when `toClient` and `left` have reached it. -/
def Client.Awaits (host : Order) (b toClient left : Bytes) : Client → Prop
  | recvPrefix got => got ++ (toClient ++ left) = encodeResponse host b
  | recvBody size block got =>
    size = b.length ∧ block.length = size ∧ got ++ (toClient ++ left) = b
  | returned (some b') => b' = b
  | returned none => True
  | _ => False

namespace Connection

/-- What the server has read, what is under way and what is unsent make up `target`; an error
may leave the rest of the message in the client. -/
def Carries (host : Order) (c : Connection) (got target : Bytes) : Prop :=
  ∃ lost, got ++ (c.toServer ++ (c.client.unsent host c.request ++ lost)) = target ∧
    (lost = [] ∨ c.client = .returned none)

/-- No response has been written. -/
structure Unanswered (c : Connection) : Prop where
  toClient : c.toClient = []
  silent : c.client.Silent
  cut : c.cut = false

/-- The callback was called once, on the message, and its reply is `b`. -/
structure Answered (c : Connection) (b : Bytes) : Prop where
  calls : c.calls = [(c.request, some b)]
  size : b.length < 2 ^ 64

def ServerInv (host : Order) (c : Connection) : Prop :=
  match c.server with
  | .readHeader got => got.length < 8 ∧ c.calls = [] ∧ c.Unanswered ∧
      c.Carries host got (encodeResponse host c.request)
  | .readBody size got => size = c.request.length ∧ c.request ≠ [] ∧ c.calls = [] ∧
      c.Unanswered ∧ c.Carries host got c.request
  | .writeResponse left => left ≠ [] ∧ c.cut = false ∧ ∃ b, c.Answered b ∧
      c.client.Awaits host b c.toClient left
  | .gone => (c.Unanswered ∧ (c.calls = [] ∨ c.calls = [(c.request, none)])) ∨
      ∃ b, c.Answered b ∧ (c.cut = true ∨ c.client.Awaits host b c.toClient [])

structure Inv (host : Order) (c : Connection) : Prop where
  size : c.request.length < 2 ^ 64
  pending : c.client.Pending c.request
  server : c.ServerInv host

end Connection

section Bytes
variable {host : Order} {malloc : Malloc} {b got bytes rest left : Bytes} {n : ℕ}

theorem Client.of_sending {c : Client} (h : 0 < c.sending.length) :
    ∃ left, c = .sendPrefix left ∨ c = .sendBody left := by
  cases c with
  | sendPrefix left => exact ⟨left, .inl rfl⟩
  | sendBody left => exact ⟨left, .inr rfl⟩
  | idle => exact absurd h (Nat.lt_irrefl 0)
  | recvPrefix => exact absurd h (Nat.lt_irrefl 0)
  | recvBody => exact absurd h (Nat.lt_irrefl 0)
  | returned => exact absurd h (Nat.lt_irrefl 0)

theorem Client.of_wants {c : Client} (h : 0 < c.wants) :
    (∃ got, c = .recvPrefix got) ∨ ∃ size block got, c = .recvBody size block got := by
  cases c with
  | recvPrefix got => exact .inl ⟨got, rfl⟩
  | recvBody size block got => exact .inr ⟨size, block, got, rfl⟩
  | idle => exact absurd h (Nat.lt_irrefl 0)
  | sendPrefix => exact absurd h (Nat.lt_irrefl 0)
  | sendBody => exact absurd h (Nat.lt_irrefl 0)
  | returned => exact absurd h (Nat.lt_irrefl 0)

theorem Server.of_sending {s : Server} (h : 0 < s.sending.length) :
    ∃ left, s = .writeResponse left := by
  cases s with
  | writeResponse left => exact ⟨left, rfl⟩
  | readHeader => exact absurd h (Nat.lt_irrefl 0)
  | readBody => exact absurd h (Nat.lt_irrefl 0)
  | gone => exact absurd h (Nat.lt_irrefl 0)

theorem Server.of_wants {s : Server} (h : 0 < s.wants) :
    (∃ got, s = .readHeader got) ∨ ∃ size got, s = .readBody size got := by
  cases s with
  | readHeader got => exact .inl ⟨got, rfl⟩
  | readBody size got => exact .inr ⟨size, got, rfl⟩
  | writeResponse => exact absurd h (Nat.lt_irrefl 0)
  | gone => exact absurd h (Nat.lt_irrefl 0)

/-- The first eight bytes of a frame tell the length of its body. -/
theorem frame_split (hlen : b.length < 2 ^ 64) (h8 : got.length = 8)
    (h : got ++ rest = encodeResponse host b) :
    htonll host (load host got) = b.length ∧ rest = b := by
  obtain ⟨hgot, hrest⟩ := List.append_inj h (h8.trans (length_store _ _).symm)
  exact ⟨by rw [ntohll_load h8, hgot, number_store hlen], hrest⟩

theorem afterHeader_frame (hlen : b.length < 2 ^ 64) (h8 : got.length = 8)
    (h : got ++ rest = encodeResponse host b) :
    Server.afterHeader host got = if b = [] then .gone else .readBody b.length [] := by
  unfold Server.afterHeader
  simp only [(frame_split hlen h8 h).1, List.length_eq_zero_iff]

theorem afterPrefix_awaits (hlen : b.length < 2 ^ 64) (h8 : got.length = 8)
    (h : got ++ (rest ++ left) = encodeResponse host b) :
    (Client.afterPrefix host malloc got).Awaits host b rest left := by
  obtain ⟨hsize, hbody⟩ := frame_split hlen h8 h
  unfold Client.afterPrefix
  have hwhole : prefixBytes got = got := by
    unfold prefixBytes
    rw [h8]
    exact List.append_nil got
  rw [hwhole, hsize]
  dsimp only
  split_ifs with hzero
  · exact trivial
  · cases malloc b.length with
    | none => exact trivial
    | some block => exact ⟨rfl, block.2, hbody⟩

theorem afterPrefix_pending (request : Bytes) :
    (Client.afterPrefix host malloc got).Pending request := by
  unfold Client.afterPrefix
  dsimp only
  split_ifs with hzero
  · exact trivial
  · split
    · exact trivial
    · exact Nat.pos_of_ne_zero hzero

theorem afterPrefix_unsent (request : Bytes) :
    (Client.afterPrefix host malloc got).unsent host request = [] := by
  unfold Client.afterPrefix
  dsimp only
  split_ifs
  · rfl
  · split <;> rfl

/-- With nothing received the length is zero. -/
theorem afterPrefix_nil : Client.afterPrefix host malloc [] = .returned none := by
  have hload : htonll host (load host (prefixBytes [])) = 0 := by
    rw [ntohll_got (Nat.zero_le _)]
    exact number_prefix_eq_zero.mpr fun v hv => by cases hv
  unfold Client.afterPrefix
  rw [hload]
  rfl

/-- Bytes that arrive bring the client nearer to the response. -/
theorem Client.Awaits.received {c : Client} (hlen : b.length < 2 ^ 64)
    (h : c.Awaits host b (bytes ++ rest) left) (hle : bytes.length ≤ c.wants) (hne : bytes ≠ []) :
    (c.received host malloc bytes).Awaits host b rest left := by
  have hpos := List.length_pos_iff.mpr hne
  obtain ⟨got, rfl⟩ | ⟨size, block, got, rfl⟩ := of_wants (hpos.trans_le hle)
  · have hframe : (got ++ bytes) ++ (rest ++ left) = encodeResponse host b := by
      rw [List.append_assoc, ← List.append_assoc bytes]
      exact h
    dsimp only [wants] at hle
    dsimp only [Client.received]
    split_ifs with hfull
    · have h8 : (got ++ bytes).length = 8 := by
        rw [List.length_append] at hfull ⊢
        omega
      exact afterPrefix_awaits hlen h8 hframe
    · exact hframe
  · obtain ⟨rfl, hblock, hbody⟩ := h
    rw [List.append_assoc, ← List.append_assoc] at hbody
    dsimp only [wants] at hle
    dsimp only [Client.received]
    split_ifs with hfull
    · have hall : (got ++ bytes).length = b.length := by
        rw [List.length_append] at hfull ⊢
        omega
      have hdrop : block.drop (got ++ bytes).length = [] :=
        List.drop_eq_nil_iff.mpr (by omega)
      have heq : got ++ bytes = b :=
        (List.append_inj (hbody.trans (List.append_nil b).symm) hall).1
      unfold Client.afterBody
      rw [hdrop, List.append_nil]
      exact heq
    · exact ⟨rfl, hblock, hbody⟩

theorem Client.Pending.received {c : Client} {request : Bytes} (h : c.Pending request) :
    (c.received host malloc bytes).Pending request := by
  cases c with
  | recvPrefix got =>
    dsimp only [Client.received]
    split_ifs with hfull
    · exact afterPrefix_pending request
    · exact not_le.mp hfull
  | recvBody size block got =>
    dsimp only [Client.received]
    split_ifs with hfull
    · exact trivial
    · exact not_le.mp hfull
  | idle => exact h
  | sendPrefix => exact h
  | sendBody => exact h
  | returned => exact h

theorem Client.Pending.ended {c : Client} {request : Bytes} (h : c.Pending request) :
    (c.ended host malloc).Pending request := by
  cases c with
  | recvPrefix got => exact afterPrefix_pending request
  | recvBody => exact trivial
  | idle => exact h
  | sendPrefix => exact h
  | sendBody => exact h
  | returned => exact h

theorem Client.Pending.wrote {c : Client} {request : Bytes} (h : c.Pending request) :
    (c.wrote request n).Pending request := by
  cases c with
  | sendPrefix left =>
    dsimp only [Client.wrote]
    split_ifs with hdrop
    · exact h.2
    · exact ⟨hdrop, h.2⟩
  | sendBody left =>
    dsimp only [Client.wrote]
    split_ifs with hdrop
    · exact Nat.zero_lt_succ 7
    · exact hdrop
  | idle => exact h
  | recvPrefix => exact h
  | recvBody => exact h
  | returned => exact h

/-- `write()` moves bytes from the client into the stream. -/
theorem Client.take_unsent {c : Client} {request : Bytes} (hn : 0 < n)
    (hle : n ≤ c.sending.length) :
    c.sending.take n ++ (c.wrote request n).unsent host request = c.unsent host request := by
  obtain ⟨left, rfl | rfl⟩ := of_sending (hn.trans_le hle)
  · dsimp only [sending, wrote]
    split_ifs with hdrop
    · rw [List.take_of_length_le (List.drop_eq_nil_iff.mp hdrop)]
      rfl
    · unfold unsent
      rw [← List.append_assoc, List.take_append_drop]
  · dsimp only [sending, wrote]
    split_ifs with hdrop
    · rw [List.take_of_length_le (List.drop_eq_nil_iff.mp hdrop)]
      exact List.append_nil left
    · exact List.take_append_drop n left

theorem Client.silent_wrote {c : Client} {request : Bytes} (h : c.Silent) :
    (c.wrote request n).Silent := by
  cases c with
  | sendPrefix left =>
    dsimp only [wrote]
    split_ifs <;> exact trivial
  | sendBody left =>
    dsimp only [wrote]
    split_ifs
    · exact rfl
    · exact trivial
  | idle => exact h
  | recvPrefix => exact h
  | recvBody => exact h
  | returned => exact h

/-- `read()` is called when all is sent. -/
theorem Client.unsent_received {c : Client} {request : Bytes} (hwants : 0 < c.wants) :
    (c.received host malloc bytes).unsent host request = c.unsent host request := by
  obtain ⟨got, rfl⟩ | ⟨size, block, got, rfl⟩ := of_wants hwants
  · dsimp only [Client.received]
    split_ifs
    · exact afterPrefix_unsent request
    · rfl
  · dsimp only [Client.received]
    split_ifs <;> rfl

/-- Without a response the end of the stream is an error. -/
theorem Client.silent_ended {c : Client} (h : c.Silent) (hwants : 0 < c.wants) :
    (c.ended host malloc).Silent := by
  obtain ⟨got, rfl⟩ | ⟨size, block, got, rfl⟩ := of_wants hwants
  · obtain rfl : got = [] := h
    dsimp only [Client.ended]
    rw [afterPrefix_nil]
    exact trivial
  · exact h.elim

/-- A client that is sending does not wait for a response. -/
theorem Client.Awaits.not_sending {c : Client} {toClient : Bytes}
    (h : c.Awaits host b toClient left) : c.sending = [] := by
  cases c with
  | idle => rfl
  | sendPrefix => exact h.elim
  | sendBody => exact h.elim
  | recvPrefix => rfl
  | recvBody => rfl
  | returned => rfl

theorem Client.Awaits.of_append {c : Client} {toClient rest' left' : Bytes}
    (h : c.Awaits host b toClient left) (heq : rest' ++ left' = toClient ++ left) :
    c.Awaits host b rest' left' := by
  cases c with
  | recvPrefix got => exact (congrArg (got ++ ·) heq).trans h
  | recvBody size block got => exact ⟨h.1, h.2.1, (congrArg (got ++ ·) heq).trans h.2.2⟩
  | idle => exact h
  | sendPrefix => exact h
  | sendBody => exact h
  | returned buffer => cases buffer <;> exact h

/-- A client that has sent its message and had no response can only wait for one. -/
theorem Client.Silent.awaits {c : Client} {request : Bytes} (h : c.Silent)
    (hpending : c.Pending request) (hne : request ≠ [])
    (hsent : c.unsent host request = []) :
    c.Awaits host b [] (encodeResponse host b) := by
  cases c with
  | idle => exact absurd (List.append_eq_nil_iff.mp hsent).2 hne
  | sendPrefix => exact absurd (List.append_eq_nil_iff.mp hsent).1 hpending.1
  | sendBody => exact absurd hsent hpending
  | recvPrefix got =>
    obtain rfl : got = [] := h
    exact rfl
  | recvBody => exact h.elim
  | returned buffer =>
    cases buffer with
    | none => exact trivial
    | some => exact h.elim

/-- The end of the stream does not come before the end of the response. -/
theorem Client.Awaits.not_wants {c : Client} {request : Bytes}
    (h : c.Awaits host b [] []) (hpending : c.Pending request) : c.wants = 0 := by
  cases c with
  | recvPrefix got =>
    obtain rfl : got = encodeResponse host b := (List.append_nil got).symm.trans h
    rw [Client.Pending, length_encodeResponse] at hpending
    omega
  | recvBody size block got =>
    obtain ⟨rfl, -, hbody⟩ := h
    obtain rfl : got = b := (List.append_nil got).symm.trans hbody
    exact absurd hpending (Nat.lt_irrefl _)
  | idle => rfl
  | sendPrefix => rfl
  | sendBody => rfl
  | returned => rfl

end Bytes

namespace Connection
variable {host : Order} {malloc : Malloc} {cap : ℕ} {c c' : Connection} {e : Event}
  {got target : Bytes}

/-- A step of the client alone. -/
theorem ServerInv.of_client (h : c.ServerInv host) (hserver : c'.server = c.server)
    (hcalls : c'.calls = c.calls) (hrequest : c'.request = c.request) (hcut : c'.cut = c.cut)
    (hcarries : ∀ got target, c.Carries host got target → c'.Carries host got target)
    (hunanswered : c.Unanswered → c'.Unanswered)
    (hawaits : ∀ b left, b.length < 2 ^ 64 → c.client.Awaits host b c.toClient left →
      c'.client.Awaits host b c'.toClient left) : c'.ServerInv host := by
  unfold ServerInv at h ⊢
  rw [hserver, hcalls, hrequest, hcut]
  have hanswered : ∀ b, c.Answered b → c'.Answered b := fun b hb =>
    ⟨by rw [hcalls, hrequest, hb.calls], hb.size⟩
  split
  next got hphase =>
    rw [hphase] at h
    exact ⟨h.1, h.2.1, hunanswered h.2.2.1, hcarries _ _ h.2.2.2⟩
  next size got hphase =>
    rw [hphase] at h
    exact ⟨h.1, h.2.1, h.2.2.1, hunanswered h.2.2.2.1, hcarries _ _ h.2.2.2.2⟩
  next left hphase =>
    rw [hphase] at h
    obtain ⟨hleft, hcut', b, hb, hwait⟩ := h
    exact ⟨hleft, hcut', b, hanswered b hb, hawaits b left hb.size hwait⟩
  next hphase =>
    rw [hphase] at h
    rcases h with ⟨hun, hc⟩ | ⟨b, hb, hwait⟩
    · exact .inl ⟨hunanswered hun, hc⟩
    · exact .inr ⟨b, hanswered b hb, hwait.imp_right (hawaits b [] hb.size)⟩

/-- The client gives up. -/
theorem ServerInv.fails (h : c.ServerInv host) (hc : c.client ≠ .returned none) (errno : Errno)
    (reads : List ReadEvent) : ServerInv host { c with
      client := .returned none, errno := errno, reads := reads } := by
  refine h.of_client rfl rfl rfl rfl ?_ (fun hun => ⟨hun.toClient, trivial, hun.cut⟩)
    fun _ _ _ _ => trivial
  rintro got target ⟨lost, hall, hlost⟩
  obtain rfl := hlost.resolve_right hc
  refine ⟨c.client.unsent host c.request, ?_, .inr rfl⟩
  rw [← hall, List.append_nil]
  rfl

theorem ne_returned (h : c.client.sending ≠ [] ∨ 0 < c.client.wants) (b : Option Bytes) :
    c.client ≠ .returned b := by
  intro hc
  rw [hc] at h
  rcases h with h | h
  · exact h rfl
  · exact Nat.lt_irrefl 0 h

theorem Carries.serverRead (h : c.Carries host got target) (n : ℕ) :
    (c.serverRead host n).Carries host (got ++ c.toServer.take n) target := by
  obtain ⟨lost, hall, hlost⟩ := h
  refine ⟨lost, ?_, hlost⟩
  rw [← hall]
  dsimp only [Connection.serverRead]
  rw [List.append_assoc, ← List.append_assoc (c.toServer.take n), List.take_append_drop]

/-- The daemon reads the prefix and the body as they were sent. -/
theorem ServerInv.serverRead {n : ℕ} (hsize : c.request.length < 2 ^ 64) (h : c.ServerInv host)
    (hn : 0 < n) (hle : n ≤ c.server.wants) (hin : n ≤ c.toServer.length) :
    (c.serverRead host n).ServerInv host := by
  have htake : (c.toServer.take n).length = n := List.length_take_of_le hin
  unfold ServerInv at h
  split at h
  next got hphase =>
    obtain ⟨hgot, hcalls, hun, hcarry⟩ := h
    have hcarry' := hcarry.serverRead n
    rw [hphase] at hle
    dsimp only [Server.wants] at hle
    have hserver : (c.serverRead host n).server =
        if 8 ≤ (got ++ c.toServer.take n).length then .afterHeader host (got ++ c.toServer.take n)
        else .readHeader (got ++ c.toServer.take n) := by
      dsimp only [Connection.serverRead]
      rw [hphase]
      rfl
    unfold ServerInv
    rw [hserver]
    split_ifs with hfull
    · have h8 : (got ++ c.toServer.take n).length = 8 := by
        rw [List.length_append, htake] at hfull ⊢
        omega
      obtain ⟨lost, hall, hlost⟩ := hcarry'
      rw [afterHeader_frame hsize h8 hall]
      by_cases hempty : c.request = []
      · rw [if_pos hempty]
        exact .inl ⟨⟨hun.toClient, hun.silent, hun.cut⟩, .inl hcalls⟩
      · rw [if_neg hempty]
        exact ⟨rfl, hempty, hcalls, ⟨hun.toClient, hun.silent, hun.cut⟩, lost,
          (frame_split hsize h8 hall).2, hlost⟩
    · exact ⟨not_le.mp hfull, hcalls, ⟨hun.toClient, hun.silent, hun.cut⟩, hcarry'⟩
  next size got hphase =>
    obtain ⟨hlen, hne, hcalls, hun, hcarry⟩ := h
    have hserver : (c.serverRead host n).server = .readBody size (got ++ c.toServer.take n) := by
      dsimp only [Connection.serverRead]
      rw [hphase]
      rfl
    unfold ServerInv
    rw [hserver]
    exact ⟨hlen, hne, hcalls, ⟨hun.toClient, hun.silent, hun.cut⟩, hcarry.serverRead n⟩
  next left hphase =>
    rw [hphase] at hle
    exact absurd hle (Nat.not_le.mpr hn)
  next hphase =>
    rw [hphase] at hle
    exact absurd hle (Nat.not_le.mpr hn)

/-- The body that the callback is given is the message, and all of it is sent. -/
theorem Inv.at_call (h : c.Inv host) {body : Bytes} (hs : c.server = .readBody body.length body) :
    body = c.request ∧ c.request ≠ [] ∧ c.calls = [] ∧ c.Unanswered ∧ c.toServer = [] ∧
      c.client.unsent host c.request = [] := by
  have hserver := h.server
  unfold ServerInv at hserver
  rw [hs] at hserver
  obtain ⟨hlen, hne, hcalls, hun, lost, hall, -⟩ := hserver
  obtain ⟨hbody, hrest⟩ :=
    List.append_inj (hall.trans (List.append_nil c.request).symm) hlen
  obtain ⟨hto, hrest⟩ := List.append_eq_nil_iff.mp hrest
  exact ⟨hbody, hne, hcalls, hun, hto, (List.append_eq_nil_iff.mp hrest).1⟩

/-- What a step keeps. -/
theorem Inv.step (h : c.Inv host) (hstep : Step host malloc cap c e c') : c'.Inv host := by
  cases hstep with
  | connect hc hne =>
    refine ⟨h.size, ⟨fun hnil => ?_, hne⟩, h.server.of_client rfl rfl rfl rfl ?_
      (fun hun => ⟨hun.toClient, trivial, hun.cut⟩) ?_⟩
    · exact absurd (congrArg List.length hnil) (by simp)
    · rintro got target ⟨lost, hall, hlost⟩
      refine ⟨lost, ?_, .inl (hlost.resolve_right (by simp [hc]))⟩
      rw [hc] at hall
      exact hall
    · intro b left _ hwait
      rw [hc] at hwait
      exact hwait.elim
  | refused hc => exact ⟨h.size, trivial, h.server.fails (by simp [hc]) c.errno c.reads⟩
  | clientWrite hn hle hcap =>
    refine ⟨h.size, h.pending.wrote, h.server.of_client rfl rfl rfl rfl ?_
      (fun hun => ⟨hun.toClient, Client.silent_wrote hun.silent, hun.cut⟩) ?_⟩
    · rintro got target ⟨lost, hall, hlost⟩
      have hbusy := ne_returned (.inl (List.length_pos_iff.mp (hn.trans_le hle))) none
      refine ⟨lost, ?_, .inl (hlost.resolve_right hbusy)⟩
      rw [← hall, ← Client.take_unsent hn hle]
      simp only [Connection.clientWrite, List.append_assoc]
    · intro b left _ hwait
      rw [hwait.not_sending] at hle
      exact absurd hle (Nat.not_le.mpr hn)
  | @clientRead first more rest hle hin =>
    refine ⟨h.size, h.pending.received, h.server.of_client rfl rfl rfl rfl ?_ ?_ ?_⟩
    · rintro got target ⟨lost, hall, hlost⟩
      have hwants : 0 < c.client.wants := (Nat.zero_lt_succ _).trans_le hle
      have hbusy := ne_returned (.inr hwants) none
      refine ⟨lost, ?_, .inl (hlost.resolve_right hbusy)⟩
      rw [← hall]
      dsimp only [Connection.clientRead]
      rw [Client.unsent_received hwants]
    · intro hun
      exact absurd (hin.symm.trans hun.toClient) (List.cons_ne_nil _ _)
    · intro b left hlen hwait
      rw [hin] at hwait
      exact hwait.received hlen hle (List.cons_ne_nil _ _)
  | clientEof hwants hin hgone herr =>
    refine ⟨h.size, h.pending.ended, ?_⟩
    have hserver := h.server
    unfold ServerInv at hserver ⊢
    rw [hgone] at hserver
    dsimp only
    rw [hgone]
    rcases hserver with ⟨hun, hc⟩ | ⟨b, hb, hwait⟩
    · exact .inl ⟨⟨hun.toClient, Client.silent_ended hun.silent hwants, hun.cut⟩, hc⟩
    · refine .inr ⟨b, ⟨hb.calls, hb.size⟩, .inl (hwait.resolve_right fun hwait => ?_)⟩
      rw [hin] at hwait
      exact absurd (hwait.not_wants h.pending) (Nat.pos_iff_ne_zero.mp hwants)
  | clientInterrupted hbusy heof =>
    exact ⟨h.size, h.pending, h.server.of_client rfl rfl rfl rfl (fun _ _ hcarry => hcarry)
      (fun hun => ⟨hun.toClient, hun.silent, hun.cut⟩) fun _ _ _ hwait => hwait⟩
  | clientFails hbusy heof =>
    exact ⟨h.size, trivial, h.server.fails (ne_returned hbusy none) _ _⟩
  | serverRead hn hle hin => exact ⟨h.size, h.pending, h.server.serverRead h.size hn hle hin⟩
  | @call body reply hs hlen =>
    obtain ⟨rfl, hne, hcalls, hun, -, hsent⟩ := h.at_call hs
    refine ⟨h.size, h.pending, ?_⟩
    have hcall : c.calls ++ [(c.request, reply)] = [(c.request, reply)] := by rw [hcalls]; rfl
    cases reply with
    | none => exact .inl ⟨⟨hun.toClient, hun.silent, hun.cut⟩, .inr hcall⟩
    | some b =>
      refine ⟨fun hnil => ?_, hun.cut, b, ⟨hcall, hlen b rfl⟩, ?_⟩
      · have h8 := congrArg List.length hnil
        rw [length_encodeResponse] at h8
        exact absurd h8 (by simp)
      · dsimp only
        rw [hun.toClient]
        exact hun.silent.awaits h.pending hne hsent
  | @serverWrite n hn hle hcap =>
    refine ⟨h.size, h.pending, ?_⟩
    obtain ⟨left, hphase⟩ := Server.of_sending (hn.trans_le hle)
    have hserver := h.server
    unfold ServerInv at hserver
    rw [hphase] at hserver
    obtain ⟨-, hcut, b, hb, hwait⟩ := hserver
    have hwritten : (c.serverWrite n).server =
        if left.drop n = [] then .gone else .writeResponse (left.drop n) := by
      dsimp only [Connection.serverWrite]
      rw [hphase]
      rfl
    have hto : (c.serverWrite n).toClient = c.toClient ++ left.take n := by
      dsimp only [Connection.serverWrite]
      rw [hphase]
      rfl
    have hwait' : c.client.Awaits host b (c.serverWrite n).toClient (left.drop n) := by
      refine hwait.of_append ?_
      rw [hto, List.append_assoc, List.take_append_drop]
    unfold ServerInv
    rw [hwritten]
    split_ifs with hdrop
    · exact .inr ⟨b, ⟨hb.calls, hb.size⟩, .inr (hdrop ▸ hwait')⟩
    · exact ⟨hdrop, hcut, b, ⟨hb.calls, hb.size⟩, hwait'⟩
  | serverFails hs =>
    refine ⟨h.size, h.pending, ?_⟩
    have hserver := h.server
    unfold ServerInv at hserver
    split at hserver
    next hphase =>
      obtain ⟨-, hcalls, hun, -⟩ := hserver
      refine .inl ⟨⟨hun.toClient, hun.silent, ?_⟩, .inl hcalls⟩
      dsimp only
      rw [hphase, hun.cut]
      rfl
    next hphase =>
      obtain ⟨-, -, hcalls, hun, -⟩ := hserver
      refine .inl ⟨⟨hun.toClient, hun.silent, ?_⟩, .inl hcalls⟩
      dsimp only
      rw [hphase, hun.cut]
      rfl
    next left hphase =>
      obtain ⟨hleft, -, b, hb, -⟩ := hserver
      refine .inr ⟨b, ⟨hb.calls, hb.size⟩, .inl ?_⟩
      dsimp only
      rw [hphase]
      cases left with
      | nil => exact absurd rfl hleft
      | cons => exact Bool.or_true _
    next hphase => exact absurd hphase hs

/-- A buffer in the client is the reply of the one call, made on the message, or the session
failed while it was writing. -/
theorem Inv.returned (h : c.Inv host) {b : Bytes} (hc : c.client = .returned (some b)) :
    c.calls = [(c.request, some b)] ∨ c.cut = true := by
  have hsilent : ¬c.Unanswered := fun hun => by
    have hquiet := hun.silent
    rw [hc] at hquiet
    exact hquiet
  have hserver := h.server
  unfold ServerInv at hserver
  split at hserver
  next => exact absurd hserver.2.2.1 hsilent
  next => exact absurd hserver.2.2.2.1 hsilent
  next =>
    obtain ⟨-, -, b', hb, hwait⟩ := hserver
    rw [hc] at hwait
    obtain rfl : b = b' := hwait
    exact .inl hb.calls
  next =>
    rcases hserver with ⟨hun, -⟩ | ⟨b', hb, hcut | hwait⟩
    · exact absurd hun hsilent
    · exact .inr hcut
    · rw [hc] at hwait
      obtain rfl : b = b' := hwait
      exact .inl hb.calls

/-- The callback runs at most once on a connection, and on its message. -/
theorem Inv.calls (h : c.Inv host) : c.calls = [] ∨ ∃ reply, c.calls = [(c.request, reply)] := by
  have hserver := h.server
  unfold ServerInv at hserver
  split at hserver
  next => exact .inl hserver.2.1
  next => exact .inl hserver.2.2.1
  next =>
    obtain ⟨-, -, b, hb, -⟩ := hserver
    exact .inr ⟨_, hb.calls⟩
  next =>
    rcases hserver with ⟨-, hcalls | hcalls⟩ | ⟨b, hb, -⟩
    · exact .inl hcalls
    · exact .inr ⟨_, hcalls⟩
    · exact .inr ⟨_, hb.calls⟩

theorem step_request (hstep : Step host malloc cap c e c') : c'.request = c.request := by
  cases hstep <;> rfl

theorem inv_start {request : Bytes} (hlen : request.length < 2 ^ 64) (errno : Errno) :
    (start request errno).Inv host :=
  ⟨hlen, trivial, Nat.zero_lt_succ 7, rfl, ⟨rfl, trivial, rfl⟩, [],
    congrArg ([] ++ ·) (List.append_nil _), .inl rfl⟩

theorem inv_of_reachable (h : Reachable host malloc cap c) : c.Inv host := by
  refine h.invariant ?_ fun s e s' hs hstep => hs.step hstep
  rintro s ⟨q, errno, hlen, rfl⟩
  exact inv_start hlen errno

end Connection

end EchoFs.Api.Session
