import EchoFs.Api.Session

/-! Runs of one connection: the client's turns are those of `recv_message`, a reply reaches
the client that waits for it, and no call waits for ever. -/

namespace EchoFs.Api.Session
open ByteOrder Checked Transition

/-! ### The client and `recv_message` -/

section Turns
variable {size : ℕ} {got more : Bytes} {first : UInt8} {script : List ReadEvent} {errno : Errno}
  {r : Option Bytes × Conn}

theorem ends_of_data (hle : (first :: more).length ≤ size - got.length)
    (h : Ends size (got ++ first :: more) ⟨script, errno⟩ r) :
    Ends size got ⟨.data first more :: script, errno⟩ r := by
  have hlt : ¬size ≤ got.length := by
    rw [List.length_cons] at hle
    omega
  refine .of_turn (fun fuel => ?_) h
  rw [recvData, if_neg hlt]
  dsimp only [read]
  rw [List.drop_eq_nil_iff.mpr hle]

theorem ends_of_eintr (hlt : got.length < size) (h : Ends size got ⟨script, .eintr⟩ r) :
    Ends size got ⟨.error .eintr :: script, errno⟩ r := by
  refine .of_turn (fun fuel => ?_) h
  rw [recvData, if_neg (not_le.mpr hlt)]
  rfl

theorem ends_of_failure (hlt : got.length < size) (code : ℕ) :
    Ends size got ⟨.error (.other code) :: script, errno⟩ (none, ⟨script, .other code⟩) := by
  refine .of_turn (fun fuel => ?_) ⟨0, fun _ _ => rfl⟩
  rw [recvData, if_neg (not_le.mpr hlt)]
  rfl

theorem ends_of_eof (hlt : got.length < size) (herr : errno ≠ .eintr) :
    Ends size got ⟨[], errno⟩ (some got, ⟨[], errno⟩) := by
  refine .of_turn (fun fuel => ?_) ⟨0, fun _ _ => rfl⟩
  rw [recvData, if_neg (not_le.mpr hlt)]
  exact if_neg herr

end Turns

/-- What `recv_message` makes of the result of its second `recv_data`. -/
def bodyResult (size : ℕ) (block : Bytes) (r : Option Bytes × Conn) : ℤ × Msgbuffer × Conn :=
  match r.1 with
  | none => recvError r.2
  | some got => (0, ⟨some (got ++ block.drop got.length), size⟩, r.2)

/-- With `reads` behind it the client is where `recv_message` is on a script that begins with
them; at the end of the stream nothing follows. -/
def Client.Resumes (host : Order) (malloc : Malloc) (reads : List ReadEvent) (began errno : Errno)
    (eof : Bool) : Client → Prop
  | recvPrefix got => eof = false ∧ ∀ script r, Ends 8 got ⟨script, errno⟩ r →
      Ends 8 [] ⟨reads ++ script, began⟩ r
  | recvBody size block got => block.length = size ∧ ∀ script r, (eof = true → script = []) →
      Ends size got ⟨script, errno⟩ r →
        MessageEnds host malloc ⟨reads ++ script, began⟩ (bodyResult size block r)
  | returned (some b) => MessageEnds host malloc ⟨reads, began⟩ (0, ⟨some b, b.length⟩, ⟨[], errno⟩)
  | returned none => reads ≠ [] →
      MessageEnds host malloc ⟨reads, began⟩ (recvError ⟨[], errno⟩)
  | _ => reads = [] ∧ eof = false

structure Connection.Resumes (host : Order) (malloc : Malloc) (c : Connection) : Prop where
  eof : c.eof = true → c.server = .gone ∧ c.toClient = []
  client : c.client.Resumes host malloc c.reads c.began c.errno c.eof

section Refinement
variable {host : Order} {malloc : Malloc} {cap : ℕ} {c c' : Connection} {e : Event}
  {reads : List ReadEvent} {began errno : Errno} {eof : Bool} {got : Bytes}

/-- The prefix is there, or as much of it as comes. -/
theorem Client.Resumes.afterPrefix
    (h : ∀ script, (eof = true → script = []) →
      Ends 8 [] ⟨reads ++ script, began⟩ (some got, ⟨script, errno⟩)) :
    (Client.afterPrefix host malloc got).Resumes host malloc reads began errno eof := by
  have hnow := h [] fun _ => rfl
  rw [List.append_nil] at hnow
  unfold Client.afterPrefix
  dsimp only
  split_ifs with hzero
  · exact fun _ => messageEnds_error hnow fun _ => recvBody_zero hzero
  · cases hm : malloc (htonll host (load host (prefixBytes got))) with
    | none => exact fun _ => messageEnds_error hnow fun _ => recvBody_noMemory hm
    | some block =>
      refine ⟨block.2, fun script r hscript hr => ?_⟩
      obtain ⟨got', c'⟩ := r
      have hend := messageEnds_body (h script hscript) rfl hzero hm hr
      cases got' <;> exact hend

theorem Client.Resumes.afterBody {size : ℕ} {block : Bytes} (hblock : block.length = size)
    (hle : got.length ≤ size)
    (h : MessageEnds host malloc ⟨reads, began⟩ (bodyResult size block (some got, ⟨[], errno⟩))) :
    (Client.afterBody block got).Resumes host malloc reads began errno eof := by
  have hlen : (got ++ block.drop got.length).length = size := by
    rw [List.length_append, List.length_drop]
    omega
  unfold Client.afterBody
  dsimp only [Client.Resumes]
  rw [hlen]
  exact h

/-- Bytes that arrive are the next event of the script. -/
theorem Client.Resumes.received {cl : Client} {first : UInt8} {more : Bytes}
    (h : cl.Resumes host malloc reads began errno false)
    (hle : (first :: more).length ≤ cl.wants) :
    (cl.received host malloc (first :: more)).Resumes host malloc
      (reads ++ [.data first more]) began errno false := by
  have hpos : 0 < cl.wants := (Nat.zero_lt_succ _).trans_le hle
  have hcons : ∀ script,
      reads ++ [.data first more] ++ script = reads ++ .data first more :: script :=
    fun script => by rw [List.append_assoc]; rfl
  obtain ⟨got, rfl⟩ | ⟨size, block, got, rfl⟩ := of_wants hpos
  · dsimp only [wants] at hle
    dsimp only [Client.received]
    split_ifs with hfull
    · refine .afterPrefix fun script _ => ?_
      rw [hcons]
      exact h.2 _ _ (ends_of_data hle (ends_full hfull))
    · refine ⟨rfl, fun script r hr => ?_⟩
      rw [hcons]
      exact h.2 _ _ (ends_of_data hle hr)
  · dsimp only [wants] at hle
    obtain ⟨hblock, h⟩ := h
    dsimp only [Client.received]
    split_ifs with hfull
    · refine .afterBody hblock ?_ ?_
      · rw [List.length_append]
        rw [List.length_cons] at hle
        simp only [List.length_cons]
        omega
      · exact h [.data first more] _ (fun hf => absurd hf (by decide))
          (ends_of_data hle (ends_full hfull))
    · refine ⟨hblock, fun script r _ hr => ?_⟩
      rw [hcons]
      exact h _ _ (fun hf => absurd hf (by decide)) (ends_of_data hle hr)

theorem Client.Resumes.interrupted {cl : Client} {request : Bytes}
    (h : cl.Resumes host malloc reads began errno false) (hpending : cl.Pending request)
    (hwants : 0 < cl.wants) :
    cl.Resumes host malloc (reads ++ [.error .eintr]) began .eintr false := by
  have hcons : ∀ script, reads ++ [.error .eintr] ++ script = reads ++ .error .eintr :: script :=
    fun script => by rw [List.append_assoc]; rfl
  obtain ⟨got, rfl⟩ | ⟨size, block, got, rfl⟩ := of_wants hwants
  · refine ⟨rfl, fun script r hr => ?_⟩
    rw [hcons]
    exact h.2 _ _ (ends_of_eintr hpending hr)
  · refine ⟨h.1, fun script r _ hr => ?_⟩
    rw [hcons]
    exact h.2 _ _ (fun hf => absurd hf (by decide)) (ends_of_eintr hpending hr)

theorem Client.Resumes.fails {cl : Client} {request : Bytes} {code : ℕ}
    (h : cl.Resumes host malloc reads began errno false) (hpending : cl.Pending request)
    (hwants : 0 < cl.wants) :
    MessageEnds host malloc ⟨reads ++ [.error (.other code)], began⟩
      (recvError ⟨[], .other code⟩) := by
  obtain ⟨got, rfl⟩ | ⟨size, block, got, rfl⟩ := of_wants hwants
  · exact .of_length (h.2 _ _ (ends_of_failure hpending code)) ⟨0, fun _ _ => rfl⟩
  · exact h.2 _ _ (fun hf => absurd hf (by decide)) (ends_of_failure hpending code)

theorem Client.Resumes.ended {cl : Client} {request : Bytes}
    (h : cl.Resumes host malloc reads began errno eof) (hpending : cl.Pending request)
    (hwants : 0 < cl.wants) (herr : errno ≠ .eintr) :
    (cl.ended host malloc).Resumes host malloc reads began errno true := by
  obtain ⟨got, rfl⟩ | ⟨size, block, got, rfl⟩ := of_wants hwants
  · refine .afterPrefix fun script hscript => ?_
    obtain rfl := hscript rfl
    exact h.2 _ _ (ends_of_eof hpending herr)
  · have hend := h.2 [] _ (fun _ => rfl) (ends_of_eof hpending herr)
    rw [List.append_nil] at hend
    exact .afterBody h.1 (le_of_lt hpending) hend

theorem Client.Resumes.wrote {cl : Client} {request : Bytes} {n : ℕ}
    (h : cl.Resumes host malloc reads began errno eof) (hn : 0 < n) (hle : n ≤ cl.sending.length) :
    (cl.wrote request n).Resumes host malloc reads errno errno eof := by
  obtain ⟨left, rfl | rfl⟩ := of_sending (hn.trans_le hle)
  · dsimp only [Client.wrote]
    split_ifs <;> exact h
  · dsimp only [Client.wrote]
    split_ifs
    · obtain ⟨rfl, rfl⟩ := h
      exact ⟨rfl, fun script r hr => hr⟩
    · exact h

theorem Client.Resumes.reads_nil {cl : Client}
    (h : cl.Resumes host malloc reads began errno eof) (hsend : cl.sending ≠ []) :
    reads = [] ∧ eof = false := by
  obtain ⟨left, rfl | rfl⟩ := of_sending (List.length_pos_iff.mpr hsend) <;> exact h

theorem wants_of_sending {cl : Client} (hsend : cl.sending ≠ []) : cl.wants = 0 := by
  obtain ⟨left, rfl | rfl⟩ := Client.of_sending (List.length_pos_iff.mpr hsend) <;> rfl

theorem Connection.Resumes.step (hinv : c.Inv host) (h : c.Resumes host malloc)
    (hstep : Step host malloc cap c e c') : c'.Resumes host malloc := by
  have hclient := h.client
  cases hstep with
  | connect hc hne =>
    rw [hc] at hclient
    exact ⟨h.eof, hclient⟩
  | refused hc =>
    rw [hc] at hclient
    exact ⟨h.eof, fun hreads => absurd hclient.1 hreads⟩
  | clientWrite hn hle hcap => exact ⟨h.eof, hclient.wrote hn hle⟩
  | @clientRead first more rest hle hin =>
    have heof : c.eof = false := by
      cases heof : c.eof with
      | false => rfl
      | true => exact absurd (hin.symm.trans (h.eof heof).2) (List.cons_ne_nil _ _)
    have hwants : c.client.wants ≠ 0 := by
      rw [List.length_cons] at hle
      omega
    refine ⟨fun heof' => absurd (heof.symm.trans heof') (by decide), ?_⟩
    dsimp only [Connection.clientRead, Connection.sees]
    rw [heof] at hclient ⊢
    rw [if_neg hwants]
    exact hclient.received hle
  | clientEof hwants hin hgone herr =>
    exact ⟨fun _ => ⟨hgone, hin⟩, hclient.ended hinv.pending hwants herr⟩
  | clientInterrupted hbusy heof =>
    refine ⟨h.eof, ?_⟩
    dsimp only [Connection.sees]
    rcases hbusy with hsend | hwants
    · rw [if_pos (wants_of_sending hsend)]
      obtain ⟨left, hc | hc⟩ := Client.of_sending (List.length_pos_iff.mpr hsend)
      · rw [hc] at hclient ⊢
        exact hclient
      · rw [hc] at hclient ⊢
        exact hclient
    · rw [if_neg (Nat.pos_iff_ne_zero.mp hwants)]
      rw [heof] at hclient ⊢
      exact hclient.interrupted hinv.pending hwants
  | @clientFails code hbusy heof =>
    refine ⟨h.eof, ?_⟩
    dsimp only [Connection.sees]
    rcases hbusy with hsend | hwants
    · rw [if_pos (wants_of_sending hsend)]
      exact fun hreads => absurd (hclient.reads_nil hsend).1 hreads
    · rw [if_neg (Nat.pos_iff_ne_zero.mp hwants)]
      rw [heof] at hclient
      exact fun _ => hclient.fails hinv.pending hwants
  | serverRead hn hle hin =>
    refine ⟨fun heof => ?_, hclient⟩
    rw [(h.eof heof).1] at hle
    exact absurd hle (Nat.not_le.mpr hn)
  | call hs hlen =>
    refine ⟨fun heof => ?_, hclient⟩
    have hgone := (h.eof heof).1
    rw [hs] at hgone
    cases hgone
  | serverWrite hn hle hcap =>
    refine ⟨fun heof => ?_, hclient⟩
    rw [(h.eof heof).1] at hle
    exact absurd hle (Nat.not_le.mpr hn)
  | serverFails hs => exact ⟨fun heof => ⟨rfl, (h.eof heof).2⟩, hclient⟩

theorem resumes_of_reachable (h : Reachable host malloc cap c) :
    c.Inv host ∧ c.Resumes host malloc := by
  refine Reach.invariant (I := fun c => c.Inv host ∧ c.Resumes host malloc) ?_
    (fun s e s' hs hstep => ⟨hs.1.step hstep, hs.2.step hs.1 hstep⟩) h
  rintro s ⟨q, errno, hlen, rfl⟩
  exact ⟨Connection.inv_start hlen errno, fun h => absurd h Bool.false_ne_true, rfl, rfl⟩

/-- Whatever the two sides and the kernel do in between, a client that has its buffer has it
from `recv_message`, run on what its `read()` calls gave. -/
theorem client_runs_recvMessage (h : Reachable host malloc cap c) {b : Bytes}
    (hc : c.client = .returned (some b)) :
    MessageEnds host malloc ⟨c.reads, c.began⟩ (0, ⟨some b, b.length⟩, ⟨[], c.errno⟩) := by
  have hclient := (resumes_of_reachable h).2.client
  rw [hc] at hclient
  exact hclient

end Refinement

/-- A message of two bytes and a reply of two: the message in three pieces, an interrupt, the
reply in four. -/
def pieces : List Event :=
  [.connect, .clientWrite 3, .serverRead 2, .clientWrite 5, .serverRead 6, .clientWrite 2,
    .serverRead 2, .call [8, 3] (some [8, 1]), .serverWrite 9, .clientInterrupted, .clientRead 4,
    .clientRead 4, .clientRead 1, .serverWrite 1, .clientRead 1]

def afterPieces : Connection where
  request := [8, 3]
  client := .returned (some [8, 1])
  errno := .eintr
  toServer := []
  server := .gone
  toClient := []
  calls := [([8, 3], some [8, 1])]
  cut := false
  reads := [.error .eintr, .data 0 [0, 0, 0], .data 0 [0, 0, 2], .data 8 [], .data 1 []]
  began := .other 0
  eof := false

theorem run_pieces :
    Run (Step .little sampleMalloc 10) (.start [8, 3] (.other 0)) pieces afterPieces :=
  run_of_turns pieces (by decide +kernel)

theorem client_runs_recvMessage_pieces :
    MessageEnds .little sampleMalloc ⟨afterPieces.reads, .other 0⟩
      (0, ⟨some [8, 1], 2⟩, ⟨[], .eintr⟩) :=
  client_runs_recvMessage (run_pieces.reach ⟨[8, 3], .other 0, by decide, rfl⟩) rfl

/-! ### Every call completes -/

/-- Nothing fails, and the reply has at most `m` bytes, at least one, and room in the client. -/
def Event.Smooth (malloc : Malloc) (m : ℕ) : Event → Prop
  | refused | clientFails _ | serverFails => False
  | call _ reply => ∃ b, reply = some b ∧ b ≠ [] ∧ b.length ≤ m ∧ (malloc b.length).isSome
  | _ => True

/-- Interrupts transfer nothing. -/
def Event.transfers : Event → Bool
  | clientInterrupted => false
  | _ => true

abbrev SmoothStep (host : Order) (malloc : Malloc) (cap m : ℕ) :
    Connection → Event → Connection → Prop :=
  Guarded (Step host malloc cap) fun _ e => e.Smooth malloc m

/-- A transfer without a failure. -/
def Event.Turn (b : Bytes) : Event → Prop
  | refused | clientInterrupted | clientFails _ | serverFails => False
  | call _ reply => reply = some b
  | _ => True

def Client.rank : Client → ℕ
  | idle => 4
  | sendPrefix _ | sendBody _ => 3
  | recvPrefix _ => 2
  | recvBody _ _ _ => 1
  | returned _ => 0

/-- What the server has yet to write, before the call as much as a reply can have. -/
def Server.ahead (m : ℕ) : Server → ℕ
  | readHeader _ | readBody _ _ => 1 + 2 * (8 + m)
  | writeResponse left => 2 * left.length
  | gone => 0

/-- A bound on the transfers to come: a byte is written once and read once. -/
def Connection.todo (host : Order) (m : ℕ) (c : Connection) : ℕ :=
  c.client.rank + 2 * (c.client.unsent host c.request).length + c.toServer.length +
    c.server.ahead m + c.toClient.length

/-- The state of a connection on which nothing has failed. -/
structure Connection.Going (host : Order) (malloc : Malloc) (c : Connection) : Prop where
  inv : c.Inv host
  request : c.request ≠ []
  reply : ∀ b, c.Answered b → b ≠ [] ∧ (malloc b.length).isSome
  cut : c.cut = false
  client : c.client ≠ .returned none
  gone : c.server = .gone → ∃ b, c.Answered b

section Completion
variable {host : Order} {malloc : Malloc} {cap m : ℕ} {c c' : Connection} {e : Event}
  {b toClient left : Bytes}

theorem Connection.Answered.unique {b' : Bytes} (h : c.Answered b) (h' : c.Answered b') :
    b = b' := by
  have heq := h.calls.symm.trans h'.calls
  simpa using heq

/-- A byte for the client belongs to a response. -/
theorem Connection.Going.awaits (h : c.Going host malloc)
    (hin : c.toClient ≠ [] ∨ c.server = .gone) :
    ∃ b left, c.Answered b ∧ c.client.Awaits host b c.toClient left ∧
      left = c.server.sending := by
  have hserver := h.inv.server
  unfold Connection.ServerInv at hserver
  split at hserver
  next hphase =>
    refine absurd hserver.2.2.1.toClient (hin.resolve_right ?_)
    rw [hphase]
    exact Server.noConfusion
  next hphase =>
    refine absurd hserver.2.2.2.1.toClient (hin.resolve_right ?_)
    rw [hphase]
    exact Server.noConfusion
  next left hphase =>
    obtain ⟨-, -, b, hb, hwait⟩ := hserver
    exact ⟨b, left, hb, hwait, by rw [hphase]; rfl⟩
  next hphase =>
    rcases hserver with ⟨-, hcalls⟩ | ⟨b, hb, hwait⟩
    · obtain ⟨b, hb⟩ := h.gone hphase
      rw [hb.calls] at hcalls
      simp at hcalls
    · refine ⟨b, [], hb, hwait.resolve_left ?_, by rw [hphase]; rfl⟩
      rw [h.cut]
      exact Bool.false_ne_true

/-- With the bytes of a response that can be stored the client does not come to an error. -/
theorem Client.Awaits.received_ne {cl : Client} {bytes rest : Bytes} (hlen : b.length < 2 ^ 64)
    (h : cl.Awaits host b (bytes ++ rest) left) (hle : bytes.length ≤ cl.wants)
    (hpos : 0 < bytes.length) (hb : b ≠ []) (hroom : (malloc b.length).isSome) :
    cl.received host malloc bytes ≠ .returned none := by
  obtain ⟨got, rfl⟩ | ⟨size, block, got, rfl⟩ := of_wants (hpos.trans_le hle)
  · have hframe : (got ++ bytes) ++ (rest ++ left) = encodeResponse host b := by
      rw [List.append_assoc, ← List.append_assoc bytes]
      exact h
    dsimp only [wants] at hle
    dsimp only [Client.received]
    split_ifs with hfull
    · have h8 : (got ++ bytes).length = 8 := by
        rw [List.length_append] at hfull ⊢
        omega
      obtain ⟨hsize, -⟩ := frame_split hlen h8 hframe
      have hwhole : prefixBytes (got ++ bytes) = got ++ bytes := by
        unfold prefixBytes
        rw [h8]
        exact List.append_nil _
      obtain ⟨block, hblock⟩ := Option.isSome_iff_exists.mp hroom
      unfold Client.afterPrefix
      rw [hwhole, hsize]
      dsimp only
      rw [if_neg (mt List.length_eq_zero_iff.mp hb), hblock]
      exact Client.noConfusion
    · exact Client.noConfusion
  · dsimp only [Client.received]
    split_ifs
    · unfold Client.afterBody
      simp
    · exact Client.noConfusion

/-- The body is not empty, so the session goes on to read it. -/
theorem Connection.Going.serverRead_ne {n : ℕ} (h : c.Going host malloc) (hn : 0 < n)
    (hle : n ≤ c.server.wants) (hin : n ≤ c.toServer.length) :
    (c.serverRead host n).server ≠ .gone := by
  have hserver := h.inv.server
  unfold Connection.ServerInv at hserver
  obtain ⟨got, hphase⟩ | ⟨size, got, hphase⟩ := Server.of_wants (hn.trans_le hle)
  · rw [hphase] at hserver hle
    obtain ⟨hgot, -, -, hcarry⟩ := hserver
    dsimp only [Server.wants] at hle
    dsimp only [Connection.serverRead]
    rw [hphase]
    dsimp only [Server.received]
    split_ifs with hfull
    · have h8 : (got ++ c.toServer.take n).length = 8 := by
        rw [List.length_append, List.length_take] at hfull ⊢
        omega
      obtain ⟨lost, hall, -⟩ := hcarry.serverRead n
      rw [afterHeader_frame h.inv.size h8 hall, if_neg h.request]
      exact Server.noConfusion
    · exact Server.noConfusion
  · dsimp only [Connection.serverRead]
    rw [hphase]
    exact Server.noConfusion

theorem Connection.Going.step (h : c.Going host malloc) (he : e.Smooth malloc m)
    (hstep : Step host malloc cap c e c') : c'.Going host malloc := by
  have hinv := h.inv.step hstep
  cases hstep with
  | connect hc hne =>
    exact ⟨hinv, hne, fun b hb => h.reply b ⟨hb.calls, hb.size⟩, h.cut, Client.noConfusion,
      fun hgone => (h.gone hgone).imp fun b hb => ⟨hb.calls, hb.size⟩⟩
  | refused hc => exact he.elim
  | clientWrite hn hle hcap =>
    refine ⟨hinv, h.request, fun b hb => h.reply b ⟨hb.calls, hb.size⟩, h.cut, ?_,
      fun hgone => (h.gone hgone).imp fun b hb => ⟨hb.calls, hb.size⟩⟩
    dsimp only [Connection.clientWrite]
    obtain ⟨left, hc | hc⟩ := Client.of_sending (hn.trans_le hle)
    · rw [hc]
      dsimp only [Client.wrote]
      split_ifs <;> exact Client.noConfusion
    · rw [hc]
      dsimp only [Client.wrote]
      split_ifs <;> exact Client.noConfusion
  | @clientRead first more rest hle hin =>
    refine ⟨hinv, h.request, fun b hb => h.reply b ⟨hb.calls, hb.size⟩, h.cut, ?_,
      fun hgone => (h.gone hgone).imp fun b hb => ⟨hb.calls, hb.size⟩⟩
    obtain ⟨b, left, hb, hwait, -⟩ :=
      h.awaits (.inl (hin ▸ List.cons_ne_nil first (more ++ rest)))
    obtain ⟨hne, hroom⟩ := h.reply b hb
    rw [hin] at hwait
    exact hwait.received_ne hb.size hle (Nat.zero_lt_succ _) hne hroom
  | clientEof hwants hin hgone herr =>
    obtain ⟨b, left, -, hwait, rfl⟩ := h.awaits (.inr hgone)
    rw [hin, hgone] at hwait
    exact absurd (hwait.not_wants h.inv.pending) (Nat.pos_iff_ne_zero.mp hwants)
  | clientInterrupted hbusy heof =>
    exact ⟨hinv, h.request, fun b hb => h.reply b ⟨hb.calls, hb.size⟩, h.cut, h.client,
      fun hgone => (h.gone hgone).imp fun b hb => ⟨hb.calls, hb.size⟩⟩
  | clientFails hbusy heof => exact he.elim
  | serverRead hn hle hin =>
    exact ⟨hinv, h.request, fun b hb => h.reply b ⟨hb.calls, hb.size⟩, h.cut, h.client,
      fun hgone => absurd hgone (h.serverRead_ne hn hle hin)⟩
  | @call body reply hs hlen =>
    obtain ⟨b, rfl, hne, -, hroom⟩ := he
    obtain ⟨rfl, -, hcalls, -⟩ := h.inv.at_call hs
    refine ⟨hinv, h.request, fun b' hb' => ?_, h.cut, h.client, fun hgone => nomatch hgone⟩
    have heq : b' = b := by
      have hcall := hb'.calls
      dsimp only at hcall
      rw [hcalls] at hcall
      simpa using hcall.symm
    subst heq
    exact ⟨hne, hroom⟩
  | @serverWrite n hn hle hcap =>
    refine ⟨hinv, h.request, fun b hb => h.reply b ⟨hb.calls, hb.size⟩, h.cut, h.client,
      fun _ => ?_⟩
    obtain ⟨left, hphase⟩ := Server.of_sending (hn.trans_le hle)
    have hserver := h.inv.server
    unfold Connection.ServerInv at hserver
    rw [hphase] at hserver
    obtain ⟨-, -, b, hb, -⟩ := hserver
    exact ⟨b, hb.calls, hb.size⟩
  | serverFails hs => exact he.elim

theorem Client.rank_wrote (cl : Client) (request : Bytes) (n : ℕ) :
    (cl.wrote request n).rank ≤ cl.rank := by
  cases cl with
  | sendPrefix left =>
    dsimp only [wrote]
    split_ifs <;> simp [rank]
  | sendBody left =>
    dsimp only [wrote]
    split_ifs <;> simp [rank]
  | idle => exact Nat.le_refl _
  | recvPrefix => exact Nat.le_refl _
  | recvBody => exact Nat.le_refl _
  | returned => exact Nat.le_refl _

theorem Client.rank_afterPrefix {got : Bytes} : (afterPrefix host malloc got).rank ≤ 1 := by
  unfold afterPrefix
  dsimp only
  split_ifs
  · exact Nat.zero_le 1
  · split
    · exact Nat.zero_le 1
    · exact Nat.le_refl 1

theorem Client.rank_received (host : Order) (malloc : Malloc) (cl : Client) (bytes : Bytes) :
    (cl.received host malloc bytes).rank ≤ cl.rank := by
  cases cl with
  | recvPrefix got =>
    dsimp only [received]
    split_ifs
    · exact rank_afterPrefix.trans (Nat.le_succ 1)
    · exact Nat.le_refl _
  | recvBody size block got =>
    dsimp only [received]
    split_ifs
    · exact Nat.zero_le _
    · exact Nat.le_refl _
  | idle => exact Nat.le_refl _
  | sendPrefix => exact Nat.le_refl _
  | sendBody => exact Nat.le_refl _
  | returned => exact Nat.le_refl _

theorem Server.ahead_wrote {s : Server} {n : ℕ} (hle : n ≤ s.sending.length) (hn : 0 < n) :
    (s.wrote n).ahead m + 2 * n ≤ s.ahead m := by
  obtain ⟨left, rfl⟩ := of_sending (hn.trans_le hle)
  dsimp only [sending] at hle
  dsimp only [wrote]
  split_ifs with hdrop
  · dsimp only [ahead]
    omega
  · dsimp only [ahead]
    rw [List.length_drop]
    omega

theorem Server.ahead_received (host : Order) (m : ℕ) (s : Server) (bytes : Bytes) :
    (s.received host bytes).ahead m ≤ s.ahead m := by
  cases s with
  | readHeader got =>
    dsimp only [received]
    split_ifs
    · unfold afterHeader
      dsimp only
      split_ifs
      · exact Nat.zero_le _
      · exact Nat.le_refl _
    · exact Nat.le_refl _
  | readBody => exact Nat.le_refl _
  | writeResponse => exact Nat.le_refl _
  | gone => exact Nat.le_refl _

/-- Each transfer brings the call nearer to its end. -/
theorem Connection.todo_step (hgoing : c.Going host malloc) (he : e.Smooth malloc m)
    (hstep : Step host malloc cap c e c') :
    c'.todo host m + (if e.transfers then 1 else 0) ≤ c.todo host m := by
  cases hstep with
  | connect hc hne =>
    unfold todo
    rw [hc]
    simp only [Event.transfers, Client.rank, Client.unsent, encodeResponse, if_true]
    omega
  | refused hc => exact he.elim
  | @clientWrite n hn hle hcap =>
    have hunsent : c.client.unsent host c.request =
        c.client.sending.take n ++ (c.client.wrote c.request n).unsent host c.request :=
      (Client.take_unsent hn hle).symm
    have hrank := c.client.rank_wrote c.request n
    unfold todo
    rw [hunsent]
    simp only [Event.transfers, Connection.clientWrite, List.length_append, if_true,
      List.length_take_of_le hle]
    omega
  | @clientRead first more rest hle hin =>
    have hwants : 0 < c.client.wants := (Nat.zero_lt_succ _).trans_le hle
    have hrank := Client.rank_received host malloc c.client (first :: more)
    unfold todo
    rw [hin]
    simp only [Event.transfers, Connection.clientRead, Client.unsent_received hwants,
      List.length_append, List.length_cons, if_true]
    omega
  | clientEof hwants hin hgone herr =>
    obtain ⟨b, left, -, hwait, rfl⟩ := hgoing.awaits (.inr hgone)
    rw [hin, hgone] at hwait
    exact absurd (hwait.not_wants hgoing.inv.pending) (Nat.pos_iff_ne_zero.mp hwants)
  | clientInterrupted hbusy heof => exact Nat.le_refl _
  | clientFails hbusy heof => exact he.elim
  | @serverRead n hn hle hin =>
    have hahead := c.server.ahead_received host m (c.toServer.take n)
    unfold todo
    simp only [Event.transfers, Connection.serverRead, List.length_drop, if_true]
    omega
  | @call body reply hs hlen =>
    obtain ⟨b, rfl, -, hm, -⟩ := he
    unfold todo
    rw [hs]
    simp only [Event.transfers, Server.answered, Server.ahead, length_encodeResponse, if_true]
    omega
  | @serverWrite n hn hle hcap =>
    have hahead := Server.ahead_wrote (m := m) hle hn
    unfold todo
    simp only [Event.transfers, Connection.serverWrite, List.length_append, if_true,
      List.length_take_of_le hle]
    omega
  | serverFails hs => exact he.elim

/-- The connection can make a transfer next; the callback, where it is its turn, is to reply
with `b`. -/
def Connection.CanMove (host : Order) (malloc : Malloc) (cap : ℕ) (b : Bytes) (c : Connection) :
    Prop :=
  ∃ e c', Step host malloc cap c e c' ∧ e.Turn b

theorem Connection.canMove_serverRead (hwants : 0 < c.server.wants) (hin : c.toServer ≠ []) :
    c.CanMove host malloc cap b :=
  ⟨_, _, .serverRead Nat.one_pos hwants (List.length_pos_iff.mpr hin), trivial⟩

/-- What the session waits for is under way or unsent. -/
theorem Connection.Going.server_moves (h : c.Going host malloc) (hb : b.length < 2 ^ 64)
    (hto : c.toServer ≠ [] ∨ c.client.unsent host c.request = [])
    (hreading : ∀ left, c.server ≠ .writeResponse left) (hgone : c.server ≠ .gone) :
    c.CanMove host malloc cap b := by
  have hserver := h.inv.server
  unfold Connection.ServerInv at hserver
  split at hserver
  next got hphase =>
    obtain ⟨hgot, -, -, lost, hall, hlost⟩ := hserver
    obtain rfl := hlost.resolve_right h.client
    refine canMove_serverRead (by rw [hphase]; exact Nat.sub_pos_of_lt hgot)
      (hto.elim id fun hsent hempty => ?_)
    rw [hempty, hsent] at hall
    have h8 := congrArg List.length hall
    rw [length_encodeResponse] at h8
    simp only [List.append_nil] at h8
    omega
  next size got hphase =>
    obtain ⟨rfl, -, -, -, lost, hall, hlost⟩ := hserver
    obtain rfl := hlost.resolve_right h.client
    by_cases hempty : c.toServer = []
    · have hsent := hto.resolve_left (not_not_intro hempty)
      rw [hempty, hsent] at hall
      obtain rfl : got = c.request := (List.append_nil got).symm.trans hall
      have hsize : ∀ b', some b = some b' → b'.length < 2 ^ 64 := fun b' hb' =>
        Option.some.inj hb' ▸ hb
      exact ⟨_, _, .call hphase hsize, rfl⟩
    · refine canMove_serverRead ?_ hempty
      rw [hphase]
      have hlen := congrArg List.length hall
      have hpos := List.length_pos_iff.mpr hempty
      simp only [List.length_append] at hlen
      dsimp only [Server.wants]
      omega
  next left hphase => exact absurd hphase (hreading left)
  next hphase => exact absurd hphase hgone

/-- No connection is stuck: until the client has its buffer one side can move, however small
the buffers of the sockets are. -/
theorem Connection.Going.canMove (h : c.Going host malloc) (hcap : 0 < cap)
    (hb : b.length < 2 ^ 64) (hc : ∀ b, c.client ≠ .returned (some b)) :
    c.CanMove host malloc cap b := by
  have hpending := h.inv.pending
  by_cases hsend : c.client.sending = []
  · by_cases hwants : c.client.wants = 0
    · -- neither sending nor receiving
      cases hcl : c.client with
      | idle =>
        exact ⟨_, _, .connect hcl h.request, trivial⟩
      | sendPrefix left =>
        rw [hcl] at hsend hpending
        exact absurd hsend hpending.1
      | sendBody left =>
        rw [hcl] at hsend hpending
        exact absurd hsend hpending
      | recvPrefix got =>
        rw [hcl] at hwants hpending
        exact absurd hwants (Nat.sub_ne_zero_of_lt hpending)
      | recvBody size block got =>
        rw [hcl] at hwants hpending
        exact absurd hwants (Nat.sub_ne_zero_of_lt hpending)
      | returned buffer =>
        cases buffer with
        | none => exact absurd hcl h.client
        | some b' => exact absurd hcl (hc b')
    · have hpos := Nat.pos_of_ne_zero hwants
      cases hin : c.toClient with
      | cons first rest =>
        have hone : ([first] : Bytes).length ≤ c.client.wants := hpos
        exact ⟨_, _, .clientRead hone hin, trivial⟩
      | nil =>
        by_cases hgone : c.server = .gone
        · obtain ⟨b', left, -, hwait, rfl⟩ := h.awaits (.inr hgone)
          rw [hin, hgone] at hwait
          exact absurd (hwait.not_wants hpending) hwants
        · by_cases hwriting : ∃ left, c.server = .writeResponse left
          · obtain ⟨left, hphase⟩ := hwriting
            have hserver := h.inv.server
            unfold Connection.ServerInv at hserver
            rw [hphase] at hserver
            refine ⟨_, _, .serverWrite Nat.one_pos ?_ ?_, trivial⟩
            · rw [hphase]
              exact List.length_pos_iff.mpr hserver.1
            · rw [hin]
              exact hcap
          · refine h.server_moves hb (.inr ?_) (not_exists.mp hwriting) hgone
            obtain ⟨got, hcl⟩ | ⟨size, block, got, hcl⟩ := Client.of_wants hpos
            · rw [hcl]
              rfl
            · rw [hcl]
              rfl
  · have hpos := List.length_pos_iff.mpr hsend
    by_cases hroom : c.toServer.length < cap
    · exact ⟨_, _, .clientWrite Nat.one_pos hpos hroom, trivial⟩
    · -- a full stream has bytes for the session
      have hto : c.toServer ≠ [] := by
        intro hempty
        rw [hempty] at hroom
        exact hroom hcap
      have hquiet : ∀ b left, ¬c.client.Awaits host b c.toClient left :=
        fun b left hwait => hsend hwait.not_sending
      refine h.server_moves hb (.inl hto) (fun left hphase => ?_) fun hgone => ?_
      · have hserver := h.inv.server
        unfold Connection.ServerInv at hserver
        rw [hphase] at hserver
        obtain ⟨-, -, b', -, hwait⟩ := hserver
        exact hquiet _ _ hwait
      · obtain ⟨b', left, -, hwait, -⟩ := h.awaits (.inr hgone)
        exact hquiet _ _ hwait

theorem Connection.going_start {request : Bytes} (hne : request ≠ [])
    (hlen : request.length < 2 ^ 64) (errno : Errno) :
    (Connection.start request errno).Going host malloc := by
  refine ⟨inv_start hlen errno, hne, fun b hb => ?_, rfl, Client.noConfusion,
    fun hgone => nomatch hgone⟩
  have hcalls := hb.calls
  simp [Connection.start] at hcalls

theorem Event.Turn.smooth (h : e.Turn b) (hne : b ≠ []) (hm : b.length ≤ m)
    (hroom : (malloc b.length).isSome) : e.Smooth malloc m ∧ e.transfers = true := by
  cases e with
  | call q reply => exact ⟨⟨b, h, hne, hm, hroom⟩, rfl⟩
  | refused => exact h.elim
  | clientInterrupted => exact h.elim
  | clientFails code => exact h.elim
  | serverFails => exact h.elim
  | connect => exact ⟨trivial, rfl⟩
  | clientWrite n => exact ⟨trivial, rfl⟩
  | clientRead n => exact ⟨trivial, rfl⟩
  | clientEof => exact ⟨trivial, rfl⟩
  | serverRead n => exact ⟨trivial, rfl⟩
  | serverWrite n => exact ⟨trivial, rfl⟩

/-- Where nothing fails a call makes a bounded number of transfers, interrupts aside, and
does not stop before the client has the reply that the callback gave on its message. -/
theorem call_completes (host : Order) (malloc : Malloc) (cap m : ℕ) (request : Bytes)
    (errno : Errno) (hcap : 0 < cap) (hne : request ≠ []) (hlen : request.length < 2 ^ 64)
    {l : List Event} (h : Run (SmoothStep host malloc cap m) (.start request errno) l c) :
    l.countP Event.transfers ≤ 2 * (request.length + m) + 37 ∧
      ∀ b, b ≠ [] → b.length ≤ m → b.length < 2 ^ 64 → (malloc b.length).isSome →
        (∃ b', c.client = .returned (some b') ∧ c.calls = [(request, some b')]) ∨
          ∃ e c', SmoothStep host malloc cap m c e c' ∧ e.transfers = true ∧ e.Turn b := by
  have hstart : (Connection.start request errno).todo host m = 2 * (request.length + m) + 37 := by
    unfold Connection.todo
    simp only [Connection.start, Client.rank, Client.unsent, Server.ahead, length_encodeResponse,
      List.length_nil]
    omega
  obtain ⟨⟨hgoing, hrequest⟩, hcount⟩ := h.countP_add_le (p := Event.transfers)
    (μ := Connection.todo host m)
    (I := fun c => c.Going host malloc ∧ c.request = request)
    (fun s e s' hs hstep => ⟨⟨hs.1.step hstep.1 hstep.2,
      (Connection.step_request hstep.2).trans hs.2⟩, Connection.todo_step hs.1 hstep.1 hstep.2⟩)
    ⟨Connection.going_start hne hlen errno, rfl⟩
  refine ⟨by omega, fun b hb hm hsize hroom => ?_⟩
  by_cases hc : ∃ b', c.client = .returned (some b')
  · obtain ⟨b', hc⟩ := hc
    refine .inl ⟨b', hc, ?_⟩
    rw [← hrequest]
    refine (hgoing.inv.returned hc).resolve_right ?_
    rw [hgoing.cut]
    exact Bool.false_ne_true
  · obtain ⟨e, c', hstep, hturn⟩ := hgoing.canMove hcap hsize (not_exists.mp hc)
    obtain ⟨hsmooth, htransfers⟩ := hturn.smooth hb hm hroom
    exact .inr ⟨e, c', ⟨hsmooth, hstep⟩, htransfers, hturn⟩

end Completion

end EchoFs.Api.Session
