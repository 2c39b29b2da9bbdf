import EchoFs.Api.SessionRuns
import EchoFs.Library.Service

/-! All clients of a daemon at once. Each has a connection of its own; the one thread of the
listener runs the callback for the sessions, one call at a time, while other threads of the
daemon work on the same state. -/

namespace EchoFs.Api.Calls
open ByteOrder Transition Session
variable {ι σ : Type}

/-- The connections, the state behind the callback and, as history, the calls of it. -/
structure System (ι σ : Type) where
  conns : ι → Connection
  daemon : σ
  log : List (ι × Bytes × Option Bytes)

/-- A turn of one connection, or a step of the daemon's other threads. -/
abbrev Label (ι : Type) := Option (ι × Event)

inductive Step [DecidableEq ι] (S : Service σ Bytes (Option Bytes)) (host : Order)
    (malloc : Malloc) (cap : ℕ) : System ι σ → Label ι → System ι σ → Prop
  | transfer {s : System ι σ} {i : ι} {e : Event} {c : Connection}
      (h : Session.Step host malloc cap (s.conns i) e c) (he : ∀ q r, e ≠ .call q r) :
      Step S host malloc cap s (some (i, e)) { s with conns := Function.update s.conns i c }
  | call {s : System ι σ} {i : ι} {q : Bytes} {r : Option Bytes} {c : Connection} {d : σ}
      (h : Session.Step host malloc cap (s.conns i) (.call q r) c) (hcall : S.call s.daemon q r d) :
      Step S host malloc cap s (some (i, .call q r))
        ⟨Function.update s.conns i c, d, s.log ++ [(i, q, r)]⟩
  | work {s : System ι σ} {d : σ} (h : S.work s.daemon d) :
      Step S host malloc cap s none { s with daemon := d }

/-- No client has started. -/
def Started (d₀ : σ) (s : System ι σ) : Prop :=
  (∀ i, Session.Started (s.conns i)) ∧ s.daemon = d₀ ∧ s.log = []

def Reachable [DecidableEq ι] (S : Service σ Bytes (Option Bytes)) (host : Order)
    (malloc : Malloc) (cap : ℕ) (d₀ : σ) : System ι σ → Prop :=
  Reach (Started d₀) (Step S host malloc cap)

section Alone
variable [DecidableEq ι] {S : Service σ Bytes (Option Bytes)} {host : Order} {malloc : Malloc}
  {cap : ℕ} {s : System ι σ} {i : ι} {b : Bytes}

/-! ### A client on its own -/

theorem run_transfers {c : Connection} {t : List Event} (h : Run (Session.Step host malloc cap)
      (s.conns i) t c) (ht : ∀ e ∈ t, ∀ q r, e ≠ .call q r) :
    Run (Step S host malloc cap) s (t.map fun e => some (i, e))
      { s with conns := Function.update s.conns i c } := by
  induction h with
  | nil =>
    rw [Function.update_eq_self]
    exact .nil
  | @snoc t c c' e _ hstep ih =>
    have hrun := ih fun e he => ht e (List.mem_append_left _ he)
    have hconn : Session.Step host malloc cap
        (Function.update s.conns i c i) e c' := by rwa [Function.update_self]
    have hnext : Step S host malloc cap { s with conns := Function.update s.conns i c }
        (some (i, e)) _ :=
      .transfer hconn (ht e (List.mem_append_right _ (List.mem_singleton_self e)))
    rw [Function.update_idem] at hnext
    rw [List.map_append]
    exact hrun.snoc hnext

/-- One call, with nothing in between. -/
theorem run_call {c₁ c₂ : Connection} {t t' : List Event} {q : Bytes} {r : Option Bytes} {d : σ}
    (h : Run (Session.Step host malloc cap) (s.conns i) t c₁) (ht : ∀ e ∈ t, ∀ q r, e ≠ .call q r)
    (hstep : Session.Step host malloc cap c₁ (.call q r) c₂) (hcall : S.call s.daemon q r d)
    {c₃ : Connection} (h' : Run (Session.Step host malloc cap) c₂ t' c₃)
    (ht' : ∀ e ∈ t', ∀ q r, e ≠ .call q r) :
    ∃ l, Run (Step S host malloc cap) s l
      ⟨Function.update s.conns i c₃, d, s.log ++ [(i, q, r)]⟩ := by
  have hbefore := run_transfers (S := S) h ht
  have hconn : Session.Step host malloc cap (Function.update s.conns i c₁ i) (.call q r) c₂ := by
    rwa [Function.update_self]
  have hturn := hbefore.snoc (.call hconn hcall)
  rw [Function.update_idem] at hturn
  have hconn' : Run (Session.Step host malloc cap) (Function.update s.conns i c₂ i) t' c₃ := by
    rwa [Function.update_self]
  have hafter : Run (Step S host malloc cap)
      ⟨Function.update s.conns i c₂, d, s.log ++ [(i, q, r)]⟩ _ _ := run_transfers hconn' ht'
  rw [Function.update_idem] at hafter
  exact ⟨_, hturn.trans hafter⟩

/-- The turns of a call that makes each transfer at once. -/
def asking (q : Bytes) : List Event :=
  [.connect, .clientWrite 8, .clientWrite q.length, .serverRead 8, .serverRead q.length]

def answering (b : Bytes) : List Event :=
  [.serverWrite (8 + b.length), .clientRead 8, .clientRead b.length]

def exchange (q b : Bytes) : List Event := asking q ++ .call q (some b) :: answering b

/-- The connection after them. -/
def exchanged (host : Order) (errno : Errno) (q b : Bytes) : Connection where
  request := q
  client := .returned (some b)
  errno := errno
  toServer := []
  server := .gone
  toClient := []
  calls := [(q, some b)]
  cut := false
  reads := [store host (htonll host b.length), b].map fun bytes =>
    .data (bytes.headD 0) (bytes.drop 1)
  began := errno
  eof := false

/-- Every transfer of a call can be made at once where there is room for both messages. -/
theorem turns_exchange {q b : Bytes} (hq : q ≠ []) (hqlen : q.length < 2 ^ 64)
    (hqcap : 8 + q.length ≤ cap) (hb : b ≠ []) (hblen : b.length < 2 ^ 64)
    (hbcap : 8 + b.length ≤ cap) (hmalloc : (malloc b.length).isSome) (errno : Errno) :
    (Connection.start q errno).turns host malloc cap (exchange q b) =
      some (exchanged host errno q b) := by
  obtain ⟨⟨block, hlen⟩, hblock⟩ := Option.isSome_iff_exists.mp hmalloc
  have hheader : Server.afterHeader host (store host (htonll host q.length)) =
      .readBody q.length [] := by
    rw [afterHeader_frame hqlen (length_store _ _) rfl, if_neg hq]
  have hprefix : Client.afterPrefix host malloc (store host (htonll host b.length)) =
      .recvBody b.length block [] := by
    have hsize := (frame_split hblen (length_store _ _) (rfl : _ ++ b = encodeResponse host b)).1
    have hwhole : prefixBytes (store host (htonll host b.length)) =
        store host (htonll host b.length) := by
      rw [prefixBytes, length_store, Nat.sub_self, List.replicate_zero, List.append_nil]
    unfold Client.afterPrefix
    rw [hwhole, hsize]
    dsimp only
    rw [hblock]
    exact if_neg fun hzero => hb (List.length_eq_zero_iff.mp hzero)
  have hq8 : (store host (htonll host q.length)).length = 8 := length_store _ _
  have hb8 : (store host (htonll host b.length)).length = 8 := length_store _ _
  obtain ⟨first, more, hs⟩ :=
    List.exists_cons_of_length_pos (Nat.lt_of_lt_of_eq (Nat.zero_lt_succ 7) hb8.symm)
  obtain ⟨head, tail, hcons⟩ := List.exists_cons_of_ne_nil hb
  have hqpos := List.length_pos_iff.mpr hq
  have hcap8 : 8 ≤ cap := Nat.le_trans (Nat.le_add_right 8 _) hqcap
  have hmore8 : (first :: more).length = 8 := hs ▸ hb8
  have hmore : more.length = 7 := Nat.succ.inj hmore8
  rw [hs] at hprefix
  have hread : (first :: (more ++ b)).take 8 = first :: more := by
    rw [← hmore8, ← List.cons_append, List.take_left]
  have hrest : (first :: (more ++ b)).drop 8 = b := by
    rw [← hmore8, ← List.cons_append, List.drop_left]
  have hsize : 7 + b.length + 1 = 8 + b.length := by omega
  generalize hw : store host (htonll host q.length) = w at *
  norm_num only at hblen
  simp [exchange, asking, answering, Connection.turns, Connection.turn, Connection.start,
    Client.sending, Client.wrote, Client.wants, Client.received, Server.wants, Server.received,
    Server.sending, Server.wrote, Server.answered, Connection.clientWrite, Connection.serverRead,
    Connection.serverWrite, Connection.clientRead, Connection.sees, encodeResponse, exchanged,
    List.take_of_length_le, hw, hs, hq, hq8, hheader, hblen, hqcap, hqpos, hcap8,
    hbcap, hprefix, hread, hrest, hsize, hmore]
  have hnone : block.drop b.length = [] := by rw [← hlen, List.drop_length]
  subst hcons
  simp only [List.length_cons] at hnone
  simp [Client.afterBody, hnone]

theorem run_exchange {q b : Bytes} {errno : Errno} {d : σ} (h : s.conns i = .start q errno)
    (hq : q ≠ [] ∧ q.length < 2 ^ 64 ∧ 8 + q.length ≤ cap)
    (hb : b ≠ [] ∧ b.length < 2 ^ 64 ∧ 8 + b.length ≤ cap) (hmalloc : (malloc b.length).isSome)
    (hcall : S.call s.daemon q (some b) d) :
    ∃ l, Run (Step S host malloc cap) s l
      ⟨Function.update s.conns i (exchanged host errno q b), d, s.log ++ [(i, q, some b)]⟩ := by
  have hturns : (s.conns i).turns host malloc cap (exchange q b) =
      some (exchanged host errno q b) := by
    rw [h]
    exact turns_exchange hq.1 hq.2.1 hq.2.2 hb.1 hb.2.1 hb.2.2 hmalloc errno
  unfold exchange Connection.turns at hturns
  rw [List.foldlM_append] at hturns
  obtain ⟨c₁, hasking, hturns⟩ := Option.bind_eq_some_iff.mp hturns
  rw [List.foldlM_cons] at hturns
  obtain ⟨c₂, hturn, hanswering⟩ := Option.bind_eq_some_iff.mp hturns
  exact run_call (run_of_turns _ hasking) (by simp [asking]) (step_of_turn hturn) hcall
    (run_of_turns _ hanswering) (by simp [answering])

/-- A service that numbers its replies. -/
def numbering : Service ℕ Bytes (Option Bytes) where
  call n _ r n' := r = some [8, .ofNat n] ∧ n' = n + 1
  work _ _ := False

def twoClients : System Bool ℕ := ⟨fun _ => .start [8, 3] (.other 0), 0, []⟩

/-- The first client has its reply. -/
def oneServed : System Bool ℕ :=
  ⟨Function.update twoClients.conns false (exchanged .little (.other 0) [8, 3] [8, 0]), 1,
    [(false, [8, 3], some [8, 0])]⟩

def bothServed : System Bool ℕ :=
  ⟨Function.update oneServed.conns true (exchanged .little (.other 0) [8, 3] [8, 1]), 2,
    [(false, [8, 3], some [8, 0]), (true, [8, 3], some [8, 1])]⟩

theorem run_oneServed : ∃ l, Run (Step numbering .little sampleMalloc 10) twoClients l oneServed :=
  run_exchange (s := twoClients) (d := 1) rfl (by decide) (by decide) rfl ⟨rfl, rfl⟩

theorem run_bothServed : ∃ l, Run (Step numbering .little sampleMalloc 10) oneServed l bothServed :=
  run_exchange (s := oneServed) (d := 2) rfl (by decide) (by decide) rfl ⟨rfl, rfl⟩

theorem oneServed_reachable : Reachable numbering .little sampleMalloc 10 0 oneServed :=
  run_oneServed.choose_spec.reach ⟨fun _ => ⟨[8, 3], .other 0, by decide, rfl⟩, rfl, rfl⟩

end Alone

section Session
variable {host : Order} {malloc : Malloc} {cap : ℕ} {c c' : Connection} {e : Event}

theorem step_calls (h : Session.Step host malloc cap c e c') (he : ∀ q r, e ≠ .call q r) :
    c'.calls = c.calls := by
  cases h with
  | call => exact absurd rfl (he _ _)
  | _ => rfl

/-- No step leads back to an idle client. -/
theorem idle_of_step (h : Session.Step host malloc cap c e c') (hc : c'.client = .idle) :
    c.client = .idle := by
  cases h with
  | connect hidle hne => exact hidle
  | refused hidle => exact hidle
  | @clientWrite n hn hle hcap =>
    have hrank := c.client.rank_wrote c.request n
    dsimp only [Connection.clientWrite] at hc
    rw [hc] at hrank
    obtain ⟨left, hcl | hcl⟩ := Client.of_sending (hn.trans_le hle)
    · rw [hcl] at hrank
      exact absurd hrank (by simp [Client.rank])
    · rw [hcl] at hrank
      exact absurd hrank (by simp [Client.rank])
  | @clientRead first more rest hle hin =>
    have hrank := c.client.rank_received host malloc (first :: more)
    dsimp only [Connection.clientRead] at hc
    rw [hc] at hrank
    obtain ⟨got, hcl⟩ | ⟨size, block, got, hcl⟩ :=
      Client.of_wants ((Nat.zero_lt_succ _).trans_le hle)
    · rw [hcl] at hrank
      exact absurd hrank (by simp [Client.rank])
    · rw [hcl] at hrank
      exact absurd hrank (by simp [Client.rank])
  | clientEof hwants hin hgone herr =>
    dsimp only at hc
    obtain ⟨got, hcl⟩ | ⟨size, block, got, hcl⟩ := Client.of_wants hwants
    · rw [hcl] at hc
      have hrank : (Client.afterPrefix host malloc got).rank ≤ 1 := Client.rank_afterPrefix
      rw [show Client.afterPrefix host malloc got = .idle from hc] at hrank
      exact absurd hrank (by simp [Client.rank])
    · rw [hcl] at hc
      cases hc
  | clientInterrupted => exact hc
  | clientFails => cases hc
  | serverRead => exact hc
  | call => exact hc
  | serverWrite => exact hc
  | serverFails => exact hc

/-- The callback is not called for a client that has not started. -/
theorem calls_of_idle (h : Session.Reachable host malloc cap c) (hc : c.client = .idle) :
    c.calls = [] := by
  suffices hall : c.Inv host ∧ (c.client = .idle → c.calls = []) from hall.2 hc
  refine Reach.invariant (I := fun c => c.Inv host ∧ (c.client = .idle → c.calls = [])) ?_ ?_ h
  · rintro s ⟨q, errno, hlen, rfl⟩
    exact ⟨Connection.inv_start hlen errno, fun _ => rfl⟩
  · rintro s e s' ⟨hinv, hidle⟩ hstep
    refine ⟨hinv.step hstep, fun hc => ?_⟩
    have hbefore := idle_of_step hstep hc
    by_cases he : ∃ q r, e = .call q r
    · obtain ⟨q, r, rfl⟩ := he
      cases hstep with
      | call hs hlen =>
        obtain ⟨-, -, -, -, -, hsent⟩ := hinv.at_call hs
        rw [hbefore] at hsent
        have h8 := congrArg List.length hsent
        simp only [Client.unsent, length_encodeResponse, List.length_nil] at h8
        omega
    · rw [step_calls hstep fun q r heq => he ⟨q, r, heq⟩]
      exact hidle hbefore

end Session

section Agreement
variable [DecidableEq ι] {S : Service σ Bytes (Option Bytes)} {host : Order} {malloc : Malloc}
  {cap : ℕ} {d₀ : σ} {s s' : System ι σ} {i j : ι} {b b' : Bytes} {o : Label ι} {l : List (Label ι)}

/-- What the log says about one client. -/
def System.callsOf (s : System ι σ) (i : ι) : List (Bytes × Option Bytes) :=
  (s.log.filter fun x => x.1 = i).map Prod.snd

structure System.Inv (S : Service σ Bytes (Option Bytes)) (host : Order) (malloc : Malloc) (cap : ℕ)
    (d₀ : σ) (s : System ι σ) : Prop where
  conns : ∀ i, Session.Reachable host malloc cap (s.conns i)
  log : ∀ i, s.callsOf i = (s.conns i).calls
  served : S.Serves d₀ s.log s.daemon

theorem System.Inv.step (h : s.Inv S host malloc cap d₀) (hstep : Step S host malloc cap s o s') :
    s'.Inv S host malloc cap d₀ := by
  cases hstep with
  | @transfer i e c hc he =>
    refine ⟨fun j => ?_, fun j => ?_, h.served⟩
    · by_cases hj : j = i
      · subst hj
        dsimp only
        rw [Function.update_self]
        exact .next (h.conns j) hc
      · dsimp only
        rw [Function.update_of_ne hj]
        exact h.conns j
    · by_cases hj : j = i
      · subst hj
        dsimp only
        rw [Function.update_self, step_calls hc he]
        exact h.log j
      · dsimp only
        rw [Function.update_of_ne hj]
        exact h.log j
  | @call i q r c d hc hcall =>
    refine ⟨fun j => ?_, fun j => ?_, h.served.call hcall⟩
    · by_cases hj : j = i
      · subst hj
        dsimp only
        rw [Function.update_self]
        exact .next (h.conns j) hc
      · dsimp only
        rw [Function.update_of_ne hj]
        exact h.conns j
    · have hlog := h.log j
      unfold System.callsOf at hlog ⊢
      dsimp only
      rw [List.filter_append, List.map_append, hlog]
      by_cases hj : j = i
      · subst hj
        rw [Function.update_self, List.filter_cons_of_pos (by simp)]
        cases hc
        rfl
      · rw [Function.update_of_ne hj, List.filter_cons_of_neg (by simpa using Ne.symm hj)]
        exact List.append_nil _
  | work hwork => exact ⟨h.conns, h.log, h.served.work hwork⟩

theorem inv_of_reachable (h : Reachable S host malloc cap d₀ s) : s.Inv S host malloc cap d₀ := by
  refine h.invariant ?_ fun s o s' hs hstep => hs.step hstep
  rintro ⟨conns, daemon, log⟩ ⟨hconns, rfl, rfl⟩
  refine ⟨fun i => .start (hconns i), fun i => ?_, .nil⟩
  obtain ⟨q, errno, -, hstart⟩ := hconns i
  dsimp only at hstart ⊢
  rw [hstart]
  rfl

/-- The only entry of a client that has its reply. -/
theorem System.Inv.entry (h : s.Inv S host malloc cap d₀)
    (hc : (s.conns i).client = .returned (some b)) (hcut : (s.conns i).cut = false) :
    ∃ before after, s.log = before ++ (i, (s.conns i).request, some b) :: after ∧
      (∀ x ∈ before, x.1 ≠ i) ∧ ∀ x ∈ after, x.1 ≠ i := by
  have hcalls := ((Connection.inv_of_reachable (h.conns i)).returned hc).resolve_right
    (by rw [hcut]; exact Bool.false_ne_true)
  have hlog := h.log i
  unfold System.callsOf at hlog
  rw [hcalls] at hlog
  obtain ⟨x, hfilter, hx⟩ := List.map_eq_singleton_iff.mp hlog
  obtain ⟨before, after, heq, hbefore, hi, hafter⟩ := List.filter_eq_cons_iff.mp hfilter
  obtain rfl : x = (i, (s.conns i).request, some b) := Prod.ext (by simpa using hi) hx
  exact ⟨before, after, heq, fun x hx => by simpa using hbefore x hx, fun x hx =>
    by simpa using List.filter_eq_nil_iff.mp hafter x hx⟩

/-- The turn of a client that has its reply. -/
theorem System.Inv.agree (h : s.Inv S host malloc cap d₀)
    (hc : (s.conns i).client = .returned (some b)) (hcut : (s.conns i).cut = false) :
    ∃ before after d d', s.log = before ++ (i, (s.conns i).request, some b) :: after ∧
      (∀ x ∈ before ++ after, x.1 ≠ i) ∧ S.Serves d₀ before d ∧
      S.call d (s.conns i).request (some b) d' ∧ S.Serves d' after s.daemon := by
  obtain ⟨before, after, hlog, hbefore, hafter⟩ := h.entry hc hcut
  have hserved := h.served
  rw [hlog] at hserved
  obtain ⟨d, d', hd, hcall, hd'⟩ := hserved.turn
  refine ⟨before, after, d, d', hlog, fun x hx => ?_, hd, hcall, hd'⟩
  exact (List.mem_append.mp hx).elim (hbefore x) (hafter x)

/-- The clients see one daemon: whatever the order of the turns, a client that has its reply
has the one that the callback gave, once, on the client's own message, in the state that the
calls before it and the daemon's own steps led to, and later calls went on from there. -/
theorem calls_agree (h : Reachable S host malloc cap d₀ s)
    (hc : (s.conns i).client = .returned (some b)) (hcut : (s.conns i).cut = false) :
    ∃ before after d d', s.log = before ++ (i, (s.conns i).request, some b) :: after ∧
      (∀ x ∈ before ++ after, x.1 ≠ i) ∧ S.Serves d₀ before d ∧
      S.call d (s.conns i).request (some b) d' ∧ S.Serves d' after s.daemon :=
  (inv_of_reachable h).agree hc hcut

theorem calls_agree_numbering : ∃ before after d d',
    oneServed.log = before ++ (false, [8, 3], some [8, 0]) :: after ∧
      (∀ x ∈ before ++ after, x.1 ≠ false) ∧ numbering.Serves 0 before d ∧
      numbering.call d [8, 3] (some [8, 0]) d' ∧ numbering.Serves d' after oneServed.daemon :=
  calls_agree oneServed_reachable (i := false) rfl rfl

/-- Two entries of a log, the first one before the second. -/
def InOrder (log : List (ι × Bytes × Option Bytes)) (x y : ι × Bytes × Option Bytes) : Prop :=
  ∃ first between last, log = first ++ x :: (between ++ y :: last)

/-- Of two clients that have their replies one came first. -/
theorem System.Inv.two (h : s.Inv S host malloc cap d₀) (hij : i ≠ j)
    (hi : (s.conns i).client = .returned (some b)) (hcuti : (s.conns i).cut = false)
    (hj : (s.conns j).client = .returned (some b')) (hcutj : (s.conns j).cut = false) :
    InOrder s.log (i, (s.conns i).request, some b) (j, (s.conns j).request, some b') ∨
      InOrder s.log (j, (s.conns j).request, some b') (i, (s.conns i).request, some b) := by
  obtain ⟨before, after, hlog, -, -⟩ := h.entry hi hcuti
  obtain ⟨before', after', hlog', -, -⟩ := h.entry hj hcutj
  have hmem : (j, (s.conns j).request, some b') ∈
      before ++ (i, (s.conns i).request, some b) :: after := by
    rw [← hlog, hlog']
    exact List.mem_append_right _ List.mem_cons_self
  rcases List.mem_append.mp hmem with hmem | hmem
  · obtain ⟨first, between, rfl⟩ := List.append_of_mem hmem
    exact .inr ⟨first, between, after, by rw [hlog, List.append_assoc]; rfl⟩
  · rcases List.mem_cons.mp hmem with heq | hmem
    · exact absurd (congrArg Prod.fst heq).symm hij
    · obtain ⟨between, last, rfl⟩ := List.append_of_mem hmem
      exact .inl ⟨before, between, last, hlog⟩

/-- The states of the daemon at two turns. -/
theorem System.Inv.turns (h : s.Inv S host malloc cap d₀) {q q' : Bytes} {r r' : Option Bytes}
    (horder : InOrder s.log (i, q, r) (j, q', r')) :
    ∃ (l₁ l₂ l₃ : List (ι × Bytes × Option Bytes)) (d₁ d₂ d₃ d₄ : σ), S.Serves d₀ l₁ d₁ ∧
      S.call d₁ q r d₂ ∧ S.Serves d₂ l₂ d₃ ∧ S.call d₃ q' r' d₄ ∧ S.Serves d₄ l₃ s.daemon := by
  obtain ⟨first, between, last, hlog⟩ := horder
  have hserved := h.served
  rw [hlog] at hserved
  obtain ⟨d₁, d₂, hfirst, hcall, hrest⟩ := hserved.turn
  obtain ⟨d₃, d₄, hbetween, hcall', hlast⟩ := hrest.turn
  exact ⟨first, between, last, d₁, d₂, d₃, d₄, hfirst, hcall, hbetween, hcall', hlast⟩

/-- The log only grows. -/
theorem log_of_run (h : Run (Step S host malloc cap) s l s') :
    ∃ later, s'.log = s.log ++ later := by
  refine h.invariant (I := fun _ s' => ∃ later, s'.log = s.log ++ later)
    ⟨[], (List.append_nil _).symm⟩ ?_
  rintro - s₁ o s₂ ⟨later, hlater⟩ hstep
  cases hstep with
  | transfer => exact ⟨later, hlater⟩
  | call => exact ⟨later ++ [_], by rw [← List.append_assoc, ← hlater]⟩
  | work => exact ⟨later, hlater⟩

theorem System.Inv.of_run (h : s.Inv S host malloc cap d₀)
    (hrun : Run (Step S host malloc cap) s l s') : s'.Inv S host malloc cap d₀ :=
  hrun.invariant (I := fun _ s' => s'.Inv S host malloc cap d₀) h fun _ _ _ _ hs hstep =>
    hs.step hstep

/-- A call that starts after another has returned comes after it. -/
theorem System.Inv.in_order (h : s.Inv S host malloc cap d₀)
    (hc : (s.conns i).client = .returned (some b)) (hcut : (s.conns i).cut = false)
    (hj : (s.conns j).client = .idle) (hrun : Run (Step S host malloc cap) s l s')
    (hc' : (s'.conns j).client = .returned (some b')) (hcut' : (s'.conns j).cut = false) :
    InOrder s'.log (i, (s.conns i).request, some b) (j, (s'.conns j).request, some b') := by
  obtain ⟨first, after, hlog, -, -⟩ := h.entry hc hcut
  obtain ⟨before, last, hlog', -, -⟩ := (h.of_run hrun).entry hc' hcut'
  obtain ⟨later, hlater⟩ := log_of_run hrun
  -- nothing of `j` is in the log yet
  have hnone : ∀ x ∈ s.log, x.1 ≠ j := by
    have hlogj := h.log j
    unfold System.callsOf at hlogj
    rw [calls_of_idle (h.conns j) hj] at hlogj
    intro x hx
    have hfilter := List.filter_eq_nil_iff.mp (List.map_eq_nil_iff.mp hlogj) x hx
    simpa using hfilter
  rcases List.append_eq_append_iff.mp (hlater.symm.trans hlog') with
    ⟨more, hbefore, -⟩ | ⟨more, hlog₁, hmore⟩
  · refine ⟨first, after ++ more, last, ?_⟩
    rw [hlog', hbefore, hlog]
    simp only [List.append_assoc, List.cons_append]
  · cases more with
    | nil =>
      rw [List.append_nil] at hlog₁
      refine ⟨first, after, last, ?_⟩
      rw [hlog', ← hlog₁, hlog]
      simp only [List.append_assoc, List.cons_append]
    | cons x more =>
      obtain ⟨hx, -⟩ := List.cons.inj hmore
      have hmem : x ∈ s.log := by
        rw [hlog₁]
        exact List.mem_append_right _ List.mem_cons_self
      exact absurd (congrArg Prod.fst hx).symm (hnone x hmem)

/-- The order of the calls is that of real time. -/
theorem calls_in_order (h : Reachable S host malloc cap d₀ s)
    (hc : (s.conns i).client = .returned (some b)) (hcut : (s.conns i).cut = false)
    (hj : (s.conns j).client = .idle) (hrun : Run (Step S host malloc cap) s l s')
    (hc' : (s'.conns j).client = .returned (some b')) (hcut' : (s'.conns j).cut = false) :
    InOrder s'.log (i, (s.conns i).request, some b) (j, (s'.conns j).request, some b') :=
  (inv_of_reachable h).in_order hc hcut hj hrun hc' hcut'

theorem calls_in_order_numbering :
    InOrder bothServed.log (false, [8, 3], some [8, 0]) (true, [8, 3], some [8, 1]) :=
  calls_in_order oneServed_reachable (i := false) (j := true) rfl rfl rfl
    run_bothServed.choose_spec rfl rfl

/-! ### Every call completes -/

/-- The turns of one client in a run. -/
def turnsOf (i : ι) (l : List (Label ι)) : List Event :=
  l.filterMap fun o => o.bind fun x => if x.1 = i then some x.2 else none

/-- The turns of all connections are without failures. -/
def Smooth (malloc : Malloc) (m : ℕ) (_ : System ι σ) (o : Label ι) : Prop :=
  ∀ i e, o = some (i, e) → e.Smooth malloc m

theorem turnsOf_append (i : ι) (l : List (Label ι)) (o : Label ι) :
    turnsOf i (l ++ [o]) =
      turnsOf i l ++ (o.bind fun x => if x.1 = i then some x.2 else none).toList := by
  unfold turnsOf
  rw [List.filterMap_append]
  rfl

theorem step_conn {e : Event} (hstep : Step S host malloc cap s o s') (i : ι) :
    (o = some (i, e) → Session.Step host malloc cap (s.conns i) e (s'.conns i)) ∧
      ((∀ e, o ≠ some (i, e)) → s'.conns i = s.conns i) := by
  cases hstep with
  | @transfer j e' c hc he =>
    refine ⟨fun ho => ?_, fun ho => ?_⟩
    · obtain ⟨rfl, rfl⟩ := Prod.mk.inj (Option.some.inj ho)
      dsimp only
      rwa [Function.update_self]
    · dsimp only
      rw [Function.update_of_ne]
      rintro rfl
      exact ho e' rfl
  | @call j q r c d hc hcall =>
    refine ⟨fun ho => ?_, fun ho => ?_⟩
    · obtain ⟨rfl, rfl⟩ := Prod.mk.inj (Option.some.inj ho)
      dsimp only
      rwa [Function.update_self]
    · dsimp only
      rw [Function.update_of_ne]
      rintro rfl
      exact ho _ rfl
  | work => exact ⟨fun ho => by (cases ho), fun _ => rfl⟩

/-- What one connection sees of a run. -/
theorem run_conn {m : ℕ} (h : Run (Guarded (Step S host malloc cap) (Smooth malloc m)) s l s')
    (i : ι) : Run (SmoothStep host malloc cap m) (s.conns i) (turnsOf i l) (s'.conns i) := by
  refine h.invariant (I := fun l s' =>
    Run (SmoothStep host malloc cap m) (s.conns i) (turnsOf i l) (s'.conns i)) .nil ?_
  rintro l s₁ o s₂ hrun ⟨hsmooth, hstep⟩
  rw [turnsOf_append]
  by_cases ho : ∃ e, o = some (i, e)
  · obtain ⟨e, rfl⟩ := ho
    have hturn : ((some (i, e) : Label ι).bind fun x => if x.1 = i then some x.2 else none) =
        some e := if_pos rfl
    rw [hturn]
    exact hrun.snoc ⟨hsmooth i e rfl, (step_conn hstep i).1 rfl⟩
  · have hnone : (o.bind fun x => if x.1 = i then some x.2 else none) = none := by
      cases o with
      | none => rfl
      | some x => exact if_neg fun hx => ho ⟨x.2, congrArg some (Prod.ext hx rfl)⟩
    have hsame : s₂.conns i = s₁.conns i :=
      (step_conn (e := .connect) hstep i).2 fun e heq => ho ⟨e, heq⟩
    rw [hnone, hsame]
    simpa using hrun

/-- A reply that fits: it is not empty, has at most `m` bytes, and the client can store it. -/
def Fits (malloc : Malloc) (m : ℕ) (b : Bytes) : Prop :=
  b ≠ [] ∧ b.length ≤ m ∧ b.length < 2 ^ 64 ∧ (malloc b.length).isSome

/-- No client waits for ever, whatever the others do and however small the sockets' buffers
are: of its own transfers there is a bounded number, and until it has its reply one of them can
be made. -/
theorem calls_complete (S : Service σ Bytes (Option Bytes)) (host : Order) (malloc : Malloc)
    (cap m : ℕ) (hcap : 0 < cap) (hreply : ∀ d q, ∃ b d', S.call d q (some b) d' ∧ Fits malloc m b)
    (requests : ι → Bytes) (hrequests : ∀ i, requests i ≠ [] ∧ (requests i).length < 2 ^ 64)
    (errno : ι → Errno) (d₀ : σ)
    (h : Run (Guarded (Step S host malloc cap) (Smooth malloc m))
      ⟨fun i => .start (requests i) (errno i), d₀, []⟩ l s) (i : ι) :
    (turnsOf i l).countP Event.transfers ≤ 2 * ((requests i).length + m) + 37 ∧
      ((∃ b, (s.conns i).client = .returned (some b) ∧
          (s.conns i).calls = [(requests i, some b)]) ∨
        ∃ e s', Guarded (Step S host malloc cap) (Smooth malloc m) s (some (i, e)) s' ∧
          e.transfers = true) := by
  obtain ⟨hne, hlen⟩ := hrequests i
  obtain ⟨hcount, hmoves⟩ := call_completes host malloc cap m _ _ hcap hne hlen (run_conn h i)
  refine ⟨hcount, ?_⟩
  -- the reply the callback would give now
  obtain ⟨b, d', hcall, hb, hm, hsize, hroom⟩ := hreply s.daemon (s.conns i).request
  refine (hmoves b hb hm hsize hroom).imp_right ?_
  rintro ⟨e, c, ⟨hsmooth, hstep⟩, htransfers, hturn⟩
  have hguard : Smooth (σ := σ) malloc m s (some (i, e)) := by
    intro j e' heq
    obtain ⟨-, rfl⟩ := Prod.mk.inj (Option.some.inj heq)
    exact hsmooth
  by_cases he : ∃ q r, e = .call q r
  · obtain ⟨q, r, rfl⟩ := he
    obtain rfl : r = some b := hturn
    have hq : q = (s.conns i).request := by
      cases hstep with
      | call hs _ =>
        have hinv := (run_conn h i).invariant (I := fun _ c => c.Inv host)
          (Connection.inv_start hlen (errno i)) fun _ _ _ _ hc hst => hc.step hst.2
        exact (hinv.at_call hs).1
    subst hq
    exact ⟨_, _, ⟨hguard, .call hstep hcall⟩, htransfers⟩
  · exact ⟨_, _, ⟨hguard, .transfer hstep fun q r heq => he ⟨q, r, heq⟩⟩, htransfers⟩

theorem numbering_replies (n : ℕ) (q : Bytes) :
    ∃ b n', numbering.call n q (some b) n' ∧ Fits sampleMalloc 2 b :=
  ⟨[8, .ofNat n], n + 1, ⟨rfl, rfl⟩, List.cons_ne_nil _ _, Nat.le_refl 2,
    Nat.lt_of_lt_of_le (Nat.lt_succ_self 2) (by decide), rfl⟩

/-- Both clients have connected. -/
def connected : Connection :=
  { Connection.start [8, 3] (.other 0) with
    client := .sendPrefix (store .little (htonll .little 2)) }

def bothConnected : System Bool ℕ :=
  { twoClients with
    conns := Function.update (Function.update twoClients.conns false connected) true connected }

theorem run_bothConnected :
    Run (Guarded (Step numbering .little sampleMalloc 1) (Smooth sampleMalloc 2)) twoClients
      [some (false, .connect), some (true, .connect)] bothConnected := by
  have hconnect :
      Session.Step .little sampleMalloc 1 (.start [8, 3] (.other 0)) .connect connected :=
    .connect rfl (by decide)
  have hsmooth : ∀ (s : System Bool ℕ) (i : Bool),
      Smooth sampleMalloc 2 s (some (i, .connect)) := by
    intro s i j e heq
    obtain ⟨-, rfl⟩ := Prod.mk.inj (Option.some.inj heq)
    exact trivial
  have hfirst : Guarded (Step numbering .little sampleMalloc 1) (Smooth sampleMalloc 2) twoClients
      (some (false, .connect)) _ :=
    ⟨hsmooth twoClients false, .transfer hconnect fun _ _ h => by (cases h)⟩
  have hsecond : Guarded (Step numbering .little sampleMalloc 1) (Smooth sampleMalloc 2)
      { twoClients with conns := Function.update twoClients.conns false connected }
      (some (true, .connect)) bothConnected :=
    ⟨hsmooth _ true, .transfer hconnect fun _ _ h => by (cases h)⟩
  exact (Run.nil.snoc hfirst).snoc hsecond

theorem calls_complete_numbering :
    (turnsOf false [some (false, Event.connect), some (true, .connect)]).countP Event.transfers ≤
        2 * (2 + 2) + 37 ∧
      ((∃ b, (bothConnected.conns false).client = .returned (some b) ∧
          (bothConnected.conns false).calls = [([8, 3], some b)]) ∨
        ∃ e s', Guarded (Step numbering .little sampleMalloc 1) (Smooth sampleMalloc 2)
          bothConnected (some (false, e)) s' ∧ e.transfers = true) :=
  calls_complete numbering .little sampleMalloc 1 2 Nat.one_pos numbering_replies
    (fun _ => [8, 3]) (fun _ => ⟨by decide, by decide⟩) (fun _ => .other 0) 0 run_bothConnected
    false

end Agreement

end EchoFs.Api.Calls
