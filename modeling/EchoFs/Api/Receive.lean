import EchoFs.Api.Requests
import EchoFs.Library.ByteOrder
import EchoFs.Library.Checked

/-! The client receives a frame: `recv_message` and `recv_data` on a connection whose
`read()` calls follow a script. What `malloc` returns is a parameter. -/

namespace EchoFs.Api
open ByteOrder Checked

/-- Values of `errno`, zero among the others. -/
inductive Errno where
  | eintr
  | other (code : ℕ)
deriving DecidableEq, Repr

/-- Bytes that arrive, at least one, or a `read()` that fails. -/
inductive ReadEvent where
  | data (first : UInt8) (more : Bytes)
  | error (e : Errno)
deriving DecidableEq

/-- After its last event the peer has closed the connection. -/
structure Conn where
  script : List ReadEvent
  errno : Errno
deriving DecidableEq

inductive ReadResult where
  | data (bytes : Bytes)
  | eof
  | failed

/-- `read()`; only a failure sets `errno`. -/
def read (count : ℕ) (c : Conn) : ReadResult × Conn :=
  match c.script with
  | [] => (.eof, c)
  | .error e :: script => (.failed, ⟨script, e⟩)
  | .data first more :: script =>
    match (first :: more).drop count with
    | [] => (.data (first :: more), ⟨script, c.errno⟩)
    | b :: rest => (.data ((first :: more).take count), ⟨.data b rest :: script, c.errno⟩)

/-- `recv_data` with `got` received so far; `none` stands for -1. -/
def recvData (size : ℕ) : ℕ → Bytes → Conn → Result (Option Bytes × Conn)
  | 0, _, _ => .error .unfinished
  | fuel + 1, got, c =>
    if size ≤ got.length then .ok (some got, c)
    else match read (size - got.length) c with
      | (.data bytes, c) => recvData size fuel (got ++ bytes) c
      -- `errno` is looked at although `read()` has not failed
      | (.eof, c) => if c.errno = .eintr then recvData size fuel got c else .ok (some got, c)
      | (.failed, c) => if c.errno = .eintr then recvData size fuel got c else .ok (none, c)

structure Msgbuffer where
  bData : Option Bytes
  bSize : ℕ
deriving DecidableEq

def recvError (c : Conn) : ℤ × Msgbuffer × Conn := (-1, ⟨none, 0⟩, c)

/-- The contents of a new block. -/
abbrev Malloc := (size : ℕ) → Option { block : Bytes // block.length = size }

/-- The prefix variable is zero before it is received. -/
def prefixBytes (got : Bytes) : Bytes := got ++ List.replicate (8 - got.length) 0

/-- `recv_message` from the test of its first `recv_data` on -/
def recvBody (host : Order) (malloc : Malloc) (fuel : ℕ) (received : Option Bytes) (c : Conn) :
    Result (ℤ × Msgbuffer × Conn) :=
  match received with
  | none => .ok (recvError c)
  | some got =>
    let msgSize := htonll host (load host (prefixBytes got))
    if msgSize = 0 then .ok (recvError c)
    else match malloc msgSize with
      | none => .ok (recvError c)
      | some msgData => do
        let (received, c) ← recvData msgSize fuel [] c
        match received with
        | none => return recvError c
        | some got => return (0, ⟨some (got ++ msgData.1.drop got.length), msgSize⟩, c)

def recvMessage (host : Order) (malloc : Malloc) (fuel : ℕ) (c : Conn) :
    Result (ℤ × Msgbuffer × Conn) := do
  let (received, c) ← recvData 8 fuel [] c
  recvBody host malloc fuel received c

/-- A frame of `encode_response`. -/
def encodeResponse (host : Order) (body : Bytes) : Bytes :=
  store host (htonll host body.length) ++ body

/-- What `recv_data` comes to, `none` when it does not return. -/
def recvOutcome (size : ℕ) (got : Bytes) (script : List ReadEvent) (errno : Errno) :
    Option (Option Bytes × Conn) :=
  if size ≤ got.length then some (some got, ⟨script, errno⟩)
  else match script with
    | [] => if errno = .eintr then none else some (some got, ⟨[], errno⟩)
    | .error .eintr :: script => recvOutcome size got script .eintr
    | .error (.other code) :: script => some (none, ⟨script, .other code⟩)
    | .data first more :: script =>
      match (first :: more).drop (size - got.length) with
      | [] => recvOutcome size (got ++ first :: more) script errno
      | b :: rest =>
        some (some (got ++ (first :: more).take (size - got.length)), ⟨.data b rest :: script, errno⟩)

section Loop
variable {size fuel : ℕ} {got : Bytes} {script : List ReadEvent} {errno : Errno} {c : Conn}
  {r : Option Bytes × Conn}

theorem recvOutcome_full (h : size ≤ got.length) :
    recvOutcome size got script errno = some (some got, ⟨script, errno⟩) := by
  unfold recvOutcome
  rw [if_pos h]

/-- A `read()` that leaves bytes behind has filled the buffer. -/
theorem taken_full {bytes rest : Bytes} {b : UInt8}
    (h : bytes.drop (size - got.length) = b :: rest) :
    size ≤ (got ++ bytes.take (size - got.length)).length := by
  have hlen := congrArg List.length h
  simp only [List.length_drop, List.length_cons] at hlen
  rw [List.length_append, List.length_take]
  omega

/-- A result of the loop is the outcome. -/
theorem recvOutcome_of_recvData : ∀ {fuel : ℕ} {got : Bytes} {c : Conn},
    recvData size fuel got c = .ok r → recvOutcome size got c.script c.errno = some r := by
  intro fuel
  induction fuel with
  | zero => exact fun h => by cases h
  | succ fuel ih =>
    rintro got ⟨script, errno⟩ h
    unfold recvData at h
    split_ifs at h with hfull
    · rw [recvOutcome_full hfull, Except.ok.inj h]
    · cases script with
      | nil =>
        dsimp only [read] at h
        split_ifs at h with herr
        · exact ih h
        · unfold recvOutcome
          rw [if_neg hfull]
          dsimp only
          rw [if_neg herr, Except.ok.inj h]
      | cons e script =>
        unfold recvOutcome
        rw [if_neg hfull]
        cases e with
        | error e =>
          cases e with
          | eintr => exact ih h
          | other code => exact congrArg some (Except.ok.inj h)
        | data first more =>
          dsimp only [read] at h ⊢
          cases hdrop : (first :: more).drop (size - got.length) with
          | nil =>
            rw [hdrop] at h
            exact ih h
          | cons b rest =>
            rw [hdrop] at h
            dsimp only at h ⊢
            rw [← ih h, recvOutcome_full (taken_full hdrop)]

theorem recvData_full (h : size ≤ got.length) (fuel : ℕ) :
    recvData size (fuel + 1) got c = .ok (some got, c) := by
  unfold recvData
  rw [if_pos h]

/-- The loop ends in `r` whenever the fuel is enough. -/
def Ends (size : ℕ) (got : Bytes) (c : Conn) (r : Option Bytes × Conn) : Prop :=
  ∃ n, ∀ fuel, n ≤ fuel → recvData size fuel got c = .ok r

theorem Ends.of_turn {x : ℕ → Result (Option Bytes × Conn)}
    (hstep : ∀ fuel, recvData size (fuel + 1) got c = x fuel)
    (hx : ∃ n, ∀ fuel, n ≤ fuel → x fuel = .ok r) : Ends size got c r := by
  obtain ⟨n, hn⟩ := hx
  refine ⟨n + 1, fun fuel hfuel => ?_⟩
  cases fuel with
  | zero => omega
  | succ fuel => exact (hstep fuel).trans (hn fuel (by omega))

theorem ends_full (h : size ≤ got.length) : Ends size got c (some got, c) :=
  .of_turn (recvData_full h) ⟨0, fun _ _ => rfl⟩

/-- With enough fuel the loop ends in its outcome. -/
theorem ends_of_recvOutcome : ∀ (script : List ReadEvent) {got : Bytes} {errno : Errno},
    recvOutcome size got script errno = some r → Ends size got ⟨script, errno⟩ r := by
  intro script
  induction script with
  | nil =>
    intro got errno h
    unfold recvOutcome at h
    split_ifs at h with hfull herr
    · exact Option.some.inj h ▸ ends_full hfull
    · refine .of_turn (fun fuel => ?_) ⟨0, fun _ _ => congrArg Except.ok (Option.some.inj h)⟩
      rw [recvData, if_neg hfull]
      dsimp only [read]
      rw [if_neg herr]
  | cons e script ih =>
    intro got errno h
    by_cases hfull : size ≤ got.length
    · rw [recvOutcome_full hfull] at h
      exact Option.some.inj h ▸ ends_full hfull
    · unfold recvOutcome at h
      rw [if_neg hfull] at h
      cases e with
      | error e =>
        cases e with
        | eintr =>
          refine .of_turn (fun fuel => ?_) (ih h)
          rw [recvData, if_neg hfull]
          rfl
        | other code =>
          refine .of_turn (fun fuel => ?_) ⟨0, fun _ _ => congrArg Except.ok (Option.some.inj h)⟩
          rw [recvData, if_neg hfull]
          rfl
      | data first more =>
        dsimp only at h
        cases hdrop : (first :: more).drop (size - got.length) with
        | nil =>
          rw [hdrop] at h
          refine .of_turn (fun fuel => ?_) (ih h)
          rw [recvData, if_neg hfull]
          dsimp only [read]
          rw [hdrop]
        | cons b rest =>
          rw [hdrop] at h
          refine .of_turn (fun fuel => ?_)
            (Option.some.inj h ▸ ends_full (taken_full hdrop))
          rw [recvData, if_neg hfull]
          dsimp only [read]
          rw [hdrop]

end Loop

/-- What arrives before a failure other than an interrupt. -/
def received : List ReadEvent → Bytes
  | [] => []
  | .data first more :: script => first :: more ++ received script
  | .error .eintr :: script => received script
  | .error (.other _) :: _ => []

/-- Some `read()` fails, and not by an interrupt. -/
def Broken (script : List ReadEvent) : Prop := ∃ code, .error (.other code) ∈ script

/-- At the end of the script `errno` is `EINTR`. -/
def Stale (c : Conn) : Prop := c.errno = .eintr ∨ .error .eintr ∈ c.script

section Outcome
variable {size : ℕ} {got : Bytes} {script : List ReadEvent} {errno : Errno} {first : UInt8}
  {more : Bytes}

theorem recvOutcome_eintr (h : ¬ size ≤ got.length) :
    recvOutcome size got (.error .eintr :: script) errno = recvOutcome size got script .eintr := by
  rw [recvOutcome, if_neg h]

theorem recvOutcome_other (h : ¬ size ≤ got.length) (code : ℕ) :
    recvOutcome size got (.error (.other code) :: script) errno =
      some (none, ⟨script, .other code⟩) := by
  rw [recvOutcome, if_neg h]

theorem recvOutcome_data (h : ¬ size ≤ got.length)
    (hfit : got.length + (first :: more).length ≤ size) :
    recvOutcome size got (.data first more :: script) errno =
      recvOutcome size (got ++ first :: more) script errno := by
  rw [recvOutcome, if_neg h, List.drop_eq_nil_iff.mpr (by omega)]

theorem broken_data : Broken (.data first more :: script) ↔ Broken script := by
  simp [Broken]

theorem broken_eintr : Broken (.error .eintr :: script) ↔ Broken script := by
  simp [Broken]

theorem stale_data : Stale ⟨.data first more :: script, errno⟩ ↔ Stale ⟨script, errno⟩ := by
  simp [Stale]

theorem stale_eintr : Stale ⟨.error .eintr :: script, errno⟩ := .inr List.mem_cons_self

/-- Enough bytes fill the buffer; the rest of the script is left. -/
theorem recvOutcome_whole : ∀ (script : List ReadEvent) (got : Bytes) (errno : Errno),
    size ≤ got.length + (received script).length → ∃ c',
      recvOutcome size got script errno =
        some (some (got ++ (received script).take (size - got.length)), c') ∧
      received c'.script = (received script).drop (size - got.length) ∧
      (Broken c'.script ↔ Broken script) ∧ (Stale c' ↔ Stale ⟨script, errno⟩) := by
  intro script
  induction script with
  | nil =>
    intro got errno h
    exact ⟨⟨[], errno⟩, by rw [recvOutcome_full h]; simp [received], by simp [received], .rfl, .rfl⟩
  | cons e script ih =>
    intro got errno h
    by_cases hfull : size ≤ got.length
    · have hzero : size - got.length = 0 := by omega
      exact ⟨⟨e :: script, errno⟩, by rw [recvOutcome_full hfull, hzero]; simp, by rw [hzero]; rfl,
        .rfl, .rfl⟩
    · cases e with
      | error e =>
        cases e with
        | eintr =>
          obtain ⟨c', hout, hrest, hbroken, hstale⟩ := ih got .eintr h
          refine ⟨c', (recvOutcome_eintr hfull).trans hout, hrest, hbroken.trans broken_eintr.symm,
            hstale.trans (iff_of_true (.inl rfl) stale_eintr)⟩
        | other code => exact absurd h (by simpa [received] using hfull)
      | data first more =>
        by_cases hfit : got.length + (first :: more).length ≤ size
        · have hlen : (got ++ first :: more).length = got.length + (first :: more).length :=
            List.length_append
          rw [received, List.length_append] at h
          obtain ⟨c', hout, hrest, hbroken, hstale⟩ :=
            ih (got ++ first :: more) errno (by omega)
          have hleft : size - got.length =
              (first :: more).length + (size - (got ++ first :: more).length) := by omega
          refine ⟨c', ?_, ?_, hbroken.trans broken_data.symm, hstale.trans stale_data.symm⟩
          · rw [recvOutcome_data hfull hfit, hout, received, hleft, List.take_length_add_append,
              List.append_assoc]
          · rw [hrest, received, hleft, List.drop_length_add_append]
        · have hle : size - got.length ≤ (first :: more).length := by omega
          cases hdrop : (first :: more).drop (size - got.length) with
          | nil => exact absurd (List.drop_eq_nil_iff.mp hdrop) (by omega)
          | cons b rest =>
            refine ⟨⟨.data b rest :: script, errno⟩, ?_, ?_, ?_, ?_⟩
            · rw [recvOutcome, if_neg hfull, hdrop, received, List.take_append_of_le_length hle]
            · rw [received, ← hdrop, received,
                List.drop_append_of_le_length hle]
            · exact broken_data.trans broken_data.symm
            · exact stale_data.trans stale_data.symm

theorem recvOutcome_broken : ∀ (script : List ReadEvent) (got : Bytes) (errno : Errno),
    got.length + (received script).length < size → Broken script →
      ∃ c', recvOutcome size got script errno = some (none, c') := by
  intro script
  induction script with
  | nil => exact fun _ _ _ h => by simp [Broken] at h
  | cons e script ih =>
    intro got errno h hbroken
    have hfull : ¬ size ≤ got.length := by omega
    cases e with
    | error e =>
      cases e with
      | eintr =>
        rw [recvOutcome_eintr hfull]
        exact ih got .eintr h (broken_eintr.mp hbroken)
      | other code => exact ⟨_, recvOutcome_other hfull code⟩
    | data first more =>
      rw [received, List.length_append] at h
      rw [recvOutcome_data hfull (by omega)]
      exact ih _ errno (by rw [List.length_append]; omega) (broken_data.mp hbroken)

/-- The end of the stream: the loop goes on for ever when `errno` is stale. -/
theorem recvOutcome_short : ∀ (script : List ReadEvent) (got : Bytes) (errno : Errno),
    got.length + (received script).length < size → ¬ Broken script →
      (Stale ⟨script, errno⟩ ∧ recvOutcome size got script errno = none) ∨
        ¬ Stale ⟨script, errno⟩ ∧
          recvOutcome size got script errno = some (some (got ++ received script), ⟨[], errno⟩) := by
  intro script
  induction script with
  | nil =>
    intro got errno h _
    have hfull : ¬ size ≤ got.length := by omega
    rw [recvOutcome, if_neg hfull]
    by_cases herr : errno = .eintr
    · exact .inl ⟨.inl herr, if_pos herr⟩
    · refine .inr ⟨by simpa [Stale] using herr, ?_⟩
      rw [if_neg herr, received, List.append_nil]
  | cons e script ih =>
    intro got errno h hbroken
    have hfull : ¬ size ≤ got.length := by omega
    cases e with
    | error e =>
      cases e with
      | eintr =>
        rw [recvOutcome_eintr hfull]
        rcases ih got .eintr h (mt broken_eintr.mpr hbroken) with ⟨-, hnone⟩ | ⟨hstale, -⟩
        · exact .inl ⟨stale_eintr, hnone⟩
        · exact absurd (.inl rfl) hstale
      | other code => exact absurd ⟨code, List.mem_cons_self⟩ hbroken
    | data first more =>
      rw [received, List.length_append] at h
      rw [recvOutcome_data hfull (by omega), received, ← List.append_assoc, stale_data]
      exact ih _ errno (by rw [List.length_append]; omega) (mt broken_data.mpr hbroken)

end Outcome
section Message
variable {host : Order} {malloc : Malloc} {body later : Bytes} {c c₁ c' : Conn} {fuel : ℕ}
  {x : Option Bytes} {r r' : ℤ × Msgbuffer × Conn} {got : Bytes}

/-- `recv_message` ends in `r` whenever the fuel is enough. -/
def MessageEnds (host : Order) (malloc : Malloc) (c : Conn) (r : ℤ × Msgbuffer × Conn) : Prop :=
  ∃ n, ∀ fuel, n ≤ fuel → recvMessage host malloc fuel c = .ok r

theorem MessageEnds.of_length (hlength : Ends 8 [] c (x, c₁))
    (hbody : ∃ n, ∀ fuel, n ≤ fuel → recvBody host malloc fuel x c₁ = .ok r) :
    MessageEnds host malloc c r := by
  obtain ⟨n, hn⟩ := hlength
  obtain ⟨k, hk⟩ := hbody
  refine ⟨max n k, fun fuel hfuel => ?_⟩
  rw [recvMessage, hn fuel (by omega), ok_bind]
  exact hk fuel (by omega)

theorem MessageEnds.unique (h : MessageEnds host malloc c r) (h' : MessageEnds host malloc c r') :
    r = r' := by
  obtain ⟨n, hn⟩ := h
  obtain ⟨k, hk⟩ := h'
  exact Except.ok.inj ((hn (max n k) (by omega)).symm.trans (hk (max n k) (by omega)))

theorem ends_of_recvData {size : ℕ} {q : Option Bytes × Conn}
    (h : recvData size fuel got c = .ok q) : Ends size got c q :=
  ends_of_recvOutcome c.script (recvOutcome_of_recvData h)

/-- A result does not depend on the fuel. -/
theorem messageEnds_of_ok (h : recvMessage host malloc fuel c = .ok r) :
    MessageEnds host malloc c r := by
  obtain ⟨⟨x, c₁⟩, hlength, hrest⟩ := bind_eq_ok.mp h
  refine .of_length (ends_of_recvData hlength) ?_
  dsimp only at hrest
  unfold recvBody at hrest ⊢
  cases x with
  | none => exact ⟨0, fun _ _ => hrest⟩
  | some got =>
    dsimp only at hrest ⊢
    split_ifs at hrest ⊢ with hzero
    · exact ⟨0, fun _ _ => hrest⟩
    · cases hm : malloc (htonll host (load host (prefixBytes got))) with
      | none =>
        rw [hm] at hrest
        exact ⟨0, fun _ _ => hrest⟩
      | some msgData =>
        rw [hm] at hrest
        obtain ⟨⟨y, c₂⟩, hbody, hret⟩ := bind_eq_ok.mp hrest
        obtain ⟨n, hn⟩ := ends_of_recvData hbody
        refine ⟨n, fun fuel hfuel => ?_⟩
        dsimp only
        rw [hn fuel hfuel, ok_bind]
        exact hret

def Arrived (host : Order) (body : Bytes) (c : Conn) : Prop :=
  (encodeResponse host body).length ≤ (received c.script).length

instance : Decidable (Arrived host body c) := inferInstanceAs (Decidable (_ ≤ _))

/-- The call returns, with the body when the whole frame arrives, else with an error. -/
structure Whole (host : Order) (malloc : Malloc) (body : Bytes) (c : Conn) : Prop where
  terminates : ∃ fuel r, recvMessage host malloc fuel c = .ok r
  arrived : ∀ fuel ret buffer c', recvMessage host malloc fuel c = .ok (ret, buffer, c') →
    Arrived host body c → ret = 0 ∧ buffer = ⟨some body, body.length⟩
  lost : ∀ fuel ret buffer c', recvMessage host malloc fuel c = .ok (ret, buffer, c') →
    ¬ Arrived host body c → ret = -1 ∧ buffer = ⟨none, 0⟩

theorem whole_iff_of_ends {ret : ℤ} {buffer : Msgbuffer}
    (h : MessageEnds host malloc c (ret, buffer, c')) :
    Whole host malloc body c ↔
      (Arrived host body c → ret = 0 ∧ buffer = ⟨some body, body.length⟩) ∧
        (¬ Arrived host body c → ret = -1 ∧ buffer = ⟨none, 0⟩) := by
  obtain ⟨n, hn⟩ := id h
  constructor
  · intro hw
    exact ⟨hw.arrived n ret buffer c' (hn n le_rfl), hw.lost n ret buffer c' (hn n le_rfl)⟩
  · rintro ⟨harrived, hlost⟩
    refine ⟨⟨n, _, hn n le_rfl⟩, ?_, ?_⟩
    · intro fuel ret' buffer' c'' hok
      cases h.unique (messageEnds_of_ok hok)
      exact harrived
    · intro fuel ret' buffer' c'' hok
      cases h.unique (messageEnds_of_ok hok)
      exact hlost

/-- A first part that never ends, ends the whole call never. -/
theorem not_whole_of_length (h : recvOutcome 8 [] c.script c.errno = none) :
    ¬ Whole host malloc body c := by
  rintro ⟨⟨fuel, r, hok⟩, -, -⟩
  obtain ⟨q, hlength, -⟩ := bind_eq_ok.mp hok
  rw [recvOutcome_of_recvData hlength] at h
  cases h

section Body
variable {n : ℕ}

theorem recvBody_zero (h : htonll host (load host (prefixBytes got)) = 0) :
    recvBody host malloc fuel (some got) c = .ok (recvError c) := by
  simp only [recvBody, h, if_true]

theorem recvBody_noMemory (h : malloc (htonll host (load host (prefixBytes got))) = none) :
    recvBody host malloc fuel (some got) c = .ok (recvError c) := by
  simp only [recvBody, h, ite_self]

theorem recvBody_some {block : { block : Bytes // block.length = n }}
    (hn : htonll host (load host (prefixBytes got)) = n) (hpos : n ≠ 0)
    (hm : malloc n = some block) :
    recvBody host malloc fuel (some got) c = (do
      let (received, c) ← recvData n fuel [] c
      match received with
      | none => return recvError c
      | some got => return (0, ⟨some (got ++ block.1.drop got.length), n⟩, c)) := by
  subst hn
  simp only [recvBody, if_neg hpos, hm]

end Body

/-- The inputs on which the call does what it should. -/
def Receivable (host : Order) (malloc : Malloc) (body : Bytes) (c : Conn) : Prop :=
  Arrived host body c ∧ body ≠ [] ∧ malloc body.length ≠ none ∨
    ¬ Arrived host body c ∧ (Broken c.script ∨
      8 ≤ (received c.script).length ∧ malloc body.length = none ∨
      (received c.script).length < 8 ∧ ¬ Stale c ∧ ((∀ v ∈ received c.script, v = 0) ∨
        malloc (number (prefixBytes (received c.script))) = none))

theorem length_encodeResponse : (encodeResponse host body).length = 8 + body.length := by
  simp [encodeResponse]

theorem ntohll_got (h : got.length ≤ 8) :
    htonll host (load host (prefixBytes got)) = number (prefixBytes got) := by
  apply ntohll_load
  rw [prefixBytes, List.length_append, List.length_replicate]
  omega

theorem number_prefix_eq_zero : number (prefixBytes got) = 0 ↔ ∀ v ∈ got, v = 0 := by
  rw [number_eq_zero, prefixBytes]
  simp only [List.mem_append, List.mem_replicate, or_imp, forall_and, and_iff_left_iff_imp]
  exact fun _ v hv => hv.2

/-- What is received begins with the prefix, and the body follows it. -/
theorem received_split (hsent : received c.script <+: encodeResponse host body ++ later)
    (h : 8 ≤ (received c.script).length) :
    (received c.script).take 8 = store host (htonll host body.length) ∧
      (received c.script).drop 8 <+: body ++ later := by
  obtain ⟨t, ht⟩ := hsent
  have hstore := length_store host (htonll host body.length)
  rw [encodeResponse, List.append_assoc] at ht
  have htake := congrArg (List.take 8) ht
  have hdrop := congrArg (List.drop 8) ht
  rw [List.take_append_of_le_length h, List.take_left' hstore] at htake
  rw [List.drop_append_of_le_length h, List.drop_left' hstore] at hdrop
  exact ⟨htake, t, hdrop⟩

/-- The eight bytes of a whole prefix give the length of the body. -/
theorem number_whole_length (hlen : body.length < 2 ^ 64)
    (h : got = store host (htonll host body.length)) :
    htonll host (load host (prefixBytes got)) = body.length := by
  subst h
  have hfull : prefixBytes (store host (htonll host body.length)) =
      store host (htonll host body.length) := by
    rw [prefixBytes, length_store]
    exact List.append_nil _
  rw [ntohll_got (length_store _ _).le, hfull, number_store hlen]

theorem messageEnds_error (hlength : Ends 8 [] c (some got, c₁))
    (h : ∀ fuel, recvBody host malloc fuel (some got) c₁ = .ok (recvError c₁)) :
    MessageEnds host malloc c (-1, ⟨none, 0⟩, c₁) :=
  .of_length hlength ⟨0, fun fuel _ => h fuel⟩

section Body
variable {n : ℕ} {block : { block : Bytes // block.length = n }}

theorem messageEnds_body {y : Option Bytes} (hlength : Ends 8 [] c (some got, c₁))
    (hn : htonll host (load host (prefixBytes got)) = n) (hpos : n ≠ 0)
    (hm : malloc n = some block) (hbody : Ends n [] c₁ (y, c')) :
    MessageEnds host malloc c (match y with
      | none => recvError c'
      | some got => (0, ⟨some (got ++ block.1.drop got.length), n⟩, c')) := by
  obtain ⟨k, hk⟩ := hbody
  refine .of_length hlength ⟨k, fun fuel hfuel => ?_⟩
  rw [recvBody_some hn hpos hm, hk fuel hfuel, ok_bind]
  cases y <;> rfl

theorem not_whole_of_body (hlength : Ends 8 [] c (some got, c₁))
    (hn : htonll host (load host (prefixBytes got)) = n) (hpos : n ≠ 0)
    (hm : malloc n = some block) (hbody : recvOutcome n [] c₁.script c₁.errno = none) :
    ¬ Whole host malloc body c := by
  rintro ⟨⟨fuel, r, hok⟩, -, -⟩
  obtain ⟨q, hq, hrest⟩ := bind_eq_ok.mp hok
  obtain ⟨k, hk⟩ := hlength
  obtain ⟨j, hj⟩ := ends_of_recvData hq
  obtain rfl := Except.ok.inj ((hk (max k j) (by omega)).symm.trans (hj (max k j) (by omega)))
  dsimp only at hrest
  rw [recvBody_some hn hpos hm] at hrest
  obtain ⟨q, hq, -⟩ := bind_eq_ok.mp hrest
  rw [recvOutcome_of_recvData hq] at hbody
  cases hbody

end Body

/-- The prefix arrives: it tells the length, and the body is what matters. -/
theorem whole_iff_of_length (hlen : body.length < 2 ^ 64)
    (hsent : received c.script <+: encodeResponse host body ++ later)
    (h : 8 ≤ (received c.script).length) :
    Whole host malloc body c ↔
      Arrived host body c ∧ body ≠ [] ∧ malloc body.length ≠ none ∨
        ¬ Arrived host body c ∧ (Broken c.script ∨ malloc body.length = none) := by
  obtain ⟨htake, hrest⟩ := received_split hsent h
  obtain ⟨c₁, hout, hdrop, hbroken, hstale⟩ :=
    recvOutcome_whole c.script [] c.errno (by simpa using h)
  simp only [List.length_nil, Nat.sub_zero, List.nil_append] at hout hdrop
  have hlength : Ends 8 [] c (some ((received c.script).take 8), c₁) :=
    ends_of_recvOutcome c.script hout
  have hn := number_whole_length hlen htake
  have harrived : Arrived host body c ↔ body.length ≤ (received c₁.script).length := by
    rw [Arrived, length_encodeResponse, hdrop, List.length_drop]
    omega
  by_cases hempty : body = []
  · have hends : MessageEnds host malloc c (-1, ⟨none, 0⟩, c₁) :=
      messageEnds_error hlength fun fuel => recvBody_zero (hn.trans (by simp [hempty]))
    have hall : Arrived host body c := harrived.mpr (by simp [hempty])
    rw [whole_iff_of_ends hends]
    subst hempty
    simp [hall]
  have hpos : body.length ≠ 0 := mt List.eq_nil_of_length_eq_zero hempty
  cases hm : malloc body.length with
  | none =>
    have hends : MessageEnds host malloc c (-1, ⟨none, 0⟩, c₁) :=
      messageEnds_error hlength fun fuel => recvBody_noMemory (hn ▸ hm)
    rw [whole_iff_of_ends hends]
    simp
  | some block =>
    by_cases hall : Arrived host body c
    · obtain ⟨c₂, hout₂, -⟩ :=
        recvOutcome_whole c₁.script [] c₁.errno (by simpa using harrived.mp hall)
      have hgot : (received c₁.script).take body.length = body := by
        obtain ⟨t, ht⟩ := hrest
        rw [hdrop]
        have hle : body.length ≤ ((received c.script).drop 8).length := hdrop ▸ harrived.mp hall
        have htake := congrArg (List.take body.length) ht
        rwa [List.take_append_of_le_length hle, List.take_left] at htake
      simp only [List.length_nil, Nat.sub_zero, List.nil_append, hgot] at hout₂
      have hends := messageEnds_body hlength hn hpos hm (ends_of_recvOutcome c₁.script hout₂)
      have hdata : body ++ block.1.drop body.length = body := by
        rw [List.drop_eq_nil_iff.mpr block.2.le, List.append_nil]
      dsimp only at hends
      rw [whole_iff_of_ends hends, hdata]
      simp [hall, hempty]
    · have hshort : ([] : Bytes).length + (received c₁.script).length < body.length := by
        have := mt harrived.mpr hall
        simpa using this
      by_cases hb : Broken c.script
      · obtain ⟨c₂, hout₂⟩ := recvOutcome_broken c₁.script [] c₁.errno hshort (hbroken.mpr hb)
        have hends := messageEnds_body hlength hn hpos hm (ends_of_recvOutcome c₁.script hout₂)
        dsimp only [recvError] at hends
        rw [whole_iff_of_ends hends]
        simp [hall, hb]
      · rcases recvOutcome_short c₁.script [] c₁.errno hshort (mt hbroken.mp hb) with
          ⟨-, hnone⟩ | ⟨-, hout₂⟩
        · refine iff_of_false (not_whole_of_body hlength hn hpos hm hnone) ?_
          simp [hall, hb]
        · have hends := messageEnds_body hlength hn hpos hm (ends_of_recvOutcome c₁.script hout₂)
          dsimp only at hends
          rw [whole_iff_of_ends hends]
          simp [hall, hb]

/-- The stream ends inside the prefix. -/
theorem whole_iff_of_short (h : (received c.script).length < 8) :
    Whole host malloc body c ↔ Broken c.script ∨ ¬ Stale c ∧
      ((∀ v ∈ received c.script, v = 0) ∨
        malloc (number (prefixBytes (received c.script))) = none) := by
  have hall : ¬ Arrived host body c := by
    rw [Arrived, length_encodeResponse]
    omega
  have hshort : ([] : Bytes).length + (received c.script).length < 8 := by simpa using h
  by_cases hb : Broken c.script
  · obtain ⟨c₁, hout⟩ := recvOutcome_broken c.script [] c.errno hshort hb
    have hends : MessageEnds host malloc c (-1, ⟨none, 0⟩, c₁) :=
      .of_length (ends_of_recvOutcome c.script hout) ⟨0, fun _ _ => rfl⟩
    rw [whole_iff_of_ends hends]
    simp [hall, hb]
  · rcases recvOutcome_short c.script [] c.errno hshort hb with ⟨hstale, hnone⟩ | ⟨hstale, hout⟩
    · refine iff_of_false (not_whole_of_length hnone) ?_
      simp [hb, show Stale c from hstale]
    · have hlength : Ends 8 [] c (some (received c.script), ⟨[], c.errno⟩) :=
        ends_of_recvOutcome c.script hout
      have hfresh : ¬ Stale c := hstale
      have hn : htonll host (load host (prefixBytes (received c.script))) = _ :=
        ntohll_got h.le
      by_cases hzero : ∀ v ∈ received c.script, v = 0
      · have hends : MessageEnds host malloc c (-1, ⟨none, 0⟩, ⟨[], c.errno⟩) :=
          messageEnds_error hlength fun fuel =>
            recvBody_zero (hn.trans (number_prefix_eq_zero.mpr hzero))
        rw [whole_iff_of_ends hends]
        exact iff_of_true ⟨fun ha => absurd ha hall, fun _ => ⟨rfl, rfl⟩⟩
          (.inr ⟨hfresh, .inl hzero⟩)
      have hpos := mt number_prefix_eq_zero.mp hzero
      cases hm : malloc (number (prefixBytes (received c.script))) with
      | none =>
        have hends : MessageEnds host malloc c (-1, ⟨none, 0⟩, ⟨[], c.errno⟩) :=
          messageEnds_error hlength fun fuel => recvBody_noMemory (hn ▸ hm)
        rw [whole_iff_of_ends hends]
        simp [hall, hfresh]
      | some block =>
        -- the second call finds the end of the stream at once
        have hempty : recvOutcome (number (prefixBytes (received c.script))) [] [] c.errno =
            some (some [], ⟨[], c.errno⟩) := by
          have hclean : c.errno ≠ .eintr := fun herr => hfresh (.inl herr)
          rw [recvOutcome, if_neg (by simpa using hpos), if_neg hclean]
        have hends := messageEnds_body hlength hn hpos hm (ends_of_recvOutcome [] hempty)
        dsimp only at hends
        rw [whole_iff_of_ends hends]
        simp [hall, hb, hzero]

/-- The call does what it should when the frame arrives, when something but an interrupt
stops it, and when it learns nothing of a length before the end of the stream. -/
theorem receives_whole_iff (host : Order) (malloc : Malloc) (body later : Bytes) (c : Conn)
    (hlen : body.length < 2 ^ 64)
    (hsent : received c.script <+: encodeResponse host body ++ later) :
    Whole host malloc body c ↔ Receivable host malloc body c := by
  unfold Receivable
  by_cases h : 8 ≤ (received c.script).length
  · rw [whole_iff_of_length hlen hsent h]
    simp only [h, not_lt.mpr h, true_and, false_and, or_false]
  · have hshort : (received c.script).length < 8 := not_le.mp h
    have hall : ¬ Arrived host body c := by
      rw [Arrived, length_encodeResponse]
      omega
    rw [whole_iff_of_short hshort]
    simp only [h, hall, hshort, false_and, not_false_eq_true, true_and, false_or]

end Message
/-- A response that accepts a request as task 1. -/
def sampleResponse : Bytes := [0x08, 0x01, 0x10, 0x01, 0x18, 0x00]

def sampleMalloc : Malloc := fun size => some ⟨List.replicate size 0xaa, List.length_replicate⟩

/-- Its frame in three pieces, with an interrupt between them. -/
def wholeFrame : Conn :=
  ⟨[.data 0 [0, 0], .error .eintr, .data 0 [0, 0, 0, 6, 0x08], .data 0x01 [0x10, 0x01, 0x18, 0x00]],
    .other 0⟩

theorem wholeFrame_received : Whole .little sampleMalloc sampleResponse wholeFrame :=
  (receives_whole_iff .little sampleMalloc sampleResponse [] wholeFrame (by decide)
    (by decide)).mpr (.inl ⟨by decide, by decide, by decide⟩)

/-- The peer closes the connection in the middle of the body. -/
theorem cut_body_accepted : ¬ ∀ (host : Order) (malloc : Malloc) (body later : Bytes) (c : Conn),
    body.length < 2 ^ 64 → received c.script <+: encodeResponse host body ++ later →
      Whole host malloc body c := by
  intro hclaim
  have hwhole := hclaim .little sampleMalloc sampleResponse []
    ⟨[.data 0 [0, 0, 0, 0, 0, 0, 6], .data 0x08 [0x01]], .other 0⟩ (by decide) (by decide)
  have hret := hwhole.lost 5 0 ⟨some [0x08, 0x01, 0xaa, 0xaa, 0xaa, 0xaa], 6⟩ ⟨[], .other 0⟩
    (by decide +kernel) (by decide)
  exact absurd hret.1 (by decide)

end EchoFs.Api
