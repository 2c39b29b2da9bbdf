import EchoFs.Api.Calls
import EchoFs.Api.Tracker

/-! What `efs_load` and `efs_status` tell a client of the daemon's tasks, through the messages
and the connections between them. Serialising and parsing are parameters. -/

namespace EchoFs.Api
open ByteOrder Checked Transition

/-- `UserResponse` of `messages.proto`; the type is the number on the wire. -/
structure UserResponse where
  type : ℕ
  tid : Option UInt64
  status : Option UInt32
deriving DecidableEq

/-- `response_type_t` of the client -/
inductive ResponseTypeT where
  | efsRequestAccepted
  | efsRequestRejected
  | efsBadRequest
deriving DecidableEq, Repr

/-- `response_t` -/
structure ResponseT where
  rType : ResponseTypeT
  rTid : UInt64
  rStatus : Int32
deriving DecidableEq

/-- `make_api_error`, with the values of `efs-api.h` -/
def makeApiError : ErrorCode → Int32
  | .success => 0
  | .internalError => -1
  | .invalidArguments => -2
  | .badRequest => -3
  | .noSuchTask => -12
  | .taskPending => -11
  | .taskInProgress => -13
  | .noSuchPath => -14
  | .pathAlreadyImported => -15

/-- The message that `store_to_buffer` serialises. -/
def Response.message (r : Response) : UserResponse where
  type := match r.mType with
    | .accepted => 1
    | .rejected => 2
  tid := r.mTid.map UInt32.toUInt64
  status := some (makeApiError r.mRetval).toUInt32

/-- `unpack_from_buffer`, which writes over `resp` as far as it comes. -/
def unpackFromBuffer (unpack : Bytes → Option UserResponse) (buf : Bytes) (resp : ResponseT) :
    Int32 × ResponseT :=
  match unpack buf with
  | none => (-10, resp)
  | some respmsg =>
    if respmsg.type = 1 ∨ respmsg.type = 2 then
      let resp := { resp with
        rType := if respmsg.type = 1 then .efsRequestAccepted else .efsRequestRejected }
      if respmsg.tid = none ∧ respmsg.status = none then (-10, resp)
      else (0, { resp with
        rTid := respmsg.tid.getD resp.rTid
        rStatus := (respmsg.status.map UInt32.toInt32).getD resp.rStatus })
    else (-4, resp)

/-- `send_load_request` when the response is there; `resp` is its variable before. -/
def sendLoadRequest (unpack : Bytes → Option UserResponse) (resp : ResponseT) (cb : EfsIocb)
    (buf : Bytes) : Int32 × EfsIocb :=
  let (res, resp) := unpackFromBuffer unpack buf resp
  if res ≠ 0 then (res, cb)
  else if resp.rType = .efsRequestAccepted then (0, { cb with tid := resp.rTid.toUInt32.toInt32 })
  else (resp.rStatus, cb)

/-- `send_status_request` likewise. -/
def sendStatusRequest (unpack : Bytes → Option UserResponse) (resp : ResponseT) (buf : Bytes) :
    Int32 :=
  let (res, resp) := unpackFromBuffer unpack buf resp
  if res ≠ 0 then res else resp.rStatus

/-- The daemon behind its sessions: `decode_body`, `api_handler` and `encode_response`, and the
handlers in the thread pool. -/
def taskService (backends : List Bytes) (parse : Bytes → Option UserRequest)
    (store : UserResponse → Option Bytes) : Service Context Bytes (Option Bytes) where
  call s q r s' := ∃ junk resp, s.apiHandler (.createFromBuffer parse q) junk = .ok (s', resp) ∧
    r = store resp.message
  work s s' := ∃ e, (∀ r junk, e ≠ .call r junk) ∧ Step backends s e s'

section Codes

/-- An error code comes through the `uint32` of the message. -/
theorem toInt32_makeApiError (ec : ErrorCode) :
    (makeApiError ec).toUInt32.toInt32 = makeApiError ec := Int32.toInt32_toUInt32 _

variable {unpack : Bytes → Option UserResponse} {resp : ResponseT} {cb : EfsIocb} {buf : Bytes}

/-- The client has the task id of the daemon, as an `int`. -/
theorem sendLoadRequest_accepted {tid : UInt32}
    (h : unpack buf = some (Response.message ⟨.accepted, some tid, .success⟩)) :
    sendLoadRequest unpack resp cb buf = (0, { cb with tid := tid.toInt32 }) := by
  have htid : tid.toUInt64.toUInt32 = tid := UInt32.toUInt32_toUInt64 tid
  unfold sendLoadRequest unpackFromBuffer
  rw [h]
  simp [Response.message, htid]

theorem sendStatusRequest_status {r : Response} (h : unpack buf = some r.message) :
    sendStatusRequest unpack resp buf = makeApiError r.mRetval := by
  have hstatus := toInt32_makeApiError r.mRetval
  unfold sendStatusRequest unpackFromBuffer
  rw [h]
  cases hr : r.mType <;> simp [Response.message, hr, hstatus]

end Codes

/-! ### The daemon over its calls -/

namespace Context
variable {backends : List Bytes} {s s' s'' : Context} {e : Event} {tid : UInt32} {job : Job}
  {r : Request} {junk : Junk} {resp : Response} {ι : Type} {l : List (ι × Bytes × Option Bytes)}
  {parse : Bytes → Option UserRequest} {store : UserResponse → Option Bytes}

/-- What is known of a task stays known, and its status goes forward. -/
structure Leads (s s' : Context) : Prop where
  jobs : ∀ tid job, s.jobs tid = some job →
    ∃ job', s'.jobs tid = some job' ∧ job'.type = job.type ∧ job'.backend = job.backend
  status : ∀ tid job st, s.jobs tid = some job → s.mMap tid = some st →
    ∃ st', s'.mMap tid = some st' ∧ Relation.ReflTransGen (Moves job.type) st st'

theorem Leads.refl (s : Context) : s.Leads s :=
  ⟨fun _ job h => ⟨job, h, rfl, rfl⟩, fun _ _ st _ h => ⟨st, h, .refl⟩⟩

theorem Leads.trans (h : s.Leads s') (h' : s'.Leads s'') : s.Leads s'' := by
  constructor
  · intro tid job hjob
    obtain ⟨job', hjob', htype, hbackend⟩ := h.jobs tid job hjob
    obtain ⟨job'', hjob'', htype', hbackend'⟩ := h'.jobs tid job' hjob'
    exact ⟨job'', hjob'', htype'.trans htype, hbackend'.trans hbackend⟩
  · intro tid job st hjob hst
    obtain ⟨job', hjob', htype, -⟩ := h.jobs tid job hjob
    obtain ⟨st', hst', hmoves⟩ := h.status tid job st hjob hst
    obtain ⟨st'', hst'', hmoves'⟩ := h'.status tid job' st' hjob' hst'
    rw [htype] at hmoves'
    exact ⟨st'', hst'', hmoves.trans hmoves'⟩

theorem set_jobs (s : Context) (tid : UInt32) (ec : ErrorCode) : (s.set tid ec).jobs = s.jobs := by
  unfold set
  split_ifs <;> rfl

/-- A handler that goes on keeps the type and the backend of its request. -/
theorem step_jobs (hs : s.Inv backends) (h : Step backends s e s') (hjob : s.jobs tid = some job) :
    ∃ job', s'.jobs tid = some job' ∧ job'.type = job.type ∧ job'.backend = job.backend := by
  have hupdate : ∀ (t : UInt32) (old new : Job), s.jobs t = some old → new.type = old.type →
      new.backend = old.backend → ∃ job', Function.update s.jobs t (some new) tid = some job' ∧
        job'.type = job.type ∧ job'.backend = job.backend := by
    intro t old new hold htype hbackend
    by_cases ht : tid = t
    · subst ht
      obtain rfl := Option.some.inj (hold.symm.trans hjob)
      exact ⟨new, Function.update_self .., htype, hbackend⟩
    · exact ⟨job, by rw [Function.update_of_ne ht, hjob], rfl, rfl⟩
  cases h with
  | call h =>
    rcases apiHandler_cases h with ⟨rfl, -⟩ | ⟨hfree, -, rfl⟩
    · exact ⟨job, hjob, rfl, rfl⟩
    · have hne : tid ≠ s.id + 1 := by
        rintro rfl
        obtain ⟨st, hst, -⟩ := hs.status _ job hjob
        rw [hfree] at hst
        cases hst
      exact ⟨job, by dsimp only; rw [Function.update_of_ne hne, hjob], rfl, rfl⟩
  | @start t old hold hphase =>
    by_cases hserved : old.Served backends
    · rw [startHandler_served hserved]
      dsimp only [submit]
      rw [set_jobs]
      exact hupdate t old _ hold rfl rfl
    · rw [startHandler_unserved hserved]
      exact hupdate t old _ hold rfl rfl
  | @finish t old ec hold hphase hec =>
    dsimp only [finishHandler, submit]
    rw [set_jobs]
    exact hupdate t old _ hold rfl rfl

theorem Inv.leads (hs : s.Inv backends) (h : Step backends s e s') : s.Leads s' := by
  refine ⟨fun _ _ hjob => step_jobs hs h hjob, fun tid job st hjob hst => ?_⟩
  obtain ⟨job', st', hjob', hst', hmoves⟩ := hs.moves h hst
  obtain rfl := Option.some.inj (hjob.symm.trans hjob')
  exact ⟨st', hst', .single hmoves⟩

/-- Calls and steps of the daemon lead from one state that it can reach to another. -/
theorem leads_of_serves (hs : Reachable backends s)
    (h : (taskService backends parse store).Serves s l s') :
    Reachable backends s' ∧ s.Leads s' := by
  refine h.invariant (I := fun s' => Reachable backends s' ∧ s.Leads s') ?_ ?_ ⟨hs, .refl s⟩
  · rintro s₁ q r s₂ ⟨hreach, hleads⟩ ⟨junk, resp, hcall, -⟩
    exact ⟨.next hreach (.call hcall), hleads.trans ((inv_of_reachable hreach).leads (.call hcall))⟩
  · rintro s₁ s₂ ⟨hreach, hleads⟩ ⟨e, -, hstep⟩
    exact ⟨.next hreach hstep, hleads.trans ((inv_of_reachable hreach).leads hstep)⟩

/-- A request to load gets a new tid. -/
theorem apiHandler_load (h : s.apiHandler r junk = .ok (s', resp))
    (htype : r.mType = some .loadPath) :
    s.mMap (s.id + 1) = none ∧ resp = ⟨.accepted, some (s.id + 1), .success⟩ ∧
      s'.jobs (s.id + 1) = some ⟨.loadPath, r.mBackend, .queued⟩ ∧
      s'.mMap (s.id + 1) = some .taskPending := by
  have hload : r.type junk = .loadPath := by rw [Request.type, htype]; rfl
  rcases apiHandler_cases h with ⟨-, hnone⟩ | ⟨hfree, hresp, rfl⟩
  · unfold apiHandler at h
    rw [hload] at h
    obtain ⟨-, -, h⟩ := bind_eq_ok.mp h
    obtain ⟨s₁, -, h⟩ := bind_eq_ok.mp h
    obtain ⟨-, rfl⟩ := Prod.mk.inj (Except.ok.inj h)
    cases hnone
  · refine ⟨hfree, hresp, ?_, Function.update_self ..⟩
    dsimp only
    rw [Function.update_self, hload]

/-- A request for a status is answered at once. -/
theorem apiHandler_status (h : s.apiHandler r junk = .ok (s', resp))
    (htype : r.mType = some .status) :
    s' = s ∧ resp = ⟨.accepted, none, (s.mMap (r.tid junk)).getD .noSuchTask⟩ := by
  have hstatus : r.type junk = .status := by rw [Request.type, htype]; rfl
  unfold apiHandler at h
  rw [hstatus] at h
  obtain ⟨rfl, rfl⟩ := Prod.mk.inj (Except.ok.inj h)
  exact ⟨rfl, rfl⟩

end Context

section Service
variable {backends : List Bytes} {parse : Bytes → Option UserRequest}
  {pack : UserRequest → Bytes} {store : UserResponse → Option Bytes}
  {unpack : Bytes → Option UserResponse} {d d' : Context} {cb : EfsIocb} {m : UserRequest}
  {b : Bytes}

/-- The turn of a request to load. -/
theorem load_turn (hm : buildRequestMsg .efsLoadPath cb = some m) (hwire : parse (pack m) = some m)
    (hresp : ∀ r b, store r = some b → unpack b = some r)
    (h : (taskService backends parse store).call d (pack m) (some b) d') :
    d.mMap (d.id + 1) = none ∧ d'.mMap (d.id + 1) = some .taskPending ∧
      d'.jobs (d.id + 1) = some ⟨.loadPath, cb.efsBackend, .queued⟩ ∧
      ∀ resp cb', sendLoadRequest unpack resp cb' b =
        (0, { cb' with tid := (d.id + 1).toInt32 }) := by
  obtain ⟨junk, resp, hcall, hb⟩ := h
  rw [createFromBuffer_pack pack parse hwire] at hcall
  obtain rfl := Option.some.inj hm
  obtain ⟨hfree, rfl, hjob, hst⟩ := Context.apiHandler_load hcall rfl
  exact ⟨hfree, hst, hjob, fun resp cb' => sendLoadRequest_accepted (hresp _ _ hb.symm)⟩

/-- The turn of a request for a status. -/
theorem status_turn (hm : buildRequestMsg .efsStatus cb = some m) (hwire : parse (pack m) = some m)
    (hresp : ∀ r b, store r = some b → unpack b = some r)
    (h : (taskService backends parse store).call d (pack m) (some b) d') :
    d' = d ∧ ∀ resp, sendStatusRequest unpack resp b =
      makeApiError ((d.mMap cb.tid.toUInt32).getD .noSuchTask) := by
  obtain ⟨junk, resp, hcall, hb⟩ := h
  rw [createFromBuffer_pack pack parse hwire] at hcall
  obtain rfl := Option.some.inj hm
  obtain ⟨rfl, rfl⟩ := Context.apiHandler_status hcall rfl
  refine ⟨rfl, fun resp => ?_⟩
  rw [sendStatusRequest_status (hresp _ _ hb.symm), ← tid_round cb.tid]
  rfl

end Service

/-! ### Clients for the examples below: two that load, then two that ask for the first task -/

section Samples
open Calls

def sampleLoad : UserRequest :=
  { UserRequest.init with type := .loadPath, loadDesc := some (buildLoadPathMsg sampleIocb) }

def sampleStatus : UserRequest := { UserRequest.init with type := .status, tid := some 1 }

def statusBytes : Bytes := [0x08, 3, 0x28, 1]

def samplePack (m : UserRequest) : Bytes := if m = sampleLoad then sampleBytes 1 else statusBytes

def sampleParse (b : Bytes) : Option UserRequest :=
  if b = sampleBytes 1 then some sampleLoad
  else if b = statusBytes then some sampleStatus else none

def taskBytes (tid : UInt8) : Bytes := [0x08, 1, 0x10, tid, 0x18, 0]

def pendingBytes : Bytes := [0x08, 1, 0x18, 0xf5, 0xff, 0xff, 0xff, 0x0f]

def sampleResponses : List (UserResponse × Bytes) :=
  [(⟨1, some 1, some 0⟩, taskBytes 1), (⟨1, some 2, some 0⟩, taskBytes 2),
    (⟨1, none, some 4294967285⟩, pendingBytes)]

def sampleStore (r : UserResponse) : Option Bytes :=
  (sampleResponses.find? fun x => x.1 = r).map Prod.snd

def sampleUnpack (b : Bytes) : Option UserResponse :=
  (sampleResponses.find? fun x => x.2 = b).map Prod.fst

theorem sampleUnpack_store (r : UserResponse) (b : Bytes) (h : sampleStore r = some b) :
    sampleUnpack b = some r := by
  have hall : ∀ x ∈ sampleResponses, sampleUnpack x.2 = some x.1 := by decide
  obtain ⟨x, hx, rfl⟩ := Option.map_eq_some_iff.mp h
  have hr : x.1 = r := by simpa using List.find?_some hx
  rw [hall x (List.mem_of_find?_eq_some hx), hr]

abbrev sampleService : Service Context Bytes (Option Bytes) :=
  taskService [loadRequest.mBackend] sampleParse sampleStore

def fourClients : System ℕ Context :=
  ⟨fun i => .start (if i < 2 then sampleBytes 1 else statusBytes) (.other 0), Context.init, []⟩

/-- The client with this number has been served. -/
def served (s : System ℕ Context) (i : ℕ) (q b : Bytes) (d : Context) : System ℕ Context :=
  ⟨Function.update s.conns i (exchanged .little (.other 0) q b), d, s.log ++ [(i, q, some b)]⟩

def loadAcceptedTwice : Context :=
  ⟨Function.update loadAccepted.mMap 2 (some .taskPending), 2,
    Function.update loadAccepted.jobs 2 (some ⟨.loadPath, loadRequest.mBackend, .queued⟩)⟩

def firstLoaded : System ℕ Context :=
  served fourClients 0 (sampleBytes 1) (taskBytes 1) loadAccepted

def secondLoaded : System ℕ Context :=
  served firstLoaded 1 (sampleBytes 1) (taskBytes 2) loadAcceptedTwice

def firstAsked : System ℕ Context := served firstLoaded 2 statusBytes pendingBytes loadAccepted

def secondAsked : System ℕ Context := served firstAsked 3 statusBytes pendingBytes loadAccepted

theorem run_firstLoaded :
    ∃ l, Run (Calls.Step sampleService .little sampleMalloc 30) fourClients l firstLoaded :=
  run_exchange (s := fourClients) (d := loadAccepted) rfl (by decide) (by decide) rfl
    ⟨⟨.badRequest, 0⟩, ⟨.accepted, some 1, .success⟩, rfl, by decide⟩

theorem run_secondLoaded :
    ∃ l, Run (Calls.Step sampleService .little sampleMalloc 30) firstLoaded l secondLoaded :=
  run_exchange (s := firstLoaded) (d := loadAcceptedTwice) rfl (by decide) (by decide) rfl
    ⟨⟨.badRequest, 0⟩, ⟨.accepted, some 2, .success⟩, rfl, by decide⟩

theorem run_firstAsked :
    ∃ l, Run (Calls.Step sampleService .little sampleMalloc 30) firstLoaded l firstAsked :=
  run_exchange (s := firstLoaded) (d := loadAccepted) rfl (by decide) (by decide) rfl
    ⟨⟨.badRequest, 0⟩, ⟨.accepted, none, .taskPending⟩, rfl, by decide⟩

theorem run_secondAsked :
    ∃ l, Run (Calls.Step sampleService .little sampleMalloc 30) firstAsked l secondAsked :=
  run_exchange (s := firstAsked) (d := loadAccepted) rfl (by decide) (by decide) rfl
    ⟨⟨.badRequest, 0⟩, ⟨.accepted, none, .taskPending⟩, rfl, by decide⟩

theorem sampleLoad_built : buildRequestMsg .efsLoadPath sampleIocb = some sampleLoad := rfl

theorem sampleLoad_wire : sampleParse (samplePack sampleLoad) = some sampleLoad := by decide

theorem sampleStatus_built :
    buildRequestMsg .efsStatus { sampleIocb with tid := 1 } = some sampleStatus := by decide

theorem sampleStatus_wire : sampleParse (samplePack sampleStatus) = some sampleStatus := by decide

theorem fourClients_started : Started Context.init fourClients := by
  refine ⟨fun i => ⟨_, _, ?_, rfl⟩, rfl, rfl⟩
  split_ifs
  · decide
  · decide

theorem firstLoaded_reachable :
    Calls.Reachable sampleService .little sampleMalloc 30 Context.init firstLoaded :=
  run_firstLoaded.choose_spec.reach fourClients_started

theorem secondLoaded_reachable :
    Calls.Reachable sampleService .little sampleMalloc 30 Context.init secondLoaded :=
  (run_firstLoaded.choose_spec.trans run_secondLoaded.choose_spec).reach fourClients_started

theorem firstAsked_reachable :
    Calls.Reachable sampleService .little sampleMalloc 30 Context.init firstAsked :=
  (run_firstLoaded.choose_spec.trans run_firstAsked.choose_spec).reach fourClients_started

end Samples

/-! ### What the clients are told -/

section Clients
open Calls
variable {ι : Type} [DecidableEq ι] {backends : List Bytes} {parse : Bytes → Option UserRequest}
  {pack : UserRequest → Bytes} {store : UserResponse → Option Bytes}
  {unpack : Bytes → Option UserResponse} {host : Order} {malloc : Malloc} {cap : ℕ}
  {s s' : System ι Context} {i j : ι} {cb cb' : EfsIocb} {m m' : UserRequest} {b b' : Bytes}
  {l : List (Label ι)}

/-- A client whose `efs_load` succeeds has the id of a task of the daemon, and the task is to
load from the backend that the client named. -/
theorem load_gets_task (hs : Calls.Reachable (taskService backends parse store) host malloc cap
      Context.init s)
    (hm : buildRequestMsg .efsLoadPath cb = some m) (hq : (s.conns i).request = pack m)
    (hwire : parse (pack m) = some m) (hresp : ∀ r b, store r = some b → unpack b = some r)
    (hc : (s.conns i).client = .returned (some b)) (hcut : (s.conns i).cut = false)
    (resp : ResponseT) :
    ∃ tid job st, sendLoadRequest unpack resp cb b = (0, { cb with tid := tid.toInt32 }) ∧
      s.daemon.jobs tid = some job ∧ job.type = .loadPath ∧ job.backend = cb.efsBackend ∧
      s.daemon.mMap tid = some st ∧ StatusOk backends job st := by
  obtain ⟨before, after, d, d', -, -, hbefore, hcall, hafter⟩ :=
    (Calls.inv_of_reachable hs).agree hc hcut
  rw [hq] at hcall
  obtain ⟨-, -, hjob, hsend⟩ := load_turn hm hwire hresp hcall
  have hd := (Context.leads_of_serves (.start rfl) hbefore).1
  obtain ⟨junk, r, hhandler, -⟩ := hcall
  obtain ⟨hdaemon, hleads⟩ := Context.leads_of_serves (.next hd (.call hhandler)) hafter
  obtain ⟨job, hjob', htype, hbackend⟩ := hleads.jobs _ _ hjob
  obtain ⟨st, hst, hok⟩ := (Context.inv_of_reachable hdaemon).status _ _ hjob'
  exact ⟨d.id + 1, job, st, hsend resp cb, hjob', htype, hbackend, hst, hok⟩

theorem load_gets_task_sample : ∃ tid job st,
    sendLoadRequest sampleUnpack ⟨.efsBadRequest, 0, 0⟩ sampleIocb (taskBytes 1) =
        (0, { sampleIocb with tid := tid.toInt32 }) ∧
      firstLoaded.daemon.jobs tid = some job ∧ job.type = .loadPath ∧
      job.backend = sampleIocb.efsBackend ∧ firstLoaded.daemon.mMap tid = some st ∧
      StatusOk [loadRequest.mBackend] job st :=
  load_gets_task firstLoaded_reachable (i := 0) sampleLoad_built (by decide) sampleLoad_wire
    sampleUnpack_store rfl rfl _

/-- Two loads are two tasks: at the second turn the tid of the first one is taken. -/
theorem tids_of_order (hs : Calls.Reachable (taskService backends parse store) host malloc cap
      Context.init s)
    (hm : buildRequestMsg .efsLoadPath cb = some m) (hwire : parse (pack m) = some m)
    (hm' : buildRequestMsg .efsLoadPath cb' = some m') (hwire' : parse (pack m') = some m')
    (hresp : ∀ r b, store r = some b → unpack b = some r)
    (horder : InOrder s.log (i, pack m, some b) (j, pack m', some b')) (resp resp' : ResponseT) :
    (sendLoadRequest unpack resp cb b).2.tid ≠ (sendLoadRequest unpack resp' cb' b').2.tid := by
  obtain ⟨l₁, l₂, l₃, d₁, d₂, d₃, d₄, h₁, hcall, h₂, hcall', -⟩ :=
    (Calls.inv_of_reachable hs).turns horder
  obtain ⟨-, hst, hjob, hsend⟩ := load_turn hm hwire hresp hcall
  obtain ⟨hfree, -, -, hsend'⟩ := load_turn hm' hwire' hresp hcall'
  obtain ⟨junk, r, hhandler, -⟩ := hcall
  have hd := (Context.leads_of_serves (.start rfl) h₁).1
  obtain ⟨st, hst', -⟩ :=
    (Context.leads_of_serves (.next hd (.call hhandler)) h₂).2.status _ _ _ hjob hst
  rw [hsend, hsend']
  intro heq
  have htid : d₁.id + 1 = d₃.id + 1 := by
    rw [← UInt32.toUInt32_toInt32 (d₁.id + 1), ← UInt32.toUInt32_toInt32 (d₃.id + 1)]
    exact congrArg Int32.toUInt32 heq
  rw [htid, hfree] at hst'
  cases hst'

/-- No two clients that load are given the same task id. -/
theorem load_tids_distinct (hs : Calls.Reachable (taskService backends parse store) host malloc cap
      Context.init s) (hij : i ≠ j)
    (hm : buildRequestMsg .efsLoadPath cb = some m) (hq : (s.conns i).request = pack m)
    (hwire : parse (pack m) = some m)
    (hm' : buildRequestMsg .efsLoadPath cb' = some m') (hq' : (s.conns j).request = pack m')
    (hwire' : parse (pack m') = some m') (hresp : ∀ r b, store r = some b → unpack b = some r)
    (hc : (s.conns i).client = .returned (some b)) (hcut : (s.conns i).cut = false)
    (hc' : (s.conns j).client = .returned (some b')) (hcut' : (s.conns j).cut = false)
    (resp resp' : ResponseT) :
    (sendLoadRequest unpack resp cb b).2.tid ≠ (sendLoadRequest unpack resp' cb' b').2.tid := by
  have horder := (Calls.inv_of_reachable hs).two hij hc hcut hc' hcut'
  rw [hq, hq'] at horder
  rcases horder with horder | horder
  · exact tids_of_order hs hm hwire hm' hwire' hresp horder resp resp'
  · exact (tids_of_order hs hm' hwire' hm hwire hresp horder resp' resp).symm

theorem load_tids_distinct_sample :
    (sendLoadRequest sampleUnpack ⟨.efsBadRequest, 0, 0⟩ sampleIocb (taskBytes 1)).2.tid ≠
      (sendLoadRequest sampleUnpack ⟨.efsBadRequest, 0, 0⟩ sampleIocb (taskBytes 2)).2.tid :=
  load_tids_distinct secondLoaded_reachable (i := 0) (j := 1) (by decide) sampleLoad_built
    (by decide) sampleLoad_wire sampleLoad_built (by decide) sampleLoad_wire sampleUnpack_store
    rfl rfl rfl rfl _ _

/-- What a load that was pending can have come to. -/
theorem moves_load {st : ErrorCode}
    (h : Relation.ReflTransGen (Moves .loadPath) .taskPending st) :
    st ∈ ErrorCode.taskPending :: .taskInProgress :: loadCodes := by
  induction h with
  | refl => exact List.mem_cons_self
  | tail _ hmove ih =>
    cases hmove with
    | stay => exact ih
    | start => exact List.mem_cons_of_mem _ List.mem_cons_self
    | finish hfinal => exact List.mem_cons_of_mem _ (List.mem_cons_of_mem _ hfinal)

theorem ne_noSuchTask_of_load {st : ErrorCode}
    (h : st ∈ ErrorCode.taskPending :: .taskInProgress :: loadCodes) :
    makeApiError st ≠ makeApiError .noSuchTask := by
  revert st
  decide

/-- An `efs_status` that starts after `efs_load` has returned finds the task, and is told a
status that the load can have come to. -/
theorem status_after_load (hs : Calls.Reachable (taskService backends parse store) host malloc cap
      Context.init s)
    (hm : buildRequestMsg .efsLoadPath cb = some m) (hq : (s.conns i).request = pack m)
    (hwire : parse (pack m) = some m) (hresp : ∀ r b, store r = some b → unpack b = some r)
    (hc : (s.conns i).client = .returned (some b)) (hcut : (s.conns i).cut = false)
    (resp resp' : ResponseT) (hj : (s.conns j).client = .idle)
    (hrun : Run (Calls.Step (taskService backends parse store) host malloc cap) s l s')
    (hm' : buildRequestMsg .efsStatus (sendLoadRequest unpack resp cb b).2 = some m')
    (hq' : (s'.conns j).request = pack m') (hwire' : parse (pack m') = some m')
    (hc' : (s'.conns j).client = .returned (some b')) (hcut' : (s'.conns j).cut = false) :
    sendStatusRequest unpack resp' b' ≠ makeApiError .noSuchTask ∧
    ∃ st ∈ ErrorCode.taskPending :: .taskInProgress :: loadCodes,
      sendStatusRequest unpack resp' b' = makeApiError st ∧
      Relation.ReflTransGen (Moves .loadPath) .taskPending st := by
  have hinv := Calls.inv_of_reachable hs
  have horder := hinv.in_order hc hcut hj hrun hc' hcut'
  rw [hq, hq'] at horder
  obtain ⟨l₁, l₂, l₃, d₁, d₂, d₃, d₄, h₁, hcall, h₂, hcall', -⟩ :=
    (hinv.of_run hrun).turns horder
  obtain ⟨-, hst, hjob, hsend⟩ := load_turn hm hwire hresp hcall
  obtain ⟨-, hstatus⟩ := status_turn hm' hwire' hresp hcall'
  obtain ⟨junk, r, hhandler, -⟩ := hcall
  have hd := (Context.leads_of_serves (.start rfl) h₁).1
  obtain ⟨st, hst', hmoves⟩ :=
    (Context.leads_of_serves (.next hd (.call hhandler)) h₂).2.status _ _ _ hjob hst
  have htold : sendStatusRequest unpack resp' b' = makeApiError st := by
    rw [hstatus, hsend, UInt32.toUInt32_toInt32, hst']
    rfl
  have hmem := moves_load hmoves
  exact ⟨htold ▸ ne_noSuchTask_of_load hmem, st, hmem, htold, hmoves⟩

theorem status_after_load_sample :
    sendStatusRequest sampleUnpack ⟨.efsBadRequest, 0, 0⟩ pendingBytes ≠
      makeApiError .noSuchTask ∧
    ∃ st ∈ ErrorCode.taskPending :: .taskInProgress :: loadCodes,
      sendStatusRequest sampleUnpack ⟨.efsBadRequest, 0, 0⟩ pendingBytes = makeApiError st ∧
      Relation.ReflTransGen (Moves .loadPath) .taskPending st :=
  status_after_load firstLoaded_reachable (i := 0) (j := 2) sampleLoad_built (by decide)
    sampleLoad_wire sampleUnpack_store rfl rfl ⟨.efsBadRequest, 0, 0⟩ _ rfl
    run_firstAsked.choose_spec (by decide) (by decide) sampleStatus_wire rfl rfl

/-- What clients are told of a task goes forward: an `efs_status` that starts after another one
on the task has returned is told the same status or a later one. -/
theorem status_goes_forward (hs : Calls.Reachable (taskService backends parse store) host malloc
      cap Context.init s)
    (hm : buildRequestMsg .efsStatus cb = some m) (hwire : parse (pack m) = some m)
    (hresp : ∀ r b, store r = some b → unpack b = some r) (hq : (s.conns i).request = pack m)
    (hc : (s.conns i).client = .returned (some b)) (hcut : (s.conns i).cut = false)
    (hj : (s.conns j).client = .idle)
    (hrun : Run (Calls.Step (taskService backends parse store) host malloc cap) s l s')
    (hq' : (s'.conns j).request = pack m)
    (hc' : (s'.conns j).client = .returned (some b')) (hcut' : (s'.conns j).cut = false)
    (resp resp' : ResponseT) :
    ∃ st st', sendStatusRequest unpack resp b = makeApiError st ∧
      sendStatusRequest unpack resp' b' = makeApiError st' ∧
      (st = .noSuchTask ∨ ∃ type, Relation.ReflTransGen (Moves type) st st') := by
  have hinv := Calls.inv_of_reachable hs
  have horder := hinv.in_order hc hcut hj hrun hc' hcut'
  rw [hq, hq'] at horder
  obtain ⟨l₁, l₂, l₃, d₁, d₂, d₃, d₄, h₁, hcall, h₂, hcall', -⟩ :=
    (hinv.of_run hrun).turns horder
  obtain ⟨rfl, hstatus⟩ := status_turn hm hwire hresp hcall
  obtain ⟨-, hstatus'⟩ := status_turn hm hwire hresp hcall'
  have hd := (Context.leads_of_serves (.start rfl) h₁).1
  refine ⟨_, _, hstatus resp, hstatus' resp', ?_⟩
  cases hst : d₂.mMap cb.tid.toUInt32 with
  | none => exact .inl rfl
  | some st =>
    obtain ⟨job, hjob⟩ := (Context.inv_of_reachable hd).job _ st hst
    obtain ⟨st', hst', hmoves⟩ := (Context.leads_of_serves hd h₂).2.status _ _ _ hjob hst
    rw [hst']
    exact .inr ⟨job.type, hmoves⟩

theorem status_goes_forward_sample : ∃ st st',
    sendStatusRequest sampleUnpack ⟨.efsBadRequest, 0, 0⟩ pendingBytes = makeApiError st ∧
      sendStatusRequest sampleUnpack ⟨.efsBadRequest, 0, 0⟩ pendingBytes = makeApiError st' ∧
      (st = .noSuchTask ∨ ∃ type, Relation.ReflTransGen (Moves type) st st') :=
  status_goes_forward firstAsked_reachable (i := 2) (j := 3) sampleStatus_built sampleStatus_wire
    sampleUnpack_store (by decide) rfl rfl rfl run_secondAsked.choose_spec (by decide) rfl rfl _ _

end Clients

end EchoFs.Api
