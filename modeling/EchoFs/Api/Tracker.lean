import Mathlib.Logic.Function.Basic
import EchoFs.Api.Requests
import EchoFs.Library.Checked
import EchoFs.Library.Transition

/-! The life of an asynchronous request: `context::api_handler` gives it a tid and
hands it to the thread pool, its handler runs there, and the tracker keeps its
status. One thread runs `api_handler`, call after call. -/

namespace EchoFs.Api
open Checked Transition

inductive ErrorCode where
  | success
  | internalError
  | invalidArguments
  | badRequest
  | noSuchTask
  | taskPending
  | taskInProgress
  | noSuchPath
  | pathAlreadyImported
deriving DecidableEq, Repr

/-- What the backends return from `load` and `unload`. -/
def loadCodes : List ErrorCode := [.success, .internalError, .noSuchPath, .pathAlreadyImported]

def unloadCodes : List ErrorCode := [.success, .internalError]

/-- Where a handler is: in the queue of the pool, in the backend, or at its end. -/
inductive Phase where
  | queued
  | running
  | returned
deriving DecidableEq, Repr

structure Job where
  type : RequestType
  backend : Bytes
  phase : Phase

/-- `m_tracker`, the counter of `create_tid` and the handlers by their tid. -/
structure Context where
  mMap : UInt32 → Option ErrorCode
  id : UInt32
  jobs : UInt32 → Option Job

/-- What a read of a member that was never set gives. -/
structure Junk where
  type : RequestType
  tid : UInt32

inductive ResponseType where
  | accepted
  | rejected
deriving DecidableEq, Repr

structure Response where
  mType : ResponseType
  mTid : Option UInt32
  mRetval : ErrorCode
deriving DecidableEq

def Request.type (r : Request) (junk : Junk) : RequestType := r.mType.getD junk.type

def Request.tid (r : Request) (junk : Junk) : UInt32 := r.mTid.getD junk.tid

namespace Context

def init : Context := ⟨fun _ => none, 0, fun _ => none⟩

/-- `tracker::add` -/
def add (s : Context) (tid : UInt32) (status : ErrorCode) : Result Context := do
  check (s.mMap tid = none)
  return { s with mMap := Function.update s.mMap tid (some status) }

/-- `tracker::set`, which ignores a tid that is not there -/
def set (s : Context) (tid : UInt32) (status : ErrorCode) : Context :=
  if s.mMap tid = none then s
  else { s with mMap := Function.update s.mMap tid (some status) }

def submit (s : Context) (tid : UInt32) (job : Job) : Context :=
  { s with jobs := Function.update s.jobs tid (some job) }

def apiHandler (s : Context) (r : Request) (junk : Junk) : Result (Context × Response) :=
  match r.type junk with
  | .badRequest => return (s, ⟨.rejected, none, .badRequest⟩)
  | .status => return (s, ⟨.accepted, none, (s.mMap (r.tid junk)).getD .noSuchTask⟩)
  | type => do
    let tid := s.id + 1
    let s := { s with id := tid }
    check (s.mMap tid = none)
    let s ← s.add tid .taskPending
    return (s.submit tid ⟨type, r.mBackend, .queued⟩, ⟨.accepted, some tid, .success⟩)

/-- The handler up to the call of the backend. -/
def startHandler (backends : List Bytes) (s : Context) (tid : UInt32) (job : Job) : Context :=
  match job.type with
  | .loadPath | .unloadPath =>
    if job.backend ∈ backends then
      (s.set tid .taskInProgress).submit tid { job with phase := .running }
    else
      s.submit tid { job with phase := .returned }
  | _ => s.submit tid { job with phase := .returned }

/-- The backend has returned `ec`. -/
def finishHandler (s : Context) (tid : UInt32) (job : Job) (ec : ErrorCode) : Context :=
  (s.set tid ec).submit tid { job with phase := .returned }

end Context

inductive Event where
  | call (r : Request) (junk : Junk)
  | start (tid : UInt32)
  | finish (tid : UInt32) (ec : ErrorCode)

/-- The codes the backend can return for a handler of this type. -/
def codesOf : RequestType → List ErrorCode
  | .unloadPath => unloadCodes
  | _ => loadCodes

inductive Step (backends : List Bytes) : Context → Event → Context → Prop
  | call {s s' : Context} {r : Request} {junk : Junk} {resp : Response}
      (h : s.apiHandler r junk = .ok (s', resp)) : Step backends s (.call r junk) s'
  | start {s : Context} {tid : UInt32} {job : Job} (h : s.jobs tid = some job)
      (hphase : job.phase = .queued) :
      Step backends s (.start tid) (s.startHandler backends tid job)
  | finish {s : Context} {tid : UInt32} {job : Job} {ec : ErrorCode} (h : s.jobs tid = some job)
      (hphase : job.phase = .running) (hec : ec ∈ codesOf job.type) :
      Step backends s (.finish tid ec) (s.finishHandler tid job ec)

def Reachable (backends : List Bytes) : Context → Prop := Reach (· = Context.init) (Step backends)

/-- A code that a request of this type ends with. -/
def ErrorCode.Final (type : RequestType) (ec : ErrorCode) : Prop := ec ∈ codesOf type

/-- No request ends with the code of one that has not ended. -/
theorem ErrorCode.Final.ne {ec : ErrorCode} {type : RequestType} (h : ec.Final type) :
    ec ≠ .taskPending ∧ ec ≠ .taskInProgress ∧ ec ≠ .noSuchTask := by
  have hall : ∀ l ∈ [loadCodes, unloadCodes], ∀ ec ∈ l,
      ec ≠ .taskPending ∧ ec ≠ .taskInProgress ∧ ec ≠ .noSuchTask := by decide
  unfold ErrorCode.Final codesOf at h
  split at h
  · exact hall _ (by simp) ec h
  · exact hall _ (by simp) ec h

/-- The request is one the handler serves: of a type that it has a branch for, on a
backend that is registered. -/
def Job.Served (backends : List Bytes) (job : Job) : Prop :=
  (job.type = .loadPath ∨ job.type = .unloadPath) ∧ job.backend ∈ backends

/-- How the status of a request of this type may change in one step. -/
inductive Moves (type : RequestType) : ErrorCode → ErrorCode → Prop
  | stay (ec : ErrorCode) : Moves type ec ec
  | start : Moves type .taskPending .taskInProgress
  | finish {ec : ErrorCode} (h : ec.Final type) : Moves type .taskInProgress ec

def StatusOk (backends : List Bytes) (job : Job) (status : ErrorCode) : Prop :=
  match job.phase with
  | .queued => status = .taskPending
  | .running => job.Served backends ∧ status = .taskInProgress
  | .returned => (job.Served backends ∧ status.Final job.type) ∨
    (¬job.Served backends ∧ status = .taskPending)

/-- Every tid that was handed out has a handler and a status that fits it. -/
structure Context.Inv (backends : List Bytes) (s : Context) : Prop where
  status : ∀ tid job, s.jobs tid = some job → ∃ st, s.mMap tid = some st ∧ StatusOk backends job st
  job : ∀ tid st, s.mMap tid = some st → ∃ job, s.jobs tid = some job

namespace Context
variable {backends : List Bytes} {s s' : Context} {tid : UInt32} {job : Job} {e : Event}

structure Changes (s s' : Context) (tid : UInt32) (st : ErrorCode) (job : Job) : Prop where
  mMap : s'.mMap = Function.update s.mMap tid (some st)
  jobs : s'.jobs = Function.update s.jobs tid (some job)

theorem set_eq {st : ErrorCode} (h : s.mMap tid = some st) (ec : ErrorCode) :
    s.set tid ec = { s with mMap := Function.update s.mMap tid (some ec) } := by
  unfold set
  rw [if_neg (by simp [h])]

theorem startHandler_served (h : job.Served backends) : s.startHandler backends tid job =
    (s.set tid .taskInProgress).submit tid { job with phase := .running } := by
  obtain ⟨htype, hmem⟩ := h
  unfold startHandler
  rcases htype with htype | htype
  · rw [htype]
    exact if_pos hmem
  · rw [htype]
    exact if_pos hmem

theorem startHandler_unserved (h : ¬job.Served backends) : s.startHandler backends tid job =
    s.submit tid { job with phase := .returned } := by
  unfold startHandler
  split
  next htype => exact if_neg fun hmem => h ⟨.inl htype, hmem⟩
  next htype => exact if_neg fun hmem => h ⟨.inr htype, hmem⟩
  next => rfl

/-- An asynchronous request that is accepted gets a tid that is new. -/
theorem apiHandler_cases {r : Request} {junk : Junk} {resp : Response}
    (h : s.apiHandler r junk = .ok (s', resp)) :
    (s' = s ∧ resp.mTid = none) ∨
    (s.mMap (s.id + 1) = none ∧ resp = ⟨.accepted, some (s.id + 1), .success⟩ ∧
      s' = ⟨Function.update s.mMap (s.id + 1) (some .taskPending), s.id + 1,
        Function.update s.jobs (s.id + 1) (some ⟨r.type junk, r.mBackend, .queued⟩)⟩) := by
  unfold apiHandler at h
  split at h
  next =>
    obtain ⟨rfl, rfl⟩ := Prod.mk.inj (Except.ok.inj h)
    exact .inl ⟨rfl, rfl⟩
  next =>
    obtain ⟨rfl, rfl⟩ := Prod.mk.inj (Except.ok.inj h)
    exact .inl ⟨rfl, rfl⟩
  next =>
    obtain ⟨u, hfree, h⟩ := bind_eq_ok.mp h
    have hfree : s.mMap (s.id + 1) = none := of_check hfree
    obtain ⟨s₁, hadd, h⟩ := bind_eq_ok.mp h
    unfold add at hadd
    rw [check_ok hfree, ok_bind] at hadd
    obtain rfl := Except.ok.inj hadd
    obtain ⟨rfl, rfl⟩ := Prod.mk.inj (Except.ok.inj h)
    exact .inr ⟨hfree, rfl, rfl⟩

theorem step_changes (hs : s.Inv backends) (h : Step backends s e s') :
    (s'.mMap = s.mMap ∧ s'.jobs = s.jobs) ∨
    ∃ tid st job, Changes s s' tid st job ∧ StatusOk backends job st ∧
      ∀ old, s.mMap tid = some old →
        ∃ before, s.jobs tid = some before ∧ before.type = job.type ∧ Moves job.type old st := by
  cases h with
  | call h =>
    rcases apiHandler_cases h with ⟨rfl, -⟩ | ⟨hfree, -, rfl⟩
    · exact .inl ⟨rfl, rfl⟩
    · refine .inr ⟨_, _, _, ⟨rfl, rfl⟩, rfl, fun old hold => ?_⟩
      rw [hfree] at hold
      cases hold
  | @start tid job hjob hphase =>
    obtain ⟨st, hst, hok⟩ := hs.status tid job hjob
    unfold StatusOk at hok
    rw [hphase] at hok
    obtain rfl : st = .taskPending := hok
    by_cases hserved : job.Served backends
    · rw [startHandler_served hserved, set_eq hst]
      refine .inr ⟨tid, .taskInProgress, _, ⟨rfl, rfl⟩, ⟨hserved, rfl⟩, fun old hold => ?_⟩
      obtain rfl := Option.some.inj (hst.symm.trans hold)
      exact ⟨job, hjob, rfl, .start⟩
    · rw [startHandler_unserved hserved]
      refine .inr ⟨tid, .taskPending, _, ⟨?_, rfl⟩, .inr ⟨hserved, rfl⟩, fun old hold => ?_⟩
      · rw [← hst, Function.update_eq_self]
        rfl
      · obtain rfl := Option.some.inj (hst.symm.trans hold)
        exact ⟨job, hjob, rfl, .stay _⟩
  | @finish tid job ec hjob hphase hec =>
    obtain ⟨st, hst, hok⟩ := hs.status tid job hjob
    unfold StatusOk at hok
    rw [hphase] at hok
    obtain ⟨hserved, rfl⟩ : job.Served backends ∧ st = .taskInProgress := hok
    unfold finishHandler
    rw [set_eq hst]
    refine .inr ⟨tid, ec, _, ⟨rfl, rfl⟩, .inl ⟨hserved, hec⟩, fun old hold => ?_⟩
    obtain rfl := Option.some.inj (hst.symm.trans hold)
    exact ⟨job, hjob, rfl, .finish hec⟩

theorem Inv.step (hs : s.Inv backends) (h : Step backends s e s') : s'.Inv backends := by
  rcases step_changes hs h with ⟨hmap, hjobs⟩ | ⟨tid, st, job, hch, hok, -⟩
  · exact ⟨by rw [hmap, hjobs]; exact hs.status, by rw [hmap, hjobs]; exact hs.job⟩
  constructor
  · intro t j hj
    rw [hch.jobs] at hj
    rw [hch.mMap]
    by_cases ht : t = tid
    · subst ht
      rw [Function.update_self] at hj ⊢
      obtain rfl := Option.some.inj hj
      exact ⟨st, rfl, hok⟩
    · rw [Function.update_of_ne ht] at hj ⊢
      exact hs.status t j hj
  · intro t st' hst
    rw [hch.mMap] at hst
    rw [hch.jobs]
    by_cases ht : t = tid
    · subst ht
      exact ⟨job, Function.update_self ..⟩
    · rw [Function.update_of_ne ht] at hst ⊢
      exact hs.job t st' hst

theorem inv_of_reachable (h : Reachable backends s) : s.Inv backends := by
  refine Reach.invariant ?_ ?_ h
  · rintro _ rfl
    constructor
    · intro tid job hjob
      cases hjob
    · intro tid st hst
      cases hst
  · intro s e s' hs hstep
    exact hs.step hstep

theorem Inv.moves (hs : s.Inv backends) (h : Step backends s e s') {st : ErrorCode}
    (hst : s.mMap tid = some st) :
    ∃ job st', s.jobs tid = some job ∧ s'.mMap tid = some st' ∧ Moves job.type st st' := by
  rcases step_changes hs h with ⟨hmap, -⟩ | ⟨t, st', job, hch, -, hmoves⟩
  · obtain ⟨job, hjob⟩ := hs.job tid st hst
    exact ⟨job, st, hjob, by rw [hmap]; exact hst, .stay st⟩
  rw [hch.mMap]
  by_cases ht : tid = t
  · subst ht
    obtain ⟨before, hjob, htype, hmove⟩ := hmoves st hst
    exact ⟨before, st', hjob, Function.update_self .., htype ▸ hmove⟩
  · obtain ⟨job, hjob⟩ := hs.job tid st hst
    rw [Function.update_of_ne ht]
    exact ⟨job, st, hjob, hst, .stay st⟩

end Context

/-- In every run: a request that is accepted has a handler under its tid, a handler that
has returned has left a final status exactly if it serves the request, and a status
only moves forward. -/
theorem task_status {backends : List Bytes} {s : Context} (h : Reachable backends s) :
    (∀ r junk s' resp tid, s.apiHandler r junk = .ok (s', resp) → resp.mTid = some tid →
      s'.jobs tid = some ⟨r.type junk, r.mBackend, .queued⟩) ∧
    (∀ tid job, s.jobs tid = some job → job.phase = .returned →
      ((∃ st, s.mMap tid = some st ∧ st.Final job.type) ↔ job.Served backends)) ∧
    ∀ e s' tid st, Step backends s e s' → s.mMap tid = some st →
      ∃ job st', s.jobs tid = some job ∧ s'.mMap tid = some st' ∧ Moves job.type st st' := by
  have hs := Context.inv_of_reachable h
  refine ⟨?_, ?_, fun e s' tid st hstep hst => hs.moves hstep hst⟩
  · intro r junk s' resp tid hcall htid
    rcases Context.apiHandler_cases hcall with ⟨-, hnone⟩ | ⟨-, rfl, rfl⟩
    · rw [hnone] at htid
      cases htid
    · obtain rfl := Option.some.inj htid
      exact Function.update_self ..
  · intro tid job hjob hret
    obtain ⟨st, hst, hok⟩ := hs.status tid job hjob
    unfold StatusOk at hok
    rw [hret] at hok
    have hiff : (∃ st', s.mMap tid = some st' ∧ st'.Final job.type) ↔ st.Final job.type := by
      simp [hst]
    rw [hiff]
    rcases hok with ⟨hserved, hfinal⟩ | ⟨hserved, rfl⟩
    · exact iff_of_true hfinal hserved
    · exact iff_of_false (fun hfinal => hfinal.ne.1 rfl) hserved

def loadRequest : Request := .ofLoad [0x6e, 0x76, 0x6d, 0x6c] [0x2f, 0x61] false 0 4096

def loadAccepted : Context :=
  ⟨Function.update (fun _ => none) 1 (some .taskPending), 1,
    Function.update (fun _ => none) 1 (some ⟨.loadPath, loadRequest.mBackend, .queued⟩)⟩

theorem loadAccepted_reachable (backends : List Bytes) : Reachable backends loadAccepted :=
  .next (e := .call loadRequest ⟨.badRequest, 0⟩) (.start rfl) (.call rfl)

theorem task_status_load : ∃ s tid job st, Reachable [loadRequest.mBackend] s ∧
    s.jobs tid = some job ∧ job.phase = .returned ∧ s.mMap tid = some st ∧
    st.Final job.type := by
  have h₁ : Reachable [loadRequest.mBackend] _ :=
    .next (e := .start 1) (loadAccepted_reachable _) (.start rfl rfl)
  have h₂ : Reachable [loadRequest.mBackend] _ :=
    .next (e := .finish 1 .success) h₁ (.finish rfl rfl (.head _))
  obtain ⟨st, hst, hfinal⟩ := ((task_status h₂).2.1 1 _ rfl rfl).mpr
    ⟨.inl rfl, List.mem_singleton_self _⟩
  exact ⟨_, 1, _, st, h₂, rfl, rfl, hst, hfinal⟩

/-- On a backend that is not registered the status stays as it was. -/
theorem task_stays_pending : ¬∀ (backends : List Bytes) (s : Context) (tid : UInt32) (job : Job),
    Reachable backends s → s.jobs tid = some job → job.phase = .returned →
    ∃ st, s.mMap tid = some st ∧ st.Final job.type := by
  intro hclaim
  have h₁ : Reachable [] _ :=
    .next (e := .start 1) (loadAccepted_reachable []) (.start rfl rfl)
  obtain ⟨st, hst, hfinal⟩ := hclaim [] _ 1 _ h₁ rfl rfl
  have hpending : st = .taskPending := (Option.some.inj hst).symm
  exact hfinal.ne.1 hpending

end EchoFs.Api
