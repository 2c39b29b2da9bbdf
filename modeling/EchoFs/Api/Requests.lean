import Mathlib.Data.List.Basic

/-! Requests between the client library and the daemon: the messages of
`messages.proto`, the client that builds one from an `efs_iocb`, and the daemon
that makes a `request` of it. Allocations of the client succeed. Packing and
parsing are parameters. -/

namespace EchoFs.Api

abbrev Bytes := List UInt8

/-- `UserRequest::Type` -/
inductive MessageType where
  | loadPath
  | unloadPath
  | status
  | getConfig
  | changeType
deriving DecidableEq, Repr

structure LoadPath where
  backend : Bytes
  path : Bytes
  isDirectory : Bool
  offset : Int64
  size : UInt64
deriving DecidableEq

structure UnloadPath where
  path : Bytes
  dest : Bytes
deriving DecidableEq

structure ChangeType where
  path : Bytes
  isPersistent : Bool
deriving DecidableEq

structure UserRequest where
  type : MessageType
  loadDesc : Option LoadPath
  unloadDesc : Option UnloadPath
  changeDesc : Option ChangeType
  tid : Option UInt64
deriving DecidableEq

/-- What the generated `init` functions set. -/
def LoadPath.init : LoadPath := ⟨[], [], false, 0, 0⟩

def UserRequest.init : UserRequest := ⟨.loadPath, none, none, none, none⟩

/-- `request_type_t` of the client -/
inductive RequestTypeT where
  | efsLoadPath
  | efsUnloadPath
  | efsStatus
  | efsGetConfig
deriving DecidableEq, Repr

/-- `struct efs_iocb`; the tid is an `int`. -/
structure EfsIocb where
  efsBackend : Bytes
  efsPath : Bytes
  efsOffset : Int64
  efsSize : UInt64
  tid : Int32

def remapRequestType : RequestTypeT → Option MessageType
  | .efsLoadPath => some .loadPath
  | .efsUnloadPath => some .unloadPath
  | .efsStatus => some .status
  | .efsGetConfig => none

/-- The strings as `xstrdup` copies them. The `\0` that it writes is one byte past the block
it got, which is left out: the packed message does not hold that byte. -/
def buildLoadPathMsg (cb : EfsIocb) : LoadPath :=
  { LoadPath.init with
    backend := cb.efsBackend, path := cb.efsPath, offset := cb.efsOffset, size := cb.efsSize }

def buildRequestMsg (type : RequestTypeT) (cb : EfsIocb) : Option UserRequest :=
  let reqmsg := UserRequest.init
  match type with
  | .efsLoadPath => do
    let type ← remapRequestType type
    return { reqmsg with type := type, loadDesc := some (buildLoadPathMsg cb) }
  | .efsUnloadPath => do
    let type ← remapRequestType type
    return { reqmsg with type := type, loadDesc := some (buildLoadPathMsg cb) }
  | .efsStatus => do
    let type ← remapRequestType type
    return { reqmsg with type := type, tid := some cb.tid.toInt64.toUInt64 }
  | .efsGetConfig => some reqmsg

/-- `request_type` of the daemon -/
inductive RequestType where
  | loadPath
  | unloadPath
  | status
  | getConfig
  | changeType
  | badRequest
deriving DecidableEq, Repr

/-- `request`; a scalar member that no initialiser sets is `none`. -/
structure Request where
  mType : Option RequestType := none
  mBackend : Bytes := []
  mPath : Bytes := []
  mIsDirectory : Option Bool := none
  mOffset : Option Int64 := none
  mSize : Option UInt64 := none
  mTid : Option UInt32 := none
  mIsPersistent : Option Bool := none
  mDest : Bytes := []
deriving DecidableEq

namespace Request

def ofType (type : RequestType) : Request := { mType := some type }

def ofLoad (backend path : Bytes) (isDirectory : Bool) (offset : Int64) (size : UInt64) : Request :=
  { mType := some .loadPath, mBackend := backend, mPath := path, mIsDirectory := some isDirectory,
    mOffset := some offset, mSize := some size }

def ofTid (tid : UInt32) : Request := { mType := some .status, mTid := some tid }

-- the next two constructors leave `m_type` as it is
def ofChange (path : Bytes) (isPersistent : Bool) : Request :=
  { mPath := path, mIsPersistent := some isPersistent }

def ofUnload (path dest : Bytes) : Request := { mPath := path, mDest := dest }

/-- The request of a parsed message. -/
def ofMessage (m : UserRequest) : Request :=
  match m.type with
  | .loadPath => match m.loadDesc with
    | some d => .ofLoad d.backend d.path d.isDirectory (if d.isDirectory then 0 else d.offset)
        (if d.isDirectory then 0 else d.size)
    | none => .ofType .badRequest
  | .unloadPath => match m.unloadDesc with
    | some d => .ofUnload d.path d.dest
    | none => .ofType .badRequest
  | .status => match m.tid with
    | some tid => .ofTid tid.toUInt32
    | none => .ofType .badRequest
  | .getConfig => .ofType .badRequest
  | .changeType => match m.changeDesc with
    | some d => .ofChange d.path d.isPersistent
    | none => .ofType .badRequest

def createFromBuffer (parse : Bytes → Option UserRequest) (buffer : Bytes) : Request :=
  match parse buffer with
  | some m => .ofMessage m
  | none => .ofType .badRequest

end Request

/-- The fields of the request are those of the `efs_iocb`. The tid of the daemon is the
`int` of the client as a `uint32_t`. -/
def Agrees (type : RequestTypeT) (cb : EfsIocb) (r : Request) : Prop :=
  match type with
  | .efsLoadPath => r.mType = some .loadPath ∧ r.mBackend = cb.efsBackend ∧ r.mPath = cb.efsPath ∧
      r.mOffset = some cb.efsOffset ∧ r.mSize = some cb.efsSize
  | .efsUnloadPath => r.mType = some .unloadPath ∧ r.mBackend = cb.efsBackend ∧
      r.mPath = cb.efsPath ∧ r.mOffset = some cb.efsOffset ∧ r.mSize = some cb.efsSize
  | .efsStatus => r.mType = some .status ∧ r.mTid = some cb.tid.toUInt32
  | .efsGetConfig => r.mType = some .getConfig

theorem tid_round (tid : Int32) : tid.toInt64.toUInt64.toUInt32 = tid.toUInt32 := by
  apply UInt32.toBitVec_inj.mp
  rw [UInt64.toBitVec_toUInt32, Int64.toBitVec_toUInt64, Int32.toBitVec_toInt64,
    Int32.toBitVec_toUInt32]
  apply BitVec.eq_of_getLsbD_eq
  intro i hi
  have hi' : i < 64 := by omega
  simp only [BitVec.getLsbD_setWidth, BitVec.getLsbD_signExtend, hi, hi', decide_true,
    Bool.true_and, if_true]

section
variable (pack : UserRequest → Bytes) (parse : Bytes → Option UserRequest)
  {type : RequestTypeT} {cb : EfsIocb} {m : UserRequest}

theorem createFromBuffer_pack (hwire : parse (pack m) = some m) :
    Request.createFromBuffer parse (pack m) = .ofMessage m := by
  unfold Request.createFromBuffer
  rw [hwire]

/-- The daemon reads back what the client has built, unless it is a request to unload:
that one carries the descriptor of a load, and the daemon looks for its own. -/
theorem decode_agrees_iff (hm : buildRequestMsg type cb = some m)
    (htype : type ≠ .efsGetConfig) (hwire : parse (pack m) = some m) :
    Agrees type cb (.createFromBuffer parse (pack m)) ↔ type ≠ .efsUnloadPath := by
  rw [createFromBuffer_pack pack parse hwire]
  cases type with
  | efsLoadPath =>
    obtain rfl := Option.some.inj hm
    exact iff_of_true ⟨rfl, rfl, rfl, rfl, rfl⟩ (by decide)
  | efsUnloadPath =>
    obtain rfl := Option.some.inj hm
    refine iff_of_false ?_ (by decide)
    rintro ⟨htype', -⟩
    cases htype'
  | efsStatus =>
    obtain rfl := Option.some.inj hm
    refine iff_of_true ⟨rfl, ?_⟩ (by decide)
    exact congrArg some (tid_round cb.tid)
  | efsGetConfig => exact absurd rfl htype

end

/-- A load of 4096 bytes of "/a" on the backend "nvml". -/
def sampleIocb : EfsIocb := ⟨[0x6e, 0x76, 0x6d, 0x6c], [0x2f, 0x61], 0, 4096, 0⟩

/-- Its message on the wire, with the number of its type. -/
def sampleBytes (type : UInt8) : Bytes :=
  [0x08, type, 0x12, 0x11, 0x0a, 0x04, 0x6e, 0x76, 0x6d, 0x6c, 0x12, 0x02, 0x2f, 0x61, 0x18, 0x00,
    0x20, 0x00, 0x28, 0x80, 0x20]

def parseOnly (bytes : Bytes) (m : UserRequest) (b : Bytes) : Option UserRequest :=
  if b = bytes then some m else none

theorem decode_agrees_iff_load : ∃ m, buildRequestMsg .efsLoadPath sampleIocb = some m ∧
    Agrees .efsLoadPath sampleIocb
      (.createFromBuffer (parseOnly (sampleBytes 1) m) (sampleBytes 1)) :=
  ⟨_, rfl, (decode_agrees_iff (fun _ => sampleBytes 1) _ rfl (by decide) (if_pos rfl)).mpr
    (by decide)⟩

theorem unload_disagrees : ¬∀ (pack : UserRequest → Bytes) (parse : Bytes → Option UserRequest)
    (type : RequestTypeT) (cb : EfsIocb) (m : UserRequest), buildRequestMsg type cb = some m →
    type ≠ .efsGetConfig → parse (pack m) = some m →
    Agrees type cb (.createFromBuffer parse (pack m)) := by
  intro hclaim
  obtain ⟨htype, -⟩ := hclaim (fun _ => sampleBytes 2) (parseOnly (sampleBytes 2) _) .efsUnloadPath
    sampleIocb _ rfl (by decide) (if_pos rfl)
  exact absurd htype (by decide)

end EchoFs.Api
