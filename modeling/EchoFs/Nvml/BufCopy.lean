import EchoFs.Library.Checked
import EchoFs.Library.Memory

/-! `fuse_buf_copy_pmem`: bytes from the buffers of one vector to those of another, where
each buffer is memory or a file descriptor. What the system calls do with a descriptor is a
parameter, with the bounds on their results that they promise. -/

namespace EchoFs.Nvml.BufCopy
open Checked Memory

/-- `fuse_buf`; `mem` is an address, and the flags are those that the copy reads. -/
structure FuseBuf where
  size : Nat
  isFd : Bool
  fdSeek : Bool
  fdRetry : Bool
  mem : Int
  fd : Int
  pos : Int

structure FuseBufvec where
  idx : Nat
  off : Nat
  buf : List FuseBuf

/-- `fuse_buf_copy_flags` -/
structure CopyFlags where
  noSplice : Bool
  forceSplice : Bool
  spliceMove : Bool
  spliceNonblock : Bool

abbrev Errno := { e : Nat // 0 < e }

def einval : Errno := ⟨22, by decide⟩

/-- The system calls on the state `κ` of the kernel. A position is none where the source
passes a null pointer or calls the variant without one. -/
structure Kernel (κ : Type) where
  read : κ → Int → Option Int → Nat → Except Errno (List UInt8) × κ
  write : κ → Int → Option Int → List UInt8 → Except Errno Nat × κ
  splice : κ → Int → Option Int → Int → Option Int → Nat → CopyFlags → Except Errno Nat × κ
  read_le : ∀ {k fd pos len bytes}, (read k fd pos len).1 = .ok bytes → bytes.length ≤ len
  write_le : ∀ {k fd pos bytes n}, (write k fd pos bytes).1 = .ok n → n ≤ bytes.length
  splice_le : ∀ {k fd pos fd' pos' len flags n},
    (splice k fd pos fd' pos' len flags).1 = .ok n → n ≤ len

structure World (κ : Type) where
  mem : Int → UInt8
  kernel : κ

variable {κ : Type}

namespace FuseBuf

/-- The position in a file, for a descriptor that is sought in. -/
def seekPos (b : FuseBuf) (off : Nat) : Option Int := if b.fdSeek then some (b.pos + off) else none

/-- The loop of `fuse_buf_write`, with the bytes at the source from `src_off` on. -/
def write (K : Kernel κ) (dst : FuseBuf) :
    Nat → κ → Nat → List UInt8 → Nat → Result (Int × κ)
  | 0, _, _, _, _ => .error .unfinished
  | fuel + 1, k, dstOff, bytes, copied =>
    if bytes.length = 0 then
      return (copied, k)
    else
      match K.write k dst.fd (dst.seekPos dstOff) bytes with
      | (.error e, k) => return (if copied = 0 then -(e : Int) else copied, k)
      | (.ok res, k) =>
        if res = 0 then
          return (copied, k)
        else if dst.fdRetry = false then
          return ((copied + res : Nat), k)
        else
          dst.write K fuel k (dstOff + res) (bytes.drop res) (copied + res)

/-- The loop of `fuse_buf_read`, with the bytes that it has put at the destination. -/
def read (K : Kernel κ) (src : FuseBuf) :
    Nat → κ → Nat → Nat → List UInt8 → Result (Int × List UInt8 × κ)
  | 0, _, _, _, _ => .error .unfinished
  | fuel + 1, k, srcOff, len, bytes =>
    if len = 0 then
      return (bytes.length, bytes, k)
    else
      match K.read k src.fd (src.seekPos srcOff) len with
      | (.error e, k) => return (if bytes.length = 0 then -(e : Int) else bytes.length, bytes, k)
      | (.ok res, k) =>
        if res.length = 0 then
          return (bytes.length, bytes, k)
        else if src.fdRetry = false then
          return ((bytes ++ res).length, bytes ++ res, k)
        else
          src.read K fuel k (srcOff + res.length) (len - res.length) (bytes ++ res)

/-- The loop of `fuse_buf_fd_to_fd`, through a buffer of 4096 bytes. -/
def fdToFd (K : Kernel κ) (dst src : FuseBuf) :
    Nat → κ → Nat → Nat → Nat → Nat → Result (Int × κ)
  | 0, _, _, _, _, _ => .error .unfinished
  | fuel + 1, k, dstOff, srcOff, len, copied =>
    if len = 0 then
      return (copied, k)
    else do
      let thisLen := min 4096 len
      let (res, bytes, k) ← src.read K (thisLen + 1) k srcOff thisLen []
      if res < 0 then
        return (if copied = 0 then res else copied, k)
      else if res = 0 then
        return (copied, k)
      else
        let (res, k) ← dst.write K (bytes.length + 1) k dstOff (bytes.take res.toNat) 0
        if res < 0 then
          return (if copied = 0 then res else copied, k)
        else if res = 0 then
          return (copied, k)
        else if res.toNat < thisLen then
          return ((copied + res.toNat : Nat), k)
        else
          dst.fdToFd K src fuel k (dstOff + res.toNat) (srcOff + res.toNat) (len - res.toNat)
            (copied + res.toNat)

/-- The loop of `fuse_buf_splice`; the kernel moves the positions on by what was copied. -/
def spliceLoop (K : Kernel κ) (dst src : FuseBuf) (flags : CopyFlags) (dstOff srcOff : Nat) :
    Nat → κ → Nat → Nat → Result (Int × κ)
  | 0, _, _, _ => .error .unfinished
  | fuel + 1, k, len, copied =>
    if len = 0 then
      return (copied, k)
    else
      match K.splice k src.fd (src.seekPos (srcOff + copied)) dst.fd (dst.seekPos (dstOff + copied))
        len flags with
      | (.error e, k) =>
        if copied ≠ 0 then
          return (copied, k)
        else if e ≠ einval ∨ flags.forceSplice then
          return (-(e : Int), k)
        else
          dst.fdToFd K src (len + 1) k dstOff srcOff len 0
      | (.ok res, k) =>
        if res = 0 then
          return (copied, k)
        else if src.fdRetry = false ∧ dst.fdRetry = false then
          return ((copied + res : Nat), k)
        else
          dst.spliceLoop K src flags dstOff srcOff fuel k (len - res) (copied + res)

/-- `fuse_buf_splice`, with and without `HAVE_SPLICE`. -/
def splice (K : Kernel κ) (haveSplice : Bool) (dst : FuseBuf) (dstOff : Nat) (src : FuseBuf)
    (srcOff len : Nat) (flags : CopyFlags) (k : κ) : Result (Int × κ) :=
  if haveSplice then
    dst.spliceLoop K src flags dstOff srcOff (len + 1) k len 0
  else
    dst.fdToFd K src (len + 1) k dstOff srcOff len 0

/-- Both `pmem_memcpy_nodrain` and `pmem_memmove_nodrain` copy the bytes that were there. -/
def copyMem (m : Int → UInt8) (dstmem srcmem : Int) (len : Nat) : Int → UInt8 :=
  if dstmem ≠ srcmem then overwrite m dstmem (window m srcmem (srcmem + len)) else m

def copyOne (K : Kernel κ) (haveSplice : Bool) (w : World κ) (dst : FuseBuf) (dstOff : Nat)
    (src : FuseBuf) (srcOff len : Nat) (flags : CopyFlags) : Result (Int × World κ) :=
  if src.isFd = false ∧ dst.isFd = false then
    return (len, { w with mem := copyMem w.mem (dst.mem + dstOff) (src.mem + srcOff) len })
  else if src.isFd = false then do
    let bytes := window w.mem (src.mem + srcOff) (src.mem + srcOff + len)
    let (res, k) ← dst.write K (len + 1) w.kernel dstOff bytes 0
    return (res, { w with kernel := k })
  else if dst.isFd = false then do
    let (res, bytes, k) ← src.read K (len + 1) w.kernel srcOff len []
    return (res, ⟨overwrite w.mem (dst.mem + dstOff) bytes, k⟩)
  else if flags.noSplice then do
    let (res, k) ← dst.fdToFd K src (len + 1) w.kernel dstOff srcOff len 0
    return (res, { w with kernel := k })
  else do
    let (res, k) ← dst.splice K haveSplice dstOff src srcOff len flags w.kernel
    return (res, { w with kernel := k })

end FuseBuf

namespace FuseBufvec

def current (v : FuseBufvec) : Option FuseBuf := v.buf[v.idx]?

/-- `fuse_bufvec_advance`; the result is false where the source returns 0. -/
def advance (v : FuseBufvec) (len : Nat) : Result (FuseBufvec × Bool) :=
  match v.current with
  | none => .error .badPointer
  | some buf => do
    let off := v.off + len
    check (off ≤ buf.size)
    if off = buf.size then do
      check (v.idx < v.buf.length)
      if v.idx + 1 = v.buf.length then
        return ({ v with idx := v.idx + 1, off := off }, false)
      else
        return ({ v with idx := v.idx + 1, off := 0 }, true)
    else
      return ({ v with off := off }, true)

end FuseBufvec

/-- The loop of `fuse_buf_copy_pmem`. -/
def copyLoop (K : Kernel κ) (haveSplice : Bool) (flags : CopyFlags) :
    Nat → World κ → FuseBufvec → FuseBufvec → Nat →
    Result (Int × World κ × FuseBufvec × FuseBufvec)
  | 0, _, _, _, _ => .error .unfinished
  | fuel + 1, w, dstv, srcv, copied =>
    match srcv.current, dstv.current with
    | some src, some dst => do
      let len := min (src.size - srcv.off) (dst.size - dstv.off)
      let (res, w) ← FuseBuf.copyOne K haveSplice w dst dstv.off src srcv.off len flags
      if res < 0 then
        return (if copied = 0 then res else copied, w, dstv, srcv)
      else
        let copied := copied + res.toNat
        let (srcv, more) ← srcv.advance res.toNat
        if more = false then return (copied, w, dstv, srcv) else
          let (dstv, more) ← dstv.advance res.toNat
          if more = false then return (copied, w, dstv, srcv) else
            if res.toNat < len then return (copied, w, dstv, srcv) else
              copyLoop K haveSplice flags fuel w dstv srcv copied
    | _, _ => return (copied, w, dstv, srcv)

/-- `fuse_buf_copy_pmem` on two vectors; each round ends a buffer of one of them. -/
def fuseBufCopyPmem (K : Kernel κ) (haveSplice : Bool) (w : World κ) (dstv srcv : FuseBufvec)
    (flags : CopyFlags) : Result (Int × World κ × FuseBufvec × FuseBufvec) :=
  copyLoop K haveSplice flags (dstv.buf.length + srcv.buf.length + 1) w dstv srcv 0

/-! ### Whatever the system calls do -/

section Bounds
variable {fuel len : Nat} {bytes : List UInt8}

theorem write_spec (K : Kernel κ) (dst : FuseBuf) (k : κ) (dstOff copied : Nat)
    (hfuel : bytes.length < fuel) : ∃ res k',
    dst.write K fuel k dstOff bytes copied = .ok (res, k') ∧ res ≤ copied + bytes.length := by
  induction fuel generalizing k dstOff bytes copied with
  | zero => exact absurd hfuel (Nat.not_lt_zero _)
  | succ fuel ih =>
    rw [FuseBuf.write]
    by_cases hlen : bytes.length = 0
    · rw [if_pos hlen]
      exact ⟨_, _, rfl, by omega⟩
    · rw [if_neg hlen]
      cases hw : K.write k dst.fd (dst.seekPos dstOff) bytes with
      | mk r k₁ =>
        cases r with
        | error e =>
          refine ⟨_, _, rfl, ?_⟩
          split_ifs <;> omega
        | ok n =>
          have hle := K.write_le (congrArg Prod.fst hw)
          dsimp only
          by_cases hn : n = 0
          · rw [if_pos hn]
            exact ⟨_, _, rfl, by omega⟩
          · rw [if_neg hn]
            by_cases hretry : dst.fdRetry = false
            · rw [if_pos hretry]
              exact ⟨_, _, rfl, by omega⟩
            · rw [if_neg hretry]
              have hdrop : (bytes.drop n).length < fuel := by
                rw [List.length_drop]
                omega
              obtain ⟨res, k', hrun, hres⟩ := ih k₁ (dstOff + n) (copied + n) hdrop
              rw [List.length_drop] at hres
              exact ⟨res, k', hrun, by omega⟩

theorem read_spec (K : Kernel κ) (src : FuseBuf) (k : κ) (srcOff : Nat) (bytes : List UInt8)
    (hfuel : len < fuel) : ∃ res bytes' k',
    src.read K fuel k srcOff len bytes = .ok (res, bytes', k') ∧
      bytes'.length ≤ bytes.length + len ∧ res ≤ bytes'.length := by
  induction fuel generalizing k srcOff bytes len with
  | zero => exact absurd hfuel (Nat.not_lt_zero _)
  | succ fuel ih =>
    rw [FuseBuf.read]
    by_cases hlen : len = 0
    · rw [if_pos hlen]
      exact ⟨_, _, _, rfl, by omega, le_rfl⟩
    · rw [if_neg hlen]
      cases hr : K.read k src.fd (src.seekPos srcOff) len with
      | mk r k₁ =>
        cases r with
        | error e =>
          refine ⟨_, _, _, rfl, Nat.le_add_right _ _, ?_⟩
          split_ifs <;> omega
        | ok bs =>
          have hle := K.read_le (congrArg Prod.fst hr)
          dsimp only
          by_cases hn : bs.length = 0
          · rw [if_pos hn]
            exact ⟨_, _, _, rfl, by omega, le_rfl⟩
          · rw [if_neg hn]
            by_cases hretry : src.fdRetry = false
            · rw [if_pos hretry]
              exact ⟨_, _, _, rfl, by rw [List.length_append]; omega, le_rfl⟩
            · rw [if_neg hretry]
              obtain ⟨res, bytes', k', hrun, hlen', hres⟩ := ih k₁ (srcOff + bs.length)
                (bytes ++ bs) (show len - bs.length < fuel by omega)
              rw [List.length_append] at hlen'
              exact ⟨res, bytes', k', hrun, by omega, hres⟩

theorem fdToFd_spec (K : Kernel κ) (dst src : FuseBuf) (k : κ) (dstOff srcOff copied : Nat)
    (hfuel : len < fuel) : ∃ res k',
    dst.fdToFd K src fuel k dstOff srcOff len copied = .ok (res, k') ∧ res ≤ copied + len := by
  induction fuel generalizing k dstOff srcOff len copied with
  | zero => exact absurd hfuel (Nat.not_lt_zero _)
  | succ fuel ih =>
    rw [FuseBuf.fdToFd]
    by_cases hlen : len = 0
    · rw [if_pos hlen]
      exact ⟨_, _, rfl, by omega⟩
    · rw [if_neg hlen]
      obtain ⟨r, bytes, k₁, hread, hbytes, hr⟩ := read_spec K src k srcOff []
        (show min 4096 len < min 4096 len + 1 by omega)
      rw [List.length_nil, Nat.zero_add] at hbytes
      simp only [hread, ok_bind]
      by_cases hneg : r < 0
      · rw [if_pos hneg]
        refine ⟨_, _, rfl, ?_⟩
        split_ifs <;> omega
      · rw [if_neg hneg]
        by_cases hzero : r = 0
        · rw [if_pos hzero]
          exact ⟨_, _, rfl, by omega⟩
        · rw [if_neg hzero]
          have htake : (bytes.take r.toNat).length ≤ bytes.length := List.length_take_le' ..
          obtain ⟨q, k₂, hwrite, hq⟩ := write_spec K dst k₁ dstOff 0
            (show (bytes.take r.toNat).length < bytes.length + 1 by omega)
          simp only [hwrite, ok_bind]
          by_cases hqneg : q < 0
          · rw [if_pos hqneg]
            refine ⟨_, _, rfl, ?_⟩
            split_ifs <;> omega
          · rw [if_neg hqneg]
            by_cases hqzero : q = 0
            · rw [if_pos hqzero]
              exact ⟨_, _, rfl, by omega⟩
            · rw [if_neg hqzero]
              by_cases hshort : q.toNat < min 4096 len
              · rw [if_pos hshort]
                exact ⟨_, _, rfl, by omega⟩
              · rw [if_neg hshort]
                obtain ⟨res, k', hrun, hres⟩ := ih k₂ (dstOff + q.toNat) (srcOff + q.toNat)
                  (copied + q.toNat) (show len - q.toNat < fuel by omega)
                exact ⟨res, k', hrun, by omega⟩

theorem spliceLoop_spec (K : Kernel κ) (dst src : FuseBuf) (flags : CopyFlags)
    (dstOff srcOff : Nat) (k : κ) (copied : Nat) (hfuel : len < fuel) : ∃ res k',
    dst.spliceLoop K src flags dstOff srcOff fuel k len copied = .ok (res, k') ∧
      res ≤ copied + len := by
  induction fuel generalizing k len copied with
  | zero => exact absurd hfuel (Nat.not_lt_zero _)
  | succ fuel ih =>
    rw [FuseBuf.spliceLoop]
    by_cases hlen : len = 0
    · rw [if_pos hlen]
      exact ⟨_, _, rfl, by omega⟩
    · rw [if_neg hlen]
      cases hs : K.splice k src.fd (src.seekPos (srcOff + copied)) dst.fd
          (dst.seekPos (dstOff + copied)) len flags with
      | mk r k₁ =>
        cases r with
        | error e =>
          dsimp only
          by_cases hc : copied ≠ 0
          · rw [if_pos hc]
            exact ⟨_, _, rfl, by omega⟩
          · rw [if_neg hc]
            by_cases hf : e ≠ einval ∨ flags.forceSplice = true
            · rw [if_pos hf]
              exact ⟨_, _, rfl, by omega⟩
            · rw [if_neg hf]
              obtain ⟨res, k', hrun, hres⟩ := fdToFd_spec K dst src k₁ dstOff srcOff 0
                (Nat.lt_succ_self len)
              exact ⟨res, k', hrun, by omega⟩
        | ok n =>
          have hle := K.splice_le (congrArg Prod.fst hs)
          dsimp only
          by_cases hn : n = 0
          · rw [if_pos hn]
            exact ⟨_, _, rfl, by omega⟩
          · rw [if_neg hn]
            by_cases hretry : src.fdRetry = false ∧ dst.fdRetry = false
            · rw [if_pos hretry]
              exact ⟨_, _, rfl, by omega⟩
            · rw [if_neg hretry]
              obtain ⟨res, k', hrun, hres⟩ := ih k₁ (copied + n) (show len - n < fuel by omega)
              exact ⟨res, k', hrun, by omega⟩

/-- One piece: no more than `len` bytes are copied. -/
theorem copyOne_spec (K : Kernel κ) (haveSplice : Bool) (w : World κ) (dst : FuseBuf)
    (dstOff : Nat) (src : FuseBuf) (srcOff len : Nat) (flags : CopyFlags) : ∃ res w',
    FuseBuf.copyOne K haveSplice w dst dstOff src srcOff len flags = .ok (res, w') ∧
      res ≤ len := by
  unfold FuseBuf.copyOne
  split_ifs
  · exact ⟨_, _, rfl, le_rfl⟩
  · have hlen : (window w.mem (src.mem + srcOff) (src.mem + srcOff + len)).length < len + 1 := by
      rw [window_length]
      omega
    obtain ⟨res, k', hrun, hres⟩ := write_spec K dst w.kernel dstOff 0 hlen
    rw [window_length] at hres
    simp only [hrun, ok_bind]
    exact ⟨_, _, rfl, by omega⟩
  · obtain ⟨res, bytes, k', hrun, hlen, hres⟩ := read_spec K src w.kernel srcOff []
      (Nat.lt_succ_self len)
    rw [List.length_nil] at hlen
    simp only [hrun, ok_bind]
    exact ⟨_, _, rfl, by omega⟩
  · obtain ⟨res, k', hrun, hres⟩ := fdToFd_spec K dst src w.kernel dstOff srcOff 0
      (Nat.lt_succ_self len)
    simp only [hrun, ok_bind]
    exact ⟨_, _, rfl, by omega⟩
  · unfold FuseBuf.splice
    split_ifs
    · obtain ⟨res, k', hrun, hres⟩ := spliceLoop_spec K dst src flags dstOff srcOff w.kernel 0
        (Nat.lt_succ_self len)
      simp only [hrun, ok_bind]
      exact ⟨_, _, rfl, by omega⟩
    · obtain ⟨res, k', hrun, hres⟩ := fdToFd_spec K dst src w.kernel dstOff srcOff 0
        (Nat.lt_succ_self len)
      simp only [hrun, ok_bind]
      exact ⟨_, _, rfl, by omega⟩

end Bounds

namespace FuseBufvec
variable {v v' : FuseBufvec} {b : FuseBuf} {len : Nat}

/-- The cursor lies within the current buffer, if there is one. -/
structure Valid (v : FuseBufvec) : Prop where
  idx : v.idx ≤ v.buf.length
  off : ∀ b ∈ v.current, v.off ≤ b.size

/-- The addresses from the cursor on. -/
def cells (v : FuseBufvec) : List Int :=
  match v.buf.drop v.idx with
  | [] => []
  | b :: bs => span (b.mem + v.off) (b.size - v.off) ++ bs.flatMap fun b => span b.mem b.size

/-- The bytes from the cursor on. -/
def remaining (v : FuseBufvec) : Nat := v.cells.length

/-- The buffers that are left, at most one of which each round ends. -/
def rounds (v : FuseBufvec) : Nat := v.buf.length - v.idx

theorem cells_none (h : v.current = none) : v.cells = [] := by
  unfold cells
  rw [List.drop_eq_nil_of_le (List.getElem?_eq_none_iff.mp h)]

/-- The current buffer and what comes after it. -/
theorem cells_some (h : v.current = some b) :
    v.cells = span (b.mem + v.off) (b.size - v.off) ++
      (v.buf.drop (v.idx + 1)).flatMap fun b => span b.mem b.size := by
  obtain ⟨hlt, hb⟩ := List.getElem?_eq_some_iff.mp h
  unfold cells
  rw [List.drop_eq_getElem_cons hlt, hb]

theorem cells_start (bufs : List FuseBuf) (i : Nat) :
    cells ⟨i, 0, bufs⟩ = (bufs.drop i).flatMap fun b => span b.mem b.size := by
  unfold cells
  cases bufs.drop i with
  | nil => rfl
  | cons b bs => simp

theorem advance_spec (hv : v.Valid) (hb : v.current = some b) (hlen : len ≤ b.size - v.off) :
    ∃ v' more, v.advance len = .ok (v', more) ∧ v'.Valid ∧ v'.buf = v.buf ∧
      v'.cells = v.cells.drop len ∧ (more = false → v'.current = none) ∧
      v'.rounds ≤ v.rounds ∧ (len = b.size - v.off → v'.rounds < v.rounds) := by
  have hoff := hv.off b hb
  obtain ⟨hlt, -⟩ := List.getElem?_eq_some_iff.mp hb
  unfold advance
  rw [hb]
  dsimp only
  rw [check_ok (by omega), ok_bind]
  by_cases hend : v.off + len = b.size
  · have hdrop : v.cells.drop len =
        (v.buf.drop (v.idx + 1)).flatMap fun b => span b.mem b.size := by
      rw [cells_some hb]
      exact List.drop_left' (by rw [span_length]; omega)
    rw [if_pos hend, check_ok hlt, ok_bind]
    by_cases hlast : v.idx + 1 = v.buf.length
    · have hnone : current { v with idx := v.idx + 1, off := v.off + len } = none :=
        List.getElem?_eq_none_iff.mpr hlast.ge
      rw [if_pos hlast]
      refine ⟨_, _, rfl, ⟨hlast.le, fun b hb => ?_⟩, rfl, ?_, fun _ => hnone, ?_, fun _ => ?_⟩
      · rw [hnone] at hb
        cases hb
      · rw [cells_none hnone, hdrop, List.drop_eq_nil_of_le hlast.ge]
        rfl
      · unfold rounds
        dsimp only
        omega
      · unfold rounds
        dsimp only
        omega
    · rw [if_neg hlast]
      refine ⟨_, _, rfl, ⟨?_, fun b _ => Nat.zero_le _⟩, rfl, ?_, by simp, ?_, fun _ => ?_⟩
      · exact Nat.succ_le_of_lt hlt
      · rw [hdrop]
        exact cells_start v.buf (v.idx + 1)
      · unfold rounds
        dsimp only
        omega
      · unfold rounds
        dsimp only
        omega
  · rw [if_neg hend]
    have hcur : current { v with off := v.off + len } = some b := hb
    refine ⟨_, _, rfl, ⟨hlt.le, fun c hc => ?_⟩, rfl, ?_, by simp, le_rfl, fun h => by omega⟩
    · obtain rfl := Option.some.inj (hcur.symm.trans hc)
      dsimp only
      omega
    · have hsplit : b.size - v.off = len + (b.size - (v.off + len)) := by omega
      rw [cells_some hcur, cells_some hb]
      dsimp only
      rw [hsplit, span_add, List.append_assoc, List.drop_left' (span_length ..)]
      push_cast
      rw [Int.add_assoc]

theorem remaining_drop (h : v'.cells = v.cells.drop len) : v'.remaining = v.remaining - len := by
  unfold remaining
  rw [h, List.length_drop]

theorem le_remaining (h : v.current = some b) : b.size - v.off ≤ v.remaining := by
  unfold remaining
  rw [cells_some h, List.length_append, span_length]
  exact Nat.le_add_right _ _

end FuseBufvec

open FuseBufvec
variable {K : Kernel κ} {haveSplice : Bool} {flags : CopyFlags} {dstv srcv dstv' srcv' : FuseBufvec}
  {w w' : World κ} {fuel n copied : Nat} {res : Int}

/-- What a copy of `n` bytes does to the cursors: that of the source goes on by `n`. That of
the destination does too, unless the source was used up: then the last piece is not counted. -/
structure Advanced (dstv srcv dstv' srcv' : FuseBufvec) (n : Nat) : Prop where
  dst : dstv'.Valid
  src : srcv'.Valid
  srcCells : srcv'.cells = srcv.cells.drop n
  srcBuf : srcv'.buf = srcv.buf
  dstBuf : dstv'.buf = dstv.buf
  le : n ≤ srcv.remaining ∧ n ≤ dstv.remaining
  dstCells : dstv'.cells = dstv.cells.drop n ∨ srcv'.current = none

theorem advanced_refl (hd : dstv.Valid) (hs : srcv.Valid) : Advanced dstv srcv dstv srcv 0 :=
  ⟨hd, hs, rfl, rfl, rfl, ⟨Nat.zero_le _, Nat.zero_le _⟩, .inl rfl⟩

/-- A piece, and what is copied after it. -/
theorem Advanced.after {d s : FuseBufvec} {m : Nat} (h : Advanced d s dstv' srcv' n)
    (hd : d.cells = dstv.cells.drop m) (hs : s.cells = srcv.cells.drop m) (hdb : d.buf = dstv.buf)
    (hsb : s.buf = srcv.buf) (hm : m ≤ srcv.remaining ∧ m ≤ dstv.remaining) :
    Advanced dstv srcv dstv' srcv' (m + n) where
  dst := h.dst
  src := h.src
  srcCells := by rw [h.srcCells, hs, List.drop_drop]
  srcBuf := h.srcBuf.trans hsb
  dstBuf := h.dstBuf.trans hdb
  le := by
    have hle := h.le
    rw [remaining_drop hd, remaining_drop hs] at hle
    omega
  dstCells := h.dstCells.imp_left fun hc => by rw [hc, hd, List.drop_drop]

/-- What the loop adds to the bytes copied before, and its result. -/
def Copies (dstv srcv dstv' srcv' : FuseBufvec) (copied : Nat) (res : Int) : Prop :=
  ∃ n, Advanced dstv srcv dstv' srcv' n ∧
    (res = (copied + n : Nat) ∨ res < 0 ∧ copied = 0 ∧ n = 0)

theorem copyLoop_spec (copied : Nat) (hd : dstv.Valid) (hs : srcv.Valid)
    (hfuel : dstv.rounds + srcv.rounds < fuel) :
    ∃ res w' dstv' srcv', copyLoop K haveSplice flags fuel w dstv srcv copied =
      .ok (res, w', dstv', srcv') ∧ Copies dstv srcv dstv' srcv' copied res := by
  induction fuel generalizing w dstv srcv copied with
  | zero => exact absurd hfuel (Nat.not_lt_zero _)
  | succ fuel ih =>
    have hstop : Copies dstv srcv dstv srcv copied copied := ⟨0, advanced_refl hd hs, .inl rfl⟩
    rw [copyLoop]
    cases hsc : srcv.current with
    | none => exact ⟨_, _, _, _, rfl, hstop⟩
    | some s =>
      cases hdc : dstv.current with
      | none => exact ⟨_, _, _, _, rfl, hstop⟩
      | some d =>
        obtain ⟨res, w', hone, hres⟩ := copyOne_spec K haveSplice w d dstv.off s srcv.off
          (min (s.size - srcv.off) (d.size - dstv.off)) flags
        simp only [hone, ok_bind]
        by_cases hneg : res < 0
        · rw [if_pos hneg]
          refine ⟨_, _, _, _, rfl, 0, advanced_refl hd hs, ?_⟩
          split_ifs with hc
          · exact .inr ⟨hneg, hc, rfl⟩
          · exact .inl rfl
        · have hsrem := le_remaining hsc
          have hdrem := le_remaining hdc
          have hle : res.toNat ≤ srcv.remaining ∧ res.toNat ≤ dstv.remaining := by omega
          obtain ⟨s', more, hsadv, hsv, hsb, hsc', hslast, hsr, hsrl⟩ :=
            advance_spec hs hsc (show res.toNat ≤ s.size - srcv.off by omega)
          obtain ⟨d', more', hdadv, hdv, hdb, hdc', -, hdr, hdrl⟩ :=
            advance_spec hd hdc (show res.toNat ≤ d.size - dstv.off by omega)
          rw [if_neg hneg, hsadv]
          simp only [ok_bind]
          cases more with
          | false =>
            refine ⟨_, _, _, _, rfl, res.toNat, ⟨hd, hsv, hsc', hsb, rfl, hle,
              .inr (hslast rfl)⟩, .inl rfl⟩
          | true =>
            have hpiece : Copies dstv srcv d' s' copied (copied + res.toNat : Nat) :=
              ⟨res.toNat, ⟨hdv, hsv, hsc', hsb, hdb, hle, .inl hdc'⟩, .inl rfl⟩
            rw [if_neg Bool.false_ne_true.symm, hdadv]
            simp only [ok_bind]
            cases more' with
            | false => exact ⟨_, _, _, _, rfl, hpiece⟩
            | true =>
              rw [if_neg Bool.false_ne_true.symm]
              by_cases hshort : res.toNat < min (s.size - srcv.off) (d.size - dstv.off)
              · rw [if_pos hshort]
                exact ⟨_, _, _, _, rfl, hpiece⟩
              · rw [if_neg hshort]
                obtain ⟨res', w'', dstv', srcv', hrun, n, hadv, hcases⟩ :=
                  ih (copied + res.toNat) (w := w') hdv hsv (by omega)
                refine ⟨_, _, _, _, hrun, res.toNat + n, hadv.after hdc' hsc' hdb hsb hle, ?_⟩
                rcases hcases with rfl | ⟨hneg', hzero, hn⟩
                · exact .inl (by rw [Nat.add_assoc])
                · exact .inr ⟨hneg', by omega, by omega⟩

/-- Reads give zeros, writes take everything, and nothing can be spliced. -/
def zeroKernel : Kernel Unit where
  read _ _ _ len := (.ok (List.replicate len 0), ())
  write _ _ _ bytes := (.ok bytes.length, ())
  splice _ _ _ _ _ _ _ := (.error einval, ())
  read_le h := by
    obtain rfl := Except.ok.inj h
    rw [List.length_replicate]
  write_le h := (Except.ok.inj h).ge
  splice_le h := by cases h

/-- Eight bytes of memory, and a descriptor with four bytes. -/
def memory₈ : FuseBufvec := ⟨0, 0, [⟨8, false, true, true, 0, -1, 0⟩]⟩

def descriptor₄ : FuseBufvec := ⟨0, 0, [⟨4, true, false, true, 0, 3, 0⟩]⟩

def FuseBufvec.IsMem (v : FuseBufvec) : Prop := ∀ b ∈ v.buf, b.isFd = false

theorem FuseBufvec.IsMem.of_buf {v v' : FuseBufvec} (h : v.IsMem) (hbuf : v'.buf = v.buf) :
    v'.IsMem := by
  unfold IsMem
  rw [hbuf]
  exact h

theorem copyMem_eq (m : Int → UInt8) (a b : Int) (len : Nat) :
    FuseBuf.copyMem m a b len = put m (span a len) ((span b len).map m) := by
  have hput := put_span m a ((span b len).map m)
  rw [List.length_map, span_length] at hput
  rw [hput, ← window_eq_map]
  unfold FuseBuf.copyMem
  split_ifs with hab
  · rfl
  · obtain rfl := not_not.mp hab
    exact (overwrite_window m a _).symm

theorem FuseBufvec.cells_take {v : FuseBufvec} {b : FuseBuf} {len : Nat} (h : v.current = some b)
    (hlen : len ≤ b.size - v.off) : v.cells.take len = span (b.mem + v.off) len := by
  rw [cells_some h, List.take_append_of_le_length (by rw [span_length]; exact hlen),
    span_take _ hlen]

theorem copyLoop_mem (copied : Nat) (hd : dstv.Valid) (hs : srcv.Valid) (hdm : dstv.IsMem)
    (hsm : srcv.IsMem) (hdisj : ∀ a ∈ srcv.cells, a ∉ dstv.cells)
    (hfuel : dstv.rounds + srcv.rounds < fuel) :
    ∃ dstv' srcv', copyLoop K haveSplice flags fuel w dstv srcv copied =
      .ok ((copied + min srcv.remaining dstv.remaining : Nat),
        { w with mem := put w.mem dstv.cells (srcv.cells.map w.mem) }, dstv', srcv') ∧
      Advanced dstv srcv dstv' srcv' (min srcv.remaining dstv.remaining) := by
  induction fuel generalizing w dstv srcv copied with
  | zero => exact absurd hfuel (Nat.not_lt_zero _)
  | succ fuel ih =>
    rw [copyLoop]
    cases hsc : srcv.current with
    | none =>
      have hnil := cells_none hsc
      have hrem : srcv.remaining = 0 := by rw [remaining, hnil, List.length_nil]
      rw [hnil, hrem, Nat.zero_min, List.map_nil, put_nil_right]
      exact ⟨_, _, rfl, advanced_refl hd hs⟩
    | some s =>
      cases hdc : dstv.current with
      | none =>
        have hnil := cells_none hdc
        have hrem : dstv.remaining = 0 := by rw [remaining, hnil, List.length_nil]
        rw [hnil, hrem, Nat.min_zero, put_nil_left]
        exact ⟨_, _, rfl, advanced_refl hd hs⟩
      | some d =>
        dsimp only
        generalize hlen : min (s.size - srcv.off) (d.size - dstv.off) = len
        have hsrem := le_remaining hsc
        have hdrem := le_remaining hdc
        have hls : len ≤ s.size - srcv.off := by omega
        have hld : len ≤ d.size - dstv.off := by omega
        have hle : len ≤ srcv.remaining ∧ len ≤ dstv.remaining := by omega
        obtain ⟨m', hm'⟩ : ∃ m', m' = put w.mem (dstv.cells.take len)
          ((srcv.cells.take len).map w.mem) := ⟨_, rfl⟩
        have hone : FuseBuf.copyOne K haveSplice w d dstv.off s srcv.off len flags =
            .ok (len, ⟨m', w.kernel⟩) := by
          unfold FuseBuf.copyOne
          rw [if_pos ⟨hsm s (List.mem_of_getElem? hsc), hdm d (List.mem_of_getElem? hdc)⟩,
            copyMem_eq, ← cells_take hsc hls, ← cells_take hdc hld, ← hm']
          rfl
        obtain ⟨s', more, hsadv, hsv, hsb, hsc', hslast, hsr, hsrl⟩ := advance_spec hs hsc hls
        obtain ⟨d', more', hdadv, hdv, hdb, hdc', hdlast, hdr, hdrl⟩ := advance_spec hd hdc hld
        have hstop : min srcv.remaining dstv.remaining = len →
            put w.mem dstv.cells (srcv.cells.map w.mem) = m' := by
          intro hmin
          have hslen : (srcv.cells.map w.mem).length = srcv.remaining := List.length_map ..
          rw [hm', List.map_take]
          rcases Nat.le_total srcv.remaining dstv.remaining with hsd | hsd
          · rw [List.take_of_length_le (l := srcv.cells.map w.mem) (by omega),
              put_take_left _ _ (by omega)]
          · rw [List.take_of_length_le (l := dstv.cells) (show dstv.remaining ≤ len by omega),
              put_take_right _ _ (show dstv.remaining ≤ len by omega)]
        simp only [hone, ok_bind]
        rw [if_neg (by omega), Int.toNat_natCast, hsadv]
        simp only [ok_bind]
        cases more with
        | false =>
          have hmin : min srcv.remaining dstv.remaining = len := by
            have hrem := remaining_drop hsc'
            rw [remaining, cells_none (hslast rfl), List.length_nil] at hrem
            omega
          rw [hmin, hstop hmin]
          exact ⟨_, _, rfl, ⟨hd, hsv, hsc', hsb, rfl, hle, .inr (hslast rfl)⟩⟩
        | true =>
          rw [if_neg Bool.false_ne_true.symm, hdadv]
          simp only [ok_bind]
          cases more' with
          | false =>
            have hmin : min srcv.remaining dstv.remaining = len := by
              have hrem := remaining_drop hdc'
              rw [remaining, cells_none (hdlast rfl), List.length_nil] at hrem
              omega
            rw [hmin, hstop hmin]
            exact ⟨_, _, rfl, ⟨hdv, hsv, hsc', hsb, hdb, hle, .inl hdc'⟩⟩
          | true =>
            rw [if_neg Bool.false_ne_true.symm, if_neg (lt_irrefl len)]
            have hdisj' : ∀ a ∈ s'.cells, a ∉ d'.cells := by
              rw [hsc', hdc']
              exact fun a ha ha' => hdisj a (List.mem_of_mem_drop ha) (List.mem_of_mem_drop ha')
            obtain ⟨dstv', srcv', hrun, hadv⟩ := ih (copied + len) (w := ⟨m', w.kernel⟩)
              hdv hsv (hdm.of_buf hdb) (hsm.of_buf hsb) hdisj' (by omega)
            have hrest : s'.cells.map m' = s'.cells.map w.mem := by
              refine List.map_congr_left fun a ha => ?_
              rw [hm']
              refine put_of_notMem fun ha' => ?_
              rw [hsc'] at ha
              exact hdisj a (List.mem_of_mem_drop ha) (List.mem_of_mem_take ha')
            have hput : put w.mem dstv.cells (srcv.cells.map w.mem) =
                put m' d'.cells (s'.cells.map w.mem) := by
              have hlen : (dstv.cells.take len).length =
                  ((srcv.cells.take len).map w.mem).length := by
                unfold remaining at hle
                rw [List.length_map, List.length_take, List.length_take]
                omega
              rw [hm', hdc', hsc', ← put_append hlen, List.take_append_drop, ← List.map_append,
                List.take_append_drop]
            have hcount : len + min s'.remaining d'.remaining =
                min srcv.remaining dstv.remaining := by
              rw [remaining_drop hsc', remaining_drop hdc']
              omega
            refine ⟨dstv', srcv', ?_, hcount ▸ hadv.after hdc' hsc' hdb hsb hle⟩
            rw [hrun, hput, ← hcount, Nat.add_assoc, hrest]

/-- Between memory buffers that do not overlap, the copy moves as many bytes as both sides
have, in their order, however either side is split into buffers. -/
theorem fuseBufCopyPmem_mem (K : Kernel κ) (haveSplice : Bool) (w : World κ) (flags : CopyFlags)
    (hd : dstv.Valid) (hs : srcv.Valid) (hdm : dstv.IsMem) (hsm : srcv.IsMem)
    (hdisj : ∀ a ∈ srcv.cells, a ∉ dstv.cells) :
    ∃ dstv' srcv', fuseBufCopyPmem K haveSplice w dstv srcv flags =
      .ok ((min srcv.remaining dstv.remaining : Nat),
        { w with mem := put w.mem dstv.cells (srcv.cells.map w.mem) }, dstv', srcv') ∧
      Advanced dstv srcv dstv' srcv' (min srcv.remaining dstv.remaining) := by
  have hfuel : dstv.rounds + srcv.rounds < dstv.buf.length + srcv.buf.length + 1 := by
    unfold rounds
    omega
  obtain ⟨dstv', srcv', hrun, hadv⟩ := copyLoop_mem (K := K) (w := w) 0 hd hs hdm hsm hdisj hfuel
  rw [Nat.zero_add] at hrun
  exact ⟨dstv', srcv', hrun, hadv⟩

/-- Two buffers of memory beyond the other eight bytes. -/
def memory₃₂ : FuseBufvec :=
  ⟨0, 0, [⟨3, false, false, false, 10, -1, 0⟩, ⟨2, false, false, false, 20, -1, 0⟩]⟩

/-- How the two sides are split into buffers does not show, nor do the flags and the kernel:
two calls whose vectors name the same bytes in the same order copy the same bytes. -/
theorem fuseBufCopyPmem_layout (K K' : Kernel κ) (haveSplice haveSplice' : Bool) (w : World κ)
    (flags flags' : CopyFlags) (hd : dstv.Valid) (hs : srcv.Valid) (hdm : dstv.IsMem)
    (hsm : srcv.IsMem) (hd' : dstv'.Valid) (hs' : srcv'.Valid) (hdm' : dstv'.IsMem)
    (hsm' : srcv'.IsMem) (hdst : dstv'.cells = dstv.cells) (hsrc : srcv'.cells = srcv.cells)
    (hdisj : ∀ a ∈ srcv.cells, a ∉ dstv.cells) :
    ∃ w' d s d' s',
      fuseBufCopyPmem K haveSplice w dstv srcv flags =
        .ok ((min srcv.remaining dstv.remaining : Nat), w', d, s) ∧
      fuseBufCopyPmem K' haveSplice' w dstv' srcv' flags' =
        .ok ((min srcv.remaining dstv.remaining : Nat), w', d', s') ∧
      s.cells = srcv.cells.drop (min srcv.remaining dstv.remaining) ∧ s'.cells = s.cells := by
  obtain ⟨d, s, hrun, hadv⟩ := fuseBufCopyPmem_mem K haveSplice w flags hd hs hdm hsm hdisj
  obtain ⟨d', s', hrun', hadv'⟩ := fuseBufCopyPmem_mem K' haveSplice' w flags' hd' hs' hdm' hsm'
    (by rwa [hdst, hsrc])
  have hsize : srcv'.remaining = srcv.remaining := by
    unfold remaining
    rw [hsrc]
  have hsize' : dstv'.remaining = dstv.remaining := by
    unfold remaining
    rw [hdst]
  rw [hdst, hsrc, hsize, hsize'] at hrun'
  refine ⟨_, d, s, d', s', hrun, hrun', hadv.srcCells, ?_⟩
  rw [hadv'.srcCells, hadv.srcCells, hsrc, hsize, hsize']

/-- The same five bytes, the last of the first buffer in one of its own and an empty buffer
between the others. -/
def memory₂₁₀₂ : FuseBufvec :=
  ⟨0, 0, [⟨2, false, false, false, 10, -1, 0⟩, ⟨1, false, false, false, 12, -1, 0⟩,
    ⟨0, false, false, false, 50, -1, 0⟩, ⟨2, false, false, false, 20, -1, 0⟩]⟩

theorem fuseBufCopyPmem_layout_pieces : ∃ w' d s d' s',
    fuseBufCopyPmem zeroKernel true ⟨fun a => a.toNat.toUInt8, ()⟩ memory₈ memory₃₂
        ⟨false, false, true, false⟩ =
      .ok ((min memory₃₂.remaining memory₈.remaining : Nat), w', d, s) ∧
    fuseBufCopyPmem zeroKernel false ⟨fun a => a.toNat.toUInt8, ()⟩ memory₈ memory₂₁₀₂
        ⟨false, false, false, false⟩ =
      .ok ((min memory₃₂.remaining memory₈.remaining : Nat), w', d', s') ∧
    s.cells = memory₃₂.cells.drop (min memory₃₂.remaining memory₈.remaining) ∧
    s'.cells = s.cells :=
  fuseBufCopyPmem_layout zeroKernel zeroKernel true false ⟨fun a => a.toNat.toUInt8, ()⟩
    ⟨false, false, true, false⟩ ⟨false, false, false, false⟩
    ⟨by decide, fun _ _ => Nat.zero_le _⟩ ⟨by decide, fun _ _ => Nat.zero_le _⟩
    (by unfold FuseBufvec.IsMem; decide) (by unfold FuseBufvec.IsMem; decide)
    ⟨by decide, fun _ _ => Nat.zero_le _⟩ ⟨by decide, fun _ _ => Nat.zero_le _⟩
    (by unfold FuseBufvec.IsMem; decide) (by unfold FuseBufvec.IsMem; decide)
    rfl (by decide) (by decide)

end EchoFs.Nvml.BufCopy
