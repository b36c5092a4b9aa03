import ShmSpsc.Producer

/-!
# Creating, attaching and binding

`create` and `attach` on one shared memory object, one step per access to it or per system
call : `createStep` from `ftruncate` to the store to `ready`, `attachStep` through the
polling loop, `validate` and `bind`. Both end in `bindStep`, which samples the two indices,
loads the role's pid, probes it and claims the slot with a compare-exchange that may fail
spuriously.

A step returns the object after it and an `Outcome` : go on, return a bound handle, or
throw.
-/

namespace ShmSpsc

variable {T : Type*}

/-! ## The object -/

/-- The geometry fields of zero-filled memory. -/
def Geometry.zero : Geometry := ⟨0, 0, 0, 0, 0, 0, 0, 0⟩

/-- A shared memory object : its size, the control block's fields and the slots. -/
structure Object (T : Type*) where
  size : UInt64
  geometry : Geometry
  producerPid : ℤ
  consumerPid : ℤ
  ready : UInt32
  ring : Ring T

namespace Object

/-- `(role == Role::Producer) ? producerPid : consumerPid` -/
def pid (o : Object T) : Role → ℤ
  | .producer => o.producerPid
  | .consumer => o.consumerPid

/-- A store to the pid slot of `role`. -/
def setPid (o : Object T) (role : Role) (pid : ℤ) : Object T :=
  match role with
  | .producer => { o with producerPid := pid }
  | .consumer => { o with consumerPid := pid }

@[simp] theorem pid_setPid_self (o : Object T) (role : Role) (pid : ℤ) :
    (o.setPid role pid).pid role = pid := by
  cases role <;> rfl

theorem pid_setPid_of_ne (o : Object T) {role role' : Role} (pid : ℤ) (h : role' ≠ role) :
    (o.setPid role pid).pid role' = o.pid role' := by
  cases role <;> cases role' <;> first | rfl | exact absurd rfl h

@[simp] theorem setPid_geometry (o : Object T) (role : Role) (pid : ℤ) :
    (o.setPid role pid).geometry = o.geometry := by
  cases role <;> rfl

@[simp] theorem setPid_ready (o : Object T) (role : Role) (pid : ℤ) :
    (o.setPid role pid).ready = o.ready := by
  cases role <;> rfl

@[simp] theorem setPid_ring (o : Object T) (role : Role) (pid : ℤ) :
    (o.setPid role pid).ring = o.ring := by
  cases role <;> rfl

end Object

/-! ## `bind` -/

/-- What `kill(pid, 0)` answers. -/
inductive KillResult where
  | ok
  | errno (e : ℕ)
  deriving DecidableEq, Repr

/-- `ESRCH` -/
def esrch : ℕ := 3

/-- `processAlive`, `kill` being the answer of `kill(pid, 0)`. -/
def processAlive (kill : KillResult) (pid : ℤ) : Bool :=
  if pid ≤ 0 then false
  else
    match kill with
    | .ok => true
    | .errno e => e ≠ esrch

/-- Only `ESRCH` tells that a process is gone. -/
theorem processAlive_of_ne {kill : KillResult} {pid : ℤ} (hpos : 0 < pid)
    (h : kill ≠ .errno esrch) : processAlive kill pid := by
  unfold processAlive
  rw [if_neg (by omega)]
  cases kill with
  | ok => rfl
  | errno e => simpa using h

/-- How a step ends : before the next one, with a bound handle, or with an exception. -/
inductive Outcome (π : Type*) where
  | more (pc : π)
  | bound (h : Handle)
  | threw (e : Exception)

/-- What the system answers at a step : `kill`, the compare-exchange, the clock, and the
calls of `ShmSegment::open`. -/
structure Answers where
  kill : KillResult
  spurious : Bool
  lastAttempt : Bool
  rounded : UInt64
  shmOpen : Option ℕ
  fstat : Option ℕ
  mmap : Option ℕ

/-- Before an access of `bind`. -/
inductive BindPc where
  | loadCapacity
  | loadReadIdx (capacity : UInt64)
  | loadWriteIdx (capacity readIdx : UInt64)
  | loadPid (h : Handle)
  | test (h : Handle) (expected : ℤ)
  | cas (h : Handle) (expected : ℤ)

/-- The exception of an attach in a role whose holder is alive. -/
def liveConflict (role : Role) (pid : ℤ) : Exception :=
  .runtimeError ("a live " ++ (if role = .producer then "producer" else "consumer") ++
    " is already attached (pid " ++ toString pid ++ ")")

/-- One step of `bind` in process `self`. -/
def bindStep (role : Role) (self : ℤ) (o : Object T) (ans : Answers) :
    BindPc → Object T × Outcome BindPc
  | .loadCapacity => (o, .more (.loadReadIdx o.geometry.capacity))
  | .loadReadIdx capacity => (o, .more (.loadWriteIdx capacity o.ring.readIdx))
  | .loadWriteIdx capacity r => (o, .more (.loadPid ⟨capacity, r, o.ring.writeIdx⟩))
  | .loadPid h => (o, .more (.test h (o.pid role)))
  | .test h expected =>
    if expected = self then (o, .bound h)
    else if 0 < expected ∧ processAlive ans.kill expected then
      (o, .threw (liveConflict role expected))
    else (o, .more (.cas h expected))
  | .cas h expected =>
    if o.pid role = expected ∧ ans.spurious = false then (o.setPid role self, .bound h)
    else (o, .more (.test h (o.pid role)))

/-- `bind` stores the own pid to the slot, or nothing. -/
theorem bindStep_object (role : Role) (p : ℤ) (o : Object T) (ans : Answers) (b : BindPc) :
    (bindStep role p o ans b).1 = o ∨ (bindStep role p o ans b).1 = o.setPid role p := by
  cases b with
  | test handle expected =>
    simp only [bindStep]
    split_ifs <;> exact .inl rfl
  | cas handle expected =>
    simp only [bindStep]
    split_ifs
    · exact .inr rfl
    · exact .inl rfl
  | _ => exact .inl rfl

/-- `bind` stores nothing unless it returns. -/
theorem bindStep_unbound (role : Role) (p : ℤ) (o : Object T) (ans : Answers) (b : BindPc)
    (h : ∀ handle, (bindStep role p o ans b).2 ≠ .bound handle) :
    (bindStep role p o ans b).1 = o := by
  cases b with
  | test handle expected =>
    simp only [bindStep]
    split_ifs <;> rfl
  | cas handle expected =>
    simp only [bindStep] at h ⊢
    split_ifs at h ⊢
    · exact absurd rfl (h handle)
    · rfl
  | _ => rfl

/-! ## `attach` -/

/-- `st_size` of an object : its size, which the kernel may round up. -/
def stSize (o : Object T) (ans : Answers) : UInt64 :=
  if o.size = 0 then 0 else max o.size ans.rounded

/-- `ShmSegment::open` : the `size()` of the segment it returns. -/
def segmentOpen (name : String) (o : Object T) (ans : Answers) : Except Exception UInt64 := do
  validateName name
  throwErrno ans.shmOpen ("shm_open " ++ name ++ " (is the peer running?)")
  throwErrno ans.fstat ("fstat " ++ name)
  throwIf (stSize o ans = 0)
    (.runtimeError ("shm object " ++ name ++ " has zero size (peer still initialising?)"))
  throwErrno ans.mmap ("mmap " ++ name)
  return stSize o ans

/-- Before an access of `attach`, in a binary with layout `A`. -/
inductive AttachPc where
  | opening (A : Layout)
  | readyCheck (A : Layout) (lastAttempt : Bool) (mapped : UInt64)
  | validating (A : Layout) (mapped : UInt64)
  | binding (b : BindPc)

/-- One step of `attach` in process `self`. -/
def attachStep (name : String) (role : Role) (self : ℤ) (o : Object T) (ans : Answers) :
    AttachPc → Object T × Outcome AttachPc
  | .opening A =>
    match segmentOpen name o ans with
    | .ok mapped => (o, .more (.readyCheck A ans.lastAttempt mapped))
    | .error e => (o, if ans.lastAttempt then .threw e else .more (.opening A))
  | .readyCheck A lastAttempt mapped =>
    if o.ready = 1 then (o, .more (.validating A mapped))
    else if lastAttempt then (o, .threw (.runtimeError ("timed out waiting for " ++ name)))
    else (o, .more (.opening A))
  | .validating A mapped =>
    match validate A o.geometry mapped with
    | .ok () => (o, .more (.binding .loadCapacity))
    | .error e => (o, .threw e)
  | .binding b =>
    match bindStep role self o ans b with
    | (o', .more b') => (o', .more (.binding b'))
    | (o', .bound h) => (o', .bound h)
    | (o', .threw e) => (o', .threw e)

/-! ## `create` -/

/-- A call of `create` by process `creator`, past `bytesNeeded` and `validateName`, with the
answers of its later system calls. -/
structure Setup where
  layout : Layout
  name : String
  requested : UInt64
  bytes : UInt64
  calls : CreateCalls
  role : Role
  creator : ℤ
  named : validateName name = .ok ()
  needed : bytesNeeded layout (clampCapacity requested) = .ok bytes
  creator_pos : 0 < creator

/-- The geometry the creator stores. -/
def Setup.geometry (S : Setup) : Geometry :=
  createdGeometry S.layout (clampCapacity S.requested + 1) S.bytes

/-- Process `1` creates a queue of two slots as its producer. -/
def messageSetup : Setup where
  layout := messageLayout
  name := "/q"
  requested := 1
  bytes := 352
  calls := ⟨none, none, none⟩
  role := .producer
  creator := 1
  named := by decide
  needed := by decide
  creator_pos := by decide

/-- Every call succeeds, and every process answers. -/
def Answers.plain : Answers := ⟨.ok, false, false, 0, none, none, none⟩

/-- Every call succeeds, and the probed process is gone. -/
def Answers.gone : Answers := { Answers.plain with kill := .errno esrch }

/-- Before a system call or a store of `create`. -/
inductive CreatePc where
  | ftruncate
  | mmap
  | memset
  | magic
  | version
  | cacheLineSize
  | elemSize
  | elemAlign
  | capacity
  | slotsOffset
  | totalBytes
  | writeIdx
  | readIdx
  | binding (b : BindPc)
  | ready (h : Handle)

/-- One step of `create`, from `shm_open` on. -/
def createStep (S : Setup) (o : Object T) (ans : Answers) :
    CreatePc → Object T × Outcome CreatePc
  | .ftruncate =>
    match ShmSpsc.ftruncate S.calls.ftruncate S.bytes with
    | some e => (o, .threw (.systemError e ("ftruncate " ++ S.name)))
    | none => ({ o with size := S.bytes }, .more .mmap)
  | .mmap =>
    match S.calls.mmap with
    | some e => (o, .threw (.systemError e ("mmap " ++ S.name)))
    | none => (o, .more .memset)
  | .memset =>
    ({ o with geometry := .zero, producerPid := 0, consumerPid := 0, ready := 0,
              ring := { o.ring with writeIdx := 0, readIdx := 0 } }, .more .magic)
  | .magic => ({ o with geometry := { o.geometry with magic := kMagic } }, .more .version)
  | .version =>
    ({ o with geometry := { o.geometry with version := kVersion } }, .more .cacheLineSize)
  | .cacheLineSize =>
    ({ o with geometry := { o.geometry with cacheLineSize := S.layout.cacheLine.toUInt32 } },
      .more .elemSize)
  | .elemSize =>
    ({ o with geometry := { o.geometry with elemSize := S.layout.elemSize.toUInt32 } },
      .more .elemAlign)
  | .elemAlign =>
    ({ o with geometry := { o.geometry with elemAlign := S.layout.elemAlign.toUInt32 } },
      .more .capacity)
  | .capacity =>
    ({ o with geometry := { o.geometry with capacity := clampCapacity S.requested + 1 } },
      .more .slotsOffset)
  | .slotsOffset =>
    ({ o with geometry :=
        { o.geometry with slotsOffset := S.layout.controlBlockSize.toUInt32 } },
      .more .totalBytes)
  | .totalBytes =>
    ({ o with geometry := { o.geometry with totalBytes := S.bytes } }, .more .writeIdx)
  | .writeIdx => ({ o with ring := { o.ring with writeIdx := 0 } }, .more .readIdx)
  | .readIdx => ({ o with ring := { o.ring with readIdx := 0 } }, .more (.binding .loadCapacity))
  | .binding b =>
    match bindStep S.role S.creator o ans b with
    | (o', .more b') => (o', .more (.binding b'))
    | (o', .bound h) => (o', .more (.ready h))
    | (o', .threw e) => (o', .threw e)
  | .ready h => ({ o with ready := 1 }, .bound h)

end ShmSpsc
