import Kenux.Lib.Run
import Mathlib.Data.UInt

/-!
# The kernel abstraction layer (`kal/src/kal_registry.c`, `kal_capability.c`, `kal_dispatcher.c`, `kal_governance.c`)

What the functions of a backend return is an argument of the step that calls them.
-/

namespace Kal

/-! ## Error codes -/

def kalErrBase : ℤ := -1000

def kalOk : ℤ := 0

def kalENoEnt : ℤ := kalErrBase - 2

def kalEIo : ℤ := kalErrBase - 3

def kalEBadF : ℤ := kalErrBase - 6

def kalEBusy : ℤ := kalErrBase - 9

def kalENoSys : ℤ := kalErrBase - 10

def kalEUnstable : ℤ := kalErrBase - 13

def kalESwitching : ℤ := kalErrBase - 14

def kalECircuit : ℤ := kalErrBase - 15

def kalEBadMsg : ℤ := kalErrBase - 16

/-! ## Capabilities -/

/-- `kal_capability_bitmap_t`. -/
abbrev Capabilities := Fin 4 → UInt64

/-- `kal_cap_clear_all`. -/
def capClearAll : Capabilities := fun _ => 0

def kalCapFork : UInt64 := 3

def kalCapEpoll : UInt64 := 4

/-- `KAL_STRONG_CONTRACT_MASK`. -/
def strongContractMask : Capabilities := fun i => if i = 0 then 1 <<< kalCapFork ||| 1 <<< kalCapEpoll else 0

/-- `kal_capability_check_strong`, less the bits that are missing. -/
def capabilityCheckStrong (caps : Capabilities) : Bool :=
  (List.finRange 4).all fun i => caps i &&& strongContractMask i = strongContractMask i

/-! ## Backends and their registry -/

/-- `kernel_backend_ops`: its name, and which of its functions are there. -/
structure Backend where
  name : String
  probe : Bool
  init : Bool
  shutdown : Bool
  healthCheck : Bool
  syscall : Bool
  mmap : Bool
  hotSwapPause : Bool
  deriving DecidableEq

def kalMaxBackends : ℕ := 16

/-- `g_backends`: no two have the same name. -/
structure Registry where
  backends : List Backend
  names_nodup : (backends.map Backend.name).Nodup
  length_le : backends.length ≤ kalMaxBackends

def Registry.empty : Registry := ⟨[], List.nodup_nil, Nat.zero_le _⟩

/-- A backend in the place of the one with its name. -/
def replace (ops : Backend) (b : Backend) : Backend := if b.name = ops.name then ops else b

theorem replace_name (ops b : Backend) : (replace ops b).name = b.name := by
  unfold replace
  split
  case isTrue h => exact h.symm
  case isFalse => rfl

/-- `kal_registry_register`. -/
def Registry.register (reg : Registry) (ops : Backend) : ℤ × Registry :=
  if hlen : kalMaxBackends ≤ reg.backends.length then (kalEBusy, reg)
  else if hmem : ops.name ∈ reg.backends.map Backend.name then
    (kalOk,
      { backends := reg.backends.map (replace ops)
        names_nodup := by
          rw [List.map_map, show Backend.name ∘ replace ops = Backend.name from funext (replace_name ops)]
          exact reg.names_nodup
        length_le := by
          rw [List.length_map]
          exact reg.length_le })
  else
    (kalOk,
      { backends := reg.backends ++ [ops]
        names_nodup := by
          rw [List.map_append, List.map_singleton, List.nodup_append]
          refine ⟨reg.names_nodup, by simp, fun a ha b hb hab => hmem ?_⟩
          obtain rfl : b = ops.name := by simpa using hb
          exact hab ▸ ha
        length_le := by
          rw [List.length_append, List.length_singleton]
          omega })

/-- `kal_registry_find`. -/
def Registry.find (reg : Registry) (name : Option String) : Option Backend :=
  name.bind fun name => reg.backends.find? fun b => b.name = name

/-! ## The state -/

/-- `kal_backend_state_t`. -/
structure BackendState where
  ops : Option Backend
  caps : Capabilities
  loaded : Bool
  healthy : Bool
  failCount : UInt32

def BackendState.zero : BackendState := ⟨none, capClearAll, false, false, 0⟩

/-- `kal_svc_state_t`. -/
inductive SvcState where
  | run | freeze | drain | checkpoint | switch | load | restore | resume
  deriving DecidableEq

/-- `kal_mmap_args`. -/
structure MmapArgs where
  addr : UInt64
  length : UInt64
  prot : ℤ
  flags : ℤ
  fd : ℤ
  offset : ℤ
  deriving DecidableEq

/-- `kal_shell_state_t`. -/
structure ShellState where
  fdTable : List ℤ
  mmapRecords : List MmapArgs
  sigHandlersCount : ℤ

/-- `kal_cfg`. -/
structure Cfg where
  backendName : Option String
  heartbeatMs : UInt32
  failoverThreshold : UInt32
  drainTimeoutMs : UInt32
  allowDegrade : Bool

/-- `governance_t`. -/
structure Governance where
  active : BackendState
  standby : BackendState
  state : SvcState
  shadow : ShellState
  cfg : Cfg
  booted : Bool
  circuitOpen : Bool
  degradeWindow : Bool

/-- `G` as `memset` leaves it. -/
def Governance.zero : Governance :=
  { active := .zero
    standby := .zero
    state := .run
    shadow := ⟨[], [], 0⟩
    cfg := ⟨none, 0, 0, 0, false⟩
    booted := false
    circuitOpen := false
    degradeWindow := false }

/-- `kal_route_entry_t`. -/
structure RouteEntry where
  domain : UInt32
  backendName : String

def kalMaxRoutes : ℕ := 16

/-- `dispatcher_t`; `n` is the number of entries. -/
structure Dispatcher where
  entries : List RouteEntry
  active : Option Backend
  activeName : Option String
  circuitOpen : Bool

def Dispatcher.zero : Dispatcher := ⟨[], none, none, false⟩

/-- `kal_call_ctx_t`. -/
structure CallCtx where
  domain : UInt32
  flags : UInt32
  deriving DecidableEq

/-- The arguments of `kal_dispatcher_syscall`. -/
structure Request where
  nr : ℤ
  a0 : BitVec 64
  a1 : BitVec 64
  a2 : BitVec 64
  a3 : BitVec 64
  a4 : BitVec 64
  a5 : BitVec 64
  ctx : Option CallCtx
  deriving DecidableEq

/-- A call of a function of a backend, with what it returned where that matters. -/
inductive Call where
  | probe (b : Backend)
  | init (b : Backend) (r : ℤ)
  | shutdown (b : Backend)
  | healthCheck (b : Backend)
  | hotSwapPause (b : Backend)
  | mmap (b : Backend) (a : MmapArgs)
  | syscall (b : Backend) (req : Request)

/-- `G`, `D`, and the calls made so far, the latest first. -/
structure State where
  gov : Governance
  disp : Dispatcher
  calls : List Call

/-- Before the first call. -/
def State.start : State := ⟨.zero, .zero, []⟩

/-- The last `init` has succeeded, and no `shutdown` has come since. -/
def initialised : List Call → Backend → Bool
  | [], _ => false
  | .init b' r :: cs, b => if b' = b then r = 0 else initialised cs b
  | .shutdown b' :: cs, b => if b' = b then false else initialised cs b
  | _ :: cs, b => initialised cs b

/-! ## The dispatcher -/

/-- The loop of `pick_backend`. -/
def routed (reg : Registry) (entries : List RouteEntry) (domain : UInt32) : Option Backend :=
  entries.findSome? fun e => if e.domain &&& domain ≠ 0 then reg.find (some e.backendName) else none

/-- `pick_backend`. -/
def pickBackend (reg : Registry) (d : Dispatcher) (domain : UInt32) : Option Backend :=
  (routed reg d.entries domain).or d.active

/-- `kal_dispatcher_init`, with the name of a default backend. -/
def dispatcherInit (reg : Registry) (defaultBackend : String) : Dispatcher :=
  { Dispatcher.zero with active := reg.find (some defaultBackend), activeName := some defaultBackend }

/-- The loop of `kal_dispatcher_bind_domain` over the entries in use. -/
def rebind (domain : UInt32) (name : String) : List RouteEntry → Option (List RouteEntry)
  | [] => none
  | e :: es =>
    if e.domain = domain then some ({ e with backendName := name } :: es)
    else (rebind domain name es).map (e :: ·)

/-- `kal_dispatcher_bind_domain`. -/
def bindDomain (reg : Registry) (domain : UInt32) (name : Option String) (d : Dispatcher) : ℤ × Dispatcher :=
  match name with
  | none => (kalEBadMsg, d)
  | some name =>
    if reg.find (some name) = none then (kalENoEnt, d)
    else if kalMaxRoutes ≤ d.entries.length then (kalEBusy, d)
    else
      match rebind domain name d.entries with
      | some entries => (kalOk, { d with entries := entries })
      | none => (kalOk, { d with entries := d.entries ++ [⟨domain, name⟩] })

def kalCallfBypass : UInt32 := 0x02

def Request.bypass (req : Request) : Bool := req.ctx.any fun ctx => ctx.flags &&& kalCallfBypass ≠ 0

def Request.domain (req : Request) : UInt32 := (req.ctx.map CallCtx.domain).getD 0

/-- `kal_marshall_check_open`; `mem` is the caller's memory. -/
def marshallCheckOpen (mem : BitVec 64 → UInt8) (path : BitVec 64) : ℤ :=
  if path = 0 then kalEBadMsg else if mem path = 0 then kalENoEnt else kalOk

/-- `kal_marshall_check_rw`. -/
def marshallCheckRw (fd : BitVec 32) (buf n : BitVec 64) : ℤ :=
  if fd.toInt < 0 then kalEBadF else if 0 < n.toNat ∧ buf = 0 then kalEBadMsg else kalOk

/-- What `kal_dispatcher_syscall` refuses a request for during a switch or with an open circuit. -/
def shape (s : State) (req : Request) : ℤ :=
  if s.gov.state ≠ .run ∧ req.bypass = false then kalESwitching
  else if (s.disp.circuitOpen || s.gov.circuitOpen) = true ∧ req.bypass = false then kalECircuit
  else kalOk

/-- The checks of its arguments. -/
def marshall (mem : BitVec 64 → UInt8) (req : Request) : ℤ :=
  if req.nr = 1 then marshallCheckOpen mem req.a0
  else if req.nr = 3 ∨ req.nr = 4 then marshallCheckRw (req.a0.setWidth 32) req.a1 req.a2
  else kalOk

/-- `kal_dispatcher_syscall`; `answer` is what the backend returns. -/
def dispatcherSyscall (reg : Registry) (mem : BitVec 64 → UInt8) (req : Request) (answer : ℤ) (s : State) : ℤ × State :=
  if shape s req ≠ kalOk then (shape s req, s)
  else
    match pickBackend reg s.disp req.domain with
    | none => (kalENoSys, s)
    | some b =>
      if b.syscall = false then (kalENoSys, s)
      else if marshall mem req ≠ kalOk then (marshall mem req, s)
      else (answer, { s with calls := .syscall b req :: s.calls })

/-! ## The governance -/

/-- What `probe` and `init` return, and the capabilities that `init` reports. -/
structure Answers where
  probe : ℤ
  init : ℤ
  caps : Capabilities

/-- `load_backend`. -/
def loadBackend (b : Backend) (a : Answers) (out : BackendState) (calls : List Call) : ℤ × BackendState × List Call :=
  let calls := if b.probe then .probe b :: calls else calls
  if b.probe ∧ a.probe ≠ 0 then (kalEIo, out, calls)
  else
    let calls := if b.init then .init b a.init :: calls else calls
    if b.init ∧ a.init ≠ 0 then (kalEIo, out, calls)
    else
      let caps := if b.init then a.caps else capClearAll
      if capabilityCheckStrong caps = false then (kalENoSys, out, calls)
      else (kalOk, ⟨some b, caps, true, true, 0⟩, calls)

/-- The configuration with the defaults of `kal_governance_boot`. -/
def Cfg.withDefaults (cfg : Cfg) : Cfg :=
  { cfg with
    heartbeatMs := if cfg.heartbeatMs ≠ 0 then cfg.heartbeatMs else 1000
    failoverThreshold := if cfg.failoverThreshold ≠ 0 then cfg.failoverThreshold else 3
    drainTimeoutMs := if cfg.drainTimeoutMs ≠ 0 then cfg.drainTimeoutMs else 500 }

/-- `kal_governance_boot`. -/
def boot (reg : Registry) (cfg : Option Cfg) (a : Answers) (s : State) : ℤ × State :=
  match cfg with
  | none => (kalEBadMsg, s)
  | some cfg =>
    if cfg.backendName = none then (kalEBadMsg, s)
    else
      let gov := { Governance.zero with cfg := cfg.withDefaults }
      match reg.find cfg.backendName with
      | none => (kalENoEnt, { s with gov := gov })
      | some b =>
        let (e, active, calls) := loadBackend b a gov.active s.calls
        if e ≠ kalOk then (e, { s with gov := gov, calls := calls })
        else
          (kalOk,
            { gov := { gov with active := active, booted := true }, disp := dispatcherInit reg b.name, calls := calls })

/-- `kal_governance_health_tick`; `answer` is what `health_check` returns. -/
def healthTick (answer : ℤ) (s : State) : ℤ × State :=
  match s.gov.booted, s.gov.active.ops with
  | true, some b =>
    let calls := if b.healthCheck then .healthCheck b :: s.calls else s.calls
    if b.healthCheck = false ∨ answer = 0 then
      (0, { s with gov := { s.gov with active := { s.gov.active with healthy := true, failCount := 0 } }, calls := calls })
    else
      let active := { s.gov.active with healthy := false, failCount := s.gov.active.failCount + 1 }
      if s.gov.cfg.failoverThreshold ≤ active.failCount then
        (-1,
          { gov := { s.gov with active := active, circuitOpen := true }
            disp := { s.disp with circuitOpen := true }
            calls := calls })
      else (-1, { s with gov := { s.gov with active := active }, calls := calls })
  | _, _ => (0, s)

/-- `checkpoint_shell`. -/
def checkpointShell : ShellState := ⟨[], [], 0⟩

/-- `restore_shell`. -/
def restoreShell (shell : ShellState) (b : Backend) (calls : List Call) : List Call :=
  if b.mmap then (shell.mmapRecords.map (Call.mmap b)).reverse ++ calls else calls

/-- `kal_governance_hot_swap`. It dereferences the active backend. -/
def hotSwap (reg : Registry) (name : Option String) (a : Answers) (s : State) : Option (ℤ × State) :=
  if s.gov.booted = false then some (kalEUnstable, s)
  else if s.gov.state ≠ .run then some (kalESwitching, s)
  else
    match reg.find name with
    | none => some (kalENoEnt, s)
    | some new =>
      match s.gov.active.ops with
      | none => none
      | some old =>
        if new = old then some (kalOk, s)
        else
          let shadow := checkpointShell
          let calls := if old.hotSwapPause then .hotSwapPause old :: s.calls else s.calls
          let calls := if old.shutdown then .shutdown old :: calls else calls
          let gov := { s.gov with active := { s.gov.active with loaded := false }, shadow := shadow }
          let (e, standby, calls) := loadBackend new a gov.standby calls
          if e ≠ kalOk then
            some
              (e,
                { gov := { gov with state := .run, circuitOpen := false }
                  disp := { s.disp with circuitOpen := false }
                  calls := calls })
          else
            some
              (kalOk,
                { gov :=
                    { gov with
                      active := standby
                      standby := .zero
                      state := .run
                      circuitOpen := false
                      degradeWindow := true }
                  disp :=
                    { s.disp with
                      active := reg.find (some new.name)
                      activeName := some new.name
                      circuitOpen := false }
                  calls := restoreShell shadow new calls })

/-! ## The calls -/

inductive Step where
  | boot (cfg : Option Cfg) (a : Answers)
  | hotSwap (name : Option String) (a : Answers)
  | healthTick (answer : ℤ)
  | bindDomain (domain : UInt32) (name : Option String)
  | syscall (mem : BitVec 64 → UInt8) (req : Request) (answer : ℤ)

/-- What a call returns and the state after it. -/
def call (reg : Registry) (s : State) : Step → Option (ℤ × State)
  | .boot cfg a => some (boot reg cfg a s)
  | .hotSwap name a => hotSwap reg name a s
  | .healthTick answer => some (healthTick answer s)
  | .bindDomain domain name =>
    let (r, d) := bindDomain reg domain name s.disp
    some (r, { s with disp := d })
  | .syscall mem req answer => some (dispatcherSyscall reg mem req answer s)

def step (reg : Registry) (s : State) (i : Step) : Option State := (call reg s i).map Prod.snd

end Kal
