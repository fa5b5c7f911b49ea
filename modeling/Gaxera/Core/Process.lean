import Gaxera.Core.Resource

/-!
# Processes and their bootstrap manifests

A process is new, is prepared, runs, and is reaped when it is a zombie. The manifest is the page
through which a process learns its first handles; it lists capabilities by role, and some roles may
occur more than once.
-/

namespace Gaxera

/-! ## The manifest -/

/-- `MAX_BOOTSTRAP_CAPABILITIES`. -/
def maxBootstrapCapabilities : ℕ := 32

/-- The roles are numbered from 0 to 13. -/
def isBootstrapRole (role : ℕ) : Bool := decide (role < 14)

/-- Boot modules, device memory and service endpoints. -/
def isRepeatableRole (role : ℕ) : Bool := decide (role = 5 ∨ role = 8 ∨ role = 9)

structure BootstrapCapability where
  role : ℕ
  objectType : ℕ
  rights : Rights
  handle : Handle
deriving DecidableEq, Repr

structure BootstrapManifest where
  magic : ℕ
  abiVersion : ℕ
  headerSize : ℕ
  entrySize : ℕ
  totalSize : ℕ
  entryCount : ℕ
  processToken : UInt64
  entries : List BootstrapCapability
deriving DecidableEq, Repr

namespace BootstrapManifest

def magicWord : ℕ := 0x4D42584147

def currentVersion : ℕ := 3

def headerBytes : ℕ := 40

def entryBytes : ℕ := 24

/-- The check of one entry, against those before it. -/
def entryValid (previous : List BootstrapCapability) (entry : BootstrapCapability) : Bool :=
  isBootstrapRole entry.role && entry.handle.isValid
    && (ObjectType.tryFrom (UInt32.ofNat entry.objectType)).isSome
    && (isRepeatableRole entry.role || previous.all fun p ↦ decide (p.role ≠ entry.role))

def entriesValid (previous : List BootstrapCapability) : List BootstrapCapability → Bool
  | [] => true
  | entry :: rest => entryValid previous entry && entriesValid (previous ++ [entry]) rest

def validate (m : BootstrapManifest) : Bool :=
  decide (m.magic = magicWord ∧ m.abiVersion = currentVersion ∧ m.headerSize = headerBytes
      ∧ m.entrySize = entryBytes ∧ m.entryCount ≤ maxBootstrapCapabilities
      ∧ m.totalSize = headerBytes + entryBytes * m.entryCount)
    && entriesValid [] (m.entries.take m.entryCount)

/-- The manifest of a new process, with the given entries. -/
def ofEntries (processToken : UInt64) (entries : List BootstrapCapability) :
    BootstrapManifest where
  magic := magicWord
  abiVersion := currentVersion
  headerSize := headerBytes
  entrySize := entryBytes
  totalSize := headerBytes + entryBytes * entries.length
  entryCount := entries.length
  processToken := processToken
  entries := entries

/-- The part of `append_process_bootstrap_capability` that writes to the page: the entry goes to
the first place behind the counted ones, unless the table is full or a singleton role is taken. -/
def append (m : BootstrapManifest) (entry : BootstrapCapability) : Option BootstrapManifest :=
  if maxBootstrapCapabilities ≤ m.entryCount
      ∨ (isRepeatableRole entry.role = false
        ∧ (m.entries.take m.entryCount).any fun e ↦ decide (e.role = entry.role)) then none
  else
    some
      { m with
        entries := m.entries.take m.entryCount ++ [entry]
        entryCount := m.entryCount + 1
        totalSize := m.headerSize + m.entrySize * (m.entryCount + 1) }

end BootstrapManifest

/-! ## Processes -/

inductive ProcessState
  | new
  | prepared
  | runnable
  | running
  | exitRequested
  | exiting
  | zombie
  | reaped
deriving DecidableEq, Repr

structure Process where
  id : ObjectId
  state : ProcessState
  domain : ResourceDomainId
  addressSpace : Option ObjectId
  capabilitySpace : Option ObjectId
  mainThread : Option ObjectId
  mainThreadConfigured : Bool
  supervisor : Option ObjectId
  exitNotification : Option ObjectId
  exitStatus : Option UInt64
  bootstrapManifestFrame : Option ℕ
  bootstrapManifestVaddr : Option ℕ
  bootstrapManifestSize : Option ℕ
  bootstrapFactory : Option ObjectId
  installedRoles : List (Option ℕ)
deriving DecidableEq, Repr

namespace Process

def new (id : ObjectId) (domain : ResourceDomainId) : Process where
  id := id
  state := .new
  domain := domain
  addressSpace := none
  capabilitySpace := none
  mainThread := none
  mainThreadConfigured := false
  supervisor := none
  exitNotification := none
  exitStatus := none
  bootstrapManifestFrame := none
  bootstrapManifestVaddr := none
  bootstrapManifestSize := none
  bootstrapFactory := none
  installedRoles := List.replicate 32 none

def bootstrapManifest (p : Process) : Option (ℕ × ℕ × ℕ) :=
  match p.bootstrapManifestFrame, p.bootstrapManifestVaddr, p.bootstrapManifestSize with
  | some frame, some vaddr, some size => some (frame, vaddr, size)
  | _, _, _ => none

/-- A repeatable role takes the first empty place, a singleton role the place of its number. -/
def recordInstalledRole (p : Process) (role : ℕ) : Option Process :=
  if isRepeatableRole role then
    match p.installedRoles.findIdx? Option.isNone with
    | none => none
    | some slot => some { p with installedRoles := p.installedRoles.set slot (some role) }
  else
    match p.installedRoles[role]? with
    | some none => some { p with installedRoles := p.installedRoles.set role (some role) }
    | _ => none

def prepare (p : Process) : Option Process :=
  if p.state ≠ .new then none
  else if p.addressSpace = none ∨ p.capabilitySpace = none ∨ p.mainThread = none then none
  else some { p with state := .prepared }

def makeRunnable (p : Process) : Option Process :=
  if p.state ≠ .prepared then none
  else if p.mainThreadConfigured = false then none
  else some { p with state := .runnable }

def requestExit (p : Process) (status : UInt64) : Option Process :=
  if p.state = .reaped ∨ p.state = .zombie ∨ p.state = .exiting ∨ p.state = .exitRequested then none
  else some { p with exitStatus := some status, state := .exitRequested }

def markExiting (p : Process) : Option Process :=
  if p.state ≠ .exitRequested then none else some { p with state := .exiting }

def markZombie (p : Process) : Option Process :=
  if p.state ≠ .exiting then none else some { p with state := .zombie }

end Process

end Gaxera
