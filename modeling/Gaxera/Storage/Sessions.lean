import Gaxera.Storage.Objects

/-!
# Sessions: mounting again, and losing power

What survives the end of an engine is on the disk, and that is the objects and the two superblocks.
The bitmap is not. A new engine therefore writes over the objects of the one before, unless its
bitmap happens to have their blocks marked.

The superblocks are safe. Commits alternate between the slots, so that while one is written the
other one holds the generation before; data never touches them in a session that starts with a
mount. `Agrees` says that the slots on disk are those the engine has in memory. Storing data keeps
it, a commit moves it to the next generation, and a commit that is torn leaves it where it was.
-/

namespace Gaxera

open Decoder SuperblockHeader Function

namespace GaxStorageEngine

/-! ## Mounting again -/

/-- What has happened to a device: the engine, the objects written before it was mounted, and the
objects written since. -/
structure History where
  engine : GaxStorageEngine
  earlier : List Written
  current : List Written

inductive HistoryEvent
  | write (object : ObjectWrite)
  | remount

namespace History

/-- A history ends if the device cannot be mounted. -/
def step (h : History) : HistoryEvent → Option History
  | .write object => match putObject object h.engine with
    | .ok w engine => some { h with engine, current := h.current ++ [w] }
    | .error _ engine => some { h with engine }
  | .remount => match mount h.engine.device with
    | .ok engine => some ⟨engine, h.earlier ++ h.current, []⟩
    | .error _ => none

def run (h : History) : List HistoryEvent → Option History
  | [] => some h
  | event :: events => (h.step event).bind (·.run events)

/-- An object may be written if the bitmap knows what is on the device, and its blocks can be
counted. -/
def Allows (h : History) : HistoryEvent → Prop
  | .write object => h.engine.Reserved ∧ (∀ w ∈ h.earlier, h.engine.Knows w) ∧
      divCeil object.payload.length h.engine.device.blockSize.toNat < 2 ^ 32
  | .remount => True

/-- Every event is allowed when it comes. -/
def AllowsAll (h : History) : List HistoryEvent → Prop
  | [] => True
  | event :: events => h.Allows event ∧ ∀ h', h.step event = some h' → h'.AllowsAll events

/-- No write of the event touches a block of an earlier object. -/
def Spares (h h' : History) : Prop :=
  ∀ w ∈ h.earlier, ∀ b, w.Holds b →
    ∀ write ∈ h'.engine.device.log.drop h.engine.device.log.length, ¬write.Covers b

/-- Every object is where it was put, and the bitmap knows those of its own session. -/
structure Intact (h : History) : Prop where
  blockSize : 0 < h.engine.device.blockSize.toNat
  keeps : ∀ w ∈ h.earlier ++ h.current, h.engine.Keeps w ∧
    divCeil w.object.payload.length h.engine.device.blockSize.toNat < 2 ^ 32
  knows : ∀ w ∈ h.current, h.engine.Knows w

variable {h : History}

theorem Intact.of_writes (hi : h.Intact) (hearlier : ∀ w ∈ h.earlier, h.engine.Knows w)
    {engine : GaxStorageEngine} {new : List BlockWrite} (hwrites : Writes 2 h.engine engine new) :
    Intact { h with engine } ∧ h.Spares { h with engine } := by
  have hknows (w : Written) (hw : w ∈ h.earlier ++ h.current) : h.engine.Knows w :=
    (List.mem_append.mp hw).elim (hearlier w) (hi.knows w)
  refine ⟨⟨hwrites.blockSize ▸ hi.blockSize, fun w hw ↦ ?_, fun w hw ↦ ?_⟩, ?_⟩
  · exact ⟨hwrites.keeps (hknows w hw) (hi.keeps w hw).1, hwrites.blockSize ▸ (hi.keeps w hw).2⟩
  · exact hwrites.knows (hi.knows w hw)
  · intro w hw b hb write hwrite hcovers
    dsimp only at hwrite
    rw [hwrites.log, List.drop_left] at hwrite
    rcases hwrites.free write hwrite b hcovers with hfree | hslot
    · rw [hearlier w hw b hb] at hfree
      cases hfree
    · have := (hi.keeps w (List.mem_append_left _ hw)).1.1 b hb
      omega

theorem Intact.step {h' : History} {event : HistoryEvent} (hi : h.Intact) (hallows : h.Allows event)
    (hstep : h.step event = some h') : h'.Intact ∧ (event ≠ .remount → h.Spares h') := by
  rcases event with object | -
  · obtain ⟨hreserved, hearlier, hsmall⟩ := hallows
    rw [History.step] at hstep
    rcases hput : putObject object h.engine with ⟨w, engine⟩ | ⟨err, engine⟩ <;> rw [hput] at hstep
    · obtain rfl := Option.some.inj hstep
      obtain ⟨hobject, ⟨new, hwrites⟩, hknows, hkeeps⟩ := putObject_ok hreserved hput
      obtain ⟨hi', hspares⟩ := hi.of_writes hearlier hwrites
      refine ⟨⟨hi'.blockSize, fun w' hw' ↦ ?_, fun w' hw' ↦ ?_⟩, fun _ ↦ hspares⟩
      · rw [← List.append_assoc, List.mem_append, List.mem_singleton] at hw'
        rcases hw' with hw' | rfl
        · exact hi'.keeps w' hw'
        · exact ⟨hkeeps, hobject ▸ hwrites.blockSize ▸ hsmall⟩
      · rcases List.mem_append.mp hw' with hw' | hw'
        · exact hi'.knows w' hw'
        · exact List.mem_singleton.mp hw' ▸ hknows
    · obtain rfl := Option.some.inj hstep
      rcases putObject_cases object h.engine with ⟨_, _, h', -⟩ | ⟨_, _, new, h', hwrites⟩ <;>
        rw [hput] at h'
      · cases h'
      · obtain ⟨rfl, rfl⟩ := EStateM.Result.error.inj h'
        exact (hi.of_writes hearlier hwrites).imp_right fun hspares _ ↦ hspares
  · rw [History.step] at hstep
    rcases hmount : mount h.engine.device with err | engine <;> rw [hmount] at hstep
    · cases hstep
    · obtain rfl := Option.some.inj hstep
      have hdevice := (mount_ok hmount).1
      refine ⟨⟨hdevice ▸ hi.blockSize, fun w hw ↦ ?_, by simp⟩, fun h ↦ absurd rfl h⟩
      rw [List.append_nil] at hw
      obtain ⟨⟨hfar, hread⟩, hsmall⟩ := hi.keeps w hw
      dsimp only
      rw [Keeps, readObject, hdevice]
      exact ⟨⟨hfar, hread⟩, hsmall⟩

theorem Intact.run {h' : History} {events : List HistoryEvent} (hi : h.Intact)
    (hallows : h.AllowsAll events) (hrun : h.run events = some h') : h'.Intact := by
  induction events generalizing h with
  | nil => exact Option.some.inj hrun ▸ hi
  | cons event events ih =>
    obtain ⟨h₁, hstep, hrun⟩ := Option.bind_eq_some_iff.mp hrun
    exact ih (hi.step hallows.1 hstep).1 (hallows.2 h₁ hstep) hrun

/-- **When remounting preserves data.** In a history whose every write finds the superblocks, the
journal and all objects of earlier sessions marked in the bitmap, every object ever written can be
read, and a write touches no block of an object of an earlier session. -/
theorem remount_preserves_data {d : StorageDevice} {rootId : GaxObjectId} {e : GaxStorageEngine}
    (hsize : 512 ≤ d.blockSize) (hformat : format d rootId = .ok e) {events : List HistoryEvent}
    {h : History} (hallows : AllowsAll ⟨e, [], []⟩ events)
    (hrun : run ⟨e, [], []⟩ events = some h) :
    (∀ w ∈ h.earlier ++ h.current, h.engine.readObject w.header = w.object.payload) ∧
      ∀ object h', h.Allows (.write object) → h.step (.write object) = some h' → h.Spares h' := by
  have hpos : 0 < e.device.blockSize.toNat := by
    rw [(format_ok hformat).2.2]
    exact (UInt32.le_iff_toNat_le.mp hsize).trans' (by decide)
  have hi : Intact h := Intact.run ⟨hpos, by simp, by simp⟩ hallows hrun
  refine ⟨fun w hw ↦ ?_, fun object h' hallows hstep ↦ (hi.step hallows hstep).2 nofun⟩
  obtain ⟨⟨-, hread⟩, hsmall⟩ := hi.keeps w hw
  rw [hread, stored_take_eq_iff hi.blockSize]
  exact hsmall

/-- The payloads that are read at the end of a history. -/
def payloads (start : Except StorageError GaxStorageEngine) (events : List HistoryEvent) :
    Option (List (List UInt8)) :=
  match start with
  | .error _ => none
  | .ok e => (run ⟨e, [], []⟩ events).map fun h ↦
      (h.earlier ++ h.current).map fun w ↦ h.engine.readObject w.header

/-- The first object after a remount takes the blocks of the first one before it. -/
theorem remount_loses_object :
    payloads (format blankDevice (Vector.replicate 16 0))
      [.remount, .write (objectOf [1]), .remount, .write (objectOf [2])] = some [[2], [2]] := by
  decide +kernel

theorem objects_of_one_session_are_preserved : ∃ e h,
    format blankDevice (Vector.replicate 16 0) = .ok e ∧
    run ⟨e, [], []⟩ [.remount, .write (objectOf [1]), .remount] = some h ∧
    ∀ w ∈ h.earlier ++ h.current, h.engine.readObject w.header = w.object.payload := by
  have hsome : (payloads (format blankDevice (Vector.replicate 16 0))
      [.remount, .write (objectOf [1]), .remount]).isSome := by decide +kernel
  rcases hformat : format blankDevice (Vector.replicate 16 0) with err | e
  · rw [hformat] at hsome
    cases hsome
  obtain ⟨h, hrun⟩ : ∃ h, run ⟨e, [], []⟩ [.remount, .write (objectOf [1]), .remount] = some h := by
    rw [hformat] at hsome
    exact Option.isSome_iff_exists.mp (by simpa [payloads] using hsome)
  have hallows : AllowsAll ⟨e, [], []⟩ [.remount, .write (objectOf [1]), .remount] := by
    refine ⟨trivial, fun h₁ hstep ↦ ⟨?_, fun _ _ ↦ ⟨trivial, fun _ _ ↦ trivial⟩⟩⟩
    rw [History.step] at hstep
    rcases hmount : mount e.device with err | engine <;> rw [hmount] at hstep
    · cases hstep
    · obtain rfl := Option.some.inj hstep
      obtain ⟨hdevice, hallocator, -⟩ := mount_ok hmount
      refine ⟨fun b hb ↦ ?_, by simp, ?_⟩
      · dsimp only
        rw [hallocator, (format_ok hformat).2.2]
        exact mountedAllocator_reserves (by decide +kernel) hb
      · dsimp only
        rw [hdevice, (format_ok hformat).2.2]
        decide +kernel
  exact ⟨e, h, rfl, hrun, (remount_preserves_data (by decide +kernel) hformat hallows hrun).1⟩

end History

/-! ## Losing power -/

/-- The engine after a call of `write_object`, successful or not. -/
def after (e : GaxStorageEngine) (object : ObjectWrite) : GaxStorageEngine :=
  match putObject object e with
  | .ok _ e' | .error _ e' => e'

/-- The writes of that call. -/
def writesOf (e : GaxStorageEngine) (object : ObjectWrite) : List BlockWrite :=
  (e.after object).device.log.drop e.device.log.length

/-- The power goes off after so many of the writes of a call; the next one may have left something
in one of its blocks. -/
structure Crash where
  point : ℕ
  torn : Option (ℕ × List UInt8)

/-- What is left is no superblock. -/
def Crash.Torn (c : Crash) : Prop :=
  ∀ b junk, c.torn = some (b, junk) → SuperblockHeader.deserialize junk = none

/-- The disk when the power goes off during a call. -/
def crashBlocks (e : GaxStorageEngine) (object : ObjectWrite) (c : Crash) : ℕ → List UInt8 :=
  let blocks := ((e.writesOf object).take c.point).foldl
    (BlockWrite.apply e.device.blockSize.toNat) e.device.blocks
  match c.torn, (e.writesOf object)[c.point]? with
  | some (b, junk), some w =>
    if w.startBlock ≤ b ∧ b < w.startBlock + w.numBlocks then update blocks b junk
    else blocks
  | _, _ => blocks

/-- A mount, calls that return, and a call during which the power goes off. -/
structure Session where
  objects : List ObjectWrite
  last : ObjectWrite
  crash : Crash

/-- How many of the calls commit. -/
def commits (e : GaxStorageEngine) : List ObjectWrite → ℕ
  | [] => 0
  | object :: objects =>
    (match putObject object e with
      | .ok _ _ => 1
      | .error _ _ => 0) + (e.after object).commits objects

/-- The last completed commit, as generation and root: every call that succeeds makes its object the
root of the next generation. -/
def completed (e : GaxStorageEngine) (last : ℕ × GaxObjectId) : List ObjectWrite → ℕ × GaxObjectId
  | [] => last
  | object :: objects => (e.after object).completed (match putObject object e with
      | .ok _ _ => (last.1 + 1, object.objectId)
      | .error _ _ => last) objects

def afterAll (e : GaxStorageEngine) (objects : List ObjectWrite) : GaxStorageEngine :=
  objects.foldl after e

/-- The device after a session, and how often it commits. -/
def Session.run (s : Session) (d : StorageDevice) : Option (StorageDevice × ℕ) :=
  match mount d with
  | .error _ => none
  | .ok e => some ({ d with blocks := (e.afterAll s.objects).crashBlocks s.last s.crash },
      e.commits (s.objects ++ [s.last]))

def runSessions : List Session → StorageDevice → Option StorageDevice
  | [], d => some d
  | s :: rest, d => (s.run d).bind fun result ↦ runSessions rest result.1

def sessionCommits : List Session → StorageDevice → ℕ
  | [], _ => 0
  | s :: rest, d => match s.run d with
    | none => 0
    | some (d₁, n) => n + sessionCommits rest d₁

/-- **The slots on disk are the ones in memory.** The active one is valid, and the other is invalid
or older; at the same generation the first slot is the active one. -/
structure Agrees (blocks : ℕ → List UInt8) (mgr : DualSuperblockManager) : Prop where
  index : mgr.activeIndex ≤ 1
  active : SuperblockHeader.deserialize (blocks mgr.activeIndex) = some mgr.activeSuperblock
  other : ∀ sb, SuperblockHeader.deserialize (blocks (1 - mgr.activeIndex)) = some sb →
    sb.generation.toNat + mgr.activeIndex ≤ mgr.activeSuperblock.generation.toNat

namespace Agrees

variable {blocks blocks' : ℕ → List UInt8} {mgr : DualSuperblockManager}

theorem congr (h : Agrees blocks mgr) (hblocks : ∀ b ≤ 1, blocks' b = blocks b) :
    Agrees blocks' mgr :=
  ⟨h.index, by rw [hblocks _ h.index, h.active], by
    rw [hblocks _ (Nat.sub_le 1 _)]
    exact h.other⟩

theorem update_other (h : Agrees blocks mgr) {junk : List UInt8}
    (hjunk : deserialize junk = none) :
    Agrees (update blocks (1 - mgr.activeIndex) junk) mgr where
  index := h.index
  active := by
    have := h.index
    rw [update_of_ne (by omega), h.active]
  other sb hsb := by
    rw [update_self, hjunk] at hsb
    cases hsb

theorem recover (h : Agrees blocks mgr) :
    DualSuperblockManager.recoverActive (blocks 0) (blocks 1) = .ok mgr := by
  obtain ⟨sb, i⟩ := mgr
  obtain ⟨hindex, hactive, hother⟩ := h
  dsimp only at hindex hactive hother
  rw [DualSuperblockManager.recoverActive]
  obtain rfl | rfl : i = 0 ∨ i = 1 := by omega
  · rcases hslot : deserialize (blocks 1) with - | sb'
    · rw [hactive]
    · have hle := hother sb' hslot
      rw [hactive]
      exact if_neg (by rw [UInt64.lt_iff_toNat_lt]; omega)
  · rcases hslot : deserialize (blocks 0) with - | sb'
    · rw [hactive]
    · have hle := hother sb' hslot
      rw [hactive]
      exact if_pos (by rw [UInt64.lt_iff_toNat_lt]; omega)

end Agrees

variable {e : GaxStorageEngine}

/-- An engine of a session that started with a mount, on a device that takes every call. -/
structure Steady (e : GaxStorageEngine) : Prop where
  blockSize : 512 ≤ e.device.blockSize.toNat
  willing : e.device.Willing
  reserved : e.Reserved
  agrees : Agrees e.device.blocks e.superblockMgr

/-- The generation an engine is at. -/
def generation (e : GaxStorageEngine) : ℕ := e.superblockMgr.activeSuperblock.generation.toNat

/-- The commit an engine is at. -/
def lastCommit (e : GaxStorageEngine) : ℕ × GaxObjectId :=
  (e.generation, e.superblockMgr.activeSuperblock.rootObject)

theorem lastCommit_congr {e' : GaxStorageEngine} (h : e'.superblockMgr = e.superblockMgr) :
    e'.lastCommit = e.lastCommit := by rw [lastCommit, lastCommit, generation, generation, h]

theorem apply_superblockWrite (blockSize : UInt32) (slot : ℕ) (sb : SuperblockHeader)
    (blocks : ℕ → List UInt8) :
    (superblockWrite blockSize slot sb).apply blockSize.toNat blocks =
      update blocks slot (sb.serialize blockSize.toNat) := by
  funext b
  by_cases hb : b = slot
  · subst hb
    rw [update_self, BlockWrite.apply, superblockWrite,
      if_pos ⟨le_rfl, Nat.lt_succ_self b⟩,
      Nat.sub_self, Nat.zero_mul, List.drop_zero]
    exact List.take_of_length_le (length_resize _ _).le
  · rw [update_of_ne hb]
    refine BlockWrite.apply_of_not_covers fun hcovers ↦ hb ?_
    have hle : slot ≤ b := hcovers.1
    have hlt : b < slot + 1 := hcovers.2
    omega

/-- A commit goes to the slot that is not active, and makes it the active one. -/
theorem Steady.commit (h : e.Steady) (hlast : e.generation + 1 < 2 ^ 64) (id : GaxObjectId) :
    (∀ b, (e.commitWrite id).Covers b ↔ b = 1 - e.superblockMgr.activeIndex) ∧
      (e.committed id).Steady ∧ (e.committed id).generation = e.generation + 1 := by
  have hindex := h.agrees.index
  have hslot : (e.nextSuperblock id).activeIndex = 1 - e.superblockMgr.activeIndex := by
    change (if e.superblockMgr.activeIndex = 0 then 1 else 0) = _
    split_ifs <;> omega
  have hcovers (b : ℕ) : (e.commitWrite id).Covers b ↔ b = 1 - e.superblockMgr.activeIndex := by
    change (e.nextSuperblock id).activeIndex ≤ b ∧ b < (e.nextSuperblock id).activeIndex + 1 ↔ _
    omega
  have hgeneration : (e.nextSuperblock id).activeSuperblock.generation.toNat =
      e.generation + 1 := by
    change (e.superblockMgr.activeSuperblock.generation + 1).toNat = _
    rw [UInt64.toNat_add]
    exact Nat.mod_eq_of_lt hlast
  have hblocks : (e.committed id).device.blocks = update e.device.blocks
      (1 - e.superblockMgr.activeIndex)
      ((e.nextSuperblock id).activeSuperblock.serialize e.device.blockSize.toNat) :=
    hslot ▸ apply_superblockWrite _ _ _ _
  have hnew : deserialize ((e.committed id).device.blocks
      (1 - e.superblockMgr.activeIndex)) = some (e.nextSuperblock id).activeSuperblock := by
    rw [hblocks, update_self]
    exact deserialize_serialize_updateChecksum rfl h.blockSize
  have hold : (e.committed id).device.blocks e.superblockMgr.activeIndex =
      e.device.blocks e.superblockMgr.activeIndex := by
    rw [hblocks, update_of_ne (by omega)]
  refine ⟨hcovers, ⟨h.blockSize, fun n ↦ h.willing (n + 2), h.reserved, ⟨?_, ?_, ?_⟩⟩, hgeneration⟩
  · change (e.nextSuperblock id).activeIndex ≤ 1
    omega
  · change deserialize
      ((e.committed id).device.blocks (e.nextSuperblock id).activeIndex) = _
    rw [hslot]
    exact hnew
  · change ∀ sb, deserialize ((e.committed id).device.blocks
      (1 - (e.nextSuperblock id).activeIndex)) = some sb →
      sb.generation.toNat + (e.nextSuperblock id).activeIndex
        ≤ (e.nextSuperblock id).activeSuperblock.generation.toNat
    intro sb hsb
    rw [hslot, Nat.sub_sub_self hindex, hold, h.agrees.active] at hsb
    obtain rfl := Option.some.inj hsb
    rw [hgeneration, hslot, generation]
    omega

/-- **The writes of a call**: data outside the reserved blocks, and then the commit, unless the call
has failed before. -/
theorem Steady.call_cases (h : e.Steady) (object : ObjectWrite) : ∃ e₁ data, e₁.Steady ∧
    e₁.superblockMgr = e.superblockMgr ∧ e₁.device.blockSize = e.device.blockSize ∧
    e₁.device.blocks = data.foldl (BlockWrite.apply e.device.blockSize.toNat) e.device.blocks ∧
    (∀ w ∈ data, ∀ b, w.Covers b → 66 ≤ b) ∧
    ((∃ written, putObject object e = .ok written (e₁.committed object.objectId)) ∧
        e.writesOf object = data ++ [e₁.commitWrite object.objectId] ∨
      (∃ err, putObject object e = .error err e₁) ∧ e.writesOf object = data) := by
  have key {e₁ : GaxStorageEngine} {data : List BlockWrite} (hwrites : Writes 0 e e₁ data) :
      e₁.Steady ∧ ∀ w ∈ data, ∀ b, w.Covers b → 66 ≤ b := by
    have hfar (w : BlockWrite) (hw : w ∈ data) (b : ℕ) (hb : w.Covers b) : 66 ≤ b := by
      by_contra hnear
      have hfree := (hwrites.free w hw b hb).resolve_right (Nat.not_lt_zero b)
      rw [h.reserved b (by omega)] at hfree
      cases hfree
    refine ⟨⟨hwrites.blockSize ▸ h.blockSize, hwrites.willing h.willing,
      hwrites.of_data.reserved h.reserved, ?_⟩, hfar⟩
    rw [hwrites.mgr rfl]
    exact h.agrees.congr fun b hb ↦ hwrites.blocks_eq (h.reserved b (by omega)) (Nat.zero_le b)
  rcases storeObject_cases object e with ⟨header, headerExtent, e₁, hstore, hput⟩ | ⟨err, e₁, data,
    hstore, hwrites⟩
  · obtain ⟨data, hwrites⟩ := hput.writes
    obtain ⟨hsteady, hfar⟩ := key hwrites
    refine ⟨e₁, data, hsteady, hwrites.mgr rfl, hwrites.blockSize, hwrites.blocks, hfar, .inl ?_⟩
    have hcommit := (commitGeneration_cases object.objectId e₁).resolve_right
      fun hrefuse ↦ hrefuse.1 hsteady.willing
    have hok : putObject object e = .ok ⟨object, header, headerExtent⟩
        (e₁.committed object.objectId) := (bind_ok hstore).trans (bind_ok hcommit)
    refine ⟨⟨_, hok⟩, ?_⟩
    rw [writesOf, after, hok]
    change (e₁.device.log ++ [_]).drop _ = _
    rw [hwrites.log, List.append_assoc, List.drop_left]
  · obtain ⟨hsteady, hfar⟩ := key hwrites
    have herror : putObject object e = .error err e₁ := bind_error hstore
    refine ⟨e₁, data, hsteady, hwrites.mgr rfl, hwrites.blockSize, hwrites.blocks, hfar,
      .inr ⟨⟨err, herror⟩, ?_⟩⟩
    rw [writesOf, after, herror]
    dsimp only
    rw [hwrites.log, List.drop_left]

theorem Steady.after (h : e.Steady) (object : ObjectWrite)
    (hlast : e.generation + e.commits [object] < 2 ^ 64) :
    (e.after object).Steady ∧ (e.after object).generation = e.generation + e.commits [object] ∧
      (e.after object).lastCommit = e.completed e.lastCommit [object] := by
  obtain ⟨e₁, data, hsteady, hmgr, -, -, -, hcase⟩ := h.call_cases object
  have hgeneration : e₁.generation = e.generation := by rw [generation, hmgr, generation]
  rcases hcase with ⟨⟨written, hok⟩, -⟩ | ⟨⟨err, herror⟩, -⟩
  · simp only [commits, completed, GaxStorageEngine.after, hok] at hlast ⊢
    obtain ⟨-, hcommitted, hnext⟩ := hsteady.commit (by omega) object.objectId
    exact ⟨hcommitted, by omega, Prod.ext (by rw [lastCommit, hnext, hgeneration]; rfl) rfl⟩
  · simp only [commits, completed, GaxStorageEngine.after, herror] at hlast ⊢
    exact ⟨hsteady, by omega, lastCommit_congr hmgr⟩

/-- A write that is torn destroys data or the slot that is not active. -/
theorem Steady.crashBlocks_agrees (h : e.Steady) {object : ObjectWrite} {c : Crash} (hc : c.Torn)
    (hwrites : ∀ w ∈ e.writesOf object, ∀ b, w.Covers b →
      66 ≤ b ∨ b = 1 - e.superblockMgr.activeIndex)
    (hdata : ∀ w ∈ (e.writesOf object).take c.point, ∀ b, w.Covers b → 66 ≤ b) :
    Agrees (e.crashBlocks object c) e.superblockMgr := by
  have hagrees : Agrees (((e.writesOf object).take c.point).foldl
      (BlockWrite.apply e.device.blockSize.toNat) e.device.blocks) e.superblockMgr := by
    refine h.agrees.congr fun b hb ↦ BlockWrite.foldl_apply_of_not_covers fun w hw hcovers ↦ ?_
    have := hdata w hw b hcovers
    omega
  rw [crashBlocks]
  rcases htorn : c.torn with - | ⟨b, junk⟩
  · exact hagrees
  · rcases hnext : (e.writesOf object)[c.point]? with - | w
    · exact hagrees
    · dsimp only
      split_ifs with hcovers
      · rcases hwrites w (List.mem_of_getElem? hnext) b hcovers with hfar | rfl
        · exact hagrees.congr fun b' hb' ↦ update_of_ne (by omega) _ _
        · exact hagrees.update_other (hc _ _ htorn)
      · exact hagrees

/-- **Whenever the power goes off during a call**, the disk has the superblock from before the call
or the one the call commits. -/
theorem Steady.crash (h : e.Steady) (object : ObjectWrite)
    (hlast : e.generation + e.commits [object] < 2 ^ 64) {c : Crash} (hc : c.Torn) :
    (Agrees (e.crashBlocks object c) e.superblockMgr ∨
      Agrees (e.crashBlocks object c) (e.after object).superblockMgr) ∧
    ∀ w ∈ e.writesOf object, ¬w.Covers e.superblockMgr.activeIndex := by
  have hindex := h.agrees.index
  have hafter := (h.after object hlast).1.agrees
  obtain ⟨e₁, data, hsteady, hmgr, hsize, hblocks, hfar, hcase⟩ := h.call_cases object
  rcases hcase with ⟨⟨written, hok⟩, hnew⟩ | ⟨⟨err, herror⟩, hnew⟩
  · have hlast' : e₁.generation + 1 < 2 ^ 64 := by
      simp only [commits, hok] at hlast
      rw [generation, hmgr]
      exact hlast
    have hcovers := (hsteady.commit hlast' object.objectId).1
    have hwrites (w : BlockWrite) (hw : w ∈ e.writesOf object) (b : ℕ) (hb : w.Covers b) :
        66 ≤ b ∨ b = 1 - e.superblockMgr.activeIndex := by
      rw [hnew, List.mem_append, List.mem_singleton] at hw
      rcases hw with hw | rfl
      · exact .inl (hfar w hw b hb)
      · exact .inr (hmgr ▸ (hcovers b).mp hb)
    refine ⟨?_, fun w hw hb ↦ by have := hwrites w hw _ hb; omega⟩
    by_cases hpoint : c.point ≤ data.length
    · refine .inl (h.crashBlocks_agrees hc hwrites fun w hw ↦ ?_)
      rw [hnew, List.take_append_of_le_length hpoint] at hw
      exact hfar w (List.mem_of_mem_take hw)
    · -- Every write was stored before the power went off.
      right
      have hall : e.crashBlocks object c = (e.after object).device.blocks := by
        have hlength : (data ++ [e₁.commitWrite object.objectId]).length ≤ c.point := by
          rw [List.length_append, List.length_singleton]
          omega
        rw [crashBlocks, hnew, List.take_of_length_le hlength, List.getElem?_eq_none hlength,
          List.foldl_append, ← hblocks, ← hsize, GaxStorageEngine.after, hok]
        rcases c.torn with - | - <;> rfl
      rw [hall]
      exact hafter
  · refine ⟨.inl (h.crashBlocks_agrees hc (fun w hw b hb ↦ .inl ?_) fun w hw ↦ ?_),
      fun w hw hb ↦ ?_⟩
    · exact hfar w (hnew ▸ hw) b hb
    · exact hfar w (hnew ▸ List.mem_of_mem_take hw)
    · have := hfar w (hnew ▸ hw) _ hb
      omega

theorem commits_cons (object : ObjectWrite) (objects : List ObjectWrite) :
    e.commits (object :: objects) = e.commits [object] + (e.after object).commits objects := rfl

theorem completed_append (last : ℕ × GaxObjectId) (objects rest : List ObjectWrite) :
    e.completed last (objects ++ rest) =
      (e.afterAll objects).completed (e.completed last objects) rest := by
  induction objects generalizing e last with
  | nil => rfl
  | cons object objects ih => exact ih _

theorem Steady.afterAll (h : e.Steady) (objects : List ObjectWrite) {rest : List ObjectWrite}
    (hlast : e.generation + e.commits (objects ++ rest) < 2 ^ 64) :
    (e.afterAll objects).Steady ∧ (e.afterAll objects).generation +
      (e.afterAll objects).commits rest = e.generation + e.commits (objects ++ rest) ∧
      (e.afterAll objects).lastCommit = e.completed e.lastCommit objects := by
  induction objects generalizing e with
  | nil => exact ⟨h, rfl, rfl⟩
  | cons object objects ih =>
    rw [List.cons_append, commits_cons] at hlast ⊢
    obtain ⟨hsteady, hgeneration, hcommit⟩ := h.after object (by omega)
    obtain ⟨hsteady', hall, hcompleted⟩ := ih hsteady (by omega)
    rw [hcommit] at hcompleted
    exact ⟨hsteady', by rw [GaxStorageEngine.afterAll, List.foldl_cons] at *; omega, hcompleted⟩

/-- A device that can be mounted, with its superblocks in order. -/
structure Mountable (d : StorageDevice) (mgr : DualSuperblockManager) : Prop where
  blockSize : 512 ≤ d.blockSize.toNat
  totalBlocks : 128 ≤ d.totalBlocks
  willing : d.Willing
  agrees : Agrees d.blocks mgr

theorem readBlocks_one (d : StorageDevice) (b : ℕ) : d.readBlocks b 1 = d.blocks b := by
  simp [StorageDevice.readBlocks, List.range_one]

variable {d : StorageDevice} {mgr : DualSuperblockManager}

theorem Mountable.mount (h : Mountable d mgr) :
    ∃ e, mount d = .ok e ∧ e.device = d ∧ e.Steady ∧ e.superblockMgr = mgr := by
  have hrecover : GaxStorageEngine.mount d = .ok ⟨d, mgr, mountedAllocator d.totalBlocks⟩ := by
    rw [GaxStorageEngine.mount, readBlocks_one, readBlocks_one, h.agrees.recover]
    rfl
  exact ⟨_, hrecover, rfl, ⟨h.blockSize, h.willing,
    fun b hb ↦ mountedAllocator_reserves h.totalBlocks hb, h.agrees⟩, rfl⟩

/-- A session leaves the device mountable, one generation further for every commit at most. -/
theorem Mountable.session (h : Mountable d mgr) {s : Session} (hs : s.crash.Torn)
    {e : GaxStorageEngine} (he : GaxStorageEngine.mount d = .ok e)
    (hlast : mgr.activeSuperblock.generation.toNat + e.commits (s.objects ++ [s.last]) < 2 ^ 64) :
    ∃ mgr', Mountable { d with blocks := (e.afterAll s.objects).crashBlocks s.last s.crash } mgr' ∧
      (mgr' = (e.afterAll s.objects).superblockMgr ∧
          (e.afterAll s.objects).lastCommit = e.completed e.lastCommit s.objects ∨
        mgr' = ((e.afterAll s.objects).after s.last).superblockMgr ∧
          ((e.afterAll s.objects).after s.last).lastCommit =
            e.completed e.lastCommit (s.objects ++ [s.last])) ∧
      mgr'.activeSuperblock.generation.toNat ≤
        mgr.activeSuperblock.generation.toNat + e.commits (s.objects ++ [s.last]) ∧
      ∀ w ∈ (e.afterAll s.objects).writesOf s.last,
        ¬w.Covers (e.afterAll s.objects).superblockMgr.activeIndex := by
  obtain ⟨e', he', hdevice, hsteady, hmgr⟩ := h.mount
  obtain rfl : e = e' := Except.ok.inj (he.symm.trans he')
  have hgeneration : e.generation = mgr.activeSuperblock.generation.toNat := by
    rw [generation, hmgr]
  obtain ⟨hsteady', hall, hcompleted⟩ := hsteady.afterAll s.objects
    (show e.generation + e.commits (s.objects ++ [s.last]) < 2 ^ 64 by omega)
  obtain ⟨hcrash, hspares⟩ := hsteady'.crash s.last (by omega) hs
  obtain ⟨-, hafter, hlanded⟩ := hsteady'.after s.last (by omega)
  rw [hcompleted, ← completed_append] at hlanded
  -- The commit of the last call has not reached the disk, or it has.
  rcases hcrash with hcrash | hcrash
  · exact ⟨_, ⟨h.blockSize, h.totalBlocks, h.willing, hcrash⟩, .inl ⟨rfl, hcompleted⟩,
      by rw [← generation]; omega, hspares⟩
  · exact ⟨_, ⟨h.blockSize, h.totalBlocks, h.willing, hcrash⟩, .inr ⟨rfl, hlanded⟩,
      by rw [← generation]; omega, hspares⟩

theorem Session.run_of_mount (s : Session) (he : GaxStorageEngine.mount d = .ok e) :
    s.run d = some ({ d with blocks := (e.afterAll s.objects).crashBlocks s.last s.crash },
      e.commits (s.objects ++ [s.last])) := by
  rw [Session.run, he]

theorem Mountable.run (h : Mountable d mgr) {past rest : List Session}
    (htorn : ∀ s ∈ past, s.crash.Torn)
    (hlast : mgr.activeSuperblock.generation.toNat + sessionCommits (past ++ rest) d < 2 ^ 64) :
    ∃ d' mgr', runSessions past d = some d' ∧ Mountable d' mgr' ∧
      mgr'.activeSuperblock.generation.toNat + sessionCommits rest d' < 2 ^ 64 := by
  induction past generalizing d mgr with
  | nil => exact ⟨d, mgr, rfl, h, hlast⟩
  | cons s past ih =>
    obtain ⟨e, he, -, -, -⟩ := h.mount
    have hrun := s.run_of_mount he
    simp only [List.cons_append, sessionCommits, hrun] at hlast
    obtain ⟨mgr', hmountable, -, hgeneration, -⟩ :=
      h.session (htorn s List.mem_cons_self) he (by omega)
    obtain ⟨d', mgr'', hrest, hd', hlast'⟩ :=
      ih hmountable (fun s' hs' ↦ htorn s' (List.mem_cons_of_mem _ hs')) (by omega)
    exact ⟨d', mgr'', by rw [runSessions, hrun]; exact hrest, hd', hlast'⟩

end GaxStorageEngine

end Gaxera
