import Gaxera.Core.Resource
import Mathlib.Data.Nat.Digits.Lemmas

/-!
# The ELF parser

The image is a string of bytes at some address. The parser casts its front to a file header and the
entries of a table to program headers; it reads neither again after it has accepted them, so what it
checks once has to be enough for every later access.

An access outside the image, an `unwrap` of nothing and a sum that wraps around are faults here, and
not answers. `Loadable` says what an acceptable image is, in unbounded arithmetic: the parser
accepts exactly those images, never faults on any, and after it has accepted one nothing that is
read through it faults either.
-/

namespace Gaxera

/-- What an access must not do. -/
inductive Fault
  | outOfBounds
  | unwrapNone
  | overflow
deriving DecidableEq, Repr

/-- A slice of bytes in memory: at most `isize::MAX` of them. -/
structure Buffer where
  address : ℕ
  bytes : List UInt8
  length_lt : bytes.length < 2 ^ 63

def readAt (bytes : List UInt8) (offset size : ℕ) : Except Fault (List UInt8) :=
  if offset + size ≤ bytes.length then .ok ((bytes.drop offset).take size)
  else .error .outOfBounds

/-- A little-endian field of a record. -/
def field (record : List UInt8) (offset width : ℕ) : ℕ :=
  Nat.ofDigits 256 (((record.drop offset).take width).map UInt8.toNat)

/-! ## Records -/

/-- `Elf64_Ehdr`, without the fields nothing looks at. -/
structure Elf64Ehdr where
  eIdent : List UInt8
  eMachine : ℕ
  eVersion : ℕ
  eEntry : ℕ
  ePhoff : ℕ
  eEhsize : ℕ
  ePhentsize : ℕ
  ePhnum : ℕ
deriving DecidableEq, Repr

def Elf64Ehdr.size : ℕ := 64

def Elf64Ehdr.ofBytes (record : List UInt8) : Elf64Ehdr where
  eIdent := record.take 16
  eMachine := field record 18 2
  eVersion := field record 20 4
  eEntry := field record 24 8
  ePhoff := field record 32 8
  eEhsize := field record 52 2
  ePhentsize := field record 54 2
  ePhnum := field record 56 2

/-- `Elf64_Phdr`, without the fields nothing looks at. -/
structure Elf64Phdr where
  pType : ℕ
  pFlags : ℕ
  pOffset : ℕ
  pVaddr : ℕ
  pFilesz : ℕ
  pMemsz : ℕ
deriving DecidableEq, Repr

def Elf64Phdr.size : ℕ := 56

def Elf64Phdr.ofBytes (record : List UInt8) : Elf64Phdr where
  pType := field record 0 4
  pFlags := field record 4 4
  pOffset := field record 8 8
  pVaddr := field record 16 8
  pFilesz := field record 32 8
  pMemsz := field record 40 8

def ptLoad : ℕ := 1
def pfX : ℕ := 1
def pfW : ℕ := 2

namespace Elf64Phdr

def isExec (ph : Elf64Phdr) : Bool := decide (ph.pFlags &&& pfX ≠ 0)

def isWrite (ph : Elf64Phdr) : Bool := decide (ph.pFlags &&& pfW ≠ 0)

end Elf64Phdr

/-! ## Validation -/

inductive ElfError
  | bufferTooSmall
  | invalidMagic
  | unsupportedClass
  | unsupportedEndian
  | unsupportedVersion
  | unsupportedMachine
  | programHeaderOutOfBounds
  | malformedHeaderSize
  | invalidAlignment
  | kernelAddressViolation
deriving DecidableEq, Repr

def validateHeader (header : Elf64Ehdr) : Except ElfError Unit :=
  if header.eIdent.take 4 ≠ [0x7f, 0x45, 0x4c, 0x46] then .error .invalidMagic
  else if header.eIdent.getD 4 0 ≠ 2 then .error .unsupportedClass
  else if header.eIdent.getD 5 0 ≠ 1 then .error .unsupportedEndian
  else if header.eIdent.getD 6 0 ≠ 1 then .error .unsupportedVersion
  else if header.eMachine ≠ 0x3e then .error .unsupportedMachine
  else if header.eVersion ≠ 1 then .error .unsupportedVersion
  else if header.eEhsize ≠ Elf64Ehdr.size then .error .malformedHeaderSize
  else if header.ePhentsize ≠ Elf64Phdr.size then .error .malformedHeaderSize
  else .ok ()

def userVaddrMax : ℕ := 0x7fffffffffff

/-- The checks on one entry of the table; entries that are not loaded are not checked. -/
def validateSegment (length : ℕ) (ph : Elf64Phdr) : Except ElfError Unit :=
  if ph.pType ≠ ptLoad then .ok ()
  else if ph.pMemsz < ph.pFilesz then .error .programHeaderOutOfBounds
  else if ph.isWrite && ph.isExec then .error .invalidAlignment
  else
    match checkedAdd 64 ph.pOffset ph.pFilesz with
    | none => .error .programHeaderOutOfBounds
    | some segmentEnd =>
      if length < segmentEnd then .error .programHeaderOutOfBounds
      else
        match checkedAdd 64 ph.pVaddr ph.pMemsz with
        | none => .error .kernelAddressViolation
        | some vaddrEnd =>
          if userVaddrMax + 1 < vaddrEnd ∨ userVaddrMax < ph.pVaddr then
            .error .kernelAddressViolation
          else .ok ()

structure ElfParser where
  data : Buffer
  header : Elf64Ehdr

namespace ElfParser

/-- An item of the iterator `program_headers`. -/
def programHeader (p : ElfParser) (i : ℕ) : Except Fault Elf64Phdr :=
  match (checkedMul 64 i p.header.ePhentsize).bind fun o ↦ checkedAdd 64 o p.header.ePhoff with
  | none => .error .unwrapNone
  | some offset => (readAt p.data.bytes offset Elf64Phdr.size).map Elf64Phdr.ofBytes

def programHeaders (p : ElfParser) : Except Fault (List Elf64Phdr) :=
  (List.range p.header.ePhnum).mapM p.programHeader

/-- The loop over the table, from entry `i` on. -/
def validateSegments (p : ElfParser) (i : ℕ) : ℕ → Except Fault (Except ElfError Unit)
  | 0 => .ok (.ok ())
  | remaining + 1 =>
    match p.programHeader i with
    | .error fault => .error fault
    | .ok ph =>
      match validateSegment p.data.bytes.length ph with
      | .error e => .ok (.error e)
      | .ok () => p.validateSegments (i + 1) remaining

/-- The program header table, once the file header is valid. -/
def validateTable (p : ElfParser) : Except Fault (Except ElfError ElfParser) :=
  match (checkedMul 64 p.header.ePhnum p.header.ePhentsize).bind
      fun size ↦ checkedAdd 64 size p.header.ePhoff with
  | none => .ok (.error .programHeaderOutOfBounds)
  | some phEnd =>
    if p.data.bytes.length < phEnd then .ok (.error .programHeaderOutOfBounds)
    else if (p.data.address + p.header.ePhoff) % 8 ≠ 0 then .ok (.error .invalidAlignment)
    else
      match p.validateSegments 0 p.header.ePhnum with
      | .error fault => .error fault
      | .ok (.error e) => .ok (.error e)
      | .ok (.ok ()) => .ok (.ok p)

def new (data : Buffer) : Except Fault (Except ElfError ElfParser) :=
  if data.bytes.length < Elf64Ehdr.size then .ok (.error .bufferTooSmall)
  else if data.address % 8 ≠ 0 then .ok (.error .invalidAlignment)
  else
    match readAt data.bytes 0 Elf64Ehdr.size with
    | .error fault => .error fault
    | .ok record =>
      match validateHeader (Elf64Ehdr.ofBytes record) with
      | .error e => .ok (.error e)
      | .ok () => validateTable ⟨data, Elf64Ehdr.ofBytes record⟩

/-- The file bytes of a segment, `data[offset..offset + filesz]`. -/
def segmentBytes (p : ElfParser) (ph : Elf64Phdr) : Except Fault (List UInt8) :=
  if 2 ^ 64 ≤ ph.pOffset + ph.pFilesz then .error .overflow
  else readAt p.data.bytes ph.pOffset ph.pFilesz

end ElfParser

/-! ## Loadable images -/

/-- The file header of an image. -/
def fileHeader (bytes : List UInt8) : Elf64Ehdr := Elf64Ehdr.ofBytes (bytes.take Elf64Ehdr.size)

/-- An entry of the table. -/
def tableEntry (bytes : List UInt8) (i : ℕ) : Elf64Phdr :=
  Elf64Phdr.ofBytes
    ((bytes.drop ((fileHeader bytes).ePhoff + i * (fileHeader bytes).ePhentsize)).take
    Elf64Phdr.size)

/-- A file header of a 64-bit little-endian ELF image for x86-64. -/
structure Elf64Ehdr.Identifies (header : Elf64Ehdr) : Prop where
  magic : header.eIdent.take 4 = [0x7f, 0x45, 0x4c, 0x46]
  elfClass : header.eIdent.getD 4 0 = 2
  endian : header.eIdent.getD 5 0 = 1
  identVersion : header.eIdent.getD 6 0 = 1
  machine : header.eMachine = 0x3e
  version : header.eVersion = 1
  ehsize : header.eEhsize = 64
  phentsize : header.ePhentsize = 56

/-- A segment that can be loaded from an image of some length. -/
structure Elf64Phdr.LoadableFrom (length : ℕ) (ph : Elf64Phdr) : Prop where
  filesz_le : ph.pFilesz ≤ ph.pMemsz
  inside : ph.pOffset + ph.pFilesz ≤ length
  writeXorExec : ¬(ph.isWrite = true ∧ ph.isExec = true)
  vaddr_lt : ph.pVaddr < 2 ^ 47
  vaddr_end : ph.pVaddr + ph.pMemsz ≤ 2 ^ 47

structure Loadable (bytes : List UInt8) : Prop where
  length : 64 ≤ bytes.length
  header : (fileHeader bytes).Identifies
  table : (fileHeader bytes).ePhoff + (fileHeader bytes).ePhnum * (fileHeader bytes).ePhentsize
    ≤ bytes.length
  aligned : (fileHeader bytes).ePhoff % 8 = 0
  segments : ∀ i < (fileHeader bytes).ePhnum, (tableEntry bytes i).pType = ptLoad →
    (tableEntry bytes i).LoadableFrom bytes.length

/-! ## The checks -/

theorem readAt_eq_ok {bytes record : List UInt8} {offset size : ℕ} :
    readAt bytes offset size = .ok record
      ↔ offset + size ≤ bytes.length ∧ record = (bytes.drop offset).take size := by
  rw [readAt]
  by_cases hfits : offset + size ≤ bytes.length
  · rw [if_pos hfits, Except.ok.injEq, eq_comm]
    exact (and_iff_right hfits).symm
  · rw [if_neg hfits]
    exact ⟨(fun h ↦ nomatch h), fun h ↦ absurd h.1 hfits⟩

theorem validateHeader_eq_ok {header : Elf64Ehdr} :
    validateHeader header = .ok () ↔ header.Identifies := by
  constructor
  · intro h
    rw [validateHeader] at h
    split_ifs at h with h₁ h₂ h₃ h₄ h₅ h₆ h₇ h₈
    exact ⟨not_not.mp h₁, not_not.mp h₂, not_not.mp h₃, not_not.mp h₄, not_not.mp h₅,
      not_not.mp h₆, not_not.mp h₇, not_not.mp h₈⟩
  · rintro ⟨h₁, h₂, h₃, h₄, h₅, h₆, h₇, h₈⟩
    rw [validateHeader, if_neg (not_not.mpr h₁), if_neg (not_not.mpr h₂), if_neg (not_not.mpr h₃),
      if_neg (not_not.mpr h₄), if_neg (not_not.mpr h₅), if_neg (not_not.mpr h₆)]
    exact (if_neg (not_not.mpr h₇)).trans (if_neg (not_not.mpr h₈))

/-- A sum that is compared with a smaller bound need not be computed in unbounded arithmetic. -/
private theorem checkedAdd_of_le {a b bound : ℕ} (hbound : bound < 2 ^ 64) (h : a + b ≤ bound) :
    checkedAdd 64 a b = some (a + b) :=
  checkedAdd_eq_some.mpr ⟨by omega, rfl⟩

theorem validateSegment_eq_ok {length : ℕ} (hlength : length < 2 ^ 63) (ph : Elf64Phdr) :
    validateSegment length ph = .ok () ↔ (ph.pType = ptLoad → ph.LoadableFrom length) := by
  rw [validateSegment]
  by_cases htype : ph.pType ≠ ptLoad
  · rw [if_pos htype]
    exact ⟨fun _ h ↦ absurd h htype, fun _ ↦ rfl⟩
  rw [if_neg htype]
  constructor
  · intro h _
    split_ifs at h with hsize hflags
    cases hend : checkedAdd 64 ph.pOffset ph.pFilesz with
    | none => simp [hend] at h
    | some segmentEnd =>
      rw [hend] at h
      obtain ⟨-, rfl⟩ := checkedAdd_eq_some.mp hend
      dsimp only at h
      split_ifs at h with hinside
      cases hvaddr : checkedAdd 64 ph.pVaddr ph.pMemsz with
      | none => simp [hvaddr] at h
      | some vaddrEnd =>
        rw [hvaddr] at h
        obtain ⟨-, rfl⟩ := checkedAdd_eq_some.mp hvaddr
        dsimp only at h
        split_ifs at h with huser
        rw [userVaddrMax] at huser
        rw [Bool.and_eq_true] at hflags
        exact ⟨by omega, by omega, hflags, by omega, by omega⟩
  · intro h
    obtain ⟨hsize, hinside, hflags, hvaddr, hend⟩ := h (not_not.mp htype)
    rw [if_neg (by omega), if_neg (by rwa [Bool.and_eq_true]),
      checkedAdd_of_le (by omega) hinside]
    dsimp only
    rw [if_neg (by omega), checkedAdd_of_le (by decide) hend]
    dsimp only
    rw [if_neg]
    rw [userVaddrMax]
    omega

namespace ElfParser

/-- The table lies within the data. -/
def TableInside (p : ElfParser) : Prop :=
  p.header.ePhentsize = Elf64Phdr.size
    ∧ p.header.ePhoff + p.header.ePhnum * p.header.ePhentsize ≤ p.data.bytes.length

variable {p : ElfParser} {i : ℕ}

/-- The entry of the table that the iterator reads. -/
def entry (p : ElfParser) (i : ℕ) : Elf64Phdr :=
  Elf64Phdr.ofBytes ((p.data.bytes.drop (p.header.ePhoff + i * p.header.ePhentsize)).take
    Elf64Phdr.size)

/-- **Within the table the iterator neither unwraps nothing nor reads outside.** -/
theorem programHeader_eq (h : p.TableInside) (hi : i < p.header.ePhnum) :
    p.programHeader i = .ok (p.entry i) := by
  obtain ⟨hsize, htable⟩ := h
  have hlength := p.data.length_lt
  have hnext : (i + 1) * p.header.ePhentsize ≤ p.header.ePhnum * p.header.ePhentsize :=
    Nat.mul_le_mul_right _ hi
  rw [Nat.succ_mul] at hnext
  have hmul : checkedMul 64 i p.header.ePhentsize = some (i * p.header.ePhentsize) :=
    if_pos (by omega)
  have hadd : checkedAdd 64 (i * p.header.ePhentsize) p.header.ePhoff
      = some (i * p.header.ePhentsize + p.header.ePhoff) :=
    checkedAdd_eq_some.mpr ⟨by omega, rfl⟩
  rw [programHeader, hmul, Option.bind_some, hadd]
  dsimp only
  rw [readAt, if_pos (by omega), Except.map, entry, Nat.add_comm]

theorem validateSegments_eq (h : p.TableInside) (n : ℕ) (hn : i + n ≤ p.header.ePhnum) :
    ∃ answer, p.validateSegments i n = .ok answer ∧ (answer = .ok () ↔ ∀ j, i ≤ j → j < i + n →
      (p.entry j).pType = ptLoad → (p.entry j).LoadableFrom p.data.bytes.length) := by
  induction n generalizing i with
  | zero => exact ⟨.ok (), rfl, iff_of_true rfl fun j hlo hhi ↦ by omega⟩
  | succ n ih =>
    rw [validateSegments, programHeader_eq h (by omega)]
    dsimp only
    have hsegment := validateSegment_eq_ok p.data.length_lt (p.entry i)
    cases hcheck : validateSegment p.data.bytes.length (p.entry i) with
    | error e =>
      refine ⟨.error e, rfl, iff_of_false (fun h ↦ nomatch h) fun hall ↦ ?_⟩
      rw [hsegment.mpr (hall i (le_refl i) (by omega))] at hcheck
      cases hcheck
    | ok u =>
      obtain ⟨answer, heq, hanswer⟩ := ih (i := i + 1) (by omega)
      refine ⟨answer, heq, hanswer.trans ⟨fun hall j hlo hhi ↦ ?_, fun hall j hlo hhi ↦ ?_⟩⟩
      · rcases Nat.eq_or_lt_of_le hlo with rfl | hlt
        · exact hsegment.mp hcheck
        · exact hall j hlt (by omega)
      · exact hall j (by omega) (by omega)

/-- **The table**, once the file header is valid and the data are aligned. -/
theorem validateTable_eq (hsize : p.header.ePhentsize = Elf64Phdr.size)
    (haligned : p.data.address % 8 = 0) :
    ∃ answer, p.validateTable = .ok answer ∧ ∀ q, answer = .ok q ↔ q = p ∧ p.TableInside
      ∧ p.header.ePhoff % 8 = 0 ∧ ∀ j < p.header.ePhnum,
        (p.entry j).pType = ptLoad → (p.entry j).LoadableFrom p.data.bytes.length := by
  have hlength := p.data.length_lt
  rw [validateTable]
  by_cases htable : p.header.ePhoff + p.header.ePhnum * p.header.ePhentsize ≤ p.data.bytes.length
  · have hinside : p.TableInside := ⟨hsize, htable⟩
    have hmul : checkedMul 64 p.header.ePhnum p.header.ePhentsize
        = some (p.header.ePhnum * p.header.ePhentsize) := if_pos (by omega)
    rw [hmul, Option.bind_some, checkedAdd_eq_some.mpr ⟨by omega, rfl⟩]
    dsimp only
    rw [if_neg (by omega)]
    by_cases hoffset : p.header.ePhoff % 8 = 0
    · rw [if_neg (by omega)]
      obtain ⟨answer, heq, hanswer⟩ := validateSegments_eq hinside p.header.ePhnum
        (Nat.zero_add p.header.ePhnum).le
      rw [heq]
      rw [Nat.zero_add] at hanswer
      have hall : (∀ j, 0 ≤ j → j < p.header.ePhnum → (p.entry j).pType = ptLoad →
          (p.entry j).LoadableFrom p.data.bytes.length) ↔ ∀ j < p.header.ePhnum,
            (p.entry j).pType = ptLoad → (p.entry j).LoadableFrom p.data.bytes.length :=
        ⟨fun h j ↦ h j (Nat.zero_le j), fun h j _ ↦ h j⟩
      rw [hall] at hanswer
      cases answer with
      | error e =>
        refine ⟨.error e, rfl, fun q ↦ iff_of_false (fun h ↦ nomatch h) fun h ↦ ?_⟩
        cases hanswer.mpr h.2.2.2
      | ok u =>
        refine ⟨.ok p, rfl, fun q ↦ ⟨fun h ↦ ?_, fun h ↦ congrArg _ h.1.symm⟩⟩
        exact ⟨(Except.ok.inj h).symm, hinside, hoffset, hanswer.mp rfl⟩
    · rw [if_pos (by omega)]
      exact ⟨_, rfl, fun q ↦ iff_of_false (fun h ↦ nomatch h) fun h ↦ hoffset h.2.2.1⟩
  · -- the end of the table is past the data, or is no word at all
    refine ⟨.error .programHeaderOutOfBounds, ?_,
      fun q ↦ iff_of_false (fun h ↦ nomatch h) fun h ↦ htable h.2.1.2⟩
    cases hend : (checkedMul 64 p.header.ePhnum p.header.ePhentsize).bind
        fun size ↦ checkedAdd 64 size p.header.ePhoff with
    | none => rfl
    | some phEnd =>
      obtain ⟨size, hmul, hadd⟩ := Option.bind_eq_some_iff.mp hend
      obtain ⟨-, rfl⟩ := checkedAdd_eq_some.mp hadd
      rw [checkedMul] at hmul
      split_ifs at hmul
      obtain rfl := Option.some.inj hmul
      dsimp only
      rw [if_pos (by omega)]

/-! ## What is accepted -/

private theorem mapM_eq_ok {α β : Type} {f : α → Except Fault β} {g : α → β} {l : List α}
    (h : ∀ x ∈ l, f x = .ok (g x)) : l.mapM f = .ok (l.map g) := by
  induction l with
  | nil => rfl
  | cons x l ih =>
    rw [List.mapM_cons, h x List.mem_cons_self, ih fun y hy ↦ h y (List.mem_cons_of_mem _ hy)]
    rfl

/-- What the parser answers: it accepts loadable images, and keeps their file header. -/
theorem new_eq {data : Buffer} (haligned : data.address % 8 = 0) :
    ∃ answer, new data = .ok answer ∧ ∀ q, answer = .ok q ↔
      q = ⟨data, fileHeader data.bytes⟩ ∧ Loadable data.bytes := by
  rw [new]
  by_cases hshort : data.bytes.length < Elf64Ehdr.size
  · rw [if_pos hshort]
    refine ⟨_, rfl, fun q ↦ iff_of_false (fun h ↦ nomatch h) fun h ↦ ?_⟩
    exact absurd h.2.length (not_le.mpr hshort)
  rw [if_neg hshort, if_neg (not_not.mpr haligned),
    readAt_eq_ok.mpr ⟨by omega, by rw [List.drop_zero]⟩]
  dsimp only
  rw [← fileHeader]
  cases hheader : validateHeader (fileHeader data.bytes) with
  | error e =>
    refine ⟨_, rfl, fun q ↦ iff_of_false (fun h ↦ nomatch h) fun h ↦ ?_⟩
    rw [validateHeader_eq_ok.mpr h.2.header] at hheader
    cases hheader
  | ok u =>
    have hidentifies := validateHeader_eq_ok.mp hheader
    obtain ⟨answer, heq, hanswer⟩ :=
      validateTable_eq (p := ⟨data, fileHeader data.bytes⟩) hidentifies.phentsize haligned
    refine ⟨answer, heq, fun q ↦ (hanswer q).trans (and_congr_right fun _ ↦ ?_)⟩
    constructor
    · rintro ⟨⟨-, htable⟩, hoffset, hsegments⟩
      exact ⟨not_lt.mp hshort, hidentifies, htable, hoffset, hsegments⟩
    · rintro ⟨-, -, htable, hoffset, hsegments⟩
      exact ⟨⟨hidentifies.phentsize, htable⟩, hoffset, hsegments⟩

/-- Wherever the image lies, the parser answers, and what it accepts is loadable. -/
theorem answers (data : Buffer) : ∃ answer, new data = .ok answer ∧ ∀ q, answer = .ok q →
    q = ⟨data, fileHeader data.bytes⟩ ∧ Loadable data.bytes := by
  by_cases haligned : data.address % 8 = 0
  · obtain ⟨answer, heq, hanswer⟩ := new_eq haligned
    exact ⟨answer, heq, fun q hq ↦ (hanswer q).mp hq⟩
  · rw [new]
    by_cases hshort : data.bytes.length < Elf64Ehdr.size
    · rw [if_pos hshort]
      exact ⟨_, rfl, fun q hq ↦ nomatch hq⟩
    · rw [if_neg hshort, if_pos haligned]
      exact ⟨_, rfl, fun q hq ↦ nomatch hq⟩

theorem programHeaders_eq {data : Buffer} (h : Loadable data.bytes) :
    programHeaders ⟨data, fileHeader data.bytes⟩
      = .ok ((List.range (fileHeader data.bytes).ePhnum).map (tableEntry data.bytes)) :=
  mapM_eq_ok fun _ hi ↦ programHeader_eq ⟨h.header.phentsize, h.table⟩ (List.mem_range.mp hi)

/-- **The parser accepts exactly the loadable images**, answers on every image without a fault, and
after it has accepted one neither its program headers nor the file bytes of a loaded segment can be
read amiss. -/
theorem accepts_exactly_loadable (data : Buffer) (haligned : data.address % 8 = 0) :
    (∃ answer, new data = .ok answer)
      ∧ ((∃ parser, new data = .ok (.ok parser)) ↔ Loadable data.bytes)
      ∧ ∀ parser, new data = .ok (.ok parser) →
          parser.programHeaders = .ok ((List.range (fileHeader data.bytes).ePhnum).map
            (tableEntry data.bytes))
          ∧ ∀ i < (fileHeader data.bytes).ePhnum, (tableEntry data.bytes i).pType = ptLoad →
              parser.segmentBytes (tableEntry data.bytes i)
                = .ok ((data.bytes.drop (tableEntry data.bytes i).pOffset).take
                    (tableEntry data.bytes i).pFilesz)
              ∧ (tableEntry data.bytes i).pOffset + (tableEntry data.bytes i).pFilesz
                  ≤ data.bytes.length := by
  obtain ⟨answer, heq, hanswer⟩ := new_eq haligned
  rw [heq]
  refine ⟨⟨answer, rfl⟩, ⟨?_, fun h ↦ ?_⟩, fun parser hparser ↦ ?_⟩
  · rintro ⟨parser, hparser⟩
    exact ((hanswer parser).mp (Except.ok.inj hparser)).2
  · exact ⟨_, congrArg _ ((hanswer _).mpr ⟨rfl, h⟩)⟩
  · obtain ⟨rfl, hloadable⟩ := (hanswer parser).mp (Except.ok.inj hparser)
    refine ⟨programHeaders_eq hloadable, fun i hi htype ↦ ?_⟩
    have hinside := (hloadable.segments i hi htype).inside
    have hlength := data.length_lt
    refine ⟨?_, hinside⟩
    rw [segmentBytes, if_neg (by omega)]
    exact readAt_eq_ok.mpr ⟨hinside, rfl⟩

/-- An image of one segment, which is the whole file and eight zeros. -/
def smallImage : Buffer where
  address := 0x1000
  bytes :=
    [0x7f, 0x45, 0x4c, 0x46, 2, 1, 1, 0, 0, 0, 0, 0, 0, 0, 0, 0]
      ++ [2, 0, 0x3e, 0, 1, 0, 0, 0] ++ [0, 0, 0x40, 0, 0, 0, 0, 0] ++ [0x40, 0, 0, 0, 0, 0, 0, 0]
      ++ [0, 0, 0, 0, 0, 0, 0, 0] ++ [0, 0, 0, 0, 0x40, 0, 0x38, 0] ++ [1, 0, 0, 0, 0, 0, 0, 0]
      ++ [1, 0, 0, 0, 5, 0, 0, 0] ++ [0, 0, 0, 0, 0, 0, 0, 0] ++ [0, 0, 0x40, 0, 0, 0, 0, 0]
      ++ [0, 0, 0, 0, 0, 0, 0, 0] ++ [0x78, 0, 0, 0, 0, 0, 0, 0] ++ [0x80, 0, 0, 0, 0, 0, 0, 0]
      ++ [0, 0x10, 0, 0, 0, 0, 0, 0]
  length_lt := by decide

theorem smallImage_is_loadable : Loadable smallImage.bytes :=
  (accepts_exactly_loadable smallImage (by decide)).2.1.mp
    ⟨⟨smallImage, fileHeader smallImage.bytes⟩, by rfl⟩

end ElfParser

end Gaxera
