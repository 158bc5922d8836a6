import BitCrystal.Block
import BitCrystal.Data.Extents
import Mathlib.Data.UInt

namespace BitCrystal

open Data

/-! # Places in the block files -/

/-- The maximum size of a blk?????.dat file. -/
def MAX_BLOCKFILE_SIZE : UInt32 := 0x8000000

def BLOCKFILE_CHUNK_SIZE : UInt32 := 0x1000000
def UNDOFILE_CHUNK_SIZE : UInt32 := 0x100000

structure CBlockFileInfo where
  nBlocks : UInt32
  nSize : UInt32
  nUndoSize : UInt32
  nHeightFirst : UInt32
  nHeightLast : UInt32
  nTimeFirst : UInt64
  nTimeLast : UInt64
deriving DecidableEq

namespace CBlockFileInfo

def null : CBlockFileInfo := ⟨0, 0, 0, 0, 0, 0, 0⟩

/-- AddBlock, which does not update nSize. -/
def addBlock (info : CBlockFileInfo) (nHeightIn : UInt32) (nTimeIn : UInt64) : CBlockFileInfo :=
  let nHeightFirst := if info.nBlocks = 0 ∨ nHeightIn < info.nHeightFirst then nHeightIn else info.nHeightFirst
  let nTimeFirst := if info.nBlocks = 0 ∨ nTimeIn < info.nTimeFirst then nTimeIn else info.nTimeFirst
  { info with
    nHeightFirst
    nTimeFirst
    nBlocks := info.nBlocks + 1
    nHeightLast := if nHeightFirst < nHeightIn then nHeightIn else info.nHeightLast
    nTimeLast := if info.nTimeLast < nTimeIn then nTimeIn else info.nTimeLast }

@[simp] theorem addBlock_nSize (info : CBlockFileInfo) (nHeightIn : UInt32) (nTimeIn : UInt64) :
    (info.addBlock nHeightIn nTimeIn).nSize = info.nSize := rfl

@[simp] theorem addBlock_nUndoSize (info : CBlockFileInfo) (nHeightIn : UInt32) (nTimeIn : UInt64) :
    (info.addBlock nHeightIn nTimeIn).nUndoSize = info.nUndoSize := rfl

end CBlockFileInfo

/-- Whether the pre-allocated chunks do not reach up to the new end. -/
def needsChunk (chunkSize nPos nNewSize : UInt32) : Bool :=
  (nPos + chunkSize - 1) / chunkSize < (nNewSize + chunkSize - 1) / chunkSize

/-- The globals of the block files, and what the block tree database has of them. -/
structure BlockFiles where
  infoLastBlockFile : CBlockFileInfo
  nLastBlockFile : Int32
  blockFileInfos : Std.ExtTreeMap Int32 CBlockFileInfo

/-- What the disk answers during one call. -/
structure DiskAnswers where
  /-- CheckDiskSpace -/
  fDiskSpace : Bool
  /-- WriteBlockFileInfo -/
  fInfoWritten : Bool

namespace BlockFiles

def initial : BlockFiles := ⟨.null, 0, ∅⟩

/-- `nFile` becomes the last block file; its information is read back, which can
fail just fine. -/
def openFile (s : BlockFiles) (nFile : Int32) : BlockFiles :=
  { s with nLastBlockFile := nFile, infoLastBlockFile := s.blockFileInfos[nFile]?.getD .null }

/-- The loop that leaves block files without room, for so many turns: after one
turn for every number the loop is where it has been. -/
def leaveFullFiles (nAddSize : UInt32) : Nat → BlockFiles → Except Failure BlockFiles
  | 0, _ => .error .endless
  | room + 1, s =>
      if MAX_BLOCKFILE_SIZE ≤ s.infoLastBlockFile.nSize + nAddSize then
        leaveFullFiles nAddSize room (s.openFile (s.nLastBlockFile + 1))
      else .ok s

/-- The file that FindBlockPos takes. -/
def chooseFile (s : BlockFiles) (pos : CDiskBlockPos) (nAddSize : UInt32) (fKnown : Bool) :
    Except Failure BlockFiles :=
  if fKnown then .ok (if s.nLastBlockFile = pos.nFile then s else s.openFile pos.nFile)
  else leaveFullFiles nAddSize (2 ^ 32 + 1) s

/-- FindBlockPos, with the position for the block. -/
def findBlockPos (disk : DiskAnswers) (s : BlockFiles) (pos : CDiskBlockPos) (nAddSize nHeight : UInt32)
    (nTime : UInt64) (fKnown : Bool) : BlockFiles × Except Failure CDiskBlockPos :=
  match s.chooseFile pos nAddSize fKnown with
  | .error reason => (s, .error reason)
  | .ok s =>
      let pos := if fKnown then pos else ⟨s.nLastBlockFile, s.infoLastBlockFile.nSize⟩
      let info := { s.infoLastBlockFile with nSize := s.infoLastBlockFile.nSize + nAddSize }
      let s := { s with infoLastBlockFile := info.addBlock nHeight nTime }
      if !fKnown && needsChunk BLOCKFILE_CHUNK_SIZE pos.nPos info.nSize && !disk.fDiskSpace then
        (s, .error (.abort ""))
      else if !disk.fInfoWritten then (s, .error (.abort "Failed to write file info"))
      else
        ({ s with blockFileInfos := s.blockFileInfos.insert s.nLastBlockFile s.infoLastBlockFile }, .ok pos)

/-- The last part of FindUndoPos, for undo data up to `nNewSize`. -/
def reserveUndo (disk : DiskAnswers) (s : BlockFiles) (pos : CDiskBlockPos) (nNewSize : UInt32) :
    BlockFiles × Except Failure CDiskBlockPos :=
  if needsChunk UNDOFILE_CHUNK_SIZE pos.nPos nNewSize && !disk.fDiskSpace then (s, .error (.abort ""))
  else (s, .ok pos)

/-- FindUndoPos, with the position for the undo data. -/
def findUndoPos (disk : DiskAnswers) (s : BlockFiles) (nFile : Int32) (nAddSize : UInt32) :
    BlockFiles × Except Failure CDiskBlockPos :=
  if nFile = s.nLastBlockFile then
    let nPos := s.infoLastBlockFile.nUndoSize
    let s := { s with infoLastBlockFile := { s.infoLastBlockFile with nUndoSize := nPos + nAddSize } }
    if !disk.fInfoWritten then (s, .error (.abort "Failed to write block info"))
    else reserveUndo disk
      { s with blockFileInfos := s.blockFileInfos.insert s.nLastBlockFile s.infoLastBlockFile }
      ⟨nFile, nPos⟩ (nPos + nAddSize)
  else
    match s.blockFileInfos[nFile]? with
    | none => (s, .error (.abort "Failed to read block info"))
    | some info =>
        if !disk.fInfoWritten then (s, .error (.abort "Failed to write block info"))
        else reserveUndo disk
          { s with
            blockFileInfos :=
              s.blockFileInfos.insert nFile { info with nUndoSize := info.nUndoSize + nAddSize } }
          ⟨nFile, info.nUndoSize⟩ (info.nUndoSize + nAddSize)

/-! ## The marks -/

end BlockFiles

/-- The block file or the undo file with a number. -/
structure DataFile where
  fUndo : Bool
  nFile : Int32
deriving DecidableEq

def CBlockFileInfo.used (info : CBlockFileInfo) (fUndo : Bool) : Nat :=
  if fUndo then info.nUndoSize.toNat else info.nSize.toNat

namespace BlockFiles

variable {s opened : BlockFiles} {disk : DiskAnswers} {pos found : CDiskBlockPos} {nAddSize : UInt32}

def saved (s : BlockFiles) (nFile : Int32) : CBlockFileInfo :=
  s.blockFileInfos[nFile]?.getD .null

def recorded (s : BlockFiles) (nFile : Int32) : CBlockFileInfo :=
  if nFile = s.nLastBlockFile then s.infoLastBlockFile else s.saved nFile

/-- Where the next range of the file starts, also after it has been read back. -/
def mark (s : BlockFiles) (file : DataFile) : Nat :=
  min ((s.recorded file.nFile).used file.fUndo) ((s.saved file.nFile).used file.fUndo)

theorem saved_insert (nFile other : Int32) (info : CBlockFileInfo) :
    ({ s with blockFileInfos := s.blockFileInfos.insert nFile info } : BlockFiles).saved other =
      if nFile = other then info else s.saved other := by
  simp only [saved, Std.ExtTreeMap.getElem?_insert, Std.compare_eq_iff_eq]
  split <;> rfl

theorem mark_openFile (nFile : Int32) (file : DataFile) : s.mark file ≤ (s.openFile nFile).mark file := by
  have known : (s.openFile nFile).saved file.nFile = s.saved file.nFile := rfl
  have read : (s.openFile nFile).recorded file.nFile = s.saved file.nFile := by
    unfold recorded
    split
    · rename_i same
      rw [same]
      rfl
    · rfl
  rw [mark, mark, known, read]
  omega

theorem mark_last {info : CBlockFileInfo} (grows : ∀ fUndo, s.infoLastBlockFile.used fUndo ≤ info.used fUndo)
    (file : DataFile) : s.mark file ≤ ({ s with infoLastBlockFile := info } : BlockFiles).mark file := by
  have same : ({ s with infoLastBlockFile := info } : BlockFiles).saved file.nFile = s.saved file.nFile := rfl
  have larger := grows file.fUndo
  unfold mark recorded
  rw [same]
  by_cases last : file.nFile = s.nLastBlockFile
  · simp only [if_pos last]
    omega
  · simp only [if_neg last]
    omega

theorem mark_save {nFile : Int32} {info : CBlockFileInfo}
    (grows : ∀ fUndo, (s.recorded nFile).used fUndo ≤ info.used fUndo)
    (last : nFile = s.nLastBlockFile → s.infoLastBlockFile = info) (file : DataFile) :
    s.mark file ≤ ({ s with blockFileInfos := s.blockFileInfos.insert nFile info } : BlockFiles).mark file ∧
      (file.nFile = nFile →
        info.used file.fUndo ≤ ({ s with blockFileInfos := s.blockFileInfos.insert nFile info } : BlockFiles).mark file) := by
  have larger := grows file.fUndo
  unfold mark
  rw [saved_insert]
  unfold recorded at larger ⊢
  rw [saved_insert]
  by_cases same : nFile = file.nFile
  · subst same
    by_cases own : file.nFile = s.nLastBlockFile
    · have written := last own
      simp only [if_pos own, if_true, written] at larger ⊢
      omega
    · simp only [if_neg own, if_true] at larger ⊢
      omega
  · have other : ¬ file.nFile = nFile := fun eq => same eq.symm
    simp only [if_neg same]
    exact ⟨Nat.le_refl _, fun eq => absurd eq other⟩

theorem mark_fill {info : CBlockFileInfo} (grows : ∀ fUndo, s.infoLastBlockFile.used fUndo ≤ info.used fUndo)
    (file : DataFile) :
    s.mark file ≤ ({ s with
      infoLastBlockFile := info
      blockFileInfos := s.blockFileInfos.insert s.nLastBlockFile info } : BlockFiles).mark file ∧
    (file.nFile = s.nLastBlockFile → info.used file.fUndo ≤ ({ s with
      infoLastBlockFile := info
      blockFileInfos := s.blockFileInfos.insert s.nLastBlockFile info } : BlockFiles).mark file) := by
  have own (fUndo : Bool) : (recorded { s with infoLastBlockFile := info } s.nLastBlockFile).used fUndo ≤
      info.used fUndo := by simp [recorded]
  obtain ⟨keeps, ends⟩ := mark_save own (fun _ => rfl) file
  exact ⟨Nat.le_trans (mark_last grows file) keeps, ends⟩

theorem leaveFullFiles_mark {room : Nat} (run : leaveFullFiles nAddSize room s = .ok opened) (file : DataFile) :
    s.mark file ≤ opened.mark file := by
  induction room generalizing s with
  | zero => contradiction
  | succ room ih =>
      unfold leaveFullFiles at run
      split at run
      · exact Nat.le_trans (mark_openFile _ file) (ih run)
      · cases run
        exact Nat.le_refl _

theorem chooseFile_mark {fKnown : Bool} (run : s.chooseFile pos nAddSize fKnown = .ok opened) (file : DataFile) :
    s.mark file ≤ opened.mark file := by
  unfold chooseFile at run
  split at run
  · cases run
    split
    · exact Nat.le_refl _
    · exact mark_openFile _ file
  · exact leaveFullFiles_mark run file

theorem chooseFile_known (run : s.chooseFile pos nAddSize true = .ok opened) :
    opened.nLastBlockFile = pos.nFile ∧ opened.infoLastBlockFile = s.recorded pos.nFile := by
  simp only [chooseFile, if_true, Except.ok.injEq] at run
  subst run
  unfold recorded
  split
  · rename_i same
    rw [if_pos same.symm]
    exact ⟨same, rfl⟩
  · rename_i different
    rw [if_neg fun eq => different eq.symm]
    exact ⟨rfl, rfl⟩

/-- No recorded size passes 32 bits when this many bytes are added to it. -/
structure Room (s : BlockFiles) (fUndo : Bool) (size : Nat) : Prop where
  last : s.infoLastBlockFile.used fUndo + size < 2 ^ 32
  saved : ∀ nFile, (s.saved nFile).used fUndo + size < 2 ^ 32

theorem Room.openFile {fUndo : Bool} {size : Nat} (room : s.Room fUndo size) (nFile : Int32) :
    (s.openFile nFile).Room fUndo size :=
  ⟨room.saved nFile, room.saved⟩

theorem Room.chooseFile {fUndo fKnown : Bool} {size : Nat} (room : s.Room fUndo size)
    (run : s.chooseFile pos nAddSize fKnown = .ok opened) : opened.Room fUndo size := by
  have leave : ∀ {turns : Nat} {s : BlockFiles}, s.Room fUndo size → leaveFullFiles nAddSize turns s = .ok opened →
      opened.Room fUndo size := by
    intro turns
    induction turns with
    | zero =>
        intro s _ impossible
        contradiction
    | succ turns ih =>
        intro s room run
        unfold leaveFullFiles at run
        split at run
        · exact ih (room.openFile _) run
        · cases run
          exact room
  unfold BlockFiles.chooseFile at run
  split at run
  · cases run
    split
    · exact room
    · exact room.openFile _
  · exact leave room run

/-! ## What a call does to the marks -/

/-- FindBlockPos never lowers a mark; a new block gets a place from the mark on,
and a known one lifts the mark by its size. -/
theorem findBlockPos_mark {nHeight : UInt32} {nTime : UInt64} {fKnown : Bool} (room : s.Room false nAddSize.toNat) :
    (∀ file, s.mark file ≤ (s.findBlockPos disk pos nAddSize nHeight nTime fKnown).1.mark file) ∧
      ∀ found, (s.findBlockPos disk pos nAddSize nHeight nTime fKnown).2 = .ok found →
        (fKnown = false → found.nPos.toNat + nAddSize.toNat ≤
          (s.findBlockPos disk pos nAddSize nHeight nTime fKnown).1.mark ⟨false, found.nFile⟩) ∧
        (fKnown = true → found = pos ∧ (s.recorded pos.nFile).nSize.toNat + nAddSize.toNat ≤
          (s.findBlockPos disk pos nAddSize nHeight nTime fKnown).1.mark ⟨false, pos.nFile⟩) := by
  unfold findBlockPos
  cases chosen : s.chooseFile pos nAddSize fKnown with
  | error reason => exact ⟨fun file => Nat.le_refl _, fun found impossible => by contradiction⟩
  | ok opened =>
      have opens := chooseFile_mark chosen
      have fits : opened.infoLastBlockFile.nSize.toNat + nAddSize.toNat < 2 ^ 32 := (room.chooseFile chosen).last
      generalize infoEq : ({ opened.infoLastBlockFile with
        nSize := opened.infoLastBlockFile.nSize + nAddSize } : CBlockFileInfo).addBlock nHeight nTime = info
      have size : info.nSize.toNat = opened.infoLastBlockFile.nSize.toNat + nAddSize.toNat := by
        rw [← infoEq, CBlockFileInfo.addBlock_nSize, UInt32.toNat_add, Nat.mod_eq_of_lt fits]
      have grows : ∀ fUndo, opened.infoLastBlockFile.used fUndo ≤ info.used fUndo := by
        intro fUndo
        cases fUndo with
        | true => rw [← infoEq]; exact Nat.le_refl _
        | false => simp only [CBlockFileInfo.used, Bool.false_eq_true, if_false, size]; omega
      have fills (file : DataFile) : s.mark file ≤ ({ opened with infoLastBlockFile := info } : BlockFiles).mark file :=
        Nat.le_trans (opens file) (mark_last grows file)
      simp only [infoEq]
      generalize placed : (if fKnown then pos else
        (⟨opened.nLastBlockFile, opened.infoLastBlockFile.nSize⟩ : CDiskBlockPos)) = place
      split_ifs
      · exact ⟨fills, fun found impossible => by contradiction⟩
      · exact ⟨fills, fun found impossible => by contradiction⟩
      · have saves (file : DataFile) := mark_fill grows file
        refine ⟨fun file => Nat.le_trans (opens file) (saves file).1, fun found returned => ?_⟩
        rw [Except.ok.injEq] at returned
        have written := (saves ⟨false, opened.nLastBlockFile⟩).2 rfl
        simp only [CBlockFileInfo.used, Bool.false_eq_true, if_false, size] at written
        subst returned
        cases fKnown with
        | false =>
            subst placed
            exact ⟨fun _ => written, fun impossible => by contradiction⟩
        | true =>
            obtain ⟨file, before⟩ := chooseFile_known chosen
            subst placed
            have own : (⟨false, opened.nLastBlockFile⟩ : DataFile) = ⟨false, pos.nFile⟩ := by rw [file]
            rw [before, own] at written
            exact ⟨fun impossible => by contradiction, fun _ => ⟨rfl, written⟩⟩

theorem findBlockPos_start {nHeight : UInt32} {nTime : UInt64}
    (returned : (s.findBlockPos disk pos nAddSize nHeight nTime false).2 = .ok found) :
    s.mark ⟨false, found.nFile⟩ ≤ found.nPos.toNat := by
  unfold findBlockPos at returned
  cases chosen : s.chooseFile pos nAddSize false with
  | error reason =>
      rw [chosen] at returned
      contradiction
  | ok opened =>
      have opens := chooseFile_mark chosen ⟨false, opened.nLastBlockFile⟩
      have last : opened.mark ⟨false, opened.nLastBlockFile⟩ ≤ opened.infoLastBlockFile.nSize.toNat := by
        simp only [mark, recorded, if_true, CBlockFileInfo.used, Bool.false_eq_true, if_false]
        omega
      rw [chosen] at returned
      simp only [Bool.false_eq_true, if_false] at returned
      split_ifs at returned
      cases returned
      exact Nat.le_trans opens last

theorem used_addUndo {info : CBlockFileInfo} (fits : info.nUndoSize.toNat + nAddSize.toNat < 2 ^ 32) :
    (∀ fUndo, info.used fUndo ≤
      ({ info with nUndoSize := info.nUndoSize + nAddSize } : CBlockFileInfo).used fUndo) ∧
    ({ info with nUndoSize := info.nUndoSize + nAddSize } : CBlockFileInfo).used true =
      info.nUndoSize.toNat + nAddSize.toNat := by
  have size : ({ info with nUndoSize := info.nUndoSize + nAddSize } : CBlockFileInfo).used true =
      info.nUndoSize.toNat + nAddSize.toNat := by
    simp only [CBlockFileInfo.used, if_true]
    rw [UInt32.toNat_add, Nat.mod_eq_of_lt fits]
  refine ⟨fun fUndo => ?_, size⟩
  cases fUndo with
  | true =>
      rw [size]
      exact Nat.le_add_right _ _
  | false => exact Nat.le_refl _

theorem reserveUndo_ok {nNewSize : UInt32} (returned : (reserveUndo disk s pos nNewSize).2 = .ok found) :
    found = pos := by
  unfold reserveUndo at returned
  split at returned
  · contradiction
  · cases returned
    rfl

@[simp] theorem reserveUndo_state {nNewSize : UInt32} : (reserveUndo disk s pos nNewSize).1 = s := by
  unfold reserveUndo
  split <;> rfl

theorem findUndoPos_start {nFile : Int32} (returned : (s.findUndoPos disk nFile nAddSize).2 = .ok found) :
    s.mark ⟨true, found.nFile⟩ ≤ found.nPos.toNat := by
  unfold findUndoPos at returned
  split at returned
  · rename_i last
    dsimp only at returned
    split at returned
    · contradiction
    · rw [reserveUndo_ok returned, last]
      simp only [mark, recorded, if_true, CBlockFileInfo.used]
      omega
  · rename_i other
    cases read : s.blockFileInfos[nFile]? with
    | none =>
        rw [read] at returned
        contradiction
    | some known =>
        rw [read] at returned
        dsimp only at returned
        split at returned
        · contradiction
        · rw [reserveUndo_ok returned]
          have savedEq : s.saved nFile = known := by rw [saved, read, Option.getD_some]
          simp only [mark, recorded, if_neg other, savedEq, CBlockFileInfo.used, if_true]
          omega

/-- FindUndoPos never lowers a mark, and it lifts one by the size of the undo data. -/
theorem findUndoPos_mark {nFile : Int32} (room : s.Room true nAddSize.toNat) :
    (∀ file, s.mark file ≤ (s.findUndoPos disk nFile nAddSize).1.mark file) ∧
      ∀ found, (s.findUndoPos disk nFile nAddSize).2 = .ok found →
        found.nPos.toNat + nAddSize.toNat ≤ (s.findUndoPos disk nFile nAddSize).1.mark ⟨true, found.nFile⟩ := by
  unfold findUndoPos
  split
  · rename_i last
    subst last
    obtain ⟨grows, size⟩ := used_addUndo room.last
    have saves (file : DataFile) := mark_fill grows file
    dsimp only
    split
    · exact ⟨mark_last grows, fun found impossible => by contradiction⟩
    · rw [reserveUndo_state]
      refine ⟨fun file => (saves file).1, fun found returned => ?_⟩
      rw [reserveUndo_ok returned, ← size]
      exact (saves ⟨true, s.nLastBlockFile⟩).2 rfl
  · rename_i other
    cases read : s.blockFileInfos[nFile]? with
    | none => exact ⟨fun file => Nat.le_refl _, fun found impossible => by contradiction⟩
    | some known =>
        have savedEq : s.saved nFile = known := by rw [saved, read, Option.getD_some]
        have recordedEq : s.recorded nFile = known := by rw [recorded, if_neg other, savedEq]
        obtain ⟨grows, size⟩ := used_addUndo (savedEq ▸ room.saved nFile)
        have saves (file : DataFile) := mark_save (fun fUndo => (congrArg (·.used fUndo) recordedEq).trans_le
          (grows fUndo)) (fun last => absurd last other) file
        dsimp only
        split
        · exact ⟨fun file => Nat.le_refl _, fun found impossible => by contradiction⟩
        · rw [reserveUndo_state]
          refine ⟨fun file => (saves file).1, fun found returned => ?_⟩
          rw [reserveUndo_ok returned, ← size]
          exact (saves ⟨true, nFile⟩).2 rfl

end BlockFiles

/-! ## Runs -/

/-- What is asked of the block files: a place for a block, at `dbp` when it is stored
there, or a place for undo data. -/
inductive PlaceRequest where
  | block (nBlockSize nHeight : UInt32) (nTime : UInt64) (dbp : Option CDiskBlockPos)
  | undo (nFile : Int32) (nAddSize : UInt32)

namespace PlaceRequest

def fresh : PlaceRequest → Bool
  | .block _ _ _ dbp => dbp.isNone
  | .undo _ _ => true

/-- The bytes that a request takes: a new block is written behind an eight-byte header,
a known one lies behind its header already. -/
def region (request : PlaceRequest) (pos : CDiskBlockPos) : Extent DataFile :=
  match request with
  | .block nBlockSize _ _ none => ⟨⟨false, pos.nFile⟩, pos.nPos.toNat, pos.nPos.toNat + (nBlockSize + 8).toNat⟩
  | .block nBlockSize _ _ (some _) => ⟨⟨false, pos.nFile⟩, pos.nPos.toNat, pos.nPos.toNat + nBlockSize.toNat⟩
  | .undo _ nAddSize => ⟨⟨true, pos.nFile⟩, pos.nPos.toNat, pos.nPos.toNat + nAddSize.toNat⟩

end PlaceRequest

namespace BlockFiles

def answer (disk : DiskAnswers) (s : BlockFiles) : PlaceRequest → BlockFiles × Except Failure CDiskBlockPos
  | .block nBlockSize nHeight nTime dbp =>
      s.findBlockPos disk (dbp.getD ⟨-1, 0⟩) (nBlockSize + 8) nHeight nTime dbp.isSome
  | .undo nFile nAddSize => s.findUndoPos disk nFile nAddSize

/-- The requests one after another, with the bytes taken so far, the last ones first. -/
def serve (s : BlockFiles) (regions : List (Extent DataFile)) :
    List (DiskAnswers × PlaceRequest) → BlockFiles × List (Extent DataFile)
  | [] => (s, regions)
  | (disk, request) :: requests =>
      match s.answer disk request with
      | (next, .ok pos) => next.serve (request.region pos :: regions) requests
      | (next, .error _) => next.serve regions requests

/-- No size passes 32 bits, and a known block comes right after what its file is
recorded to hold, with at most its header between. -/
def Fits (s : BlockFiles) : PlaceRequest → Prop
  | .block nBlockSize _ _ none => s.Room false (nBlockSize.toNat + 8)
  | .block nBlockSize _ _ (some dbp) => s.Room false (nBlockSize.toNat + 8) ∧
      (s.recorded dbp.nFile).nSize.toNat ≤ dbp.nPos.toNat ∧
      dbp.nPos.toNat ≤ (s.recorded dbp.nFile).nSize.toNat + 8
  | .undo _ nAddSize => s.Room true nAddSize.toNat

def Fitting (s : BlockFiles) : List (DiskAnswers × PlaceRequest) → Prop
  | [] => True
  | (disk, request) :: requests => s.Fits request ∧ (s.answer disk request).1.Fitting requests

variable {s : BlockFiles} {disk : DiskAnswers} {found : CDiskBlockPos} {request : PlaceRequest}
  {requests : List (DiskAnswers × PlaceRequest)} {regions : List (Extent DataFile)}

theorem answer_start (fresh : request.fresh) (returned : (s.answer disk request).2 = .ok found) :
    s.mark (request.region found).key ≤ (request.region found).start := by
  cases request with
  | block nBlockSize nHeight nTime dbp =>
      cases dbp with
      | none => exact findBlockPos_start returned
      | some dbp => contradiction
  | undo nFile nAddSize => exact findUndoPos_start returned

theorem Room.header {nBlockSize : UInt32} (room : s.Room false (nBlockSize.toNat + 8)) :
    (nBlockSize + 8).toNat = nBlockSize.toNat + 8 := by
  have last := room.last
  have eight : (8 : UInt32).toNat = 8 := rfl
  rw [UInt32.toNat_add, eight, Nat.mod_eq_of_lt (by omega)]

theorem answer_mark (fits : s.Fits request) :
    (∀ file, s.mark file ≤ (s.answer disk request).1.mark file) ∧
      ∀ found, (s.answer disk request).2 = .ok found →
        s.mark (request.region found).key ≤ (request.region found).start ∧
        (request.region found).stop ≤ (s.answer disk request).1.mark (request.region found).key := by
  cases request with
  | block nBlockSize nHeight nTime dbp =>
      cases dbp with
      | none =>
          have room : s.Room false (nBlockSize + 8).toNat := by
            rw [Room.header fits]
            exact fits
          obtain ⟨keeps, places⟩ := findBlockPos_mark room
          exact ⟨keeps, fun found returned => ⟨findBlockPos_start returned, (places found returned).1 rfl⟩⟩
      | some dbp =>
          obtain ⟨fits, above, close⟩ := fits
          have header := fits.header
          have room : s.Room false (nBlockSize + 8).toNat := by
            rw [header]
            exact fits
          obtain ⟨keeps, places⟩ := findBlockPos_mark room
          refine ⟨keeps, fun found returned => ?_⟩
          obtain ⟨rfl, lifted⟩ := (places found returned).2 rfl
          have low : s.mark ⟨false, found.nFile⟩ ≤ (s.recorded found.nFile).nSize.toNat := Nat.min_le_left _ _
          rw [header, Option.getD_some] at lifted
          refine ⟨Nat.le_trans low above, Nat.le_trans ?_ lifted⟩
          change found.nPos.toNat + nBlockSize.toNat ≤ _
          omega
  | undo nFile nAddSize =>
      obtain ⟨keeps, places⟩ := findUndoPos_mark fits
      exact ⟨keeps, fun found returned => ⟨findUndoPos_start returned, places found returned⟩⟩

theorem serve_below (fits : s.Fitting requests) (below : Below s.mark regions)
    (apart : regions.Pairwise Extent.After) :
    Below (s.serve regions requests).1.mark (s.serve regions requests).2 ∧
      (s.serve regions requests).2.Pairwise Extent.After := by
  induction requests generalizing s regions with
  | nil => exact ⟨below, apart⟩
  | cons call requests ih =>
      obtain ⟨disk, request⟩ := call
      obtain ⟨own, rest⟩ := fits
      obtain ⟨keeps, places⟩ := answer_mark own
      unfold serve
      generalize answered : s.answer disk request = result at keeps places rest
      obtain ⟨next, verdict⟩ := result
      cases verdict with
      | error reason => exact ih rest (below.mono keeps) apart
      | ok found =>
          obtain ⟨above, ends⟩ := places found rfl
          exact ih rest ((below.mono keeps).cons ends) (apart.cons (below.after above))

/-- FindBlockPos and FindUndoPos never hand out a byte twice, and a fresh place comes
after all the places of its file so far, as long as every known block follows what
its file is recorded to hold. -/
theorem places_apart (s : BlockFiles) (requests : List (DiskAnswers × PlaceRequest)) (fits : s.Fitting requests) :
    (s.serve [] requests).2.Pairwise Extent.Apart ∧
      ∀ disk request found, request.fresh → ((s.serve [] requests).1.answer disk request).2 = .ok found →
        ∀ earlier ∈ (s.serve [] requests).2, (request.region found).After earlier := by
  obtain ⟨below, apart⟩ := serve_below fits .nil .nil
  refine ⟨apart.imp Extent.After.apart, fun disk request found fresh returned => ?_⟩
  exact below.after (answer_start fresh returned)

/-! ## Samples -/

theorem Room.fill {fUndo : Bool} {size : Nat} {nFile : Int32} {info : CBlockFileInfo} (room : s.Room fUndo size)
    (fits : info.used fUndo + size < 2 ^ 32) :
    ({ s with
      infoLastBlockFile := info
      blockFileInfos := s.blockFileInfos.insert nFile info } : BlockFiles).Room fUndo size := by
  refine ⟨fits, fun other => ?_⟩
  rw [saved_insert (s := { s with infoLastBlockFile := info })]
  split
  · exact fits
  · exact room.saved other

theorem room_initial {fUndo : Bool} {size : Nat} (fits : size < 2 ^ 32) : initial.Room fUndo size := by
  have unused : CBlockFileInfo.null.used fUndo = 0 := by
    cases fUndo <;> rfl
  refine ⟨?_, fun nFile => ?_⟩
  · change CBlockFileInfo.null.used fUndo + size < 2 ^ 32
    omega
  · change ((∅ : Std.ExtTreeMap Int32 CBlockFileInfo)[nFile]?.getD CBlockFileInfo.null).used fUndo + size < 2 ^ 32
    rw [Std.ExtTreeMap.getElem?_empty, Option.getD_none]
    omega

/-- A disk with space that takes every write. -/
def goodDisk : DiskAnswers := ⟨true, true⟩

/-- The first stored block of a file, and then its undo data and a new block. -/
def reindexed : List (DiskAnswers × PlaceRequest) :=
  [(goodDisk, .block 500 1 1000 (some ⟨0, 8⟩)), (goodDisk, .undo 0 60), (goodDisk, .block 300 2 1060 none)]

/-- The information on the file after the first request, and after the second. -/
def indexedInfo (nUndoSize : UInt32) : CBlockFileInfo := ⟨1, 508, nUndoSize, 1, 0, 1000, 1000⟩

theorem reindexed_fits : initial.Fitting reindexed := by
  let indexed : BlockFiles := { initial with
    infoLastBlockFile := indexedInfo 0
    blockFileInfos := initial.blockFileInfos.insert 0 (indexedInfo 0) }
  have known : (initial.answer goodDisk (.block 500 1 1000 (some ⟨0, 8⟩))).1 = indexed := rfl
  have room {fUndo : Bool} {size : Nat} (few : size < 1000) : indexed.Room fUndo size := by
    have used : (indexedInfo 0).used fUndo ≤ 508 := by cases fUndo <;> decide
    exact (room_initial (by omega)).fill (by omega)
  have undone : (indexed.answer goodDisk (.undo 0 60)).1 = { indexed with
      infoLastBlockFile := indexedInfo 60
      blockFileInfos := indexed.blockFileInfos.insert 0 (indexedInfo 60) } := reserveUndo_state
  have before : indexed.Room false 308 := room (by decide)
  refine ⟨⟨room_initial (by decide), by decide, by decide⟩, ?_⟩
  rw [known]
  refine ⟨room (by decide), ?_, trivial⟩
  rw [undone]
  exact before.fill (by decide)

theorem places_apart_sample :
    (initial.serve [] reindexed).2 =
        [⟨⟨false, 0⟩, 508, 816⟩, ⟨⟨true, 0⟩, 0, 60⟩, ⟨⟨false, 0⟩, 8, 508⟩] ∧
      (initial.serve [] reindexed).2.Pairwise Extent.Apart :=
  ⟨by decide, (places_apart initial reindexed reindexed_fits).1⟩

/-- The first block of the file has not been accepted, so its second one is known
behind a gap; the new block is then put over it. -/
theorem places_overlap :
    (initial.serve [] [(goodDisk, .block 500 1 1000 (some ⟨0, 1008⟩)), (goodDisk, .block 1000 1 1060 none)]).2 =
        [⟨⟨false, 0⟩, 508, 1516⟩, ⟨⟨false, 0⟩, 1008, 1508⟩] ∧
      ¬ (initial.serve []
        [(goodDisk, .block 500 1 1000 (some ⟨0, 1008⟩)), (goodDisk, .block 1000 1 1060 none)]).2.Pairwise
        Extent.Apart := by
  have taken : (initial.serve []
      [(goodDisk, .block 500 1 1000 (some ⟨0, 1008⟩)), (goodDisk, .block 1000 1 1060 none)]).2 =
      [⟨⟨false, 0⟩, 508, 1516⟩, ⟨⟨false, 0⟩, 1008, 1508⟩] := by decide
  refine ⟨taken, fun apart => ?_⟩
  rw [taken] at apart
  have overlap : 1516 ≤ 1008 ∨ 1508 ≤ 508 := (List.pairwise_cons.mp apart).1 _ List.mem_cons_self rfl
  omega

end BlockFiles

end BitCrystal
