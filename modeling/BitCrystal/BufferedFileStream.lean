import BitCrystal.BlockStream
import BitCrystal.BufferedFileRuns

namespace BitCrystal

open Data

namespace CBufferedFile

/-! # Deserialization from a buffered file -/

variable {α β : Type}

/-- `operator>>` -/
def unserialize (source : FileSource) : ReadProgram α → CBufferedFile → CBufferedFile × Except Failure α
  | .done value, f => (f, .ok value)
  | .fail reason, f => (f, .error (.exception reason))
  | .read nSize next, f =>
      match f.read source nSize with
      | (f, .error failure) => (f, .error failure)
      | (f, .ok bytes) => unserialize source (next bytes) f

variable {source : FileSource} {base : Nat} {f g : CBufferedFile}

/-! ## In the window -/

/-- What stays while bytes are read. -/
structure Keeps (f g : CBufferedFile) : Prop where
  nReadLimit : g.nReadLimit = f.nReadLimit
  nRewind : g.nRewind = f.nRewind
  size : g.size = f.size
  nReadPos : f.nReadPos ≤ g.nReadPos

theorem Keeps.refl (f : CBufferedFile) : Keeps f f := ⟨rfl, rfl, rfl, le_rfl⟩

theorem Keeps.trans {h : CBufferedFile} (first : Keeps f g) (second : Keeps g h) : Keeps f h where
  nReadLimit := second.nReadLimit.trans first.nReadLimit
  nRewind := second.nRewind.trans first.nRewind
  size := second.size.trans first.size
  nReadPos := first.nReadPos.trans second.nReadPos

theorem Window.fromHere (window : Window source base f) : Window source f.nReadPos f where
  rewind_lt := window.rewind_lt
  size_lt := window.size_lt
  base_le := le_rfl
  read_le := window.read_le
  src_le := window.src_le
  src_lt := window.src_lt
  holds p from_here := window.holds p (window.base_le.trans from_here)

/-- A call of read never goes back. -/
theorem Window.read_keeps (window : Window source base f) {nSize : Nat} (fits : nSize < 2 ^ 63) :
    Keeps f (f.read source nSize).1 := by
  obtain ⟨g, window', limit, rewind, size, result⟩ := window.fromHere.read fits
  have run : (f.read source nSize).1 = g := by
    rcases result with ⟨run, _⟩ | ⟨reason, run, _⟩
    · rw [run]
    · rw [run]
  rw [run]
  exact ⟨limit, rewind, size, window'.base_le⟩

/-- A program whose pieces are no objects beyond 2^63 bytes delivers a value, or an exception is thrown. -/
theorem Window.unserialize (window : Window source base f) {program : ReadProgram α} {most : Nat}
    {property : α → Prop} (bounded : program.Bounded most property) (fits : most < 2 ^ 63) :
    ∃ g, Window source base g ∧ Keeps f g ∧
      ((∃ value, f.unserialize source program = (g, .ok value)) ∨
        ∃ reason, f.unserialize source program = (g, .error (.exception reason))) := by
  induction program generalizing f with
  | done value => exact ⟨f, window, .refl f, .inl ⟨value, rfl⟩⟩
  | fail reason => exact ⟨f, window, .refl f, .inr ⟨reason, rfl⟩⟩
  | read nSize next ih =>
      have small : nSize < 2 ^ 63 := lt_of_le_of_lt bounded.1 fits
      have keeps := window.read_keeps small
      obtain ⟨g, window', _, _, _, ⟨run, _⟩ | ⟨reason, failed, _⟩⟩ := window.read small
      · rw [run] at keeps
        obtain ⟨h, window2, keeps2, result⟩ := ih _ window' (bounded.2 _)
        refine ⟨h, window2, keeps.trans keeps2, ?_⟩
        rw [CBufferedFile.unserialize, run]
        exact result
      · rw [failed] at keeps
        refine ⟨g, window', keeps, .inr ⟨reason, ?_⟩⟩
        rw [CBufferedFile.unserialize, failed]

/-- The bytes from the reading position up to the limit. -/
def remaining (source : FileSource) (f : CBufferedFile) : Bytes := (source.bytes.take f.nReadLimit).drop f.nReadPos

theorem length_remaining (source : FileSource) (f : CBufferedFile) :
    (f.remaining source).length = min f.nReadLimit source.bytes.length - f.nReadPos := by
  rw [remaining, List.length_drop, List.length_take]

theorem take_remaining {nSize : Nat} (enough : nSize ≤ (f.remaining source).length) :
    (source.bytes.drop f.nReadPos).take nSize = (f.remaining source).take nSize := by
  have length := length_remaining source f
  rw [remaining, List.drop_take, List.take_take, min_eq_left (by omega)]

theorem remaining_drop {nSize : Nat} (limit : g.nReadLimit = f.nReadLimit)
    (position : g.nReadPos = f.nReadPos + nSize) :
    g.remaining source = (f.remaining source).drop nSize := by
  rw [remaining, remaining, limit, position, List.drop_drop]

/-- A program that reads a value from the bytes up to the limit does so from a file whose fread does not
fail, if there is room for its pieces. -/
theorem Window.unserialize_reads (window : Window source base f) (reliable : source.Reliable)
    {program : ReadProgram α} {most : Nat} {property : α → Prop} (bounded : program.Bounded most property)
    (room : min most (f.remaining source).length + f.nRewind ≤ f.size)
    (within : f.nReadPos ≤ min f.nReadLimit source.bytes.length)
    {value : α} {rest : Bytes} (reads : program.toReader (f.remaining source) = some (value, rest)) :
    ∃ g, f.unserialize source program = (g, .ok value) ∧ Window source base g ∧ Keeps f g ∧
      g.nReadPos ≤ min f.nReadLimit source.bytes.length ∧ g.remaining source = rest := by
  induction program generalizing f with
  | done other =>
      have same : some (other, f.remaining source) = some (value, rest) := reads
      cases same
      exact ⟨f, rfl, window, .refl f, within, rfl⟩
  | fail reason => cases reads
  | read nSize next ih =>
      change ((Reader.take nSize (f.remaining source)).bind fun pair => (next pair.1).toReader pair.2) = _ at reads
      rw [Reader.take] at reads
      have length := length_remaining source f
      have whole := source.length_lt
      by_cases enough : nSize ≤ (f.remaining source).length
      · rw [if_pos enough] at reads
        have keeps := window.read_keeps (show nSize < 2 ^ 63 by omega)
        have le := bounded.1
        obtain ⟨g, window', limit, rewind, size, ⟨run, _, position, inside, _⟩ | ⟨reason, _, failed⟩⟩ :=
          window.read (show nSize < 2 ^ 63 by omega)
        · have piece : (source.bytes.drop f.nReadPos).take nSize = (f.remaining source).take nSize :=
            take_remaining enough
          have after : g.remaining source = (f.remaining source).drop nSize := remaining_drop limit position
          have shorter : (g.remaining source).length ≤ (f.remaining source).length := by
            rw [after, List.length_drop]
            omega
          rw [run] at keeps
          obtain ⟨h, run2, window2, keeps2, within2, rest2⟩ :=
            ih ((f.remaining source).take nSize) window' (bounded.2 _) (by rw [rewind, size]; omega)
              (by rw [limit, position]; omega) (by rw [after]; exact reads)
          refine ⟨h, ?_, window2, keeps.trans keeps2, limit ▸ within2, rest2⟩
          rw [CBufferedFile.unserialize, run, piece]
          exact run2
        · rcases failed with ⟨_, beyond | large⟩ | ⟨_, atEnd⟩
          · omega
          · omega
          · have short := atEnd reliable
            omega
      · rw [if_neg enough] at reads
        cases reads

/-- A value is delivered only if the program reads it from the bytes up to the limit. -/
theorem Window.unserialize_of_ok (window : Window source base f) {program : ReadProgram α} {most : Nat}
    {property : α → Prop} (bounded : program.Bounded most property) (fits : most < 2 ^ 63) {value : α}
    (run : f.unserialize source program = (g, .ok value)) :
    program.toReader (f.remaining source) = some (value, g.remaining source) := by
  induction program generalizing f with
  | done other =>
      cases run
      rfl
  | fail reason => cases run
  | read nSize next ih =>
      have small : nSize < 2 ^ 63 := lt_of_le_of_lt bounded.1 fits
      rw [CBufferedFile.unserialize] at run
      obtain ⟨h, window', limit, _, _, ⟨delivered, length, position, inside, _⟩ | ⟨reason, failed, _⟩⟩ :=
        window.read small
      · rw [delivered] at run
        have rest := ih _ window' (bounded.2 _) run
        have enough : nSize ≤ (f.remaining source).length := by
          rw [List.length_take, List.length_drop] at length
          rw [length_remaining]
          omega
        rw [take_remaining enough, remaining_drop limit position] at rest
        change ((Reader.take nSize (f.remaining source)).bind fun pair => (next pair.1).toReader pair.2) = _
        rw [Reader.take, if_pos enough]
        exact rest
      · rw [failed] at run
        cases run

theorem unserialize_bind {program : ReadProgram α} {next : α → ReadProgram β} {value : α}
    (first : f.unserialize source program = (g, .ok value)) :
    f.unserialize source (program >>= next) = g.unserialize source (next value) := by
  change f.unserialize source (program.bind next) = _
  induction program generalizing f with
  | done other =>
      cases first
      rfl
  | fail reason => cases first
  | read nSize more ih =>
      rw [ReadProgram.bind, CBufferedFile.unserialize]
      rw [CBufferedFile.unserialize] at first
      cases delivered : f.read source nSize with
      | mk h result =>
          rw [delivered] at first
          cases result with
          | error failure => cases first
          | ok bytes => exact ih bytes first

/-! ## Blocks of a block file -/

theorem setPos_nRewind (nPos : Nat) (f : CBufferedFile) : (f.setPos nPos).1.nRewind = f.nRewind := by
  simp only [setPos, apply_ite Prod.fst, apply_ite nRewind, ite_self]

theorem seek_nRewind (source : FileSource) (nPos : Nat) (f : CBufferedFile) :
    (f.seek source nPos).1.nRewind = f.nRewind := by
  simp only [seek, apply_ite Prod.fst, apply_ite nRewind, ite_self]

theorem setLimit_nRewind (nPos : Nat) (f : CBufferedFile) : (f.setLimit nPos).1.nRewind = f.nRewind := by
  simp only [setLimit, apply_ite Prod.fst, apply_ite nRewind, ite_self]

theorem Window.perform_nRewind (window : Window source base f) {call : Call} (meets : call.Meets base f) :
    (f.perform source call).1.nRewind = f.nRewind := by
  cases call with
  | read nSize =>
      obtain ⟨g, _, _, rewind, _, ⟨run, _⟩ | ⟨reason, failed, _⟩⟩ := window.read meets
      · rw [CBufferedFile.perform, run]
        exact rewind
      · rw [CBufferedFile.perform, failed]
        exact rewind
  | setPos nPos => exact setPos_nRewind nPos f
  | seek nPos => exact seek_nRewind source nPos f
  | setLimit nPos => exact setLimit_nRewind nPos f
  | findByte ch =>
      obtain ⟨g, _, _, rewind, _, _, _, ⟨run, _⟩ | ⟨reason, failed, _⟩⟩ := window.findByte ch
      · rw [CBufferedFile.perform, run]
        exact rewind
      · rw [CBufferedFile.perform, failed]
        exact rewind

/-- The object after some calls. -/
def run (source : FileSource) (f : CBufferedFile) (calls : List Call) : CBufferedFile :=
  calls.foldl (fun f call => (f.perform source call).1) f

theorem Window.after_run (window : Window source base f) {calls : List Call} (meets : RunMeets source base f calls) :
    ∃ base, Window source base (f.run source calls) ∧ (f.run source calls).nRewind = f.nRewind ∧
      (f.run source calls).size = f.size := by
  induction calls generalizing base f with
  | nil => exact ⟨base, window, rfl, rfl⟩
  | cons call rest ih =>
      obtain ⟨window', faithful⟩ := window.perform meets.1
      obtain ⟨base', last, rewind, size⟩ := ih window' meets.2
      exact ⟨base', last, rewind.trans (window.perform_nRewind meets.1), size.trans faithful.size⟩

/-- A block is read from the bytes up to the limit, if these and what is kept for rewinding leave the header free. -/
theorem Window.unserialize_block (window : Window source base f) (reliable : source.Reliable)
    (header : 32 + f.nRewind ≤ f.size) (room : (f.remaining source).length + f.nRewind ≤ f.size + 80)
    {block : CBlock} {rest : Bytes} (reads : CBlock.unserialize (f.remaining source) = some (block, rest)) :
    ∃ g, f.unserialize source CBlock.unserializeStream = (g, .ok block) ∧ Window source base g ∧ Keeps f g ∧
      g.nReadPos ≤ min f.nReadLimit source.bytes.length ∧ g.remaining source = rest := by
  have length := length_remaining source f
  change ((CBlockHeader.unserialize (f.remaining source)).bind fun pair =>
    (readVector CTransaction.unserialize >>= fun vtx => pure (⟨pair.1, vtx⟩ : CBlock)) pair.2) = _ at reads
  obtain ⟨⟨head, later⟩, front, behind⟩ := Option.bind_eq_some_iff.mp reads
  obtain ⟨used, whole, rfl⟩ := CBlockHeader.decodes front
  have parts := congrArg List.length whole
  rw [List.length_append, CBlockHeader.serialize_length] at parts
  rw [← CBlockHeader.toReader_unserializeStream] at front
  obtain ⟨g, first, window1, keeps1, _, after1⟩ := window.unserialize_reads reliable
    (CBlockHeader.unserializeStream_bounded le_rfl) (by omega) (by omega) front
  have length1 := length_remaining source g
  have limit := keeps1.nReadLimit
  have program : (streamVector CTransaction.unserializeStream >>= fun vtx => pure (⟨head, vtx⟩ : CBlock)).toReader
      (g.remaining source) = some (block, rest) := by
    rw [after1]
    simpa only [ReadProgram.toReader_bind, ReadProgram.toReader_pure, toReader_streamVector,
      CTransaction.toReader_unserializeStream] using behind
  have bounded : ReadProgram.Bounded MAX_SIZE (fun _ => True)
      (streamVector CTransaction.unserializeStream >>= fun vtx => pure (⟨head, vtx⟩ : CBlock)) :=
    (streamVector_bounded (by decide) (CTransaction.unserializeStream_bounded le_rfl)).map
  have sizes : min MAX_SIZE (g.remaining source).length + g.nRewind ≤ g.size := by
    rw [after1, keeps1.nRewind, keeps1.size]
    omega
  obtain ⟨h, second, window2, keeps2, inside, after2⟩ := window1.unserialize_reads reliable bounded sizes
    (by rw [after1] at length1; omega) program
  exact ⟨h, (unserialize_bind first).trans second, window2, keeps1.trans keeps2, limit ▸ inside, after2⟩

/-- With the buffer of LoadExternalBlockFile, and a limit that leaves no more than a block, the block is read exactly
where Unserialize reads it from the bytes up to the limit. -/
theorem Window.block_of_remaining (window : Window source base f) (reliable : source.Reliable)
    (rewind : f.nRewind = MAX_BLOCK_SIZE + 8) (size : f.size = 2 * MAX_BLOCK_SIZE)
    (small : (f.remaining source).length ≤ MAX_BLOCK_SIZE) :
    let read := f.unserialize source CBlock.unserializeStream
    Window source base read.1 ∧ f.nReadPos ≤ read.1.nReadPos ∧
      (∀ block rest, CBlock.unserialize (f.remaining source) = some (block, rest) →
        read.2 = .ok block ∧ read.1.nReadPos + rest.length = f.nReadPos + (f.remaining source).length) ∧
      (CBlock.unserialize (f.remaining source) = none → ∃ reason, read.2 = .error (.exception reason)) := by
  dsimp only
  have bounded := CBlock.unserializeStream_bounded (le_refl MAX_SIZE)
  obtain ⟨g, windowAfter, keeps, result⟩ := window.unserialize bounded (by decide)
  have ended : (f.unserialize source CBlock.unserializeStream).1 = g := by
    rcases result with ⟨value, run⟩ | ⟨reason, run⟩
    · rw [run]
    · rw [run]
  refine ⟨ended ▸ windowAfter, ended ▸ keeps.nReadPos, fun block rest reads => ?_, fun none => ?_⟩
  · have room : MAX_BLOCK_SIZE = 1000000 := rfl
    obtain ⟨h, run, _, keeps, inside, after⟩ := window.unserialize_block reliable (by omega) (by omega) reads
    have before := length_remaining source f
    have left := length_remaining source h
    have forward := keeps.nReadPos
    rw [after, keeps.nReadLimit] at left
    rw [run]
    exact ⟨rfl, by dsimp only; omega⟩
  · rcases result with ⟨value, run⟩ | ⟨reason, run⟩
    · have reads := window.unserialize_of_ok bounded (by decide) run
      rw [CBlock.toReader_unserializeStream, none] at reads
      cases reads
    · exact ⟨reason, by rw [run]⟩

/-- However the file was used before, LoadExternalBlockFile reads a block exactly where Unserialize reads it from the
bytes of the record, and an exception leaves a file on which it can look for the next one. -/
theorem block_of_record {calls : List Call} (reliable : source.Reliable)
    (meets : RunMeets source 0 (make (2 * MAX_BLOCK_SIZE) (MAX_BLOCK_SIZE + 8)) calls) {nSize : Nat}
    (small : nSize ≤ MAX_BLOCK_SIZE) :
    let blkdat := (make (2 * MAX_BLOCK_SIZE) (MAX_BLOCK_SIZE + 8)).run source calls
    let record := (source.bytes.drop blkdat.getPos).take nSize
    let read := (blkdat.setLimit (blkdat.getPos + nSize)).1.unserialize source CBlock.unserializeStream
    (∃ base, Window source base read.1) ∧ blkdat.getPos ≤ read.1.getPos ∧
      (∀ block rest, CBlock.unserialize record = some (block, rest) →
        read.2 = .ok block ∧ read.1.getPos + rest.length = blkdat.getPos + record.length) ∧
      (CBlock.unserialize record = none → ∃ reason, read.2 = .error (.exception reason)) := by
  dsimp only
  obtain ⟨base, window, rewind, size⟩ := (make_window (by decide) (by decide) source).after_run meets
  generalize (make (2 * MAX_BLOCK_SIZE) (MAX_BLOCK_SIZE + 8)).run source calls = blkdat at window rewind size
  have limited : (blkdat.setLimit (blkdat.getPos + nSize)).1 =
      { blkdat with nReadLimit := blkdat.nReadPos + nSize } := by
    rw [setLimit, getPos, if_neg (by omega)]
  have window' := window.setLimit (blkdat.getPos + nSize)
  rw [limited] at window' ⊢
  have record : remaining source { blkdat with nReadLimit := blkdat.nReadPos + nSize } =
      (source.bytes.drop blkdat.getPos).take nSize := by
    rw [remaining, getPos, List.drop_take, Nat.add_sub_cancel_left]
  have short : ((source.bytes.drop blkdat.getPos).take nSize).length ≤ MAX_BLOCK_SIZE :=
    (List.length_take_le _ _).trans small
  have kept : ({ blkdat with nReadLimit := blkdat.nReadPos + nSize } : CBufferedFile).size = 2 * MAX_BLOCK_SIZE :=
    size.trans List.length_replicate
  obtain ⟨after, forward, blocks, none⟩ := window'.block_of_remaining reliable rewind kept (record ▸ short)
  rw [record] at blocks none
  exact ⟨⟨base, after⟩, forward, blocks, none⟩

end CBufferedFile

namespace Sample

def emptyBlock : CBlock := ⟨⟨1, 0, 0, 1400000000, 0x1e0fffff, 6⟩, []⟩

/-- A file with one block, which is read in pieces of fifty bytes at most. -/
def emptyBlockFile : FileSource where
  bytes := emptyBlock.serialize
  fread _ := 50
  fseek _ := true
  length_lt := by decide

end Sample

namespace CBufferedFile

open Sample

theorem block_of_record_one :
    let blkdat := (make (2 * MAX_BLOCK_SIZE) (MAX_BLOCK_SIZE + 8)).run emptyBlockFile [.setPos 0]
    ((blkdat.setLimit (blkdat.getPos + 81)).1.unserialize emptyBlockFile CBlock.unserializeStream).2 = .ok emptyBlock :=
  have meets : RunMeets emptyBlockFile 0 (make (2 * MAX_BLOCK_SIZE) (MAX_BLOCK_SIZE + 8)) [.setPos 0] :=
    ⟨by decide, trivial⟩
  ((block_of_record (fun _ => (by decide : 0 < 50)) meets (by decide)).2.2.1 emptyBlock [] (by decide)).1

end CBufferedFile

end BitCrystal
