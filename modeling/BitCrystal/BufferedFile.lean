import BitCrystal.Data.RingBuffer
import BitCrystal.Primitives

namespace BitCrystal

open Data

/-! # CBufferedFile -/

/-- Sums and differences of `uint64`. -/
def add64 (a b : Nat) : Nat := (a + b) % 2 ^ 64
def sub64 (a b : Nat) : Nat := (a + 2 ^ 64 - b) % 2 ^ 64

structure FileSource where
  bytes : Bytes
  /-- how many bytes a call of fread delivers at most -/
  fread : Nat → Nat
  /-- whether a call of fseek to a position succeeds -/
  fseek : Nat → Bool
  /-- positions in a file are of the type `long` -/
  length_lt : bytes.length < 2 ^ 63

/-- fread delivers bytes as long as there are some. -/
def FileSource.Reliable (source : FileSource) : Prop := ∀ call, 0 < source.fread call

/-- The position of the file is always `nSrcPos`. -/
structure CBufferedFile where
  nSrcPos : Nat
  nReadPos : Nat
  nReadLimit : Nat
  nRewind : Nat
  vchBuf : Bytes
  /-- `state` -/
  failbit : Bool
  /-- `feof(src)` -/
  feof : Bool
  /-- the calls of fread so far -/
  nFreads : Nat
deriving DecidableEq

namespace CBufferedFile

/-- The constructor -/
def make (nBufSize nRewindIn : Nat) : CBufferedFile :=
  ⟨0, 0, 2 ^ 64 - 1, nRewindIn, List.replicate nBufSize 0, false, false, 0⟩

/-- `vchBuf.size()` -/
def size (f : CBufferedFile) : Nat := f.vchBuf.length

/-- Fill, with `readNow` bytes to read at most. -/
def fillNow (source : FileSource) (f : CBufferedFile) (readNow : Nat) : CBufferedFile × Except Failure Bool :=
  let left := source.bytes.drop f.nSrcPos
  let read := left.take (min readNow (source.fread f.nFreads))
  let pos := f.nSrcPos % f.size % 2 ^ 32
  let f := { f with nFreads := f.nFreads + 1, feof := f.feof || decide (read = left ∧ left.length < readNow) }
  if read = [] then
    ({ f with failbit := true }, .error (.exception
      (if f.feof then "CBufferedFile::Fill : end of file" else "CBufferedFile::Fill : fread failed")))
  else
    ({ f with vchBuf := writeAt f.vchBuf pos read, nSrcPos := add64 f.nSrcPos read.length }, .ok true)

/-- Fill, which computes with `unsigned int`. -/
def fill (source : FileSource) (f : CBufferedFile) : CBufferedFile × Except Failure Bool :=
  if f.size = 0 then (f, .error (.undefined "CBufferedFile::Fill"))
  else
    let pos := f.nSrcPos % f.size % 2 ^ 32
    let readNow := (f.size - pos) % 2 ^ 32
    let nAvail := sub64 (sub64 f.size (sub64 f.nSrcPos f.nReadPos)) f.nRewind % 2 ^ 32
    let readNow := if nAvail < readNow then nAvail else readNow
    if readNow = 0 then (f, .ok false) else f.fillNow source readNow

/-- `if (nReadPos == nSrcPos) Fill();` -/
def fillIfEmpty (source : FileSource) (f : CBufferedFile) : CBufferedFile × Except Failure Bool :=
  if f.nReadPos = f.nSrcPos then f.fill source else (f, .ok true)

/-- The loop of read; a turn takes at least one of the `nSize` bytes that are left, or there is
no end. -/
def readLoop (source : FileSource) : Nat → Nat → CBufferedFile → CBufferedFile × Except Failure Bytes
  | 0, _, f => (f, .ok [])
  | turns + 1, nSize, f =>
      if nSize = 0 then (f, .ok [])
      else
        match f.fillIfEmpty source with
        | (f, .error failure) => (f, .error failure)
        | (f, .ok _) =>
            if f.size = 0 then (f, .error (.undefined "CBufferedFile::read"))
            else
              let pos := f.nReadPos % f.size % 2 ^ 32
              let nNow := if f.size < add64 nSize pos then f.size - pos else nSize
              let nNow := if f.nSrcPos < add64 nNow f.nReadPos then sub64 f.nSrcPos f.nReadPos else nNow
              if f.size < pos + nNow ∨ nSize < nNow then (f, .error (.undefined "CBufferedFile::read"))
              else if nNow = 0 then (f, .error .endless)
              else
                let now := (f.vchBuf.drop pos).take nNow
                match readLoop source turns (nSize - nNow) { f with nReadPos := add64 f.nReadPos nNow } with
                | (f, .error failure) => (f, .error failure)
                | (f, .ok rest) => (f, .ok (now ++ rest))

def read (source : FileSource) (nSize : Nat) (f : CBufferedFile) : CBufferedFile × Except Failure Bytes :=
  if f.nReadLimit < add64 nSize f.nReadPos then (f, .error (.exception "Read attempted past buffer limit"))
  else if f.size < add64 nSize f.nRewind then (f, .error (.exception "Read larger than buffer size"))
  else readLoop source nSize nSize f

def getPos (f : CBufferedFile) : Nat := f.nReadPos

def good (f : CBufferedFile) : Bool := !f.failbit

def eof (f : CBufferedFile) : Bool := f.nReadPos = f.nSrcPos && f.feof

def setPos (nPos : Nat) (f : CBufferedFile) : CBufferedFile × Bool :=
  if add64 nPos f.nRewind < f.nSrcPos then ({ f with nReadPos := sub64 f.nSrcPos f.nRewind }, false)
  else if f.nSrcPos < nPos then ({ f with nReadPos := f.nSrcPos }, false)
  else ({ f with nReadPos := nPos }, true)

/-- Seek; fseek refuses what is negative as a `long`. -/
def seek (source : FileSource) (nPos : Nat) (f : CBufferedFile) : CBufferedFile × Bool :=
  if nPos < 2 ^ 63 ∧ source.fseek nPos then
    ({ f with nSrcPos := nPos, nReadPos := nPos, failbit := false, feof := false }, true)
  else (f, false)

def setLimit (nPos : Nat) (f : CBufferedFile) : CBufferedFile × Bool :=
  if nPos < f.nReadPos then (f, false) else ({ f with nReadLimit := nPos }, true)

/-- The loop of FindByte, for at most `turns` turns. -/
def findLoop (source : FileSource) (ch : UInt8) : Nat → CBufferedFile → CBufferedFile × Except Failure Unit
  | 0, f => (f, .error .endless)
  | turns + 1, f =>
      match f.fillIfEmpty source with
      | (f, .error failure) => (f, .error failure)
      | (f, .ok _) =>
          match f.vchBuf[f.nReadPos % f.size]? with
          | none => (f, .error (.undefined "CBufferedFile::FindByte"))
          | some byte =>
              if byte = ch then (f, .ok ())
              else findLoop source ch turns { f with nReadPos := add64 f.nReadPos 1 }

/-- A byte is found, or the file ends, within as many turns as the file and the buffer have bytes. -/
def findByte (source : FileSource) (ch : UInt8) (f : CBufferedFile) : CBufferedFile × Except Failure Unit :=
  f.findLoop source ch (source.bytes.length + f.size + 1)

/-! ## The window -/

/-- The part of the file from `base` on that is not too far behind is in the buffer. -/
structure Window (source : FileSource) (base : Nat) (f : CBufferedFile) : Prop where
  rewind_lt : f.nRewind < f.size
  size_lt : f.size < 2 ^ 32
  base_le : base ≤ f.nReadPos
  read_le : f.nReadPos ≤ f.nSrcPos
  src_le : f.nSrcPos ≤ f.nReadPos + f.size
  src_lt : f.nSrcPos < 2 ^ 63
  holds : RingHolds f.vchBuf source.bytes base f.nSrcPos

variable {source : FileSource} {base : Nat} {f g : CBufferedFile}

theorem add64_eq {a b : Nat} (fits : a + b < 2 ^ 64) : add64 a b = a + b := Nat.mod_eq_of_lt fits

theorem sub64_eq {a b : Nat} (le : b ≤ a) (fits : a < 2 ^ 64) : sub64 a b = a - b := by
  unfold sub64
  rw [show a + 2 ^ 64 - b = a - b + 2 ^ 64 by omega, Nat.add_mod_right]
  exact Nat.mod_eq_of_lt (by omega)

theorem make_window {nBufSize nRewindIn : Nat} (rewind_lt : nRewindIn < nBufSize) (size_lt : nBufSize < 2 ^ 32)
    (source : FileSource) : Window source 0 (make nBufSize nRewindIn) where
  rewind_lt := by simpa [make, size] using rewind_lt
  size_lt := by simpa [make, size] using size_lt
  base_le := Nat.zero_le _
  read_le := le_rfl
  src_le := Nat.le_add_right _ _
  src_lt := by simp [make]
  holds := RingHolds.empty _ _ 0

/-- The reading position does not move, and the rest of the settings stays. -/
structure Fills (f g : CBufferedFile) : Prop where
  nReadPos : g.nReadPos = f.nReadPos
  nReadLimit : g.nReadLimit = f.nReadLimit
  nRewind : g.nRewind = f.nRewind
  size : g.size = f.size

theorem Fills.refl (f : CBufferedFile) : Fills f f := ⟨rfl, rfl, rfl, rfl⟩

theorem Window.fillNow (window : Window source base f) (drained : f.nReadPos = f.nSrcPos) {readNow : Nat}
    (positive : 0 < readNow) (straight : f.nSrcPos % f.size + readNow ≤ f.size) (room : readNow + f.nRewind ≤ f.size) :
    ∃ g, Window source base g ∧ Fills f g ∧
      ((f.fillNow source readNow = (g, .ok true) ∧ f.nSrcPos < g.nSrcPos ∧ g.nSrcPos ≤ source.bytes.length ∧
          g.failbit = f.failbit) ∨
        (∃ reason, f.fillNow source readNow = (g, .error (.exception reason)) ∧ g.nSrcPos = f.nSrcPos ∧
          g.failbit = true ∧ (source.Reliable → source.bytes.length ≤ f.nSrcPos))) := by
  have small := window.size_lt
  have sizePositive : 0 < f.size := lt_of_le_of_lt (Nat.zero_le _) window.rewind_lt
  have pos : f.nSrcPos % f.size % 2 ^ 32 = f.nSrcPos % f.size :=
    Nat.mod_eq_of_lt (lt_trans (Nat.mod_lt _ sizePositive) small)
  unfold CBufferedFile.fillNow
  simp only [pos]
  generalize taken : (source.bytes.drop f.nSrcPos).take (min readNow (source.fread f.nFreads)) = read
  have length : read.length = min (min readNow (source.fread f.nFreads)) (source.bytes.length - f.nSrcPos) := by
    rw [← taken, List.length_take, List.length_drop]
  split
  case isTrue none =>
    refine ⟨_, ?_, ?_, .inr ⟨_, rfl, rfl, rfl, ?_⟩⟩
    · exact ⟨window.rewind_lt, small, window.base_le, window.read_le, window.src_le, window.src_lt, window.holds⟩
    · exact ⟨rfl, rfl, rfl, rfl⟩
    intro reliable
    have delivers := reliable f.nFreads
    rw [none, List.length_nil] at length
    omega
  case isFalse some' =>
    have nonempty : 0 < read.length := List.length_pos_of_ne_nil some'
    have whole := source.length_lt
    have sum : add64 f.nSrcPos read.length = f.nSrcPos + read.length := add64_eq (by omega)
    have fits : f.nSrcPos % f.size + read.length ≤ f.vchBuf.length := by
      have same : f.size = f.vchBuf.length := rfl
      omega
    have sameSize : (writeAt f.vchBuf (f.nSrcPos % f.size) read).length = f.size := length_writeAt fits
    have next : read = (source.bytes.drop f.nSrcPos).take read.length := by
      rw [← taken, List.take_eq_take_iff, List.length_take]
      omega
    have le := window.read_le
    have baseLe := window.base_le
    refine ⟨_, ?_, ?_, .inl ⟨rfl, ?_, ?_, rfl⟩⟩
    · constructor
      · exact lt_of_lt_of_eq window.rewind_lt sameSize.symm
      · exact lt_of_eq_of_lt sameSize small
      · exact baseLe
      · change f.nReadPos ≤ add64 f.nSrcPos read.length
        omega
      · change add64 f.nSrcPos read.length ≤ f.nReadPos + (writeAt f.vchBuf (f.nSrcPos % f.size) read).length
        rw [sameSize, sum]
        omega
      · change add64 f.nSrcPos read.length < 2 ^ 63
        omega
      · change RingHolds (writeAt f.vchBuf (f.nSrcPos % f.size) read) source.bytes base (add64 f.nSrcPos read.length)
        rw [sum]
        exact window.holds.extend (show read.length ≤ readNow by omega) next straight
    · exact ⟨rfl, rfl, rfl, sameSize⟩
    · change f.nSrcPos < add64 f.nSrcPos read.length
      omega
    · change add64 f.nSrcPos read.length ≤ source.bytes.length
      omega

theorem Window.fillIfEmpty (window : Window source base f) :
    ∃ g, Window source base g ∧ Fills f g ∧
      ((f.fillIfEmpty source = (g, .ok true) ∧ g.nReadPos < g.nSrcPos ∧
          g.nSrcPos ≤ max f.nSrcPos source.bytes.length ∧ g.failbit = f.failbit) ∨
        (∃ reason, f.fillIfEmpty source = (g, .error (.exception reason)) ∧ g.nSrcPos = f.nReadPos ∧
          g.failbit = true ∧ (source.Reliable → source.bytes.length ≤ f.nReadPos))) := by
  have rewind := window.rewind_lt
  have small := window.size_lt
  have le := window.read_le
  unfold CBufferedFile.fillIfEmpty
  split
  case isFalse ahead =>
    exact ⟨f, window, .refl f, .inl ⟨rfl, lt_of_le_of_ne le ahead, le_max_left _ _, rfl⟩⟩
  case isTrue drained =>
    have within := Nat.mod_lt f.nSrcPos (show 0 < f.size by omega)
    have pos : f.nSrcPos % f.size % 2 ^ 32 = f.nSrcPos % f.size := Nat.mod_eq_of_lt (by omega)
    have behind : sub64 f.nSrcPos f.nReadPos = 0 := by
      rw [sub64_eq le (by have := window.src_lt; omega)]
      omega
    have nAvail : sub64 (sub64 f.size (sub64 f.nSrcPos f.nReadPos)) f.nRewind % 2 ^ 32 = f.size - f.nRewind := by
      rw [behind, sub64_eq (Nat.zero_le _) (by omega), Nat.sub_zero, sub64_eq (by omega) (by omega)]
      exact Nat.mod_eq_of_lt (by omega)
    have straight : (f.size - f.nSrcPos % f.size) % 2 ^ 32 = f.size - f.nSrcPos % f.size := Nat.mod_eq_of_lt (by omega)
    rw [fill, if_neg (by omega)]
    simp only [pos, nAvail, straight]
    generalize amount : (if f.size - f.nRewind < f.size - f.nSrcPos % f.size then f.size - f.nRewind
      else f.size - f.nSrcPos % f.size) = readNow
    have bounds : 0 < readNow ∧ readNow ≤ f.size - f.nRewind ∧ readNow ≤ f.size - f.nSrcPos % f.size := by
      rw [← amount]
      split <;> omega
    rw [if_neg (by omega)]
    obtain ⟨g, window', fills, filled | ⟨reason, failed, same, isSet, atEnd⟩⟩ :=
      window.fillNow drained bounds.1 (by omega) (by omega)
    · obtain ⟨run, more, inFile, failbit⟩ := filled
      refine ⟨g, window', fills, .inl ⟨run, ?_, le_max_of_le_right inFile, failbit⟩⟩
      rw [fills.nReadPos]
      omega
    · refine ⟨g, window', fills, .inr ⟨reason, failed, by omega, isSet, ?_⟩⟩
      intro reliable
      have beyond := atEnd reliable
      omega

/-! ## read -/

theorem Window.moveTo (window : Window source base f) {nReadPos : Nat} (base_le : base ≤ nReadPos)
    (read_le : nReadPos ≤ f.nSrcPos) (src_le : f.nSrcPos ≤ nReadPos + f.size) :
    Window source base { f with nReadPos } :=
  ⟨window.rewind_lt, window.size_lt, base_le, read_le, src_le, window.src_lt, window.holds⟩

theorem Window.takeNow (window : Window source base f) {nSize : Nat} (some' : 0 < nSize) (fits : nSize < 2 ^ 63)
    (ready : f.nReadPos < f.nSrcPos) :
    let pos := f.nReadPos % f.size % 2 ^ 32
    let nNow := if f.size < add64 nSize pos then f.size - pos else nSize
    ∃ count, (if f.nSrcPos < add64 nNow f.nReadPos then sub64 f.nSrcPos f.nReadPos else nNow) = count ∧
      0 < count ∧ count ≤ nSize ∧ pos + count ≤ f.size ∧ f.nReadPos + count ≤ f.nSrcPos ∧
      (f.vchBuf.drop pos).take count = (source.bytes.drop f.nReadPos).take count ∧
      ((source.bytes.drop f.nReadPos).take count).length = count := by
  have rewind := window.rewind_lt
  have small := window.size_lt
  have srcLt := window.src_lt
  have within := Nat.mod_lt f.nReadPos (show 0 < f.size by omega)
  have pos : f.nReadPos % f.size % 2 ^ 32 = f.nReadPos % f.size := Nat.mod_eq_of_lt (by omega)
  have sum : add64 nSize (f.nReadPos % f.size) = nSize + f.nReadPos % f.size := add64_eq (by omega)
  simp only [pos, sum]
  generalize first : (if f.size < nSize + f.nReadPos % f.size then f.size - f.nReadPos % f.size else nSize) = nNow
  have bounds : 0 < nNow ∧ nNow ≤ nSize ∧ f.nReadPos % f.size + nNow ≤ f.size := by
    rw [← first]
    split <;> omega
  rw [add64_eq (show nNow + f.nReadPos < 2 ^ 64 by omega), sub64_eq (le_of_lt ready) (by omega)]
  generalize second : (if f.nSrcPos < nNow + f.nReadPos then f.nSrcPos - f.nReadPos else nNow) = count
  have bounds' : 0 < count ∧ count ≤ nNow ∧ f.nReadPos + count ≤ f.nSrcPos := by
    rw [← second]
    split <;> omega
  have straight : f.nReadPos % f.size + count ≤ f.size := by omega
  have piece := window.holds.slice window.base_le bounds'.2.2 window.src_le straight
  exact ⟨count, rfl, bounds'.1, by omega, straight, bounds'.2.2, piece⟩

theorem Window.readLoop (window : Window source base f) {turns nSize : Nat} (enough : nSize ≤ turns)
    (fits : nSize < 2 ^ 63) :
    ∃ g, Window source base g ∧ g.nReadLimit = f.nReadLimit ∧ g.nRewind = f.nRewind ∧ g.size = f.size ∧
      ((f.readLoop source turns nSize = (g, .ok ((source.bytes.drop f.nReadPos).take nSize)) ∧
          ((source.bytes.drop f.nReadPos).take nSize).length = nSize ∧ g.nReadPos = f.nReadPos + nSize ∧
          g.failbit = f.failbit) ∨
        (∃ reason, f.readLoop source turns nSize = (g, .error (.exception reason)) ∧ g.failbit = true ∧
          (source.Reliable → source.bytes.length < f.nReadPos + nSize))) := by
  induction turns generalizing f nSize with
  | zero =>
      obtain rfl : nSize = 0 := by omega
      exact ⟨f, window, rfl, rfl, rfl, .inl ⟨rfl, rfl, rfl, rfl⟩⟩
  | succ turns ih =>
      unfold CBufferedFile.readLoop
      by_cases none : nSize = 0
      · subst none
        exact ⟨f, window, rfl, rfl, rfl, .inl ⟨if_pos rfl, rfl, rfl, rfl⟩⟩
      · rw [if_neg none]
        obtain ⟨filled, window1, fills, ⟨fill, ready, _, failbit⟩ | ⟨reason, failed, same, isSet, atEnd⟩⟩ :=
          window.fillIfEmpty
        · obtain ⟨count, amount, positive, le, straight, inside, piece, length⟩ :=
            window1.takeNow (Nat.pos_of_ne_zero none) fits ready
          have sizeNonzero : ¬ filled.size = 0 := by
            have rewind := window1.rewind_lt
            omega
          have inRange : ¬ (filled.size < filled.nReadPos % filled.size % 2 ^ 32 + count ∨ nSize < count) := by omega
          have sum : add64 filled.nReadPos count = filled.nReadPos + count := add64_eq (by
            have := window1.src_lt
            omega)
          rw [fill]
          simp only [if_neg sizeNonzero, amount, if_neg inRange, if_neg (show ¬ count = 0 by omega), sum, piece]
          have window2 : Window source base { filled with nReadPos := filled.nReadPos + count } :=
            window1.moveTo (by have := window1.base_le; omega) inside (by have := window1.src_le; omega)
          obtain ⟨g, window3, limit, rewind, size, read | ⟨reason, failed, isSet, atEnd⟩⟩ :=
            ih window2 (show nSize - count ≤ turns by omega) (by omega)
          · obtain ⟨run, rest, position, failbit'⟩ := read
            have whole : (source.bytes.drop f.nReadPos).take nSize =
                (source.bytes.drop filled.nReadPos).take count ++
                  (source.bytes.drop (filled.nReadPos + count)).take (nSize - count) := by
              rw [fills.nReadPos, ← List.drop_drop, ← List.take_add]
              congr 1
              omega
            refine ⟨g, window3, limit.trans fills.nReadLimit, rewind.trans fills.nRewind, size.trans fills.size,
              .inl ⟨?_, ?_, ?_, failbit'.trans failbit⟩⟩
            · rw [run, whole]
            · rw [whole, List.length_append, length, rest]
              omega
            · rw [position]
              change filled.nReadPos + count + (nSize - count) = f.nReadPos + nSize
              rw [fills.nReadPos]
              omega
          · refine ⟨g, window3, limit.trans fills.nReadLimit, rewind.trans fills.nRewind, size.trans fills.size,
              .inr ⟨reason, by rw [failed], isSet, ?_⟩⟩
            intro reliable
            have short : source.bytes.length < filled.nReadPos + count + (nSize - count) := atEnd reliable
            have position := fills.nReadPos
            omega
        · refine ⟨filled, window1, fills.nReadLimit, fills.nRewind, fills.size,
            .inr ⟨reason, by rw [failed], isSet, ?_⟩⟩
          intro reliable
          have beyond := atEnd reliable
          omega

/-- A call of read delivers the bytes at the reading position, or it throws: at the limit or for
more bytes than the buffer has room for, where nothing changes, or when Fill throws. -/
theorem Window.read (window : Window source base f) {nSize : Nat} (fits : nSize < 2 ^ 63) :
    ∃ g, Window source base g ∧ g.nReadLimit = f.nReadLimit ∧ g.nRewind = f.nRewind ∧ g.size = f.size ∧
      ((f.read source nSize = (g, .ok ((source.bytes.drop f.nReadPos).take nSize)) ∧
          ((source.bytes.drop f.nReadPos).take nSize).length = nSize ∧ g.nReadPos = f.nReadPos + nSize ∧
          f.nReadPos + nSize ≤ f.nReadLimit ∧ g.failbit = f.failbit) ∨
        (∃ reason, f.read source nSize = (g, .error (.exception reason)) ∧
          ((g = f ∧ (f.nReadLimit < f.nReadPos + nSize ∨ f.size < f.nRewind + nSize)) ∨
            (g.failbit = true ∧ (source.Reliable → source.bytes.length < f.nReadPos + nSize))))) := by
  have srcLt := window.src_lt
  have le := window.read_le
  have rewindLt := window.rewind_lt
  have small := window.size_lt
  unfold CBufferedFile.read
  rw [add64_eq (show nSize + f.nReadPos < 2 ^ 64 by omega), add64_eq (show nSize + f.nRewind < 2 ^ 64 by omega)]
  split
  case isTrue beyond => exact ⟨f, window, rfl, rfl, rfl, .inr ⟨_, rfl, .inl ⟨rfl, .inl (by omega)⟩⟩⟩
  case isFalse within =>
    split
    case isTrue large => exact ⟨f, window, rfl, rfl, rfl, .inr ⟨_, rfl, .inl ⟨rfl, .inr (by omega)⟩⟩⟩
    case isFalse =>
      obtain ⟨g, window', limit, rewind, size, ⟨run, length, position, failbit⟩ | ⟨reason, failed, isSet, atEnd⟩⟩ :=
        window.readLoop le_rfl fits
      · exact ⟨g, window', limit, rewind, size, .inl ⟨run, length, position, by omega, failbit⟩⟩
      · exact ⟨g, window', limit, rewind, size, .inr ⟨reason, failed, .inr ⟨isSet, atEnd⟩⟩⟩

/-! ## SetPos, Seek and SetLimit -/

theorem Window.setPos (window : Window source base f) {nPos : Nat} (fits : nPos + f.nRewind < 2 ^ 64)
    (base_le : base ≤ max nPos (f.nSrcPos - f.nRewind)) : Window source base (f.setPos nPos).1 := by
  have rewindLt := window.rewind_lt
  have srcLt := window.src_lt
  have small := window.size_lt
  have baseLe := window.base_le
  have readLe := window.read_le
  unfold CBufferedFile.setPos
  rw [add64_eq fits]
  split
  · rw [sub64_eq (by omega) (by omega)]
    exact window.moveTo (by omega) (by omega) (by omega)
  · split
    · exact window.moveTo (by omega) le_rfl (by omega)
    · exact window.moveTo (by omega) (by omega) (by omega)

theorem Window.seek (window : Window source base f) (nPos : Nat) :
    Window source (if (f.seek source nPos).2 then nPos else base) (f.seek source nPos).1 := by
  unfold CBufferedFile.seek
  split
  case isTrue allowed =>
    exact ⟨window.rewind_lt, window.size_lt, le_rfl, le_rfl, Nat.le_add_right _ _, allowed.1, RingHolds.empty _ _ nPos⟩
  case isFalse => exact window

theorem Window.setLimit (window : Window source base f) (nPos : Nat) : Window source base (f.setLimit nPos).1 := by
  unfold CBufferedFile.setLimit
  split
  · exact window
  · exact ⟨window.rewind_lt, window.size_lt, window.base_le, window.read_le, window.src_le, window.src_lt, window.holds⟩

/-! ## FindByte -/

/-- The loop stops at the first byte that is looked for, or Fill throws after it has passed the others. -/
theorem Window.findLoop (window : Window source base f) (ch : UInt8) {turns : Nat}
    (enough : max f.nSrcPos source.bytes.length < f.nReadPos + turns) :
    ∃ g, Window source base g ∧ g.nReadLimit = f.nReadLimit ∧ g.nRewind = f.nRewind ∧ g.size = f.size ∧
      f.nReadPos ≤ g.nReadPos ∧
      (∀ p, f.nReadPos ≤ p → p < g.nReadPos → source.bytes[p]? ≠ some ch) ∧
      ((f.findLoop source ch turns = (g, .ok ()) ∧ source.bytes[g.nReadPos]? = some ch ∧ g.failbit = f.failbit) ∨
        (∃ reason, f.findLoop source ch turns = (g, .error (.exception reason)) ∧ g.failbit = true ∧
          (source.Reliable → source.bytes.length ≤ g.nReadPos))) := by
  induction turns generalizing f with
  | zero =>
      have le := window.read_le
      omega
  | succ turns ih =>
      unfold CBufferedFile.findLoop
      obtain ⟨filled, window1, fills, ⟨fill, ready, bound, failbit⟩ | ⟨reason, failed, same, isSet, atEnd⟩⟩ :=
        window.fillIfEmpty
      · obtain ⟨byte, content, stands⟩ :=
          window1.holds filled.nReadPos window1.base_le ready window1.src_le
        have position := fills.nReadPos
        rw [fill]
        simp only [show filled.vchBuf[filled.nReadPos % filled.size]? = some byte from stands]
        by_cases found : byte = ch
        · rw [if_pos found]
          refine ⟨filled, window1, fills.nReadLimit, fills.nRewind, fills.size, position.ge, ?_,
            .inl ⟨rfl, found ▸ content, failbit⟩⟩
          intro p from_f below
          omega
        · have sum : add64 filled.nReadPos 1 = filled.nReadPos + 1 := add64_eq (by
            have := window1.src_lt
            omega)
          rw [if_neg found, sum]
          have window2 : Window source base { filled with nReadPos := filled.nReadPos + 1 } :=
            window1.moveTo (by have := window1.base_le; omega) ready (by have := window1.src_le; omega)
          obtain ⟨g, window3, limit, rewind, size, le, passed, result⟩ := ih window2 (by
            change max filled.nSrcPos source.bytes.length < filled.nReadPos + 1 + turns
            omega)
          have le : filled.nReadPos + 1 ≤ g.nReadPos := le
          refine ⟨g, window3, limit.trans fills.nReadLimit, rewind.trans fills.nRewind, size.trans fills.size,
            by omega, ?_, ?_⟩
          · intro p from_f below
            by_cases here : p = filled.nReadPos
            · rw [here, content]
              exact fun same => found (Option.some.inj same)
            · exact passed p (show filled.nReadPos + 1 ≤ p by omega) below
          · rcases result with ⟨run, at_g, failbit'⟩ | failed
            · exact .inl ⟨run, at_g, failbit'.trans failbit⟩
            · exact .inr failed
      · have position := fills.nReadPos
        refine ⟨filled, window1, fills.nReadLimit, fills.nRewind, fills.size, position.ge, ?_,
          .inr ⟨reason, by rw [failed], isSet, ?_⟩⟩
        · intro p from_f below
          omega
        · intro reliable
          have beyond := atEnd reliable
          omega

theorem Window.findByte (window : Window source base f) (ch : UInt8) :
    ∃ g, Window source base g ∧ g.nReadLimit = f.nReadLimit ∧ g.nRewind = f.nRewind ∧ g.size = f.size ∧
      f.nReadPos ≤ g.nReadPos ∧
      (∀ p, f.nReadPos ≤ p → p < g.nReadPos → source.bytes[p]? ≠ some ch) ∧
      ((f.findByte source ch = (g, .ok ()) ∧ source.bytes[g.nReadPos]? = some ch ∧ g.failbit = f.failbit) ∨
        (∃ reason, f.findByte source ch = (g, .error (.exception reason)) ∧ g.failbit = true ∧
          (source.Reliable → source.bytes.length ≤ g.nReadPos))) := by
  have le := window.src_le
  exact window.findLoop ch (by omega)

end CBufferedFile

end BitCrystal
