import BitCrystal.BufferedFile

namespace BitCrystal

open Data

/-! # Runs of a buffered file -/

namespace CBufferedFile

inductive Call where
  | read (nSize : Nat)
  | setPos (nPos : Nat)
  | seek (nPos : Nat)
  | setLimit (nPos : Nat)
  | findByte (ch : UInt8)
deriving DecidableEq

variable {source : FileSource} {base : Nat} {f : CBufferedFile}

def perform (source : FileSource) (f : CBufferedFile) : Call → CBufferedFile × Except Failure Bytes
  | .read nSize => f.read source nSize
  | .setPos nPos => ((f.setPos nPos).1, .ok [])
  | .seek nPos => ((f.seek source nPos).1, .ok [])
  | .setLimit nPos => ((f.setLimit nPos).1, .ok [])
  | .findByte ch => ((f.findByte source ch).1, (f.findByte source ch).2.map fun _ => [])

/-- What a call of a faithful window does: the positions stay together, what is read are the bytes of the
file at GetPos up to the limit, and a call that fails throws and leaves the bytes from the
position on in the buffer. -/
structure Faithful (source : FileSource) (f : CBufferedFile) (call : Call) (g : CBufferedFile)
    (result : Except Failure Bytes) : Prop where
  size : g.size = f.size
  read_le : g.nReadPos ≤ g.nSrcPos
  src_le : g.nSrcPos ≤ g.nReadPos + g.size
  delivers : ∀ nSize data, call = .read nSize → result = .ok data →
    data = (source.bytes.drop f.getPos).take nSize ∧ data.length = nSize ∧ f.getPos + nSize ≤ f.nReadLimit
  throws : ∀ failure, result = .error failure → (∃ reason, failure = .exception reason) ∧
    ∀ p, g.getPos ≤ p → p < g.nSrcPos →
      ∃ byte, source.bytes[p]? = some byte ∧ g.vchBuf[p % g.size]? = some byte

/-- No object has more bytes than a file, no sum overflows, and SetPos does not go back behind the position
`base` of the last Seek. -/
def Call.Meets (base : Nat) (f : CBufferedFile) : Call → Prop
  | .read nSize => nSize < 2 ^ 63
  | .setPos nPos => nPos + f.nRewind < 2 ^ 64 ∧ base ≤ max nPos (f.nSrcPos - f.nRewind)
  | .seek _ | .setLimit _ | .findByte _ => True

instance decidableMeets (base : Nat) (f : CBufferedFile) (call : Call) : Decidable (call.Meets base f) :=
  match call with
  | .read nSize => inferInstanceAs (Decidable (nSize < 2 ^ 63))
  | .setPos nPos =>
      inferInstanceAs (Decidable (nPos + f.nRewind < 2 ^ 64 ∧ base ≤ max nPos (f.nSrcPos - f.nRewind)))
  | .seek _ => inferInstanceAs (Decidable True)
  | .setLimit _ => inferInstanceAs (Decidable True)
  | .findByte _ => inferInstanceAs (Decidable True)

def Call.lastSeek (source : FileSource) (base : Nat) (f : CBufferedFile) : Call → Nat
  | .seek nPos => if (f.seek source nPos).2 then nPos else base
  | .read _ | .setPos _ | .setLimit _ | .findByte _ => base

def RunMeets (source : FileSource) : Nat → CBufferedFile → List Call → Prop
  | _, _, [] => True
  | base, f, call :: rest =>
      call.Meets base f ∧ RunMeets source (call.lastSeek source base f) (f.perform source call).1 rest

instance decidableRunMeets (source : FileSource) :
    ∀ (base : Nat) (f : CBufferedFile) (calls : List Call), Decidable (RunMeets source base f calls)
  | _, _, [] => inferInstanceAs (Decidable True)
  | base, f, call :: rest =>
      have := decidableRunMeets source (call.lastSeek source base f) (f.perform source call).1 rest
      inferInstanceAs (Decidable (call.Meets base f ∧ _))

def RunFaithful (source : FileSource) : CBufferedFile → List Call → Prop
  | _, [] => True
  | f, call :: rest =>
      Faithful source f call (f.perform source call).1 (f.perform source call).2 ∧
        RunFaithful source (f.perform source call).1 rest

/-! ## One call -/

theorem setPos_size (nPos : Nat) (f : CBufferedFile) : (f.setPos nPos).1.size = f.size := by
  simp only [setPos, size, apply_ite Prod.fst, apply_ite vchBuf, ite_self]

theorem seek_size (source : FileSource) (nPos : Nat) (f : CBufferedFile) : (f.seek source nPos).1.size = f.size := by
  simp only [seek, size, apply_ite Prod.fst, apply_ite vchBuf, ite_self]

theorem setLimit_size (nPos : Nat) (f : CBufferedFile) : (f.setLimit nPos).1.size = f.size := by
  simp only [setLimit, size, apply_ite Prod.fst, apply_ite vchBuf, ite_self]

theorem Window.faithful {g : CBufferedFile} (window : Window source base g) (size : g.size = f.size) {call : Call}
    (other : ∀ nSize, call = .read nSize → False) {result : Except Failure Bytes}
    (thrown : ∀ failure, result = .error failure → ∃ reason, failure = .exception reason) :
    Faithful source f call g result where
  size := size
  read_le := window.read_le
  src_le := window.src_le
  delivers nSize _ isRead := (other nSize isRead).elim
  throws failure failed := ⟨thrown failure failed, fun p from_g below =>
    window.holds p (window.base_le.trans from_g) below (by
      have near := window.src_le
      have le : g.nReadPos ≤ p := from_g
      have same : g.size = g.vchBuf.length := rfl
      omega)⟩

theorem quiet {data : Bytes} (failure : Failure) (failed : (.ok data : Except Failure Bytes) = .error failure) :
    ∃ reason, failure = .exception reason := by
  cases failed

theorem Window.perform (window : Window source base f) {call : Call} (meets : call.Meets base f) :
    Window source (call.lastSeek source base f) (f.perform source call).1 ∧
      Faithful source f call (f.perform source call).1 (f.perform source call).2 := by
  cases call with
  | read nSize =>
      obtain ⟨g, window', limit, rewind, size, ⟨run, length, position, within, _⟩ | ⟨reason, failed, _⟩⟩ :=
        window.read meets
      · rw [CBufferedFile.perform, run]
        refine ⟨window', size, window'.read_le, window'.src_le, ?_, by rintro _ ⟨⟩⟩
        rintro _ _ ⟨⟩ ⟨⟩
        exact ⟨rfl, length, within⟩
      · rw [CBufferedFile.perform, failed]
        refine ⟨window', size, window'.read_le, window'.src_le, by rintro _ _ _ ⟨⟩, ?_⟩
        rintro _ ⟨⟩
        have untouched : Faithful source f (.setPos 0) g (.error (.exception reason)) :=
          window'.faithful size (by rintro _ ⟨⟩) (by rintro _ ⟨⟩; exact ⟨reason, rfl⟩)
        exact untouched.throws _ rfl
  | setPos nPos =>
      have window' := window.setPos meets.1 meets.2
      exact ⟨window', window'.faithful (setPos_size nPos f) (by rintro _ ⟨⟩) quiet⟩
  | seek nPos =>
      have window' := window.seek nPos
      exact ⟨window', window'.faithful (seek_size source nPos f) (by rintro _ ⟨⟩) quiet⟩
  | setLimit nPos =>
      have window' := window.setLimit nPos
      exact ⟨window', window'.faithful (setLimit_size nPos f) (by rintro _ ⟨⟩) quiet⟩
  | findByte ch =>
      obtain ⟨g, window', limit, rewind, size, _, _, ⟨run, _⟩ | ⟨reason, failed, _⟩⟩ := window.findByte ch
      · rw [CBufferedFile.perform, run]
        exact ⟨window', window'.faithful size (by rintro _ ⟨⟩) quiet⟩
      · rw [CBufferedFile.perform, failed]
        exact ⟨window', window'.faithful size (by rintro _ ⟨⟩) (by rintro _ ⟨⟩; exact ⟨reason, rfl⟩)⟩

/-! ## Runs -/

theorem Window.run (window : Window source base f) {calls : List Call} (meets : RunMeets source base f calls) :
    RunFaithful source f calls := by
  induction calls generalizing base f with
  | nil => trivial
  | cons call rest ih =>
      obtain ⟨window', faithful⟩ := window.perform meets.1
      exact ⟨faithful, ih window' meets.2⟩

/-- A buffered file with more room than it keeps for rewinding, and with less than 4 GiB, is a faithful window in
every run in which no SetPos goes back behind the last Seek and no sum overflows. -/
theorem bufferedFile_faithful (source : FileSource) {nBufSize nRewindIn : Nat} (room : nRewindIn < nBufSize)
    (small : nBufSize < 2 ^ 32) {calls : List Call} (meets : RunMeets source 0 (make nBufSize nRewindIn) calls) :
    RunFaithful source (make nBufSize nRewindIn) calls :=
  (make_window room small source).run meets

end CBufferedFile

namespace Sample

/-- A file of ten bytes that is read in pieces of three bytes at most. -/
def tenBytes : FileSource where
  bytes := [1, 2, 3, 4, 5, 6, 7, 8, 9, 10]
  fread _ := 3
  fseek _ := true
  length_lt := by decide

end Sample

namespace CBufferedFile

open Sample

theorem bufferedFile_faithful_ten : RunFaithful tenBytes (make 4 1)
    [.read 3, .setPos 2, .findByte 6, .setLimit 7, .read 3, .seek 7, .setLimit 100, .read 2, .setPos 8, .read 3] :=
  bufferedFile_faithful tenBytes (by decide) (by decide) (by decide)

/-- After a Seek, SetPos goes back to a byte that was not read into the buffer. -/
theorem bufferedFile_stale : ¬ RunFaithful tenBytes (make 4 1) [.seek 5, .setPos 4, .read 1] := by
  rintro ⟨-, -, faithful, -⟩
  have delivered := (faithful.delivers 1 [0] rfl (by decide)).1
  exact absurd delivered (by decide)

end CBufferedFile

end BitCrystal
