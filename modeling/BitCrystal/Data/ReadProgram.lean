import BitCrystal.Data.Reader

namespace BitCrystal.Data

/-! Programs that read a stream in pieces.  A program asks for a piece of a given size and goes
on by what it is; run on a list of bytes it is a reader. -/

inductive ReadProgram (α : Type) where
  | done (value : α)
  | fail (reason : String)
  | read (count : Nat) (next : Bytes → ReadProgram α)

namespace ReadProgram

variable {α β : Type}

def bind (program : ReadProgram α) (f : α → ReadProgram β) : ReadProgram β :=
  match program with
  | done value => f value
  | fail reason => fail reason
  | read count next => read count fun bytes => (next bytes).bind f

instance : Monad ReadProgram where
  pure := done
  bind := bind

def toReader : ReadProgram α → Reader α
  | done value => pure value
  | fail _ => Reader.fail
  | read count next => do
      let bytes ← Reader.take count
      (next bytes).toReader

def take (count : Nat) : ReadProgram Bytes := read count done

def byte : ReadProgram UInt8 := do
  let bytes ← take 1
  return bytes.headD 0

def littleEndian (width : Nat) : ReadProgram Nat := do
  let bytes ← take width
  return ofLittleEndian bytes

/-- `count` bytes, at most `most` at a time, in no more than `turns` pieces. -/
def takePieces (most : Nat) : Nat → Nat → ReadProgram Bytes
  | 0, _ => return []
  | turns + 1, count =>
      if count = 0 then return []
      else do
        let first ← take (min count most)
        let rest ← takePieces most turns (count - min count most)
        return first ++ rest

def repeated (program : ReadProgram α) : Nat → ReadProgram (List α)
  | 0 => return []
  | count + 1 => do
      let first ← program
      let rest ← repeated program count
      return first :: rest

/-! ## As readers -/

@[simp] theorem toReader_pure (value : α) : (pure value : ReadProgram α).toReader = pure value := rfl

@[simp] theorem toReader_bind (program : ReadProgram α) (f : α → ReadProgram β) :
    (program >>= f).toReader = program.toReader >>= fun value => (f value).toReader := by
  change (program.bind f).toReader = _
  induction program with
  | done value => rfl
  | fail reason => rfl
  | read count next ih =>
      rw [bind, toReader, toReader, bind_assoc]
      exact congrArg (Reader.take count >>= ·) (funext ih)

@[simp] theorem toReader_take (count : Nat) : (take count).toReader = Reader.take count :=
  bind_pure (Reader.take count)

@[simp] theorem toReader_byte : byte.toReader = Reader.byte := by
  funext input
  cases input with
  | nil => rfl
  | cons first rest => rfl

@[simp] theorem toReader_littleEndian (width : Nat) : (littleEndian width).toReader = Reader.littleEndian width := by
  rw [littleEndian, toReader_bind, toReader_take]
  rfl

/-- Two pieces that follow each other are one. -/
theorem take_then_take (first second : Nat) :
    (do let front ← Reader.take first
        let back ← Reader.take second
        return front ++ back) = Reader.take (first + second) := by
  funext input
  change ((Reader.take first input).bind fun pair => ((Reader.take second pair.2).bind fun pair' =>
    some (pair.1 ++ pair'.1, pair'.2))) = Reader.take (first + second) input
  unfold Reader.take
  by_cases enough : first + second ≤ input.length
  · rw [if_pos (by omega), if_pos enough, Option.bind_some, if_pos (by rw [List.length_drop]; omega), Option.bind_some,
      ← List.take_add, List.drop_drop]
  · rw [if_neg enough]
    by_cases front : first ≤ input.length
    · rw [if_pos front, Option.bind_some, if_neg (by rw [List.length_drop]; omega), Option.bind_none]
    · rw [if_neg front, Option.bind_none]

@[simp] theorem toReader_takePieces {most turns count : Nat} (some' : 0 < most) (enough : count ≤ turns) :
    (takePieces most turns count).toReader = Reader.take count := by
  induction turns generalizing count with
  | zero =>
      obtain rfl : count = 0 := by omega
      rfl
  | succ turns ih =>
      unfold takePieces
      split
      case isTrue none =>
        subst none
        rfl
      case isFalse some'' =>
        simp only [toReader_bind, toReader_take, toReader_pure, ih (show count - min count most ≤ turns by omega)]
        rw [take_then_take]
        congr 1
        omega

@[simp] theorem toReader_repeated (program : ReadProgram α) (count : Nat) :
    (program.repeated count).toReader = program.toReader.repeated count := by
  induction count with
  | zero => rfl
  | succ count ih => simp only [repeated, Reader.repeated, toReader_bind, toReader_pure, ih]

/-! ## Bounds -/

/-- No piece is larger than `most`, and the value has the property. -/
def Bounded (most : Nat) (property : α → Prop) : ReadProgram α → Prop
  | done value => property value
  | fail _ => True
  | read count next => count ≤ most ∧ ∀ bytes, (next bytes).Bounded most property

namespace Bounded

variable {most : Nat} {property : α → Prop} {program : ReadProgram α}

theorem pure {value : α} (holds : property value) : Bounded most property (Pure.pure value) := holds

theorem bind {other : β → Prop} {f : α → ReadProgram β} (first : Bounded most property program)
    (second : ∀ value, property value → Bounded most other (f value)) : Bounded most other (program >>= f) := by
  change Bounded most other (program.bind f)
  induction program with
  | done value => exact second value first
  | fail reason => trivial
  | read count next ih => exact ⟨first.1, fun bytes => ih bytes (first.2 bytes)⟩

theorem take {count : Nat} (bound : count ≤ most) : Bounded most (fun _ => True) (ReadProgram.take count) :=
  ⟨bound, fun _ => trivial⟩

theorem map {f : α → β} (first : Bounded most property program) :
    Bounded most (fun _ => True) (program >>= fun value => Pure.pure (f value)) :=
  first.bind fun _ _ => trivial

theorem littleEndian {width : Nat} (bound : width ≤ most) :
    Bounded most (fun _ => True) (ReadProgram.littleEndian width) :=
  (take bound).map

theorem takePieces {piece turns count : Nat} (bound : count ≤ most) :
    Bounded most (fun _ => True) (ReadProgram.takePieces piece turns count) := by
  induction turns generalizing count with
  | zero => trivial
  | succ turns ih =>
      unfold ReadProgram.takePieces
      split
      · trivial
      · exact (take (by omega)).bind fun _ _ => (ih (by omega)).map

theorem repeated (each : Bounded most property program) (count : Nat) :
    Bounded most (fun _ => True) (program.repeated count) := by
  induction count with
  | zero => trivial
  | succ count ih => exact each.bind fun _ _ => ih.map

end Bounded

end ReadProgram

end BitCrystal.Data
