import Mathlib.Tactic.Common
import Mathlib.Algebra.Group.Nat.Defs

namespace BitCrystal.Data

/-! Deserialization from a byte stream.  A reader consumes a prefix of its input
and fails, like a short read, when the input ends too early. -/

abbrev Bytes := List UInt8

abbrev Reader (α : Type) := StateT Bytes Option α

/-- `bytes` is an encoding of `value`: reading it back yields the value and
leaves whatever follows untouched. -/
def Reads {α : Type} (reader : Reader α) (bytes : Bytes) (value : α) : Prop :=
  ∀ rest, reader (bytes ++ rest) = some (value, rest)

namespace Reader

def byte : Reader UInt8 := fun input =>
  match input with
  | [] => none
  | first :: rest => some (first, rest)

def take (count : Nat) : Reader Bytes := fun input =>
  if count ≤ input.length then some (input.take count, input.drop count) else none

def repeated {α : Type} (reader : Reader α) : Nat → Reader (List α)
  | 0 => pure []
  | count + 1 => do
      let first ← reader
      let rest ← repeated reader count
      pure (first :: rest)

def fail {α : Type} : Reader α := fun _ => none

end Reader

namespace Reads

variable {α β : Type} {reader : Reader α} {bytes : Bytes} {value : α}

theorem pure (value : α) : Reads (pure value : Reader α) [] value := fun _ => rfl

theorem bind {f : α → Reader β} {m : Bytes} {result : β}
    (first : Reads reader bytes value) (second : Reads (f value) m result) :
    Reads (reader >>= f) (bytes ++ m) result := by
  intro rest
  rw [List.append_assoc]
  show (reader (bytes ++ (m ++ rest))).bind (fun pair => f pair.1 pair.2) = _
  rw [first (m ++ rest)]
  exact second rest

theorem bind_run (first : Reads reader bytes value) (f : α → Reader β) (rest : Bytes) :
    (reader >>= f) (bytes ++ rest) = f value rest := by
  show (reader (bytes ++ rest)).bind (fun pair => f pair.1 pair.2) = _
  rw [first rest]
  rfl

theorem map (f : α → β) (first : Reads reader bytes value) :
    Reads (reader >>= fun read => Pure.pure (f read)) bytes (f value) := by
  simpa using first.bind (f := fun read => Pure.pure (f read)) (pure (f value))

theorem whole (reads : Reads reader bytes value) : reader bytes = some (value, []) := by
  simpa using reads []

theorem unique {other : α} (reads : Reads reader bytes value)
    (also : Reads reader bytes other) : value = other := by
  have same := reads.whole.symm.trans also.whole
  simp only [Option.some.injEq, Prod.mk.injEq, and_true] at same
  exact same

theorem byte (first : UInt8) : Reads Reader.byte [first] first := fun _ => rfl

theorem take (bytes : Bytes) : Reads (Reader.take bytes.length) bytes bytes := by
  intro rest
  simp [Reader.take]

theorem take_of_length {count : Nat} (length : bytes.length = count) :
    Reads (Reader.take count) bytes bytes :=
  length ▸ take bytes

theorem repeated_map {γ : Type} {write : γ → Bytes} {image : γ → α} (values : List γ)
    (each : ∀ value ∈ values, Reads reader (write value) (image value)) :
    Reads (reader.repeated values.length) (values.flatMap write) (values.map image) := by
  induction values with
  | nil => exact pure []
  | cons first rest ih =>
      have head := each first (by simp)
      have tail := ih fun value member => each value (by simp [member])
      exact head.bind (tail.map (image first :: ·))

end Reads

/-! ## Fixed-width little-endian integers -/

/-- The `width` low-order bytes of a number, least significant first. -/
def littleEndian : Nat → Nat → Bytes
  | 0, _ => []
  | width + 1, value => UInt8.ofNat value :: littleEndian width (value / 256)

def ofLittleEndian : Bytes → Nat
  | [] => 0
  | first :: rest => first.toNat + 256 * ofLittleEndian rest

@[simp] theorem littleEndian_length (width value : Nat) : (littleEndian width value).length = width := by
  induction width generalizing value with
  | zero => rfl
  | succ width ih => simp [littleEndian, ih]

theorem ofLittleEndian_littleEndian (width value : Nat) :
    ofLittleEndian (littleEndian width value) = value % 256 ^ width := by
  induction width generalizing value with
  | zero => simp [littleEndian, ofLittleEndian, Nat.mod_one]
  | succ width ih =>
      have grow : 256 ^ (width + 1) = 256 * 256 ^ width := by rw [Nat.pow_succ, Nat.mul_comm]
      rw [grow, Nat.mod_mul]
      simp only [littleEndian, ofLittleEndian, ih, UInt8.toNat_ofNat']

theorem ofLittleEndian_littleEndian_of_lt {width value : Nat} (fits : value < 256 ^ width) :
    ofLittleEndian (littleEndian width value) = value := by
  rw [ofLittleEndian_littleEndian, Nat.mod_eq_of_lt fits]

def Reader.littleEndian (width : Nat) : Reader Nat := do
  let bytes ← Reader.take width
  pure (ofLittleEndian bytes)

theorem Reads.littleEndian (width value : Nat) (fits : value < 256 ^ width) :
    Reads (Reader.littleEndian width) (Data.littleEndian width value) value := by
  have reads := (Reads.take_of_length (littleEndian_length width value)).map ofLittleEndian
  rw [ofLittleEndian_littleEndian_of_lt fits] at reads
  exact reads

end BitCrystal.Data
