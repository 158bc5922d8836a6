import BitCrystal.BlockSerialize

namespace BitCrystal

open Data

/-! # The data of getwork

FormatHashBuffers pads the header of a block for SHA-256 and reverses the bytes of each
word; getwork reverses them once more and reads the words as a header. getwork2 copies
the header as it stands in memory. -/

/-! ## Words in memory -/

def byteReverse (value : UInt32) : UInt32 :=
  let value := ((value &&& 0xFF00FF00) >>> 8) ||| ((value &&& 0x00FF00FF) <<< 8)
  (value <<< 16) ||| (value >>> 16)

/-- `((unsigned int*)pdata)[i]` -/
def wordAt (buffer : Bytes) (i : Nat) : UInt32 := UInt32.ofNat (ofLittleEndian ((buffer.drop (4 * i)).take 4))

/-- The loop that reverses the bytes of each word. -/
def reverseWords : Bytes → Bytes
  | a :: b :: c :: d :: rest => littleEndian 4 (byteReverse (wordAt [a, b, c, d] 0)).toNat ++ reverseWords rest
  | rest => rest

def formatHashBlocks (buffer : Bytes) : Bytes :=
  let blocks := 1 + (buffer.length + 8) / 64
  buffer ++ [0x80] ++ List.replicate (64 * blocks - buffer.length - 5) 0 ++
    (littleEndian 4 (buffer.length * 8)).reverse

/-- The header that `CBlock*` shows at the start of a buffer. -/
def headerAt (buffer : Bytes) : CBlockHeader where
  nVersion := (wordAt buffer 0).toInt32
  hashPrevBlock := BitVec.ofNat 256 (ofLittleEndian ((buffer.drop 4).take 32))
  hashMerkleRoot := BitVec.ofNat 256 (ofLittleEndian ((buffer.drop 36).take 32))
  nTime := wordAt buffer 17
  nBits := wordAt buffer 18
  nNonce := wordAt buffer 19

/-! ## The two calls -/

inductive WorkCall where
  | getwork
  | getwork2
deriving DecidableEq

namespace WorkCall

/-- `pdata`; the last 48 bytes of getwork2 are not set. -/
def pdata (call : WorkCall) (pblock : CBlockHeader) (unset : Bytes) : Bytes :=
  match call with
  | .getwork => reverseWords (formatHashBlocks pblock.serialize)
  | .getwork2 => pblock.serialize ++ unset

/-- What a submission says. -/
def read (call : WorkCall) (vchData : Bytes) : CBlockHeader :=
  match call with
  | .getwork => headerAt (reverseWords vchData)
  | .getwork2 => headerAt vchData

end WorkCall

/-- The buffers have the same words but for those of nTime and nNonce. -/
structure SameButTimeAndNonce (buffer changed : Bytes) : Prop where
  length : changed.length = buffer.length
  words : ∀ i, i ≠ 17 → i ≠ 19 → wordAt changed i = wordAt buffer i

/-! ## Reversing -/

theorem byteReverse_byteReverse (value : UInt32) : byteReverse (byteReverse value) = value := by
  rw [← UInt32.toBitVec_inj]
  apply BitVec.eq_of_getLsbD_eq
  intro i lt
  interval_cases i <;> simp [byteReverse]

theorem reverseWords_length (buffer : Bytes) : (reverseWords buffer).length = buffer.length := by
  induction buffer using reverseWords.induct with
  | case1 a b c d rest ih =>
      rw [reverseWords, List.length_append, littleEndian_length, ih]
      simp only [List.length_cons]
      omega
  | case2 rest short => rw [reverseWords.eq_2 rest short]

theorem wordAt_succ (a b c d : UInt8) (rest : Bytes) (i : Nat) :
    wordAt (a :: b :: c :: d :: rest) (i + 1) = wordAt rest i := by
  rw [wordAt, wordAt, Nat.mul_succ]
  rfl

theorem wordAt_littleEndian (word : UInt32) (rest : Bytes) : wordAt (littleEndian 4 word.toNat ++ rest) 0 = word := by
  have first : ((littleEndian 4 word.toNat ++ rest).drop (4 * 0)).take 4 = littleEndian 4 word.toNat :=
    List.take_left' (littleEndian_length 4 _)
  rw [wordAt, first, ofLittleEndian_littleEndian_of_lt (by simpa using word.toNat_lt), UInt32.ofNat_toNat]

theorem wordAt_reverseWords {buffer : Bytes} (whole : 4 ∣ buffer.length) (i : Nat) :
    wordAt (reverseWords buffer) i = byteReverse (wordAt buffer i) := by
  induction buffer using reverseWords.induct generalizing i with
  | case1 a b c d rest ih =>
      have wholeRest : 4 ∣ rest.length := by
        simp only [List.length_cons] at whole
        omega
      rw [reverseWords]
      cases i with
      | zero => rw [wordAt_littleEndian]; rfl
      | succ i => rw [littleEndian, littleEndian, littleEndian, littleEndian, littleEndian, List.cons_append,
          List.cons_append, List.cons_append, List.cons_append, List.nil_append, wordAt_succ, wordAt_succ, ih wholeRest]
  | case2 rest short =>
      have empty : rest = [] := by
        rcases rest with _ | ⟨a, _ | ⟨b, _ | ⟨c, _ | ⟨d, more⟩⟩⟩⟩
        · rfl
        · simp at whole
        · simp at whole
        · simp at whole
        · exact (short a b c d more rfl).elim
      subst empty
      have zero : wordAt [] i = 0 := by
        rw [wordAt, List.drop_nil, List.take_nil]
        rfl
      rw [reverseWords, zero]
      · decide
      · exact short

/-! ## Reading a header -/

theorem take_eq_words {buffer : Bytes} (first count : Nat) (inside : 4 * (first + count) ≤ buffer.length) :
    (buffer.drop (4 * first)).take (4 * count) =
      (List.range count).flatMap fun i => littleEndian 4 (wordAt buffer (first + i)).toNat := by
  induction count with
  | zero => rfl
  | succ count ih =>
      have four : ((buffer.drop (4 * (first + count))).take 4).length = 4 := by
        rw [List.length_take, List.length_drop]
        omega
      have value : (wordAt buffer (first + count)).toNat = ofLittleEndian ((buffer.drop (4 * (first + count))).take 4) := by
        have small := ofLittleEndian_lt ((buffer.drop (4 * (first + count))).take 4)
        rw [four] at small
        rw [wordAt, UInt32.toNat_ofNat']
        exact Nat.mod_eq_of_lt (by simpa using small)
      have last : littleEndian 4 (wordAt buffer (first + count)).toNat = (buffer.drop (4 * (first + count))).take 4 := by
        have back := littleEndian_ofLittleEndian ((buffer.drop (4 * (first + count))).take 4)
        rwa [four, ← value] at back
      rw [List.range_succ, List.flatMap_append, ← ih (by omega), List.flatMap_singleton, last, Nat.mul_succ, List.take_add,
        List.drop_drop, Nat.mul_add]

theorem headerAt_eq {buffer changed : Bytes} (long : 80 ≤ buffer.length) (long' : 80 ≤ changed.length)
    (words : ∀ i, i ≠ 17 → i ≠ 19 → wordAt changed i = wordAt buffer i) :
    headerAt changed = { headerAt buffer with nTime := (headerAt changed).nTime, nNonce := (headerAt changed).nNonce } := by
  have hash (first : Nat) (below : first + 8 ≤ 17) :
      (changed.drop (4 * first)).take (4 * 8) = (buffer.drop (4 * first)).take (4 * 8) := by
    rw [take_eq_words first 8 (by omega), take_eq_words first 8 (by omega)]
    apply List.flatMap_congr
    intro i member
    have lt := List.mem_range.mp member
    rw [words (first + i) (by omega) (by omega)]
  have previous := hash 1 (by decide)
  have root := hash 9 (by decide)
  simp only [headerAt, words 0 (by decide) (by decide), words 18 (by decide) (by decide)]
  rw [previous, root]

theorem fieldAt {before field after : Bytes} {start width : Nat} (starts : before.length = start)
    (wide : field.length = width) : ((before ++ (field ++ after)).drop start).take width = field := by
  rw [List.drop_left' starts, List.take_left' wide]

theorem wordAt_field {before after : Bytes} (word : UInt32) {i : Nat} (starts : before.length = 4 * i) :
    wordAt (before ++ (littleEndian 4 word.toNat ++ after)) i = word := by
  rw [wordAt, fieldAt starts (littleEndian_length 4 _), ofLittleEndian_littleEndian_of_lt (by simpa using word.toNat_lt),
    UInt32.ofNat_toNat]

theorem headerAt_serialize (header : CBlockHeader) (rest : Bytes) : headerAt (header.serialize ++ rest) = header := by
  have version : wordAt (header.serialize ++ rest) 0 = header.nVersion.toUInt32 := by
    simp only [CBlockHeader.serialize, List.append_assoc]
    exact wordAt_littleEndian _ _
  have previous : ((header.serialize ++ rest).drop 4).take 32 = littleEndian 32 header.hashPrevBlock.toNat := by
    simp only [CBlockHeader.serialize, List.append_assoc]
    exact fieldAt (littleEndian_length 4 _) (littleEndian_length 32 _)
  have root : ((header.serialize ++ rest).drop 36).take 32 = littleEndian 32 header.hashMerkleRoot.toNat := by
    simp only [CBlockHeader.serialize, List.append_assoc]
    rw [← List.append_assoc]
    exact fieldAt (by simp) (littleEndian_length 32 _)
  have time : wordAt (header.serialize ++ rest) 17 = header.nTime := by
    simp only [CBlockHeader.serialize, List.append_assoc]
    rw [← List.append_assoc, ← List.append_assoc]
    exact wordAt_field _ (by simp)
  have bits : wordAt (header.serialize ++ rest) 18 = header.nBits := by
    simp only [CBlockHeader.serialize, List.append_assoc]
    rw [← List.append_assoc, ← List.append_assoc, ← List.append_assoc]
    exact wordAt_field _ (by simp)
  have nonce : wordAt (header.serialize ++ rest) 19 = header.nNonce := by
    simp only [CBlockHeader.serialize, List.append_assoc]
    rw [← List.append_assoc, ← List.append_assoc, ← List.append_assoc, ← List.append_assoc]
    exact wordAt_field _ (by simp)
  have hash (h : UInt256) : BitVec.ofNat 256 (ofLittleEndian (littleEndian 32 h.toNat)) = h := by
    rw [ofLittleEndian_littleEndian_of_lt (by simpa using h.isLt), BitVec.ofNat_toNat, BitVec.setWidth_eq]
  rw [headerAt, version, previous, root, time, bits, nonce, hash, hash]
  simp

/-! ## What comes back -/

theorem formatHashBlocks_header (header : CBlockHeader) :
    ∃ rest, formatHashBlocks header.serialize = header.serialize ++ rest ∧ rest.length = 48 := by
  refine ⟨_, by rw [formatHashBlocks, List.append_assoc, List.append_assoc], ?_⟩
  simp only [List.length_append, List.length_cons, List.length_nil, List.length_replicate, List.length_reverse,
    littleEndian_length, CBlockHeader.serialize_length]

theorem WorkCall.pdata_length (call : WorkCall) (pblock : CBlockHeader) {unset : Bytes} (length : unset.length = 48) :
    (call.pdata pblock unset).length = 128 := by
  cases call with
  | getwork =>
      obtain ⟨rest, padded, more⟩ := formatHashBlocks_header pblock
      rw [pdata, reverseWords_length, padded, List.length_append, CBlockHeader.serialize_length, more]
  | getwork2 => rw [pdata, List.length_append, CBlockHeader.serialize_length, length]

theorem WorkCall.read_changed (call : WorkCall) (pblock : CBlockHeader) {unset vchData : Bytes}
    (length : unset.length = 48) (changed : SameButTimeAndNonce (call.pdata pblock unset) vchData) :
    call.read vchData = { pblock with nTime := (call.read vchData).nTime, nNonce := (call.read vchData).nNonce } := by
  have whole := call.pdata_length pblock length
  have whole' := changed.length
  rw [whole] at whole'
  cases call with
  | getwork =>
      obtain ⟨rest, padded, more⟩ := formatHashBlocks_header pblock
      have four : 4 ∣ (formatHashBlocks pblock.serialize).length := by
        rw [padded, List.length_append, CBlockHeader.serialize_length, more]
        decide
      have words : ∀ i, i ≠ 17 → i ≠ 19 →
          wordAt (reverseWords vchData) i = wordAt (pblock.serialize ++ rest) i := by
        intro i time nonce
        rw [wordAt_reverseWords (by rw [whole']; decide), changed.words i time nonce, pdata, wordAt_reverseWords four,
          byteReverse_byteReverse, padded]
      have same := headerAt_eq (by rw [List.length_append, CBlockHeader.serialize_length]; omega)
        (by rw [reverseWords_length, whole']; decide) words
      rw [headerAt_serialize] at same
      exact same
  | getwork2 =>
      have words : ∀ i, i ≠ 17 → i ≠ 19 → wordAt vchData i = wordAt (pblock.serialize ++ unset) i := changed.words
      have same := headerAt_eq (by rw [List.length_append, CBlockHeader.serialize_length]; omega) (by omega) words
      rw [headerAt_serialize] at same
      exact same

end BitCrystal
