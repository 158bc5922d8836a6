import BitCrystal.Data.CodeWords
import BitCrystal.DataSecurity

namespace BitCrystal

open Data

/-! # The hash substitution of encodeDataSecurityEmailHash -/

/-- The cases of the switch; the words are hexadecimal numbers of 64 digits. -/
def hashCases : List (Char × Nat) := [
  ('0', 0x000000bc13facd0ff483e484ee7e0fb4d658f47cd59e0d9a99b3ed1c83253c46),
  ('1', 0x0000006b6dd69913a3baa44246caa7ba1173121d546ae92a14bb57c438eff89c),
  ('2', 0x0000000fa03d900cc979e333d668b09ff0fd414334721107dcb197fe10ea5a78),
  ('3', 0x000000b2e856412179eb59cedcd36e5e2326335a596a445c36ccbe4241a76bdf),
  ('4', 0x000000022334e084b9130b06e7ec3764e895b9ddf0172fdacdae43b12f9c6136),
  ('5', 0x0000002d815c2aa45450bf504f56b06ab12d3a3b55f631b5870abf131b342aff),
  ('6', 0x0000009c1b9fb3352b9622ee70bd1e6bbffa6f55c6cedc08a010905ebbf009dc),
  ('7', 0x0000001a24fe761f0dda385156e5b4fe47cdb0a3ccecfd1859f988260fb734ae),
  ('8', 0x00000092dd45f39d16f233267b9c7ebfa092689aa0012a206720797a0d587bf1),
  ('9', 0x00000020392ba932bab3066400c273279007355e1e4ddc08948ac3b7a4499ed5),
  ('.', 0x00000045ccc678fbe64f2074ba52baaf19133cfd2c8f961c8f9639b9c01950ad),
  (';', 0x000000e7f19e975efe6b2923ed96f5a9fe5991b1733393c36308b2b82ba19cc0),
  ('!', 0x000000c11ddedd753455e18746a845527bca59c4133bc501cb05755bc6e5d41d),
  ('?', 0x00000029cd44fe4f2a03a9588972785692aec3b3abbfa43b87af9c9fda74499f),
  ('$', 0x000000ccd5b8b7ec969916d75148825cf677cd19e4e67d0cb918d5febef2cb13),
  ('A', 0x0000005f62b8676a3ad6af87d327bb7058ec288b98aba2e0e8bda2dde3078173),
  ('B', 0x000000b257bb5bf7911d37cb8f1c8ed740ae44d9cfca3a53c9992f5544a2afb5),
  ('C', 0x000000e8759a7325aa771ae7884d30f5e24f721b7d3fe81b25b379645c3b1e77),
  ('D', 0x000000e358dc10690199e14e740a07c5cc25d1a3a1033bc22bd7eeb8933cc6a8),
  ('E', 0x000000ef2a7f435782193ee8dea723efda2da27e244035bb45409537b459b312),
  ('F', 0x000000a4611542396a3c997a1ed5ecdab3b732fe2b59a76d03406ccf28c7a78f),
  ('G', 0x00000088114dc21118b779bde7147fbfb39bb35821c50c5c04203908da360429),
  ('H', 0x00000004ba1064db92c95df383f3a14b08b64f86c95f1d14eaaa6fa5083cd3aa),
  ('I', 0x000000884aebf477346484e4f9b0b0723d0138b4fcaa933f45a7ca6832b2cfdc),
  ('J', 0x00000061aa985dd8ca16abf89a21261001209289f42a21f436ee8e292c448946),
  ('K', 0x0000000bfa8ff2fa43a86f76bd81499b85b20761d4ed2b21085f513b3fc4bc1d),
  ('L', 0x0000001d31f7d2d459f1a332045c57004417845a68b56613b0b458dbf58fff34),
  ('M', 0x000000289a52751253722a5ef90eb94f085ac6c478f3094754831370107aa9e9),
  ('N', 0x000000e906111324edc2783c02025c42fa74b473558a1db574ac4b70395b0a6b),
  ('O', 0x0000000b8d7b3b5098ca418dd3147e6b60006da562c43fdb888fec52e18ffbfd),
  ('P', 0x0000007f15d4bc1b9881921e7207a1f6fdf44251310a299fc86f3900570a1841),
  ('Q', 0x0000003766e0de06191a3e19977fb06accc8de7e0bf5cc910942ab87b36b24a7),
  ('R', 0x0000001fd79e5f5e7a79ece6b855c388ba3f81253b64bf2c73ef60b83dddea8e),
  ('S', 0x0000004b8c90670771b83da1d1626bbc60063a4f0e9c659aefdcde445571c233),
  ('T', 0x000000c81520530a140701dbb1fd290511bd41b5d37bb9f3bc5b2d4a44f5c5f1),
  ('U', 0x000000e654480d946831a9e7836cc8a94f29d6f4a35a9bafdbda3611862e4424),
  ('V', 0x000000e469f1dce9484e92c49291eb2f3bc5cdc167dce9d6daf1fda3036f7921),
  ('W', 0x0000004f2b9f5cd3a12e99ca8fefb7cbab6ab883b4053d4671ecb4acbbff506f),
  ('X', 0x00000017fb7497e67bb27b33fc78936af20678cb1b1526f82186e14811cc0a18),
  ('Y', 0x00000072576daea2462347b3667ad30f20107d004ba4b2b51ca193fde8d6dbae),
  ('Z', 0x00000045483b70f3aba766bc0316f582552a31933d2af740d07bf51eba8d3f74),
  ('a', 0x0000008a623d436626d9dc30ac07649cc4616c0ccd5c4d52364f5b0104d67ad8),
  ('b', 0x000000dc682cba62616e9cb5a26cd3143a8410e01db24a0389ebbdd164d6c261),
  ('c', 0x000000374227dd4bf4fce3f00750a5c3df8598dfa41408d74578c289445260d2),
  ('d', 0x0000008a9a1174c733b72953e174e69fa3170c87ba3c5e51386c1457f173d7e2),
  ('e', 0x00000000b2517da2257d6fc7904e472a6a0d5807333d39b201aec4ebf1d7c615),
  ('f', 0x0000002be1048de356aee19881be1b58fa7ee656872677eb963cfa5b4e38fe73),
  ('g', 0x000000ab7bfab78d2303bf4c250589e21601cc643218fb60fe23e518dcb3dcf0),
  ('h', 0x00000068dcb194d7deae33eca99459cd6e520a405d436e4115cda1e9f6bcf5ed),
  ('i', 0x000000298ae85bccdac86daeca16091e11d84f12206eb91e758d08753a19d6ae),
  ('j', 0x000000e2bdc746bf35962cffae2b61ff8ba0b7e32ea6a4e3bc143abedcb8b9cb),
  ('k', 0x000000b2534d86e881786e70dfe6d4155bb7d1b305d665a50395c23c44c5ae90),
  ('l', 0x000000bda72a1f71acab63a57e30e61e6d32a05f8ff27611c06e2e667fdf9958),
  ('m', 0x000000f2e57484e82b51deb5d865b2e5ddb5f2cf5963c8628815a33cda49230c),
  ('n', 0x000000f51fd09f79cd4ee9068c52df9d9e3116f9710087b679d71e493f5c0e77),
  ('o', 0x0000000438662150a862d888ffed689e1a0b7284943b954369a256a159253db8),
  ('p', 0x0000009a213e02fe42b47f1f1178a781ba6726e9e7dc28bff59d47d74a15a45d),
  ('q', 0x0000005ce7bed97dc5eca5573a908562038e186fc9ab1063d9c076042c8ac2a3),
  ('r', 0x00000076fbd1cdc608e019b574543e7ec08570cf8925bd5155d1c505eeed2929),
  ('s', 0x000000b6e0991623387ee7b7851c65a92649ed2595b96eaf1f148e34a4570555),
  ('t', 0x000000f72e46055ecaa5332695062d0795266f418759581166e9841307ef8e5c),
  ('u', 0x0000008a08888b9c19f6ea1cee17e14d206a8b767847dd12035bab651c58f086),
  ('v', 0x000000b88c68ec786362607f1d6324ab71987c238c051cbe134124a551cdb0ff),
  ('w', 0x000000af044d896b6cadff3398c74b8c54aaf7454325ce3269f7957cde467212),
  ('x', 0x000000c5248cf04af68ef1bcd262d4fbeb0a562169f6c68b4f76edbae87dcc20),
  ('y', 0x00000037fd9533ae63942844eb35155fa0fb6c11b193b7582f35e404dc92d637),
  ('z', 0x0000002db3b3872a398d8dc05e721071fcab383eec6caeaf3502709e36a36a24)]

/-- The calls of str_replace of the decoder -/
def hashReplacements : List (Nat × Char) := [
  (0x000000bc13facd0ff483e484ee7e0fb4d658f47cd59e0d9a99b3ed1c83253c46, '0'),
  (0x0000006b6dd69913a3baa44246caa7ba1173121d546ae92a14bb57c438eff89c, '1'),
  (0x0000000fa03d900cc979e333d668b09ff0fd414334721107dcb197fe10ea5a78, '2'),
  (0x000000b2e856412179eb59cedcd36e5e2326335a596a445c36ccbe4241a76bdf, '3'),
  (0x000000022334e084b9130b06e7ec3764e895b9ddf0172fdacdae43b12f9c6136, '4'),
  (0x0000002d815c2aa45450bf504f56b06ab12d3a3b55f631b5870abf131b342aff, '5'),
  (0x0000009c1b9fb3352b9622ee70bd1e6bbffa6f55c6cedc08a010905ebbf009dc, '6'),
  (0x0000001a24fe761f0dda385156e5b4fe47cdb0a3ccecfd1859f988260fb734ae, '7'),
  (0x00000092dd45f39d16f233267b9c7ebfa092689aa0012a206720797a0d587bf1, '8'),
  (0x00000020392ba932bab3066400c273279007355e1e4ddc08948ac3b7a4499ed5, '9'),
  (0x0000001f6fee4d78a802498141c6689d7c9074def17eb5fed1678cad71cedb91, ','),
  (0x000000e7f19e975efe6b2923ed96f5a9fe5991b1733393c36308b2b82ba19cc0, ';'),
  (0x000000c11ddedd753455e18746a845527bca59c4133bc501cb05755bc6e5d41d, '!'),
  (0x00000029cd44fe4f2a03a9588972785692aec3b3abbfa43b87af9c9fda74499f, '?'),
  (0x000000ccd5b8b7ec969916d75148825cf677cd19e4e67d0cb918d5febef2cb13, '$'),
  (0x00000045ccc678fbe64f2074ba52baaf19133cfd2c8f961c8f9639b9c01950ad, '.'),
  (0x0000005f62b8676a3ad6af87d327bb7058ec288b98aba2e0e8bda2dde3078173, 'A'),
  (0x000000b257bb5bf7911d37cb8f1c8ed740ae44d9cfca3a53c9992f5544a2afb5, 'B'),
  (0x000000e8759a7325aa771ae7884d30f5e24f721b7d3fe81b25b379645c3b1e77, 'C'),
  (0x000000e358dc10690199e14e740a07c5cc25d1a3a1033bc22bd7eeb8933cc6a8, 'D'),
  (0x000000ef2a7f435782193ee8dea723efda2da27e244035bb45409537b459b312, 'E'),
  (0x000000a4611542396a3c997a1ed5ecdab3b732fe2b59a76d03406ccf28c7a78f, 'F'),
  (0x00000088114dc21118b779bde7147fbfb39bb35821c50c5c04203908da360429, 'G'),
  (0x00000004ba1064db92c95df383f3a14b08b64f86c95f1d14eaaa6fa5083cd3aa, 'H'),
  (0x000000884aebf477346484e4f9b0b0723d0138b4fcaa933f45a7ca6832b2cfdc, 'I'),
  (0x00000061aa985dd8ca16abf89a21261001209289f42a21f436ee8e292c448946, 'J'),
  (0x0000000bfa8ff2fa43a86f76bd81499b85b20761d4ed2b21085f513b3fc4bc1d, 'K'),
  (0x0000001d31f7d2d459f1a332045c57004417845a68b56613b0b458dbf58fff34, 'L'),
  (0x000000289a52751253722a5ef90eb94f085ac6c478f3094754831370107aa9e9, 'M'),
  (0x000000e906111324edc2783c02025c42fa74b473558a1db574ac4b70395b0a6b, 'N'),
  (0x0000000b8d7b3b5098ca418dd3147e6b60006da562c43fdb888fec52e18ffbfd, 'O'),
  (0x0000007f15d4bc1b9881921e7207a1f6fdf44251310a299fc86f3900570a1841, 'P'),
  (0x0000003766e0de06191a3e19977fb06accc8de7e0bf5cc910942ab87b36b24a7, 'Q'),
  (0x0000001fd79e5f5e7a79ece6b855c388ba3f81253b64bf2c73ef60b83dddea8e, 'R'),
  (0x0000004b8c90670771b83da1d1626bbc60063a4f0e9c659aefdcde445571c233, 'S'),
  (0x000000c81520530a140701dbb1fd290511bd41b5d37bb9f3bc5b2d4a44f5c5f1, 'T'),
  (0x000000e654480d946831a9e7836cc8a94f29d6f4a35a9bafdbda3611862e4424, 'U'),
  (0x000000e469f1dce9484e92c49291eb2f3bc5cdc167dce9d6daf1fda3036f7921, 'V'),
  (0x0000004f2b9f5cd3a12e99ca8fefb7cbab6ab883b4053d4671ecb4acbbff506f, 'W'),
  (0x00000017fb7497e67bb27b33fc78936af20678cb1b1526f82186e14811cc0a18, 'X'),
  (0x00000072576daea2462347b3667ad30f20107d004ba4b2b51ca193fde8d6dbae, 'Y'),
  (0x00000045483b70f3aba766bc0316f582552a31933d2af740d07bf51eba8d3f74, 'Z'),
  (0x0000008a623d436626d9dc30ac07649cc4616c0ccd5c4d52364f5b0104d67ad8, 'a'),
  (0x000000dc682cba62616e9cb5a26cd3143a8410e01db24a0389ebbdd164d6c261, 'b'),
  (0x000000374227dd4bf4fce3f00750a5c3df8598dfa41408d74578c289445260d2, 'c'),
  (0x0000008a9a1174c733b72953e174e69fa3170c87ba3c5e51386c1457f173d7e2, 'd'),
  (0x00000000b2517da2257d6fc7904e472a6a0d5807333d39b201aec4ebf1d7c615, 'e'),
  (0x0000002be1048de356aee19881be1b58fa7ee656872677eb963cfa5b4e38fe73, 'f'),
  (0x000000ab7bfab78d2303bf4c250589e21601cc643218fb60fe23e518dcb3dcf0, 'g'),
  (0x00000068dcb194d7deae33eca99459cd6e520a405d436e4115cda1e9f6bcf5ed, 'h'),
  (0x000000298ae85bccdac86daeca16091e11d84f12206eb91e758d08753a19d6ae, 'i'),
  (0x000000e2bdc746bf35962cffae2b61ff8ba0b7e32ea6a4e3bc143abedcb8b9cb, 'j'),
  (0x000000b2534d86e881786e70dfe6d4155bb7d1b305d665a50395c23c44c5ae90, 'k'),
  (0x000000bda72a1f71acab63a57e30e61e6d32a05f8ff27611c06e2e667fdf9958, 'l'),
  (0x000000f2e57484e82b51deb5d865b2e5ddb5f2cf5963c8628815a33cda49230c, 'm'),
  (0x000000f51fd09f79cd4ee9068c52df9d9e3116f9710087b679d71e493f5c0e77, 'n'),
  (0x0000000438662150a862d888ffed689e1a0b7284943b954369a256a159253db8, 'o'),
  (0x0000009a213e02fe42b47f1f1178a781ba6726e9e7dc28bff59d47d74a15a45d, 'p'),
  (0x0000005ce7bed97dc5eca5573a908562038e186fc9ab1063d9c076042c8ac2a3, 'q'),
  (0x00000076fbd1cdc608e019b574543e7ec08570cf8925bd5155d1c505eeed2929, 'r'),
  (0x000000b6e0991623387ee7b7851c65a92649ed2595b96eaf1f148e34a4570555, 's'),
  (0x000000f72e46055ecaa5332695062d0795266f418759581166e9841307ef8e5c, 't'),
  (0x0000008a08888b9c19f6ea1cee17e14d206a8b767847dd12035bab651c58f086, 'u'),
  (0x000000b88c68ec786362607f1d6324ab71987c238c051cbe134124a551cdb0ff, 'v'),
  (0x000000af044d896b6cadff3398c74b8c54aaf7454325ce3269f7957cde467212, 'w'),
  (0x000000c5248cf04af68ef1bcd262d4fbeb0a562169f6c68b4f76edbae87dcc20, 'x'),
  (0x00000037fd9533ae63942844eb35155fa0fb6c11b193b7582f35e404dc92d637, 'y'),
  (0x0000002db3b3872a398d8dc05e721071fcab383eec6caeaf3502709e36a36a24, 'z')]

/-- The `i`-th of 64 hexadecimal digits of a number -/
def digitAt (number i : Nat) : Nat := number / 16 ^ (63 - i) % 16

def hexChar (digit : Nat) : UInt8 := UInt8.ofNat (if digit < 10 then 0x30 + digit else 0x57 + digit)

def hashText (number : Nat) : Bytes := (List.range 64).map fun i => hexChar (digitAt number i)

def byteOf (c : Char) : UInt8 := UInt8.ofNat c.toNat

/-- What the switch appends for a character; it has no default. -/
def hashOf (c : UInt8) : Bytes :=
  match hashCases.find? fun (char, _) => byteOf char = c with
  | some (_, word) => hashText word
  | none => []

/-- The loop of str_replace; `done` is the string before `pos`, `rest` the string from `pos` on. -/
def strReplaceLoop (search replace : Bytes) : Nat → Bytes → Bytes → Bytes
  | 0, done, rest => done ++ rest
  | turns + 1, done, rest =>
      match find search rest with
      | none => done ++ rest
      | some pos =>
          strReplaceLoop search replace turns (done ++ rest.take pos ++ replace) (rest.drop (pos + search.length))

/-- Every turn takes some characters, as no call has an empty `search`. -/
def strReplace (s search replace : Bytes) : Bytes := strReplaceLoop search replace s.length [] s

/-- The calls of str_replace, in their order. -/
def restored (decode2 : Bytes) : Bytes :=
  hashReplacements.foldl (fun s (word, c) => strReplace s (hashText word) [byteOf c]) decode2

namespace SeededRand

def encodeDataSecurityEmailHash (g : SeededRand) (y : Bytes) : Except Failure Bytes := do
  let ret ← g.encodeDataSecurityEmail y
  intLoop ret.length
  g.encodeDataSecurityEmail (ret.flatMap hashOf)

def decodeDataSecurityEmailHash (g : SeededRand) (y : Bytes) : Except Failure Bytes := do
  let decode2 ← g.decodeDataSecurityEmail y
  g.decodeDataSecurityEmail (restored decode2)

end SeededRand

/-! ## The words -/

def hashNumbers : List Nat := hashReplacements.map Prod.fst

theorem length_hashText (number : Nat) : (hashText number).length = 64 := by
  rw [hashText, List.length_map, List.length_range]

theorem hashText_getElem? (number : Nat) {i : Nat} (inside : i < 64) :
    (hashText number)[i]? = some (hexChar (digitAt number i)) := by
  rw [hashText, List.getElem?_map, List.getElem?_range inside, Option.map_some]

theorem hexChar_injective {a b : Nat} (ofA : a < 16) (ofB : b < 16) (same : hexChar a = hexChar b) : a = b := by
  have codes := congrArg UInt8.toNat same
  rw [hexChar, hexChar, UInt8.toNat_ofNat', UInt8.toNat_ofNat'] at codes
  split at codes <;> split at codes <;> omega

theorem digitAt_lt (number i : Nat) : digitAt number i < 16 := Nat.mod_lt _ (by decide)

/-- The number of the `count` digits from `start` on -/
def digitsFrom (number start count : Nat) : Nat := number / 16 ^ (64 - start - count) % 16 ^ count

theorem digitsFrom_succ (number : Nat) {start count : Nat} (inside : start + count < 64) :
    digitsFrom number start (count + 1) = digitAt number (start + count) + 16 * digitsFrom number start count := by
  have split : number / 16 ^ (64 - start - (count + 1)) / 16 = number / 16 ^ (64 - start - count) := by
    rw [Nat.div_div_eq_div_mul, ← Nat.pow_succ]
    congr 2
    omega
  have place : 64 - start - (count + 1) = 63 - (start + count) := by omega
  rw [digitsFrom, Nat.pow_succ', Nat.mod_mul, split, place, digitAt, digitsFrom]

theorem digitsFrom_eq {v w start count : Nat} (inside : start + count ≤ 64)
    (same : ∀ i < count, digitAt v (start + i) = digitAt w i) : digitsFrom v start count = digitsFrom w 0 count := by
  induction count with
  | zero => rw [digitsFrom, digitsFrom, Nat.pow_zero, Nat.mod_one, Nat.mod_one]
  | succ count ih =>
      rw [digitsFrom_succ v (by omega), digitsFrom_succ w (by omega), same count (Nat.lt_succ_self count), Nat.zero_add,
        ih (by omega) fun i less => same i (Nat.lt_succ_of_lt less)]

theorem hashNumbers_lt : ∀ w ∈ hashNumbers, w < 16 ^ 58 := by decide

theorem digitAt_first {w i : Nat} (member : w ∈ hashNumbers) (early : i < 6) : digitAt w i = 0 := by
  have small : w < 16 ^ (63 - i) :=
    (hashNumbers_lt w member).trans_le (Nat.pow_le_pow_right (by decide) (by omega))
  rw [digitAt, Nat.div_eq_of_lt small, Nat.zero_mod]

theorem digitsFrom_first {w count : Nat} (member : w ∈ hashNumbers) (inside : count ≤ 64) :
    digitsFrom w 0 count < 16 ^ (count - 6) := by
  have places : 16 ^ 58 ≤ 16 ^ (64 - count) * 16 ^ (count - 6) := by
    rw [← pow_add]
    exact Nat.pow_le_pow_right (by decide) (by omega)
  exact (Nat.mod_le _ _).trans_lt (Nat.div_lt_of_lt_mul ((hashNumbers_lt w member).trans_le places))

theorem digitsFrom_later : ∀ v ∈ hashNumbers, ∀ start < 63, 0 < start →
    16 ^ (min 12 (64 - start) - 6) ≤ digitsFrom v start (min 12 (64 - start)) ∨
      ∀ w ∈ hashNumbers, digitsFrom v start (min 12 (64 - start)) ≠ digitsFrom w 0 (min 12 (64 - start)) := by
  decide +kernel

theorem hashNumbers_nodup : (hashNumbers.map (digitsFrom · 0 12)).Nodup := by decide +kernel

theorem hashText_injective {v w : Nat} (ofV : v ∈ hashNumbers) (ofW : w ∈ hashNumbers) (same : hashText v = hashText w) :
    v = w := by
  refine List.inj_on_of_nodup_map hashNumbers_nodup ofV ofW ?_
  refine digitsFrom_eq (by decide) fun i less => ?_
  have digit := congrArg (·[i]?) same
  rw [hashText_getElem? v (by omega), hashText_getElem? w (by omega), Option.some.injEq] at digit
  rw [Nat.zero_add]
  exact hexChar_injective (digitAt_lt v i) (digitAt_lt w i) digit

def hashWords : List Bytes := hashNumbers.map hashText

theorem hashWords_spaced : SpacedWords 0x30 6 64 hashWords where
  length w member := by
    obtain ⟨number, _, rfl⟩ := List.mem_map.mp member
    exact length_hashText number
  marked w member d early := by
    obtain ⟨number, inNumbers, rfl⟩ := List.mem_map.mp member
    rw [hashText_getElem? number (by omega), digitAt_first inNumbers early]
    rfl
  inside v ofV w ofW start later inside := by
    obtain ⟨numberV, inV, rfl⟩ := List.mem_map.mp ofV
    obtain ⟨numberW, inW, rfl⟩ := List.mem_map.mp ofW
    intro occurrence
    have same : digitsFrom numberV start (min 12 (64 - start)) = digitsFrom numberW 0 (min 12 (64 - start)) := by
      refine digitsFrom_eq (by omega) fun i less => ?_
      have digit := List.prefix_iff_getElem?.mp occurrence i (by rw [List.length_drop, length_hashText]; omega)
      rw [hashText_getElem? numberW (by omega), ← List.getElem?_eq_getElem, List.getElem?_drop,
        hashText_getElem? numberV (by omega), Option.some.injEq] at digit
      exact (hexChar_injective (digitAt_lt _ _) (digitAt_lt _ _) digit).symm
    rcases digitsFrom_later numberV inV start (by omega) later with large | apart
    · have small := digitsFrom_first inW (show min 12 (64 - start) ≤ 64 by omega)
      omega
    · exact apart numberW inW same
  run_lt := by decide

/-! ## The replacements -/

theorem strReplaceLoop_eq {search replace : Bytes} (some : search ≠ []) (turns : Nat) (done rest : Bytes)
    (enough : rest.length ≤ turns) :
    strReplaceLoop search replace turns done rest = done ++ replaceAll search replace rest := by
  induction turns generalizing done rest with
  | zero =>
      have empty : rest = [] := List.length_eq_zero_iff.mp (Nat.le_zero.mp enough)
      rw [strReplaceLoop, empty]
      rfl
  | succ turns ih =>
      rw [strReplaceLoop]
      cases found : find search rest with
      | none => rw [replaceAll_of_find_none found]
      | some pos =>
          have taken : 0 < search.length := List.length_pos_iff.mpr some
          have shorter : (rest.drop (pos + search.length)).length ≤ turns := by
            rw [List.length_drop]
            omega
          dsimp only
          rw [ih _ _ shorter, replaceAll_of_find_some some found, List.append_assoc, List.append_assoc,
            List.append_assoc]

theorem strReplace_eq {search : Bytes} (some : search ≠ []) (s replace : Bytes) :
    strReplace s search replace = replaceAll search replace s :=
  strReplaceLoop_eq some s.length [] s le_rfl

theorem hashText_ne_nil (number : Nat) : hashText number ≠ [] := by
  intro empty
  have length := length_hashText number
  rw [empty] at length
  cases length

theorem restored_eq (decode2 : Bytes) :
    restored decode2 = (hashReplacements.map fun pair => (hashText pair.1, byteOf pair.2)).foldl
      (fun text pair => replaceAll pair.1 [pair.2] text) decode2 := by
  rw [restored, List.foldl_map]
  congr 1
  funext text pair
  exact strReplace_eq (hashText_ne_nil pair.1) text [byteOf pair.2]

theorem hashCases_agree : ∀ hashCase ∈ hashCases, hashCase.1 ∈ hashReplacements.map Prod.snd ∧
    ∀ pair ∈ hashReplacements, hashCase.2 = pair.1 ↔ byteOf hashCase.1 = byteOf pair.2 := by
  decide +kernel

theorem hashOf_of_some {c : UInt8} (some : hashOf c ≠ []) :
    ∃ hashCase ∈ hashCases, byteOf hashCase.1 = c ∧ hashOf c = hashText hashCase.2 := by
  unfold hashOf at some ⊢
  split at some
  case h_1 char word found =>
    exact ⟨(char, word), List.mem_of_find?_eq_some found, by simpa using List.find?_some found, rfl⟩
  case h_2 => exact absurd rfl some

theorem hashCases_mem {hashCase : Char × Nat} (member : hashCase ∈ hashCases) :
    (hashCase.2, hashCase.1) ∈ hashReplacements := by
  obtain ⟨known, agree⟩ := hashCases_agree hashCase member
  obtain ⟨pair, replaced, same⟩ := List.mem_map.mp known
  have word := (agree pair replaced).mpr (by rw [same])
  rwa [word, ← same]

theorem hashOf_mem {c : UInt8} (some : hashOf c ≠ []) : hashOf c ∈ hashWords := by
  obtain ⟨hashCase, member, _, word⟩ := hashOf_of_some some
  rw [word]
  exact List.mem_map_of_mem (List.mem_map_of_mem (hashCases_mem member))

theorem hashOf_eq_iff {c : UInt8} (some : hashOf c ≠ []) {pair : Nat × Char} (member : pair ∈ hashReplacements) :
    hashOf c = hashText pair.1 ↔ c = byteOf pair.2 := by
  obtain ⟨hashCase, inCases, rfl, word⟩ := hashOf_of_some some
  have ofCase : hashCase.2 ∈ hashNumbers := List.mem_map_of_mem (hashCases_mem inCases)
  have ofPair : pair.1 ∈ hashNumbers := List.mem_map_of_mem member
  rw [word, ← (hashCases_agree hashCase inCases).2 pair member]
  exact ⟨hashText_injective ofCase ofPair, congrArg hashText⟩

theorem hashOf_known {c : UInt8} (some : hashOf c ≠ []) :
    c ∈ (hashReplacements.map fun pair => (hashText pair.1, byteOf pair.2)).map Prod.snd := by
  obtain ⟨hashCase, inCases, rfl, _⟩ := hashOf_of_some some
  rw [List.map_map]
  exact List.mem_map_of_mem (f := fun pair : Nat × Char => byteOf pair.2) (hashCases_mem inCases)

/-- The words of a text without long runs of zeros are replaced by the text; the part of a word after it stays. -/
theorem restored_flatMap {s tail : Bytes} (each : ∀ c ∈ s, hashOf c ≠ []) (cut : ∃ v ∈ hashWords, tail <+: v)
    (short : tail.length < 64) (few : ∀ t, t <:+ s → 1 + markers 0x30 t < 6) :
    restored (s.flatMap hashOf ++ tail) = s ++ tail := by
  have start : s.flatMap hashOf = rendered hashOf [] s :=
    List.flatMap_congr fun c _ => (if_neg List.not_mem_nil).symm
  rw [restored_eq, start]
  refine hashWords_spaced.foldl_replaceAll (fun c member => hashOf_mem (each c member)) cut short few ?_ ?_ ?_
  · intro pair member
    obtain ⟨replacement, replaced, rfl⟩ := List.mem_map.mp member
    exact List.mem_map_of_mem (List.mem_map_of_mem replaced)
  · intro pair member c inText
    obtain ⟨replacement, replaced, rfl⟩ := List.mem_map.mp member
    exact hashOf_eq_iff (each c inText) replaced
  · intro c inText
    exact .inr (hashOf_known (each c inText))

/-! ## The texts of the inner encoder -/

theorem quad_lt (a b c : UInt8) : ∀ digit ∈ quad a.toNat b.toNat c.toNat, digit < 64 := by
  intro digit member
  have ofA := a.toNat_lt
  have ofB := b.toNat_lt
  have ofC := c.toNat_lt
  simp only [quad, List.mem_cons, List.not_mem_nil, or_false] at member
  omega

theorem quad_text_mem (a b c : UInt8) {char : UInt8}
    (member : char ∈ (quad a.toNat b.toNat c.toNat).map (pbase64.getD · 0)) : ∃ digit < 64, pbase64.getD digit 0 = char := by
  obtain ⟨digit, inside, same⟩ := List.mem_map.mp member
  exact ⟨digit, quad_lt a b c digit inside, same⟩

theorem base64Text_mem (x : Bytes) : ∀ c ∈ base64Text x, c = padChar ∨ ∃ digit < 64, pbase64.getD digit 0 = c := by
  induction x using base64Text.induct with
  | case1 a b c rest ih =>
      intro char member
      rw [base64Text] at member
      rcases List.mem_append.mp member with member | member
      · exact .inr (quad_text_mem a b c member)
      · exact ih char member
  | case2 a b =>
      intro char member
      rw [base64Text, List.map_take] at member
      rcases List.mem_append.mp member with member | member
      · exact .inr (quad_text_mem a b 0 (List.mem_of_mem_take member))
      · exact .inl (List.mem_singleton.mp member)
  | case3 a =>
      intro char member
      rw [base64Text, List.map_take] at member
      rcases List.mem_append.mp member with member | member
      · exact .inr (quad_text_mem a 0 0 (List.mem_of_mem_take member))
      · exact .inl (List.eq_of_mem_replicate (n := 2) member)
  | case4 => exact List.forall_mem_nil _

theorem base64Text_lt (x : Bytes) : ∀ c ∈ base64Text x, c < 128 := by
  have all : ∀ digit < 64, pbase64.getD digit 0 < 128 := by decide +kernel
  intro c member
  rcases base64Text_mem x c member with rfl | ⟨digit, small, rfl⟩
  · decide
  · exact all digit small

theorem pbase64_letter : ∀ digit < 32, pbase64.getD digit 0 ≠ 0x30 := by decide

/-- The characters that the switch leaves out -/
def Unhashed (c : UInt8) : Prop := c = 0x2b ∨ c = 0x2f ∨ c = padChar

instance (c : UInt8) : Decidable (Unhashed c) := inferInstanceAs (Decidable (_ ∨ _ ∨ _))

theorem hashOf_eq_nil {c : UInt8} (left : Unhashed c) : hashOf c = [] := by
  rcases left with rfl | rfl | rfl <;> rfl

theorem hashOf_ne_nil {x : Bytes} {c : UInt8} (member : c ∈ base64Text x) (hashed : ¬ Unhashed c) : hashOf c ≠ [] := by
  have all : ∀ digit < 64, Unhashed (pbase64.getD digit 0) ∨
      hashCases.any (fun hashCase => byteOf hashCase.1 = pbase64.getD digit 0) = true := by
    decide +kernel
  rcases base64Text_mem x c member with rfl | ⟨digit, small, rfl⟩
  · exact absurd (.inr (.inr rfl)) hashed
  · have found := (all digit small).resolve_left hashed
    unfold hashOf
    split
    case h_1 char word _ => exact hashText_ne_nil word
    case h_2 none =>
      rw [List.find?_eq_none] at none
      obtain ⟨hashCase, inCases, same⟩ := List.any_eq_true.mp found
      exact absurd same (none hashCase inCases)

theorem xorTable_lt {s table : Bytes} (ofText : ∀ c ∈ s, c < 128) (ofTable : ∀ t ∈ table, t < 128) :
    ∀ c ∈ xorTable s table, c < 128 := by
  induction s generalizing table with
  | nil => exact List.forall_mem_nil _
  | cons c s ih =>
      cases table with
      | nil => exact ofText
      | cons t table =>
          have first : c ^^^ t < 128 := by
            have ofC := ofText c List.mem_cons_self
            have ofT := ofTable t List.mem_cons_self
            rw [UInt8.lt_iff_toNat_lt] at ofC ofT ⊢
            rw [UInt8.toNat_xor]
            exact Nat.xor_lt_two_pow (n := 7) ofC ofT
          have rest := ih (fun c' member => ofText c' (List.mem_cons_of_mem c member))
            fun t' member => ofTable t' (List.mem_cons_of_mem t member)
          rw [xorTable]
          exact List.forall_mem_cons.mpr ⟨first, rest⟩

theorem markers_base64Text {x : Bytes} (small : ∀ c ∈ x, c < 128) : markers 0x30 (base64Text x) = 0 := by
  have first {a b c : UInt8} (ofA : a < 128) (rest : Bytes) :
      markers 0x30 (pbase64.getD (a.toNat / 4) 0 :: rest) = 0 := by
    have index : a.toNat / 4 < 32 := by
      rw [UInt8.lt_iff_toNat_lt] at ofA
      exact Nat.div_lt_of_lt_mul ofA
    rw [markers, List.takeWhile_cons_of_neg (by simpa using pbase64_letter _ index)]
    rfl
  rcases x with _ | ⟨a, _ | ⟨b, _ | ⟨c, rest⟩⟩⟩
  · rfl
  · exact first (b := 0) (c := 0) (small a (by simp)) _
  · exact first (b := b) (c := 0) (small a (by simp)) _
  · exact first (b := b) (c := c) (small a (by simp)) _

theorem markers_append_le (s : Bytes) {rest : Bytes} (none : markers 0x30 rest = 0) :
    markers 0x30 (s ++ rest) ≤ s.length := by
  induction s with
  | nil => exact none.le
  | cons c s ih =>
      rw [List.cons_append, markers]
      by_cases zero : c = 0x30
      · rw [List.takeWhile_cons_of_pos (by simpa using zero), List.length_cons, List.length_cons]
        exact Nat.succ_le_succ ih
      · rw [List.takeWhile_cons_of_neg (by simpa using zero)]
        exact Nat.zero_le _

theorem markers_le_length (s : Bytes) : markers 0x30 s ≤ s.length := (List.takeWhile_sublist _).length_le

theorem markers_suffix_short {x t : Bytes} (small : ∀ c ∈ x, c < 128) (short : (base64Text x).length ≤ 4)
    (suffix : t <:+ base64Text x) : markers 0x30 t ≤ 3 := by
  have le := suffix.length_le
  by_cases whole : t.length = (base64Text x).length
  · rw [suffix.eq_of_length whole, markers_base64Text small]
    exact Nat.zero_le 3
  · have few := markers_le_length t
    omega

theorem markers_suffix {x t : Bytes} (small : ∀ c ∈ x, c < 128) (suffix : t <:+ base64Text x) : markers 0x30 t ≤ 3 := by
  induction x using base64Text.induct with
  | case1 a b c rest ih =>
      have smallRest : ∀ c ∈ rest, c < 128 := fun c' member => small c' (by simp [member])
      by_cases short : t.length ≤ (base64Text rest).length
      · have inRest : t <:+ base64Text rest :=
          List.suffix_of_suffix_length_le suffix (List.suffix_append _ _) short
        exact ih smallRest inRest
      · by_cases whole : t = base64Text (a :: b :: c :: rest)
        · rw [whole, markers_base64Text small]
          exact Nat.zero_le 3
        · obtain ⟨front, same⟩ := List.suffix_of_suffix_length_le (List.suffix_append _ (base64Text rest)) suffix (by omega)
          have le := suffix.length_le
          have strict : t.length ≠ (base64Text (a :: b :: c :: rest)).length :=
            fun equal => whole (suffix.eq_of_length equal)
          have few : front.length ≤ 3 := by
            rw [← same, length_base64Text, List.length_append, length_base64Text] at le strict
            simp only [base64Length, List.length_cons] at le strict
            omega
          rw [← same]
          exact (markers_append_le front (markers_base64Text smallRest)).trans few
  | case2 a b => exact markers_suffix_short small (by simp [base64Text, quad]) suffix
  | case3 a => exact markers_suffix_short small (by simp [base64Text, quad]) suffix
  | case4 => exact markers_suffix_short small (by simp [base64Text]) suffix

theorem markers_le_append (s rest : Bytes) : markers 0x30 s ≤ markers 0x30 (s ++ rest) := by
  induction s with
  | nil => exact Nat.zero_le _
  | cons c s ih =>
      rw [List.cons_append, markers, markers]
      by_cases zero : c = 0x30
      · rw [List.takeWhile_cons_of_pos (by simpa using zero), List.takeWhile_cons_of_pos (by simpa using zero)]
        exact Nat.succ_le_succ ih
      · rw [List.takeWhile_cons_of_neg (by simpa using zero)]
        exact Nat.zero_le _

theorem length_flatMap_hashOf {s : Bytes} (each : ∀ c ∈ s, hashOf c ≠ []) :
    (s.flatMap hashOf).length = 64 * s.length := by
  rw [List.length_flatMap, List.map_congr_left fun c member => hashWords_spaced.length _ (hashOf_mem (each c member))]
  simp [Nat.mul_comm]

/-- A front of the substituted text is read as a front of the text, but for a part of one word. -/
theorem restored_front {x text : Bytes} (small : ∀ c ∈ x, c < 128) (hashed : ∀ c ∈ base64Text x, hashOf c ≠ [])
    (front : text <+: (base64Text x).flatMap hashOf) :
    64 * (restored text).length ≤ text.length + 64 * 63 := by
  have some : ∃ v, v ∈ hashWords := ⟨_, List.mem_cons_self⟩
  obtain ⟨read, tail, prefixed, rfl, short, cut⟩ :=
    hashWords_spaced.exists_cut (fun c member => hashOf_mem (hashed c member)) some front
  have each : ∀ c ∈ read, hashOf c ≠ [] := fun c member => hashed c (prefixed.subset member)
  have few (t : Bytes) (suffix : t <:+ read) : 1 + markers 0x30 t < 6 := by
    obtain ⟨more, whole⟩ := prefixed
    obtain ⟨start, parts⟩ := suffix
    have bound := markers_suffix small (t := t ++ more) ⟨start, by rw [← List.append_assoc, parts, whole]⟩
    have le := markers_le_append t more
    omega
  rw [restored_flatMap each cut short few, List.length_append, List.length_append, length_flatMap_hashOf each]
  omega

theorem restored_whole {x : Bytes} (small : ∀ c ∈ x, c < 128) (hashed : ∀ c ∈ base64Text x, hashOf c ≠ []) :
    restored ((base64Text x).flatMap hashOf) = base64Text x := by
  have some : ∃ v ∈ hashWords, ([] : Bytes) <+: v := ⟨_, List.mem_cons_self, List.nil_prefix⟩
  have few (t : Bytes) (suffix : t <:+ base64Text x) : 1 + markers 0x30 t < 6 := by
    have bound := markers_suffix small suffix
    omega
  have back := restored_flatMap hashed some (by decide) few
  rwa [List.append_nil, List.append_nil] at back

theorem restored_hashOf {c : UInt8} (some : hashOf c ≠ []) : restored (hashOf c) = [c] := by
  have few (t : Bytes) (suffix : t <:+ [c]) : 1 + markers 0x30 t < 6 := by
    have bound := markers_le_length t
    have le := suffix.length_le
    rw [List.length_singleton] at le
    omega
  have back := restored_flatMap (s := [c]) (List.forall_mem_singleton.mpr some)
    ⟨_, List.mem_cons_self, List.nil_prefix⟩ (show ([] : Bytes).length < 64 by decide) few
  rwa [List.append_nil, List.append_nil, List.flatMap_singleton] at back

theorem length_hashes {x : Bytes} (hashed : ∀ c ∈ base64Text x, hashOf c ≠ []) :
    ((base64Text x).flatMap hashOf).length = 64 * base64Length x.length := by
  rw [length_flatMap_hashOf hashed, length_base64Text]

/-! ## The round trip -/

namespace SeededRand

variable {g : SeededRand}

theorem tableFrom_lt (count called : Nat) : ∀ t ∈ g.tableFrom count called, t < 128 := by
  induction count generalizing called with
  | zero => exact List.forall_mem_nil _
  | succ count ih =>
      have first : UInt8.ofNat (g.rand (g.accepted called) % 127) < 128 := by
        have small : g.rand (g.accepted called) % 127 < 127 := Nat.mod_lt _ (by decide)
        have byte : g.rand (g.accepted called) % 127 < 256 := small.trans (by decide)
        rw [UInt8.lt_iff_toNat_lt, UInt8.toNat_ofNat_of_lt' byte]
        exact small.trans (show 127 < 128 by decide)
      rw [tableFrom]
      exact List.forall_mem_cons.mpr ⟨first, ih _⟩

theorem masked_lt (x : Bytes) : ∀ c ∈ g.masked x, c < 128 := xorTable_lt (base64Text_lt x) (tableFrom_lt _ _)

theorem encodeDataSecurityEmail_eq {y ret : Bytes} (run : g.encodeDataSecurityEmail y = .ok ret)
    (short : ret.length < 2 ^ 31) :
    ret = base64Text (g.masked ((fourLayers y).take (emailLength y.length % 2 ^ 32))) := by
  simp only [encodeDataSecurityEmail, bind_eq_ok, pure_eq_ok] at run
  obtain ⟨encode, security, rfl⟩ := run
  have length := length_encodeSecurity security
  have fits := base64Length_le encode.length
  rw [length_encodeBase64] at short
  rw [encodeSecurity_eq (by omega), length_encodeBase64, length_encodeBase64, length_encodeBase64,
    length_encodeBase64] at security
  cases security
  exact encodeBase64_eq _

theorem encodeDataSecurityEmail_of_lt {y : Bytes} (short : base64Length (emailLength y.length) < 2 ^ 31) :
    g.encodeDataSecurityEmail y = .ok (base64Text (g.masked (fourLayers y))) := by
  have le := base64Length_le (emailLength y.length)
  have whole : (fourLayers y).length % 2 ^ 32 = (fourLayers y).length := by
    rw [length_fourLayers]
    exact Nat.mod_eq_of_lt (by omega)
  have security : g.encodeSecurity (fourLayers y) (fourLayers y).length =
      .ok (g.masked ((fourLayers y).take (fourLayers y).length)) :=
    encodeSecurity_eq (by rwa [List.take_length, length_fourLayers])
  rw [List.take_length] at security
  rw [encodeDataSecurityEmail, ← fourLayers, whole, security, ← encodeBase64_eq]
  rfl

theorem length_decodeBase64DataLight {s z : Bytes} (run : decodeBase64DataLight s = .ok z) :
    4 * z.length ≤ 3 * s.length := by
  have read := (decodeBase64DataLight_eq_ok.mp run).2
  have le := length_light s
  rw [read]
  omega

theorem length_decodeSecurity {s z : Bytes} (run : g.decodeSecurity s = .ok z) : 4 * z.length ≤ 3 * s.length := by
  simp only [decodeSecurity, bind_eq_ok, pure_eq_ok, base64Decode_eq] at run
  obtain ⟨table, _, _, _, read⟩ := run
  have le := length_light (xorTable s table)
  rw [length_xorTable] at le
  rw [← read]
  change 4 * (light (xorTable s table)).length ≤ _
  omega

theorem length_decodeDataSecurityEmail {s z : Bytes} (run : g.decodeDataSecurityEmail s = .ok z) :
    4096 * z.length ≤ 729 * s.length := by
  simp only [decodeDataSecurityEmail, bind_eq_ok] at run
  obtain ⟨str, outer, str2, security, a, one, b, two, c, three, four⟩ := run
  have ofStr := length_decodeBase64DataLight outer
  have ofStr2 := length_decodeSecurity security
  have ofA := length_decodeBase64DataLight one
  have ofB := length_decodeBase64DataLight two
  have ofC := length_decodeBase64DataLight three
  have ofZ := length_decodeBase64DataLight four
  omega

/-- How many characters the encoder masks for `count` bytes, the second time. -/
def hashLength (count : Nat) : Nat := base64Length (emailLength (64 * base64Length (base64Length (emailLength count))))

/-- What the codec promises for a byte string. -/
structure HashRoundTrips (g : SeededRand) (y : Bytes) : Prop where
  returns : g.encodeDataSecurityEmailHash y >>= g.decodeDataSecurityEmailHash = .ok y
  /-- Every character of the inner encoder has a hash, which is replaced by the character. -/
  mapped : ∀ ret, g.encodeDataSecurityEmail y = .ok ret → ∀ c ∈ ret, hashOf c ≠ [] ∧ restored (hashOf c) = [c]
  /-- Different characters of the inner encoder have different hashes. -/
  distinct : ∀ ret, g.encodeDataSecurityEmail y = .ok ret → ∀ c ∈ ret, ∀ c' ∈ ret, hashOf c = hashOf c' → c = c'

theorem emailHash_eq_ok {y z : Bytes} :
    g.encodeDataSecurityEmailHash y >>= g.decodeDataSecurityEmailHash = .ok z ↔
      ∃ ret, g.encodeDataSecurityEmail y = .ok ret ∧ ret.length < 2 ^ 31 ∧ ∃ decode2,
        g.encodeDataSecurityEmail (ret.flatMap hashOf) >>= g.decodeDataSecurityEmail = .ok decode2 ∧
          g.decodeDataSecurityEmail (restored decode2) = .ok z := by
  have steps : g.encodeDataSecurityEmailHash y >>= g.decodeDataSecurityEmailHash = (do
      let ret ← g.encodeDataSecurityEmail y
      intLoop ret.length
      let decode2 ← g.encodeDataSecurityEmail (ret.flatMap hashOf) >>= g.decodeDataSecurityEmail
      g.decodeDataSecurityEmail (restored decode2)) := by
    simp only [encodeDataSecurityEmailHash, bind_assoc]
    rfl
  rw [steps]
  simp only [bind_eq_ok, intLoop_eq_ok, exists_const]

theorem hashes_fit {count : Nat} (short : hashLength count < 2 ^ 31) :
    base64Length (base64Length (emailLength count)) < 2 ^ 31 := by
  have email (count : Nat) : count ≤ emailLength count :=
    (base64Length_le _).trans ((base64Length_le _).trans ((base64Length_le _).trans (base64Length_le _)))
  have outer := email (64 * base64Length (base64Length (emailLength count)))
  have room := base64Length_le (emailLength (64 * base64Length (base64Length (emailLength count))))
  rw [hashLength] at short
  omega

theorem emailLength_lt_of_hashLength {count : Nat} (short : hashLength count < 2 ^ 31) :
    base64Length (emailLength count) < 2 ^ 31 := by
  have fits := hashes_fit short
  have room := base64Length_le (base64Length (emailLength count))
  omega

theorem emailHash_returns {y : Bytes} (short : hashLength y.length < 2 ^ 31)
    (hashed : ∀ c ∈ base64Text (g.masked (fourLayers y)), hashOf c ≠ []) :
    g.encodeDataSecurityEmailHash y >>= g.decodeDataSecurityEmailHash = .ok y := by
  have length : (g.masked (fourLayers y)).length = base64Length (emailLength y.length) := by
    rw [length_masked, length_fourLayers]
  have second : base64Length (emailLength ((base64Text (g.masked (fourLayers y))).flatMap hashOf).length) < 2 ^ 31 := by
    rwa [length_hashes hashed, length]
  have fits := hashes_fit short
  have first := emailLength_lt_of_hashLength short
  have encoded := encodeDataSecurityEmail_of_lt (g := g) first
  have back := (dataSecurityEmail_round_trips (g := g)).mpr first
  rw [encoded, ok_bind] at back
  have hashes := (dataSecurityEmail_round_trips (g := g)).mpr second
  rw [← restored_whole (masked_lt _) hashed] at back
  rw [← length, ← length_base64Text] at fits
  exact emailHash_eq_ok.mpr ⟨_, encoded, fits, _, hashes, back⟩

theorem hashLength_lt_of_read {count decoded read : Nat}
    (ret : base64Length (base64Length (emailLength count % 2 ^ 32)) < 2 ^ 31)
    (hashes : base64Length
      (emailLength (64 * base64Length (base64Length (emailLength count % 2 ^ 32))) % 2 ^ 32) < 2 ^ 31)
    (ofHashes : 256 * decoded ≤ 81 * (emailLength (64 * base64Length (base64Length (emailLength count % 2 ^ 32))) % 2 ^ 32))
    (atMost : decoded ≤ 64 * base64Length (base64Length (emailLength count % 2 ^ 32)))
    (ofDecoded : 64 * read ≤ decoded + 64 * 63) (ofRead : 4096 * count ≤ 729 * read) : hashLength count < 2 ^ 31 := by
  have first := emailLength_le count
  have second := emailLength_le (64 * base64Length (base64Length (emailLength count % 2 ^ 32)))
  have outer (n : Nat) : 9 * base64Length (base64Length n) ≤ 16 * n + 96 := by
    simp only [base64Length]
    omega
  have ret' := outer (emailLength count % 2 ^ 32)
  have narrow : emailLength count < 2 ^ 32 := by omega
  rw [Nat.mod_eq_of_lt narrow] at *
  have narrow' : emailLength (64 * base64Length (base64Length (emailLength count))) < 2 ^ 32 := by
    rw [base64Length] at hashes
    omega
  rwa [Nat.mod_eq_of_lt narrow'] at hashes

theorem hashLength_lt {y : Bytes} (run : g.encodeDataSecurityEmailHash y >>= g.decodeDataSecurityEmailHash = .ok y)
    (hashed : ∀ ret, g.encodeDataSecurityEmail y = .ok ret → ∀ c ∈ ret, hashOf c ≠ []) :
    hashLength y.length < 2 ^ 31 := by
  obtain ⟨ret, encoded, fits, decode2, middle, last⟩ := emailHash_eq_ok.mp run
  have each := hashed ret encoded
  have text := encodeDataSecurityEmail_eq encoded fits
  have small := masked_lt (g := g) ((fourLayers y).take (emailLength y.length % 2 ^ 32))
  have length := length_masked (g := g) ((fourLayers y).take (emailLength y.length % 2 ^ 32))
  generalize g.masked ((fourLayers y).take (emailLength y.length % 2 ^ 32)) = x at text small length
  subst text
  have taken (count : Nat) : min (count % 2 ^ 32) count = count % 2 ^ 32 := Nat.min_eq_left (Nat.mod_le count _)
  rw [List.length_take, length_fourLayers, taken] at length
  have lengths := length_hashes each
  rw [length] at lengths
  obtain ⟨short, whole⟩ := dataSecurityEmail_eq_ok.mp middle
  have front : decode2 <+: (base64Text x).flatMap hashOf := by
    rw [whole]
    exact (fourLight_front (List.take_prefix _ _)).trans (by rw [fourLight_fourLayers])
  have cut := length_fourLight
    ((fourLayers ((base64Text x).flatMap hashOf)).take (emailLength ((base64Text x).flatMap hashOf).length % 2 ^ 32))
  have atMost := front.length_le
  have ofDecoded := restored_front small each front
  have ofRead := length_decodeDataSecurityEmail last
  rw [← whole, List.length_take, length_fourLayers, taken, lengths] at cut
  rw [List.length_take, length_fourLayers, taken, lengths] at short
  rw [length_base64Text, length] at fits
  rw [lengths] at atMost
  exact hashLength_lt_of_read fits short cut atMost ofDecoded ofRead

/-- The codec gives back a byte string, each character by its own hash, exactly if the sizes fit into an `int` and
the inner encoder uses no character that the switch leaves out. -/
theorem email_hash_round_trip_iff (g : SeededRand) (y : Bytes) :
    HashRoundTrips g y ↔
      hashLength y.length < 2 ^ 31 ∧ ∀ ret, g.encodeDataSecurityEmail y = .ok ret → ∀ c ∈ ret, ¬ Unhashed c := by
  constructor
  · intro codec
    have hashed (ret : Bytes) (encoded : g.encodeDataSecurityEmail y = .ok ret) (c : UInt8) (member : c ∈ ret) :
        hashOf c ≠ [] := (codec.mapped ret encoded c member).1
    exact ⟨hashLength_lt codec.returns hashed,
      fun ret encoded c member left => hashed ret encoded c member (hashOf_eq_nil left)⟩
  · intro ⟨short, plain⟩
    have first : base64Length (emailLength y.length) < 2 ^ 31 := emailLength_lt_of_hashLength short
    have encoded := encodeDataSecurityEmail_of_lt (g := g) first
    have hashed : ∀ c ∈ base64Text (g.masked (fourLayers y)), hashOf c ≠ [] :=
      fun c member => hashOf_ne_nil member (plain _ encoded c member)
    have back (ret : Bytes) (run : g.encodeDataSecurityEmail y = .ok ret) (c : UInt8) (member : c ∈ ret) :
        hashOf c ≠ [] ∧ restored (hashOf c) = [c] := by
      rw [encoded] at run
      cases run
      exact ⟨hashed c member, restored_hashOf (hashed c member)⟩
    refine ⟨emailHash_returns short hashed, back, fun ret run c member c' member' same => ?_⟩
    have equal := (back ret run c member).2.symm.trans ((congrArg restored same).trans (back ret run c' member').2)
    exact List.singleton_injective equal

theorem accepted_self {called : Nat} (here : 1 < g.rand called % 127) : g.accepted called = called := by
  rw [accepted, Nat.find_eq_iff]
  exact ⟨⟨le_rfl, here⟩, fun call less found => absurd found.1 (Nat.not_le_of_lt less)⟩

theorem accepted_succ {called : Nat} (rejected : ¬ 1 < g.rand called % 127) :
    g.accepted called = g.accepted (called + 1) := by
  obtain ⟨later, found⟩ := Nat.find_spec (g.supplies (called + 1))
  rw [accepted, Nat.find_eq_iff]
  refine ⟨⟨(Nat.le_succ called).trans later, found⟩, fun call less early => ?_⟩
  rcases Nat.eq_or_lt_of_le early.1 with rfl | after
  · exact rejected early.2
  · exact Nat.find_min (g.supplies (called + 1)) less ⟨after, early.2⟩

theorem tableFrom_ofValues (values : List Nat) (count called : Nat)
    (enough : count ≤ (((values.drop called).map (· % 127)).filter (1 < ·)).length) :
    (ofValues values).tableFrom count called =
      ((((values.drop called).map (· % 127)).filter (1 < ·)).take count).map UInt8.ofNat := by
  generalize left : values.drop called = rest at enough ⊢
  induction rest generalizing count called with
  | nil =>
      obtain rfl : count = 0 := Nat.le_zero.mp enough
      rfl
  | cons value rest ih =>
      have next : values.drop (called + 1) = rest := by
        rw [← List.tail_drop, left, List.tail_cons]
      have here : (ofValues values).rand called = value := by
        have found : values[called]? = some value := by
          rw [← List.head?_drop, left, List.head?_cons]
        change values.getD called 2 = value
        rw [List.getD_eq_getElem?_getD, found, Option.getD_some]
      cases count with
      | zero => rfl
      | succ count =>
          by_cases taken : 1 < value % 127
          · rw [List.map_cons, List.filter_cons_of_pos (by simpa using taken), List.length_cons] at enough
            rw [List.map_cons, List.filter_cons_of_pos (by simpa using taken), List.take_succ_cons, List.map_cons,
              tableFrom, accepted_self (by rwa [here]), here, ih _ _ next (Nat.le_of_succ_le_succ enough)]
          · rw [List.map_cons, List.filter_cons_of_neg (by simpa using taken)] at enough ⊢
            rw [← ih _ _ next enough, tableFrom, tableFrom, accepted_succ (by rwa [here])]

theorem decodeDataSecurityEmail_of_lt {s : Bytes} (short : s.length < 2 ^ 31) :
    g.decodeDataSecurityEmail s = .ok (fourLight (light (xorTable (light s) (g.tableFrom (light s).length 0)))) := by
  have outer := length_light s
  have inner := length_light (xorTable (light s) (g.tableFrom (light s).length 0))
  rw [length_xorTable] at inner
  have copy : decodeBase64DataLight s = .ok (light s) := decodeBase64DataLight_eq_ok.mpr ⟨by omega, rfl⟩
  have whole : (light s).length % 2 ^ 32 = (light s).length := Nat.mod_eq_of_lt (by omega)
  have table := (encodedTable_eq_ok (g := g)).mpr ⟨show (light s).length < 2 ^ 31 by omega, rfl⟩
  have security : g.decodeSecurity (light s) = .ok (light (xorTable (light s) (g.tableFrom (light s).length 0))) := by
    rw [decodeSecurity, whole, table, ok_bind]
    dsimp only
    rw [length_xorTable, intLoop_of_lt (by omega), ok_bind, base64Decode_eq]
    rfl
  rw [decodeDataSecurityEmail, copy, ok_bind, security, ok_bind]
  exact (four_eq_ok (by omega)).mpr rfl

theorem flatMap_hashOf (s : Bytes) : s.flatMap hashOf = (s.filter fun c => ¬ Unhashed c).flatMap hashOf := by
  induction s with
  | nil => rfl
  | cons c s ih =>
      rw [List.flatMap_cons, ih]
      by_cases left : Unhashed c
      · rw [hashOf_eq_nil left, List.filter_cons_of_neg (by simpa using left), List.nil_append]
      · rw [List.filter_cons_of_pos (by simpa using left), List.flatMap_cons]

/-- `"nhxlmywdwptm"` as the inner encoder writes it, without the `'/'` in it -/
def lostEnd : Bytes := ascii "DDFWAEIte0w9DFxrB0BhJmgfemNkHj11DV97XipBTUVKPEtBYAVxOHQvQANSQT19OilS3tMIk0qKwUx"

/-- A character that the inner encoder uses has no hash, and the end of the text is lost with it. -/
theorem email_hash_lost_end :
    ∃ y z, gnu.encodeDataSecurityEmailHash y >>= gnu.decodeDataSecurityEmailHash = .ok z ∧ z ≠ y := by
  refine ⟨ascii "nhxlmywdwptm", ascii "nhxlmywdwpt", ?_, by decide +kernel⟩
  have encoded : gnu.encodeDataSecurityEmail (ascii "nhxlmywdwptm") =
      .ok (ascii "DDFWAEIte0w9DFxrB0BhJmgfemNkHj11DV97XipBTUVKPEtBYAVxOHQvQANSQT19Oil/S3tMIk0qKwUx") := by
    have text := encodeDataSecurityEmail_of_lt (g := gnu) (y := ascii "nhxlmywdwptm") (by decide +kernel)
    have length : (fourLayers (ascii "nhxlmywdwptm")).length = 44 := by decide +kernel
    have table := tableFrom_ofValues gnuValues 60 0 (by decide +kernel)
    rw [text, masked, length, show base64Length 44 = 60 from rfl, gnu, table]
    decide +kernel
  have hashed : ∀ c ∈ lostEnd, hashOf c ≠ [] := by decide +kernel
  have few (t : Bytes) (suffix : t <:+ lostEnd) : 1 + markers 0x30 t < 6 := by
    have all : ∀ t ∈ lostEnd.tails, 1 + markers 0x30 t < 6 := by decide +kernel
    exact all t ((List.mem_tails t lostEnd).mpr suffix)
  have back := restored_flatMap hashed ⟨_, List.mem_cons_self, List.nil_prefix⟩
    (show ([] : Bytes).length < 64 by decide) few
  rw [List.append_nil, List.append_nil] at back
  have kept : (ascii "DDFWAEIte0w9DFxrB0BhJmgfemNkHj11DV97XipBTUVKPEtBYAVxOHQvQANSQT19Oil/S3tMIk0qKwUx").filter
      (fun c => ¬ Unhashed c) = lostEnd := by
    decide +kernel
  have fits : base64Length (emailLength (lostEnd.flatMap hashOf).length) < 2 ^ 31 := by
    rw [length_flatMap_hashOf hashed]
    decide +kernel
  refine emailHash_eq_ok.mpr ⟨_, encoded, by decide +kernel, lostEnd.flatMap hashOf, ?_, ?_⟩
  · rw [flatMap_hashOf, kept]
    exact dataSecurityEmail_round_trips.mpr fits
  · have table := tableFrom_ofValues gnuValues 59 0 (by decide +kernel)
    have length : (light lostEnd).length = 59 := by decide +kernel
    rw [back, decodeDataSecurityEmail_of_lt (by decide +kernel), length, gnu, table]
    decide +kernel

end SeededRand

end BitCrystal
