import BitCrystal.BaseRoundTrips
import BitCrystal.MoneyText
import BitCrystal.NetAddr

namespace BitCrystal

open Data

/-! # Host and port -/

/-! ## strtol -/

def takeSign : List Char → Bool × List Char
  | '-' :: rest => (true, rest)
  | '+' :: rest => (false, rest)
  | rest => (false, rest)

/-- The number at the start of a text and what follows it, if a conversion can be made. -/
def scanDecimal (str : List Char) : Option (Int × List Char) :=
  let (negative, body) := takeSign (str.dropWhile isSpace)
  let digits := body.takeWhile Char.isDigit
  if digits = [] then none
  else
    let value : Int := Nat.ofDigitChars 10 digits 0
    some (if negative then -value else value, body.dropWhile Char.isDigit)

/-- `strtol(str, &endp, 10)` with a `long` of 64 bits, and what `endp` points to. -/
def strtol (str : List Char) : Int × List Char :=
  match scanDecimal str with
  | none => (0, str)
  | some (value, rest) => (max (-2 ^ 63) (min (2 ^ 63 - 1) value), rest)

/-! ## SplitHostPort -/

/-- `str.find_last_of(c)` -/
def findLastOf (c : Char) : List Char → Option Nat
  | [] => none
  | first :: rest =>
      match findLastOf c rest with
      | some place => some (place + 1)
      | none => if first = c then some 0 else none

/-- Without one pair of enclosing brackets. -/
def unbracket (str : List Char) : List Char :=
  if str.head? = some '[' ∧ str.getLast? = some ']' then (str.drop 1).take (str.length - 2) else str

/-- The text after the colon as an `int` that is not negative, when strtol reads all of it. -/
def readPort (str : List Char) : Option Int :=
  let (value, endp) := strtol (cString str)
  let n := value.bmod (2 ^ 32)
  if endp = [] ∧ 0 ≤ n then some n else none

/-- `portOut` and `hostOut`; the former comes with a value. -/
def splitHostPort (str : List Char) (portOut : Int) : Int × List Char :=
  match findLastOf ':' str with
  | none => (portOut, unbracket str)
  | some colon =>
      let fBracketed := str[0]? = some '[' ∧ str[colon - 1]? = some ']'
      -- `colon - 1` is npos for a colon at the start
      let fMultiColon := (findLastOf ':' (if colon = 0 then str else str.take colon)).isSome
      if colon = 0 ∨ fBracketed ∨ !fMultiColon then
        match readPort (str.drop (colon + 1)) with
        | some n => (if 0 < n ∧ n < 0x10000 then n else portOut, unbracket (str.take colon))
        | none => (portOut, unbracket str)
      else (portOut, unbracket str)

/-! ## The text of a service -/

/-- `strprintf("%x", n)` -/
def hex (n : Nat) : List Char := Nat.toDigits 16 n

namespace CService

/-- `strprintf("%u.%u.%u.%u", GetByte(3), GetByte(2), GetByte(1), GetByte(0))` -/
def dotted (addr : CNetAddr) : List Char :=
  List.intercalate ['.'] ([3, 2, 1, 0].map fun n => Nat.toDigits 10 (NetAddr.getByte addr n).toNat)

/-- CNetAddr::ToStringIP. `getnameinfo` gives the numeric form of an address, if it succeeds. -/
def toStringIP (getnameinfo : CNetAddr → Option (List Char)) (addr : CNetAddr) : List Char :=
  if NetAddr.isTor addr then
    (encodeBase32 (((NetAddr.ip addr).drop 6).take 10)).map (fun c => Char.ofNat c.toNat) ++ ".onion".toList
  else
    match getnameinfo addr with
    | some name => name
    | none =>
        if NetAddr.isIPv4 addr then dotted addr
        else
          List.intercalate [':'] ([15, 13, 11, 9, 7, 5, 3, 1].map fun n =>
            hex ((NetAddr.getByte addr n).toNat * 256 + (NetAddr.getByte addr (n - 1)).toNat))

def toStringPort (service : CService) : List Char := Nat.toDigits 10 service.port.toNat

def toStringIPPort (getnameinfo : CNetAddr → Option (List Char)) (service : CService) : List Char :=
  if NetAddr.isIPv4 service.addr ∨ NetAddr.isTor service.addr then
    toStringIP getnameinfo service.addr ++ [':'] ++ service.toStringPort
  else ['['] ++ toStringIP getnameinfo service.addr ++ [']', ':'] ++ service.toStringPort

end CService

/-! ## What strtol reads -/

structure Decimal (str : List Char) (value : Int) : Prop where
  text : ∃ spaces sign digits, str = spaces ++ (sign ++ digits) ∧ (∀ c ∈ spaces, isSpace c = true) ∧
    (∀ c ∈ digits, c.isDigit = true) ∧ digits ≠ [] ∧
    (sign = ['-'] ∧ value = -(Nat.ofDigitChars 10 digits 0 : Int) ∨
      (sign = [] ∨ sign = ['+']) ∧ value = Nat.ofDigitChars 10 digits 0)

theorem dropWhile_append_all {p : Char → Bool} {before after : List Char} (each : ∀ c ∈ before, p c = true)
    (stops : ∀ c ∈ after.head?, p c = false) : (before ++ after).dropWhile p = after := by
  induction before with
  | nil =>
      cases after with
      | nil => rfl
      | cons c rest => rw [List.nil_append, List.dropWhile_cons_of_neg (by simp [stops c rfl])]
  | cons c rest ih =>
      rw [List.cons_append, List.dropWhile_cons_of_pos (each c List.mem_cons_self)]
      exact ih fun other member => each other (List.mem_cons_of_mem c member)

theorem takeSign_digit {c : Char} {rest : List Char} (digit : c.isDigit = true) :
    takeSign (c :: rest) = (false, c :: rest) := by
  unfold takeSign
  split
  · rename_i same
    cases same
    cases digit
  · rename_i same
    cases same
    cases digit
  · rfl

theorem takeSign_spec (body : List Char) : ∃ sign, body = sign ++ (takeSign body).2 ∧
    (sign = ['-'] ∧ (takeSign body).1 = true ∨ (sign = [] ∨ sign = ['+']) ∧ (takeSign body).1 = false) := by
  unfold takeSign
  split
  · exact ⟨['-'], rfl, Or.inl ⟨rfl, rfl⟩⟩
  · exact ⟨['+'], rfl, Or.inr ⟨Or.inr rfl, rfl⟩⟩
  · exact ⟨[], rfl, Or.inr ⟨Or.inl rfl, rfl⟩⟩

theorem scanDecimal_eq (str : List Char) : scanDecimal str =
    if (takeSign (str.dropWhile isSpace)).2.takeWhile Char.isDigit = [] then none
    else some (if (takeSign (str.dropWhile isSpace)).1 then
        -(Nat.ofDigitChars 10 ((takeSign (str.dropWhile isSpace)).2.takeWhile Char.isDigit) 0 : Int)
      else Nat.ofDigitChars 10 ((takeSign (str.dropWhile isSpace)).2.takeWhile Char.isDigit) 0,
      (takeSign (str.dropWhile isSpace)).2.dropWhile Char.isDigit) :=
  rfl

/-- A text is read to its end exactly when it is a decimal number. -/
theorem scanDecimal_iff {str : List Char} {value : Int} : scanDecimal str = some (value, []) ↔ Decimal str value := by
  rw [scanDecimal_eq]
  apply Iff.intro
  · intro scanned
    obtain ⟨sign, body, signed⟩ := takeSign_spec (str.dropWhile isSpace)
    split at scanned
    · cases scanned
    · rename_i nonempty
      obtain ⟨number, ended⟩ := Prod.mk.inj (Option.some.inj scanned)
      have all := List.dropWhile_eq_nil_iff.mp ended
      rw [List.takeWhile_eq_self_iff.mpr all] at nonempty number
      refine ⟨str.takeWhile isSpace, sign, _, ?_, ?_, all, nonempty, ?_⟩
      · rw [← body, List.takeWhile_append_dropWhile]
      · exact fun c member => List.mem_takeWhile_imp member
      · cases signed with
        | inl minus =>
            rw [if_pos minus.2] at number
            exact Or.inl ⟨minus.1, number.symm⟩
        | inr plus =>
            rw [if_neg (by simp [plus.2])] at number
            exact Or.inr ⟨plus.1, number.symm⟩
  · intro ⟨spaces, sign, digits, same, blank, each, nonempty, signed⟩
    obtain ⟨first, rest, shape⟩ := List.exists_cons_of_ne_nil nonempty
    have digit : first.isDigit = true := each first (shape ▸ List.mem_cons_self)
    have taken := List.takeWhile_eq_self_iff.mpr each
    have dropped := List.dropWhile_eq_nil_iff.mpr each
    have body : str.dropWhile isSpace = sign ++ digits := by
      rw [same]
      apply dropWhile_append_all blank
      intro c head
      rcases signed with ⟨rfl, -⟩ | ⟨rfl | rfl, -⟩
      · cases head
        decide
      · rw [shape] at head
        cases head
        exact isSpace_of_digit digit
      · cases head
        decide
    rw [body]
    rcases signed with ⟨rfl, rfl⟩ | ⟨rfl | rfl, rfl⟩
    · rw [show takeSign (['-'] ++ digits) = (true, digits) from rfl, taken, dropped, if_neg nonempty]
      rfl
    · rw [show takeSign ([] ++ digits) = (false, digits) from shape ▸ takeSign_digit digit, taken, dropped,
        if_neg nonempty]
      rfl
    · rw [show takeSign (['+'] ++ digits) = (false, digits) from rfl, taken, dropped, if_neg nonempty]
      rfl

theorem Decimal.unique {str : List Char} {value other : Int} (left : Decimal str value) (right : Decimal str other) :
    value = other := by
  have same := (scanDecimal_iff.mpr left).symm.trans (scanDecimal_iff.mpr right)
  exact (Prod.mk.inj (Option.some.inj same)).1

/-- The range of a `long`. -/
def clampLong (value : Int) : Int := max (-2 ^ 63) (min (2 ^ 63 - 1) value)

/-- What the conversion to `int` leaves of a `long`. -/
def narrow (value : Int) : Int := (clampLong value).bmod (2 ^ 32)

theorem narrow_of_range {value : Int} (low : -2 ^ 31 ≤ value) (high : value < 2 ^ 31) : narrow value = value := by
  rw [narrow, show clampLong value = value by unfold clampLong; omega]
  exact Int.bmod_eq_of_le_mul_two (by omega) (by omega)

/-- A port above 0 is read exactly from a number that is so after the conversion to `int`. -/
theorem readPort_iff {str : List Char} {n : Int} (positive : 0 < n) :
    readPort str = some n ↔ ∃ value, Decimal (cString str) value ∧ narrow value = n := by
  unfold readPort strtol
  cases scanned : scanDecimal (cString str) with
  | none =>
      apply iff_of_false
      · intro read
        dsimp only at read
        split at read
        · cases read
          exact absurd positive (by decide)
        · cases read
      · intro ⟨value, decimal, _⟩
        rw [scanDecimal_iff.mpr decimal] at scanned
        cases scanned
  | some result =>
      obtain ⟨value, rest⟩ := result
      dsimp only
      apply Iff.intro
      · intro read
        split at read
        · rename_i complete
          obtain ⟨rfl, -⟩ := complete
          exact ⟨value, scanDecimal_iff.mp scanned, Option.some.inj read⟩
        · cases read
      · intro ⟨other, decimal, same⟩
        rw [scanDecimal_iff.mpr decimal] at scanned
        cases scanned
        have narrowed : (max (-2 ^ 63) (min (2 ^ 63 - 1) value)).bmod (2 ^ 32) = n := same
        rw [narrowed, if_pos ⟨rfl, Int.le_of_lt positive⟩]

/-! ## The last colon -/

theorem findLastOf_absent {c : Char} {str : List Char} (absent : c ∉ str) : findLastOf c str = none := by
  induction str with
  | nil => rfl
  | cons first rest ih =>
      rw [findLastOf, ih fun later => absent (List.mem_cons_of_mem first later)]
      have different : first ≠ c := fun same => absent (same ▸ List.mem_cons_self)
      exact if_neg different

theorem findLastOf_present {c : Char} {str : List Char} (present : c ∈ str) : (findLastOf c str).isSome := by
  induction str with
  | nil => cases present
  | cons first rest ih =>
      rw [findLastOf]
      cases later : findLastOf c rest with
      | some place => rfl
      | none =>
          have here : first = c := by
            cases present with
            | head => rfl
            | tail _ member =>
                have found := ih member
                rw [later] at found
                cases found
          dsimp only
          rw [if_pos here]
          rfl

theorem findLastOf_split {c : Char} (before : List Char) {text : List Char} (absent : c ∉ text) :
    findLastOf c (before ++ c :: text) = some before.length := by
  induction before with
  | nil =>
      rw [List.nil_append, findLastOf, findLastOf_absent absent]
      exact if_pos rfl
  | cons first rest ih => rw [List.cons_append, findLastOf, ih, List.length_cons]

theorem exists_split {c : Char} {str : List Char} (present : c ∈ str) :
    ∃ before text, str = before ++ c :: text ∧ c ∉ text := by
  induction str with
  | nil => cases present
  | cons first rest ih =>
      by_cases later : c ∈ rest
      · obtain ⟨before, text, same, absent⟩ := ih later
        exact ⟨first :: before, text, congrArg (first :: ·) same, absent⟩
      · cases present with
        | head => exact ⟨[], rest, rfl, later⟩
        | tail _ member => exact absurd member later

/-- The last colon separates a port: it is at the start, or after brackets, or the only one. -/
def Separates (before : List Char) : Prop :=
  before = [] ∨ (before.head? = some '[' ∧ before.getLast? = some ']') ∨ ':' ∉ before

instance (before : List Char) : Decidable (Separates before) := inferInstanceAs (Decidable (_ ∨ _))

theorem findLastOf_isSome {c : Char} {str : List Char} : (findLastOf c str).isSome = true ↔ c ∈ str := by
  apply Iff.intro
  · intro found
    apply Classical.byContradiction
    intro absent
    rw [findLastOf_absent absent] at found
    cases found
  · exact findLastOf_present

theorem separates_iff (before text : List Char) :
    (before.length = 0 ∨ ((before ++ ':' :: text)[0]? = some '[' ∧
        (before ++ ':' :: text)[before.length - 1]? = some ']') ∨
      !(findLastOf ':' (if before.length = 0 then before ++ ':' :: text else before)).isSome) ↔
      Separates before := by
  cases before with
  | nil => exact iff_of_true (Or.inl rfl) (Or.inl rfl)
  | cons first rest =>
      have nonempty : ¬(first :: rest).length = 0 := by simp
      have last : ((first :: rest) ++ ':' :: text)[(first :: rest).length - 1]? = (first :: rest).getLast? := by
        rw [List.getElem?_append_left (by simp), List.getLast?_eq_getElem?]
      have colons : (!(findLastOf ':' (first :: rest)).isSome) = true ↔ ':' ∉ first :: rest := by
        rw [Bool.not_eq_true', Bool.eq_false_iff, ne_eq, findLastOf_isSome]
      rw [if_neg nonempty, last, colons]
      apply or_congr
      · exact iff_of_false nonempty (by simp)
      · exact Iff.rfl

theorem splitHostPort_eq (before : List Char) {text : List Char} (absent : ':' ∉ text) (portOut : Int) :
    splitHostPort (before ++ ':' :: text) portOut =
      if Separates before then
        match readPort text with
        | some n => (if 0 < n ∧ n < 0x10000 then n else portOut, unbracket before)
        | none => (portOut, unbracket (before ++ ':' :: text))
      else (portOut, unbracket (before ++ ':' :: text)) := by
  have after : (before ++ ':' :: text).drop (before.length + 1) = text := by simp
  unfold splitHostPort
  rw [findLastOf_split before absent]
  dsimp only
  rw [after, List.take_left]
  by_cases separates : Separates before
  · rw [if_pos ((separates_iff before text).mpr separates), if_pos separates]
  · rw [if_neg (mt (separates_iff before text).mp separates), if_neg separates]

theorem splitHostPort_absent {str : List Char} (absent : ':' ∉ str) (portOut : Int) :
    splitHostPort str portOut = (portOut, unbracket str) := by
  unfold splitHostPort
  rw [findLastOf_absent absent]

/-! ## Splitting the text of a service -/

theorem cString_digits {digits : List Char} (each : ∀ c ∈ digits, c.isDigit = true) : cString digits = digits := by
  apply List.takeWhile_eq_self_iff.mpr
  intro c member
  rw [decide_eq_true_eq]
  rintro rfl
  cases each _ member

theorem toDigits_decimal (n : Nat) : Decimal (Nat.toDigits 10 n) n := by
  apply Decimal.mk
  refine ⟨[], [], Nat.toDigits 10 n, rfl, ?_, ?_, Nat.toDigits_ne_nil, Or.inr ⟨Or.inl rfl, ?_⟩⟩
  · intro c member
    cases member
  · exact fun c member => Nat.isDigit_of_mem_toDigits (by decide) (by decide) member
  · rw [Nat.ofDigitChars_ten_toDigits]

theorem readPort_toDigits {n : Nat} (positive : 0 < n) (fits : n < 2 ^ 31) :
    readPort (Nat.toDigits 10 n) = some (n : Int) := by
  apply (readPort_iff (by omega)).mpr
  refine ⟨n, ?_, narrow_of_range (by omega) (by omega)⟩
  rw [cString_digits fun c member => Nat.isDigit_of_mem_toDigits (by decide) (by decide) member]
  exact toDigits_decimal n

theorem colon_not_digit {n : Nat} : ':' ∉ Nat.toDigits 10 n := by
  intro member
  have digit := Nat.isDigit_of_mem_toDigits (by decide) (by decide) member
  cases digit

/-- The numeric form of an IPv4 address consists of digits and points. -/
def NumericIPv4 (getnameinfo : CNetAddr → Option (List Char)) : Prop :=
  ∀ addr name, NetAddr.isIPv4 addr = true → getnameinfo addr = some name → ∀ c ∈ name, c.isDigit = true ∨ c = '.'

/-- A host that contains neither a colon nor an opening bracket. -/
def Plain (host : List Char) : Prop := ':' ∉ host ∧ '[' ∉ host

theorem unbracket_plain {host : List Char} (plain : Plain host) : unbracket host = host := by
  apply if_neg
  intro ⟨first, _⟩
  exact plain.2 (List.mem_of_mem_head? first)

theorem getLast_brackets (host : List Char) : (['['] ++ host ++ [']']).getLast? = some ']' :=
  List.getLast?_concat

theorem unbracket_brackets (host : List Char) : unbracket (['['] ++ host ++ [']']) = host := by
  unfold unbracket
  rw [if_pos ⟨rfl, getLast_brackets host⟩]
  simp

theorem splitHostPort_plain {host : List Char} {port : Nat} (plain : Plain host) (positive : 0 < port)
    (fits : port < 0x10000) (portOut : Int) :
    splitHostPort (host ++ [':'] ++ Nat.toDigits 10 port) portOut = ((port : Int), host) := by
  have separates : Separates host := Or.inr (Or.inr plain.1)
  rw [List.append_assoc, List.singleton_append, splitHostPort_eq host colon_not_digit, if_pos separates,
    readPort_toDigits positive (by omega)]
  dsimp only
  rw [if_pos ⟨by omega, by omega⟩, unbracket_plain plain]

theorem splitHostPort_bracketed (host : List Char) {port : Nat} (positive : 0 < port) (fits : port < 0x10000)
    (portOut : Int) :
    splitHostPort (['['] ++ host ++ [']', ':'] ++ Nat.toDigits 10 port) portOut = ((port : Int), host) := by
  have separates : Separates (['['] ++ host ++ [']']) := Or.inr (Or.inl ⟨rfl, getLast_brackets host⟩)
  have shape : ['['] ++ host ++ [']', ':'] ++ Nat.toDigits 10 port =
      (['['] ++ host ++ [']']) ++ ':' :: Nat.toDigits 10 port := by simp
  rw [shape, splitHostPort_eq _ colon_not_digit, if_pos separates, readPort_toDigits positive (by omega)]
  dsimp only
  rw [if_pos ⟨by omega, by omega⟩, unbracket_brackets]

theorem encodeBase32_plain (pch : Bytes) : ∀ c ∈ (encodeBase32 pch).map (fun c => Char.ofNat c.toNat),
    c ≠ ':' ∧ c ≠ '[' := by
  have alphabet : ((0 :: padChar :: pbase32).all fun byte =>
      Char.ofNat byte.toNat ≠ ':' ∧ Char.ofNat byte.toNat ≠ '[') = true := by decide
  obtain ⟨digits, spare, -, encoded⟩ := encodeBase32_padded pch
  intro c member
  obtain ⟨byte, among, rfl⟩ := List.mem_map.mp member
  apply of_decide_eq_true
  apply List.all_eq_true.mp alphabet
  rw [encoded] at among
  cases List.mem_append.mp among with
  | inl digit =>
      obtain ⟨d, -, rfl⟩ := List.mem_map.mp digit
      cases found : pbase32[d]? with
      | none =>
          rw [List.getD_eq_getElem?_getD, found]
          exact List.mem_cons_self
      | some letter =>
          rw [List.getD_eq_getElem?_getD, found]
          exact List.mem_cons_of_mem _ (List.mem_cons_of_mem _ (List.mem_of_getElem? found))
  | inr padding =>
      rw [List.eq_of_mem_replicate padding]
      exact List.mem_cons_of_mem _ List.mem_cons_self

theorem plain_of_each {host : List Char} (each : ∀ c ∈ host, c ≠ ':' ∧ c ≠ '[') : Plain host :=
  ⟨fun member => (each _ member).1 rfl, fun member => (each _ member).2 rfl⟩

theorem digit_plain {c : Char} (digit : c.isDigit = true) : c ≠ ':' ∧ c ≠ '[' := by
  apply And.intro
  · rintro rfl
    cases digit
  · rintro rfl
    cases digit

theorem onion_plain : ∀ c ∈ ".onion".toList, c ≠ ':' ∧ c ≠ '[' := by
  rw [show ".onion".toList = ['.', 'o', 'n', 'i', 'o', 'n'] from rfl]
  have letters : (['.', 'o', 'n', 'i', 'o', 'n'].all fun c => c ≠ ':' ∧ c ≠ '[') = true := by decide
  exact fun c member => of_decide_eq_true (List.all_eq_true.mp letters c member)

theorem mem_intercalate {separator : List Char} {texts : List (List Char)} {c : Char}
    (member : c ∈ List.intercalate separator texts) : c ∈ separator ∨ ∃ text ∈ texts, c ∈ text := by
  induction texts with
  | nil => cases member
  | cons text rest ih =>
      cases rest with
      | nil =>
          rw [List.intercalate_singleton] at member
          exact Or.inr ⟨text, List.mem_cons_self, member⟩
      | cons next more =>
          rw [List.intercalate_cons_cons, List.mem_append, List.mem_append] at member
          rcases member with (first | between) | later
          · exact Or.inr ⟨text, List.mem_cons_self, first⟩
          · exact Or.inl between
          · cases ih later with
            | inl between => exact Or.inl between
            | inr found =>
                obtain ⟨other, among, inside⟩ := found
                exact Or.inr ⟨other, List.mem_cons_of_mem text among, inside⟩

theorem dotted_chars (addr : CNetAddr) : ∀ c ∈ CService.dotted addr, c.isDigit = true ∨ c = '.' := by
  intro c member
  cases mem_intercalate member with
  | inl point => exact Or.inr (List.mem_singleton.mp point)
  | inr found =>
      obtain ⟨text, among, inside⟩ := found
      obtain ⟨n, -, rfl⟩ := List.mem_map.mp among
      exact Or.inl (Nat.isDigit_of_mem_toDigits (by decide) (by decide) inside)

theorem dotted_plain {c : Char} (shape : c.isDigit = true ∨ c = '.') : c ≠ ':' ∧ c ≠ '[' := by
  cases shape with
  | inl digit => exact digit_plain digit
  | inr point =>
      rw [point]
      decide

theorem toStringIP_plain {getnameinfo : CNetAddr → Option (List Char)} (numeric : NumericIPv4 getnameinfo)
    {addr : CNetAddr} (short : NetAddr.isIPv4 addr = true ∨ NetAddr.isTor addr = true) :
    Plain (CService.toStringIP getnameinfo addr) := by
  apply plain_of_each
  intro c member
  rw [CService.toStringIP] at member
  by_cases tor : NetAddr.isTor addr = true
  · rw [if_pos tor] at member
    cases List.mem_append.mp member with
    | inl encoded => exact encodeBase32_plain _ c encoded
    | inr suffix => exact onion_plain c suffix
  · have ipv4 : NetAddr.isIPv4 addr = true := short.resolve_right tor
    rw [if_neg tor] at member
    cases known : getnameinfo addr with
    | some name =>
        rw [known] at member
        exact dotted_plain (numeric addr name ipv4 known c member)
    | none =>
        rw [known] at member
        dsimp only at member
        rw [if_pos ipv4] at member
        exact dotted_plain (dotted_chars addr c member)

theorem splitHostPort_toStringIPPort {getnameinfo : CNetAddr → Option (List Char)} (numeric : NumericIPv4 getnameinfo)
    {service : CService} (positive : service.port ≠ 0) (portOut : Int) :
    splitHostPort (service.toStringIPPort getnameinfo) portOut =
      ((service.port.toNat : Int), CService.toStringIP getnameinfo service.addr) := by
  have fits := service.port.toNat_lt
  have nonzero : 0 < service.port.toNat := by
    apply Nat.pos_of_ne_zero
    intro zero
    exact positive (UInt16.toNat_inj.mp zero)
  unfold CService.toStringIPPort CService.toStringPort
  split
  · rename_i short
    exact splitHostPort_plain (toStringIP_plain numeric (by simpa using short)) nonzero fits portOut
  · exact splitHostPort_bracketed _ nonzero fits portOut

/-! ## What a change of the port means -/

/-- A changed port is the number after the last colon, and the host is what stands before it. -/
def Faithful (str : List Char) (portOut : Int) : Prop :=
  (splitHostPort str portOut).1 ≠ portOut → ∃ before text, str = before ++ ':' :: text ∧ ':' ∉ text ∧
    Decimal text (splitHostPort str portOut).1 ∧ 1 ≤ (splitHostPort str portOut).1 ∧
      (splitHostPort str portOut).1 ≤ 65535 ∧ (splitHostPort str portOut).2 = unbracket before

/-- After a separating colon stands a number that the conversions to `long` and `int` turn into a port
which it does not denote, or a text that goes on after a null character. -/
def Misread (str : List Char) : Prop :=
  ∃ before text value, str = before ++ ':' :: text ∧ ':' ∉ text ∧ Separates before ∧
    Decimal (cString text) value ∧ (1 ≤ narrow value ∧ narrow value ≤ 65535) ∧
      (value ≠ narrow value ∨ cString text ≠ text)

theorem split_unique {c : Char} {before other text rest : List Char} (same : before ++ c :: text = other ++ c :: rest)
    (absent : c ∉ text) (also : c ∉ rest) : before = other ∧ text = rest := by
  have place := findLastOf_split before absent
  rw [same, findLastOf_split other also] at place
  obtain ⟨left, right⟩ := List.append_inj same (Option.some.inj place).symm
  exact ⟨left, (List.cons.inj right).2⟩

theorem Decimal.cString {text : List Char} {value : Int} (decimal : Decimal text value) :
    BitCrystal.cString text = text := by
  obtain ⟨spaces, sign, digits, same, blank, each, -, signed⟩ := decimal.text
  have signs : ∀ c ∈ sign, c ≠ '\x00' := by
    rcases signed with ⟨rfl, -⟩ | ⟨rfl | rfl, -⟩ <;> simp
  apply List.takeWhile_eq_self_iff.mpr
  intro c member
  rw [decide_eq_true_eq]
  intro null
  rw [null, same, List.mem_append, List.mem_append] at member
  rcases member with space | minus | digit
  · exact absurd (blank _ space) (by decide)
  · exact signs _ minus rfl
  · exact absurd (each _ digit) (by decide)

theorem splitHostPort_read {before text : List Char} {value : Int} (absent : ':' ∉ text)
    (separates : Separates before) (decimal : Decimal (BitCrystal.cString text) value)
    (range : 1 ≤ narrow value ∧ narrow value ≤ 65535) (portOut : Int) :
    splitHostPort (before ++ ':' :: text) portOut = (narrow value, unbracket before) := by
  rw [splitHostPort_eq before absent, if_pos separates, (readPort_iff (by omega)).mpr ⟨value, decimal, rfl⟩]
  dsimp only
  rw [if_pos ⟨by omega, by omega⟩]

theorem faithful_iff (str : List Char) : (∀ portOut, Faithful str portOut) ↔ ¬Misread str := by
  apply Iff.intro
  · intro faithful ⟨before, text, value, same, absent, separates, decimal, range, wrong⟩
    have changed := faithful 0
    unfold Faithful at changed
    rw [same, splitHostPort_read absent separates decimal range] at changed
    obtain ⟨other, rest, same', absent', denotes, -⟩ := changed (by show narrow value ≠ 0; omega)
    obtain ⟨-, rfl⟩ := split_unique same' absent absent'
    have whole := denotes.cString
    cases wrong with
    | inl different =>
        rw [whole] at decimal
        exact different (decimal.unique denotes)
    | inr cut => exact cut whole
  · intro read portOut changed
    have present : ':' ∈ str := by
      apply Classical.byContradiction
      intro absent
      rw [splitHostPort_absent absent] at changed
      exact changed rfl
    obtain ⟨before, text, rfl, absent⟩ := exists_split present
    by_cases separates : Separates before
    · cases port : readPort text with
      | none =>
          rw [splitHostPort_eq before absent, if_pos separates, port] at changed
          exact absurd rfl changed
      | some n =>
          have inRange : 0 < n ∧ n < 0x10000 := by
            apply Classical.byContradiction
            intro outside
            rw [splitHostPort_eq before absent, if_pos separates, port] at changed
            exact changed (if_neg outside)
          obtain ⟨value, decimal, rfl⟩ := (readPort_iff inRange.1).mp port
          have range : 1 ≤ narrow value ∧ narrow value ≤ 65535 := by omega
          have whole : BitCrystal.cString text = text := by
            apply Classical.byContradiction
            intro cut
            exact read ⟨before, text, value, rfl, absent, separates, decimal, range, Or.inr cut⟩
          have exact : narrow value = value := by
            apply Classical.byContradiction
            intro different
            exact read ⟨before, text, value, rfl, absent, separates, decimal, range, Or.inl (Ne.symm different)⟩
          rw [splitHostPort_read absent separates decimal range, exact]
          rw [whole] at decimal
          exact ⟨before, text, rfl, absent, decimal, by omega, by omega, rfl⟩
    · rw [splitHostPort_eq before absent, if_neg separates] at changed
      exact absurd rfl changed

/-- SplitHostPort gives back address and port of every service with a port; in any other text a changed port is the
number after the last colon unless the text is misread. -/
theorem splitHostPort_correct {getnameinfo : CNetAddr → Option (List Char)} (numeric : NumericIPv4 getnameinfo) :
    (∀ service : CService, service.port ≠ 0 → ∀ portOut, splitHostPort (service.toStringIPPort getnameinfo) portOut =
      ((service.port.toNat : Int), CService.toStringIP getnameinfo service.addr)) ∧
    ∀ str, (∀ portOut, Faithful str portOut) ↔ ¬Misread str :=
  ⟨fun _ positive portOut => splitHostPort_toStringIPPort numeric positive portOut, faithful_iff⟩

/-- A host of one letter with the port 80. -/
def samplePort : List Char := ['h', ':', '8', '0']

/-- The same with 2^32 more than 80. -/
def widePort : List Char := ['h', ':'] ++ Nat.toDigits 10 (2 ^ 32 + 80)

/-- The numeric form of IPv4 addresses only, as without IPv6. -/
def numericForm (addr : CNetAddr) : Option (List Char) :=
  if NetAddr.isIPv4 addr then some (CService.dotted addr) else none

theorem numericForm_numeric : NumericIPv4 numericForm := by
  intro addr name ipv4 known
  rw [numericForm, if_pos ipv4] at known
  cases known
  exact dotted_chars addr

theorem samplePort_read : ¬Misread samplePort := by
  intro ⟨before, text, value, same, absent, _, decimal, _, wrong⟩
  have shape : ['h'] ++ ':' :: Nat.toDigits 10 80 = before ++ ':' :: text := same
  obtain ⟨-, rfl⟩ := split_unique shape colon_not_digit absent
  have whole := (toDigits_decimal 80).cString
  rw [whole] at decimal
  have denoted : value = 80 := decimal.unique (toDigits_decimal 80)
  cases wrong with
  | inl different => exact different (denoted ▸ rfl)
  | inr cut => exact cut whole

theorem splitHostPort_sample :
    splitHostPort (CService.toStringIPPort numericForm ⟨0xffff01020304#128, 8333⟩) 0 =
      (8333, CService.toStringIP numericForm 0xffff01020304#128) ∧
    (Faithful samplePort 8333 ∧ splitHostPort samplePort 8333 = (80, ['h'])) :=
  ⟨(splitHostPort_correct numericForm_numeric).1 ⟨0xffff01020304#128, 8333⟩ (by decide) 0,
    ((splitHostPort_correct numericForm_numeric).2 samplePort).mpr samplePort_read 8333, by decide +kernel⟩

/-- The number 2^32 + 80 is taken for the port 80. -/
theorem splitHostPort_wide : splitHostPort widePort 0 = (80, ['h']) ∧ ¬Faithful widePort 0 := by
  have read : splitHostPort widePort 0 = (80, ['h']) := by decide +kernel
  apply And.intro read
  intro faithful
  rw [Faithful, read] at faithful
  obtain ⟨before, text, same, absent, denotes, -⟩ := faithful (by decide)
  have shape : ['h'] ++ ':' :: Nat.toDigits 10 (2 ^ 32 + 80) = before ++ ':' :: text := same
  obtain ⟨-, rfl⟩ := split_unique shape colon_not_digit absent
  have equal := denotes.unique (toDigits_decimal (2 ^ 32 + 80))
  exact absurd equal (by decide)

end BitCrystal
