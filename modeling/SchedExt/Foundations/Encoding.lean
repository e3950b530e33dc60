import Mathlib.Data.List.Basic

/-!
# Text as bytes, and numbers as text

A text is encoded in UTF-8, a stream of bytes is read line by line, and an
integer is read from decimal digits of any script.  An ASCII text has as many
bytes as characters, and a number is read back from the digits it is shown by.
-/

namespace SchedExt.Foundations.Encoding

/-- `str.encode` -/
def encode (text : List Char) : List UInt8 := text.flatMap String.utf8EncodeChar

/-- `bytes.decode`; `none` where it raises. -/
def decode (data : List UInt8) : Option (List Char) :=
  (String.fromUTF8? data.toByteArray).map String.toList

/-- Every character of the text is an ASCII character. -/
def Ascii (text : List Char) : Prop := ∀ c ∈ text, c.toNat < 128

instance (text : List Char) : Decidable (Ascii text) :=
  List.decidableBAll (fun c : Char => c.toNat < 128) text

/-- The bytes up to the next line feed, with it, or else all; and what is behind. -/
def takeLine : List UInt8 → List UInt8 × List UInt8
  | [] => ([], [])
  | byte :: rest =>
      if byte = 10 then ([byte], rest)
      else (byte :: (takeLine rest).1, (takeLine rest).2)

/-- The digits zero of Unicode; the other nine follow each of them. -/
def zeros : List Nat :=
  [0x30, 0x660, 0x6F0, 0x7C0, 0x966, 0x9E6, 0xA66, 0xAE6, 0xB66, 0xBE6, 0xC66, 0xCE6, 0xD66,
    0xDE6, 0xE50, 0xED0, 0xF20, 0x1040, 0x1090, 0x17E0, 0x1810, 0x1946, 0x19D0, 0x1A80, 0x1A90,
    0x1B50, 0x1BB0, 0x1C40, 0x1C50, 0xA620, 0xA8D0, 0xA900, 0xA9D0, 0xA9F0, 0xAA50, 0xABF0,
    0xFF10, 0x104A0, 0x10D30, 0x11066, 0x110F0, 0x11136, 0x111D0, 0x112F0, 0x11450, 0x114D0,
    0x11650, 0x116C0, 0x11730, 0x118E0, 0x11950, 0x11C50, 0x11D50, 0x11DA0, 0x16A60, 0x16AC0,
    0x16B50, 0x1D7CE, 0x1D7D8, 0x1D7E2, 0x1D7EC, 0x1D7F6, 0x1E140, 0x1E2F0, 0x1E950, 0x1FBF0]

/-- `unicodedata.decimal` of one character. -/
def decimal (c : Char) : Option Nat :=
  (zeros.find? fun first => first ≤ c.toNat && c.toNat < first + 10).map fun first =>
    c.toNat - first

/-- Digits behind a value, with single underscores; the flag says that a digit has to follow. -/
def digits : Bool → Nat → List Char → Option Nat
  | expected, value, [] => if expected then none else some value
  | expected, value, c :: rest =>
      match decimal c with
      | some digit => digits false (10 * value + digit) rest
      | none => if c = '_' ∧ expected = false then digits true value rest else none

/-- `int(text)` of a stripped text; `none` where it raises. -/
def readInt : List Char → Option Int
  | '+' :: rest => (digits true 0 rest).map Int.ofNat
  | '-' :: rest => (digits true 0 rest).map fun value => -(value : Int)
  | text => (digits true 0 text).map Int.ofNat

/-! ## Bytes of a text -/

theorem encode_append (front back : List Char) :
    encode (front ++ back) = encode front ++ encode back :=
  List.flatMap_append

theorem decode_encode (text : List Char) : decode (encode text) = some text := by
  have valid : (encode text).toByteArray.IsValidUTF8 := .intro text rfl
  have whole : String.fromUTF8 _ valid = String.ofList text := by
    apply String.toByteArray_inj.mp
    rw [String.toByteArray_ofList]
    rfl
  rw [decode, String.fromUTF8?, dif_pos valid, whole, Option.map_some, String.toList_ofList]

theorem utf8EncodeChar_of_lt {c : Char} (small : c.toNat < 128) :
    String.utf8EncodeChar c = [UInt8.ofNat c.toNat] := by
  unfold String.utf8EncodeChar
  exact if_pos (Nat.le_of_lt_succ small)

theorem Ascii.append {front back : List Char} (first : Ascii front) (second : Ascii back) :
    Ascii (front ++ back) := by
  intro c member
  rcases List.mem_append.mp member with inFront | inBack
  · exact first c inFront
  · exact second c inBack

theorem encode_of_ascii {text : List Char} (ascii : Ascii text) :
    encode text = text.map fun c => UInt8.ofNat c.toNat := by
  induction text with
  | nil => rfl
  | cons c rest ih =>
      obtain ⟨here, later⟩ := List.forall_mem_cons.mp ascii
      rw [encode, List.flatMap_cons, utf8EncodeChar_of_lt here, List.map_cons, ← ih later]
      rfl

/-- An ASCII text has as many bytes as characters. -/
theorem length_encode {text : List Char} (ascii : Ascii text) :
    (encode text).length = text.length := by
  rw [encode_of_ascii ascii, List.length_map]

/-- Only a line feed has the byte of a line feed. -/
theorem not_mem_encode {text : List Char} (ascii : Ascii text) (unbroken : '\n' ∉ text) :
    (10 : UInt8) ∉ encode text := by
  rw [encode_of_ascii ascii]
  intro member
  obtain ⟨c, inside, same⟩ := List.mem_map.mp member
  have code : c.toNat = 10 := by
    have value := congrArg UInt8.toNat same
    rw [UInt8.toNat_ofNat', Nat.mod_eq_of_lt (Nat.lt_trans (ascii c inside) (by decide))] at value
    exact value
  have newline : c = '\n' := Char.toNat_inj.mp code
  exact unbroken (newline ▸ inside)

theorem takeLine_append {line : List UInt8} (unbroken : (10 : UInt8) ∉ line)
    (rest : List UInt8) : takeLine (line ++ 10 :: rest) = (line ++ [10], rest) := by
  induction line with
  | nil => rfl
  | cons byte line ih =>
      have apart : byte ≠ 10 := fun same => unbroken (same ▸ List.mem_cons_self)
      have later := ih fun inside => unbroken (List.mem_cons_of_mem byte inside)
      rw [List.cons_append, takeLine, if_neg apart, later]
      rfl

/-- A line of a stream is read up to its end. -/
theorem takeLine_encode {line : List Char} (ascii : Ascii line) (unbroken : '\n' ∉ line)
    (rest : List UInt8) :
    takeLine (encode (line ++ ['\n']) ++ rest) = (encode (line ++ ['\n']), rest) := by
  have ends : encode (line ++ ['\n']) = encode line ++ [10] := encode_append line ['\n']
  rw [ends, List.append_assoc]
  exact takeLine_append (not_mem_encode ascii unbroken) rest

/-! ## Digits of a number -/

theorem decimal_of_isDigit {c : Char} (digit : c.isDigit = true) :
    decimal c = some (c.toNat - 48) := by
  have range := Char.isDigit_iff_toNat.mp digit
  have first : (decide (0x30 ≤ c.toNat) && decide (c.toNat < 0x30 + 10)) = true := by
    rw [Bool.and_eq_true, decide_eq_true_eq, decide_eq_true_eq]
    exact ⟨range.1, Nat.lt_succ_of_le range.2⟩
  have found : (zeros.find? fun first => first ≤ c.toNat && c.toNat < first + 10) = some 0x30 :=
    List.find?_cons_of_pos first
  rw [decimal, found, Option.map_some]

theorem digits_of_isDigit {text : List Char} (all : ∀ c ∈ text, c.isDigit = true) (value : Nat) :
    digits false value text = some (Nat.ofDigitChars 10 text value) := by
  induction text generalizing value with
  | nil => rfl
  | cons c rest ih =>
      obtain ⟨here, later⟩ := List.forall_mem_cons.mp all
      rw [digits, decimal_of_isDigit here]
      dsimp only
      rw [ih later, Nat.ofDigitChars_cons]
      rfl

/-- A number is read back from the digits it is shown by. -/
theorem readInt_toDigits (n : Nat) : readInt (Nat.toDigits 10 n) = some (n : Int) := by
  have all : ∀ c ∈ Nat.toDigits 10 n, c.isDigit = true := fun c member =>
    Nat.isDigit_of_mem_toDigits (by decide) (by decide) member
  have back : Nat.ofDigitChars 10 (Nat.toDigits 10 n) 0 = n := Nat.ofDigitChars_ten_toDigits
  cases shown : Nat.toDigits 10 n with
  | nil => exact absurd shown Nat.toDigits_ne_nil
  | cons c rest =>
      rw [shown] at all back
      obtain ⟨here, later⟩ := List.forall_mem_cons.mp all
      have read : digits true 0 (c :: rest) = some n := by
        rw [digits, decimal_of_isDigit here]
        dsimp only
        rw [digits_of_isDigit later, ← back, Nat.ofDigitChars_cons]
        rfl
      unfold readInt
      split
      · rename_i same
        rw [(List.cons.inj same).1] at here
        exact absurd here (by decide)
      · rename_i same
        rw [(List.cons.inj same).1] at here
        exact absurd here (by decide)
      · rw [read]
        rfl

end SchedExt.Foundations.Encoding
