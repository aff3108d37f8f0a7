import Mathlib.Data.List.Forall2
import Mathlib.Order.Bounds.Basic
import Primer.Text.Utf8

/-!
# Well-formed UTF-8

Bytes are well-formed if they are the encoding of some characters. The table of shapes tells the
encodings of single characters from all other bytes: every character is encoded in one of the shapes
(`exists_shape`), and whatever has a shape encodes the character of its code
(`encodeChar_of_shape`). A decoder that stands between two characters therefore reads one character,
or finds that none begins there (`decodeFrom_between_cases`), and it does so wherever it stands.
Whole texts follow: decoding gives back exactly what was encoded (`decode_eq_ok_iff`), what is
refused is refused behind its longest well-formed front (`isGreatest_validUpTo`), and a well-formed
front does not change what is found behind it (`decode_append`).
-/

namespace Primer.Text.Utf8

/-! ## Encodings -/

/-- Bytes that stand for some characters. -/
def WellFormed (bytes : List UInt8) : Prop := ∃ chars, encode chars = bytes

@[simp] theorem encode_nil : encode [] = [] := rfl

@[simp] theorem encode_cons (char : Char) (chars : List Char) :
    encode (char :: chars) = String.utf8EncodeChar char ++ encode chars :=
  List.flatMap_cons

@[simp] theorem encode_append (front back : List Char) :
    encode (front ++ back) = encode front ++ encode back :=
  List.flatMap_append

/-! ## The shape of a character -/

@[simp] theorem ByteRange.contains_iff {range : ByteRange} {byte : UInt8} :
    range.contains byte = true ↔
      range.low.toNat ≤ byte.toNat ∧ byte.toNat ≤ range.high.toNat := by
  simp [ByteRange.contains, UInt8.le_iff_toNat_le]

/-- Bytes that are what a first byte leaves owed. -/
def Fits (owed : List ByteRange) (body : List UInt8) : Prop :=
  List.Forall₂ (fun range byte => range.contains byte = true) owed body

/-- The code that a first byte and the bytes after it add up to. -/
def codeOf (shape : Shape) (first : UInt8) (body : List UInt8) : Nat :=
  body.foldl (fun code byte => code * 64 + byte.toNat % 64) (leadBits shape.owed first)

theorem toNat_ofNat_of_valid {code : Nat} (valid : code.isValidChar) :
    (Char.ofNat code).val.toNat = code := by
  unfold Char.ofNat
  rw [dif_pos valid]
  rfl

/-! The four lengths of a character, from the bytes to the code and back. The bounds on the second
byte keep out overlong forms, surrogates and codes that are too large. -/

theorem encodeChar_one {first : UInt8} (low : first.toNat ≤ 0x7F) :
    String.utf8EncodeChar (Char.ofNat first.toNat) = [first] := by
  unfold String.utf8EncodeChar
  rw [toNat_ofNat_of_valid (.inl (by omega))]
  simp only [if_pos low, UInt8.ofNat_toNat]

/-- Two bytes of the right shape are the encoding of the character that they spell. The first byte
is at least `C2`, or one byte would do. -/
theorem encodeChar_two {first second : UInt8} (hfirst : 0xC2 ≤ first.toNat ∧ first.toNat ≤ 0xDF)
    (hsecond : 0x80 ≤ second.toNat ∧ second.toNat ≤ 0xBF) :
    String.utf8EncodeChar (Char.ofNat (first.toNat % 32 * 64 + second.toNat % 64)) =
      [first, second] := by
  unfold String.utf8EncodeChar
  rw [toNat_ofNat_of_valid (.inl (by omega))]
  simp only
  rw [if_neg (by omega), if_pos (by omega)]
  simp only [List.cons.injEq, ← UInt8.toNat_inj, UInt8.toNat_ofNat', and_true]
  omega

/-- Three bytes of the right shape are the encoding of the character that they spell. The second
byte is bounded so that two bytes would not do, and that no surrogate comes out. -/
theorem encodeChar_three {first second third : UInt8}
    (hfirst : 0xE0 ≤ first.toNat ∧ first.toNat ≤ 0xEF)
    (hsecond : 0x80 ≤ second.toNat ∧ second.toNat ≤ 0xBF)
    (hthird : 0x80 ≤ third.toNat ∧ third.toNat ≤ 0xBF)
    (long : first.toNat = 0xE0 → 0xA0 ≤ second.toNat)
    (scalar : first.toNat = 0xED → second.toNat ≤ 0x9F) :
    String.utf8EncodeChar (Char.ofNat
      ((first.toNat % 16 * 64 + second.toNat % 64) * 64 + third.toNat % 64)) =
      [first, second, third] := by
  unfold String.utf8EncodeChar
  rw [toNat_ofNat_of_valid (by unfold Nat.isValidChar; omega)]
  simp only
  rw [if_neg (by omega), if_neg (by omega), if_pos (by omega)]
  simp only [List.cons.injEq, ← UInt8.toNat_inj, UInt8.toNat_ofNat', and_true]
  omega

/-- Four bytes of the right shape are the encoding of the character that they spell. The second byte
is bounded so that three bytes would not do, and that the character exists. -/
theorem encodeChar_four {first second third fourth : UInt8}
    (hfirst : 0xF0 ≤ first.toNat ∧ first.toNat ≤ 0xF4)
    (hsecond : 0x80 ≤ second.toNat ∧ second.toNat ≤ 0xBF)
    (hthird : 0x80 ≤ third.toNat ∧ third.toNat ≤ 0xBF)
    (hfourth : 0x80 ≤ fourth.toNat ∧ fourth.toNat ≤ 0xBF)
    (long : first.toNat = 0xF0 → 0x90 ≤ second.toNat)
    (scalar : first.toNat = 0xF4 → second.toNat ≤ 0x8F) :
    String.utf8EncodeChar (Char.ofNat
      (((first.toNat % 8 * 64 + second.toNat % 64) * 64 + third.toNat % 64) * 64 +
        fourth.toNat % 64)) =
      [first, second, third, fourth] := by
  unfold String.utf8EncodeChar
  rw [toNat_ofNat_of_valid (by unfold Nat.isValidChar; omega)]
  simp only
  rw [if_neg (by omega), if_neg (by omega), if_neg (by omega)]
  simp only [List.cons.injEq, ← UInt8.toNat_inj, UInt8.toNat_ofNat', and_true]
  omega

/-- Bytes of a shape encode the character with their code. -/
theorem encodeChar_of_shape {shape : Shape} {first : UInt8} {body : List UInt8}
    (known : shape ∈ shapes) (begins : shape.lead.contains first = true)
    (fits : Fits shape.owed body) :
    String.utf8EncodeChar (Char.ofNat (codeOf shape first body)) = first :: body := by
  simp only [shapes, List.mem_cons, List.not_mem_nil, or_false] at known
  rcases known with rfl | rfl | rfl | rfl | rfl | rfl | rfl | rfl | rfl
  all_goals
    simp only [Fits, ByteRange.contains_iff, List.forall₂_nil_left_iff,
      List.forall₂_cons_left_iff, continuation, UInt8.reduceToNat] at begins fits
  · subst fits
    exact encodeChar_one begins.2
  · obtain ⟨second, _, hsecond, rfl, rfl⟩ := fits
    exact encodeChar_two begins hsecond
  iterate 4
    obtain ⟨second, _, hsecond, ⟨third, _, hthird, rfl, rfl⟩, rfl⟩ := fits
    exact encodeChar_three (by omega) (by omega) hthird (by omega) (by omega)
  all_goals
    obtain ⟨second, _, hsecond, ⟨third, _, hthird, ⟨fourth, _, hfourth, rfl, rfl⟩, rfl⟩, rfl⟩ :=
      fits
    exact encodeChar_four (by omega) (by omega) hthird hfourth (by omega) (by omega)

theorem encodeChar_injective {char other : Char}
    (same : String.utf8EncodeChar char = String.utf8EncodeChar other) : char = other := by
  have hencode : [char].utf8Encode = [other].utf8Encode := by
    simp [List.utf8Encode, same]
  have hdecode := congrArg (·.utf8DecodeChar? 0) hencode
  simpa only [List.utf8DecodeChar?_utf8Encode_singleton, Option.some.injEq] using hdecode

theorem continuation_contains (value : Nat) :
    continuation.contains (UInt8.ofNat (value % 64 + 128)) = true := by
  simp [continuation]
  omega

/-- Every character is encoded in one of the shapes. -/
theorem exists_shape (char : Char) :
    ∃ shape ∈ shapes, ∃ first body, shape.lead.contains first = true ∧ Fits shape.owed body ∧
      String.utf8EncodeChar char = first :: body := by
  have hvalid : char.val.toNat < 0xD800 ∨ 0xDFFF < char.val.toNat ∧ char.val.toNat < 0x110000 :=
    char.valid
  have hlast : ∀ value, Fits [continuation] [UInt8.ofNat (value % 64 + 128)] :=
    fun value => .cons (continuation_contains value) .nil
  unfold String.utf8EncodeChar
  generalize char.val.toNat = code at hvalid
  simp only
  by_cases hone : code ≤ 0x7F
  · rw [if_pos hone]
    exact ⟨⟨⟨0x00, 0x7F⟩, []⟩, by decide, _, _, by simp; omega, .nil, rfl⟩
  rw [if_neg hone]
  by_cases htwo : code ≤ 0x7FF
  · rw [if_pos htwo]
    exact ⟨⟨⟨0xC2, 0xDF⟩, [continuation]⟩, by decide, _, _, by simp; omega, hlast _, rfl⟩
  rw [if_neg htwo]
  by_cases hthree : code ≤ 0xFFFF
  · rw [if_pos hthree]
    have hrow : code ≤ 0xFFF ∨ (0x1000 ≤ code ∧ code ≤ 0xCFFF) ∨ (0xD000 ≤ code ∧ code ≤ 0xD7FF) ∨
        0xE000 ≤ code := by omega
    rcases hrow with h | h | h | h
    · exact ⟨⟨⟨0xE0, 0xE0⟩, [⟨0xA0, 0xBF⟩, continuation]⟩, by decide, _, _, by simp; omega,
        .cons (by simp; omega) (hlast _), rfl⟩
    · exact ⟨⟨⟨0xE1, 0xEC⟩, [continuation, continuation]⟩, by decide, _, _, by simp; omega,
        .cons (continuation_contains _) (hlast _), rfl⟩
    · exact ⟨⟨⟨0xED, 0xED⟩, [⟨0x80, 0x9F⟩, continuation]⟩, by decide, _, _, by simp; omega,
        .cons (by simp; omega) (hlast _), rfl⟩
    · exact ⟨⟨⟨0xEE, 0xEF⟩, [continuation, continuation]⟩, by decide, _, _, by simp; omega,
        .cons (continuation_contains _) (hlast _), rfl⟩
  rw [if_neg hthree]
  have hrow : code ≤ 0x3FFFF ∨ (0x40000 ≤ code ∧ code ≤ 0xFFFFF) ∨ 0x100000 ≤ code := by omega
  rcases hrow with h | h | h
  · exact ⟨⟨⟨0xF0, 0xF0⟩, [⟨0x90, 0xBF⟩, continuation, continuation]⟩, by decide, _, _,
      by simp; omega, .cons (by simp; omega) (.cons (continuation_contains _) (hlast _)), rfl⟩
  · exact ⟨⟨⟨0xF1, 0xF3⟩, [continuation, continuation, continuation]⟩, by decide, _, _,
      by simp; omega, .cons (continuation_contains _) (.cons (continuation_contains _) (hlast _)),
      rfl⟩
  · exact ⟨⟨⟨0xF4, 0xF4⟩, [⟨0x80, 0x8F⟩, continuation, continuation]⟩, by decide, _, _,
      by simp; omega, .cons (by simp; omega) (.cons (continuation_contains _) (hlast _)), rfl⟩

/-- The first bytes of two shapes lie apart, so a search finds the shape that a byte begins. -/
theorem find?_shape {shape : Shape} {first : UInt8} (known : shape ∈ shapes)
    (begins : shape.lead.contains first = true) :
    shapes.find? (fun shape => shape.lead.contains first) = some shape := by
  have hapart : ∀ one ∈ shapes, ∀ other ∈ shapes, one ≠ other →
      one.lead.high < other.lead.low ∨ other.lead.high < one.lead.low := by decide
  have hsome : (shapes.find? fun shape => shape.lead.contains first).isSome = true :=
    List.find?_isSome.2 ⟨shape, known, begins⟩
  obtain ⟨found, hfound⟩ := Option.isSome_iff_exists.1 hsome
  have hbegins : found.lead.contains first = true :=
    List.find?_some (p := fun shape : Shape => shape.lead.contains first) hfound
  rw [hfound, Option.some.injEq]
  by_contra different
  have hdisjoint := hapart found (List.mem_of_find?_eq_some hfound) shape known different
  simp only [ByteRange.contains_iff, UInt8.lt_iff_toNat_lt] at begins hbegins hdisjoint
  omega

/-! ## Decoding one character -/

/-- Decode on from what a step came to. -/
def goOn (start : Nat) (settled : Option Char × State) (bytes : List UInt8) :
    Except Error (List Char) :=
  match settled with
  | (none, state) => decodeFrom start state bytes
  | (some char, state) =>
    (decodeFrom (start + char.utf8Size) state bytes).map fun chars => char :: chars

theorem decodeFrom_cons (start : Nat) (state : State) (byte : UInt8) (rest : List UInt8) :
    decodeFrom start state (byte :: rest) =
      match step state byte with
      | .error length => .error ⟨start, .invalid length⟩
      | .ok settled => goOn start settled rest := by
  rw [decodeFrom]
  rcases step state byte with length | ⟨_ | char, after⟩ <;> rfl

/-- A byte that is due is taken into the character, and any other one ends it as invalid. -/
theorem goOn_settle_cons (start : Nat) (due : ByteRange) (later : List ByteRange)
    (taken code : Nat) (byte : UInt8) (bytes : List UInt8) :
    goOn start (settle (due :: later) taken code) (byte :: bytes) =
      if due.contains byte then
        goOn start (settle later (taken + 1) (code * 64 + byte.toNat % 64)) bytes
      else .error ⟨start, .invalid taken⟩ := by
  show decodeFrom start (.inside due later taken code) (byte :: bytes) = _
  rw [decodeFrom_cons]
  by_cases holds : due.contains byte = true
  · simp only [step, holds, if_true]
  · simp only [step, holds, if_false, Bool.false_eq_true]

/-- What is owed has come: the character is complete. -/
theorem goOn_of_fits {owed : List ByteRange} {body : List UInt8} (fits : Fits owed body)
    (start taken code : Nat) (rest : List UInt8) :
    goOn start (settle owed taken code) (body ++ rest) =
      goOn start (some (Char.ofNat
        (body.foldl (fun code byte => code * 64 + byte.toNat % 64) code)), .between) rest := by
  induction fits generalizing taken code with
  | nil => rfl
  | cons holds _ ih =>
    rw [List.cons_append, goOn_settle_cons, if_pos holds]
    exact ih _ _

/-- What is owed comes, or the character is bad wherever it begins. -/
theorem goOn_cases (owed : List ByteRange) (taken code : Nat) (bytes : List UInt8) :
    (∃ body rest, bytes = body ++ rest ∧ Fits owed body) ∨
      ∃ defect, ∀ start, goOn start (settle owed taken code) bytes = .error ⟨start, defect⟩ := by
  induction owed generalizing taken code bytes with
  | nil => exact .inl ⟨[], bytes, rfl, .nil⟩
  | cons due later ih =>
    cases bytes with
    | nil => exact .inr ⟨.truncated, fun _ => rfl⟩
    | cons byte bytes =>
      simp only [goOn_settle_cons]
      by_cases holds : due.contains byte = true
      · simp only [if_pos holds]
        rcases ih (taken + 1) (code * 64 + byte.toNat % 64) bytes with
          ⟨body, rest, rfl, hfits⟩ | hbad
        · exact .inl ⟨byte :: body, rest, rfl, .cons holds hfits⟩
        · exact .inr hbad
      · exact .inr ⟨.invalid taken, fun _ => if_neg holds⟩

/-- An encoded character is decoded, whatever comes after it. -/
theorem decodeFrom_encodeChar (start : Nat) (char : Char) (rest : List UInt8) :
    decodeFrom start .between (String.utf8EncodeChar char ++ rest) =
      (decodeFrom (start + (String.utf8EncodeChar char).length) .between rest).map
        fun chars => char :: chars := by
  obtain ⟨shape, hknown, first, body, hbegins, hfits, hencode⟩ := exists_shape char
  have hcode : Char.ofNat (codeOf shape first body) = char :=
    encodeChar_injective ((encodeChar_of_shape hknown hbegins hfits).trans hencode.symm)
  rw [String.length_utf8EncodeChar, hencode, List.cons_append, decodeFrom_cons]
  simp only [step, find?_shape hknown hbegins]
  rw [goOn_of_fits hfits]
  show goOn start (some (Char.ofNat (codeOf shape first body)), .between) rest = _
  rw [hcode]
  rfl

/-- Bytes begin with a character, or with one that is bad wherever it begins. -/
theorem decodeFrom_between_cases (first : UInt8) (bytes : List UInt8) :
    (∃ char rest, first :: bytes = String.utf8EncodeChar char ++ rest) ∨
      ∃ defect, ∀ start, decodeFrom start .between (first :: bytes) = .error ⟨start, defect⟩ := by
  simp only [decodeFrom_cons, step]
  cases hfind : shapes.find? fun shape => shape.lead.contains first with
  | none => exact .inr ⟨.invalid 1, fun _ => rfl⟩
  | some shape =>
    have hbegins : shape.lead.contains first = true :=
      List.find?_some (p := fun shape : Shape => shape.lead.contains first) hfind
    rcases goOn_cases shape.owed 1 (leadBits shape.owed first) bytes with
      ⟨body, rest, rfl, hfits⟩ | hbad
    · refine .inl ⟨Char.ofNat (codeOf shape first body), rest, ?_⟩
      rw [encodeChar_of_shape (List.mem_of_find?_eq_some hfind) hbegins hfits]
      rfl
    · exact .inr hbad

/-! ## Decoding many characters -/

/-- Encoded characters are decoded, and the rest is decoded from where they end. -/
theorem decodeFrom_encode_append (start : Nat) (chars : List Char) (rest : List UInt8) :
    decodeFrom start .between (encode chars ++ rest) =
      (decodeFrom (start + (encode chars).length) .between rest).map (chars ++ ·) := by
  induction chars generalizing start with
  | nil =>
    simp only [encode_nil, List.nil_append, List.length_nil, Nat.add_zero]
    cases decodeFrom start .between rest <;> rfl
  | cons char chars ih =>
    rw [encode_cons, List.append_assoc, decodeFrom_encodeChar, ih, List.length_append,
      Nat.add_assoc]
    cases decodeFrom _ .between rest <;> rfl

/-- Bytes stand for characters, or after some characters comes a bad one. -/
theorem decodeFrom_cases (bytes : List UInt8) :
    (∃ chars, encode chars = bytes ∧ ∀ start, decodeFrom start .between bytes = .ok chars) ∨
      ∃ chars rest defect, encode chars ++ rest = bytes ∧
        ∀ start, decodeFrom start .between bytes =
          .error ⟨start + (encode chars).length, defect⟩ := by
  induction hlength : bytes.length using Nat.strongRecOn generalizing bytes with
  | ind length ih =>
    subst hlength
    cases bytes with
    | nil => exact .inl ⟨[], rfl, fun _ => rfl⟩
    | cons first bytes =>
      rcases decodeFrom_between_cases first bytes with ⟨char, rest, hchar⟩ | ⟨defect, hbad⟩
      · have hshorter : rest.length < (first :: bytes).length := by
          rw [hchar, List.length_append, String.length_utf8EncodeChar]
          have hpos := char.utf8Size_pos
          omega
        rw [hchar]
        simp only [decodeFrom_encodeChar]
        rcases ih rest.length hshorter rest rfl with
          ⟨chars, rfl, hok⟩ | ⟨chars, bad, defect, rfl, hbad⟩
        · refine .inl ⟨char :: chars, encode_cons char chars, fun start => ?_⟩
          rw [hok]
          rfl
        · refine .inr ⟨char :: chars, bad, defect, by simp, fun start => ?_⟩
          rw [hbad, encode_cons, List.length_append, Nat.add_assoc]
          rfl
      · exact .inr ⟨[], first :: bytes, defect, rfl, hbad⟩

theorem decode_encode (chars : List Char) : decode (encode chars) = .ok chars := by
  have happend := decodeFrom_encode_append 0 chars []
  rw [List.append_nil] at happend
  rw [decode, happend]
  exact congrArg Except.ok (List.append_nil chars)

/-- Decoding undoes encoding, and nothing else is decoded. -/
theorem decode_eq_ok_iff {bytes : List UInt8} {chars : List Char} :
    decode bytes = .ok chars ↔ encode chars = bytes := by
  constructor
  · intro hdecode
    rcases decodeFrom_cases bytes with ⟨others, hencode, hok⟩ | ⟨_, _, _, _, hbad⟩
    · rw [decode, hok 0] at hdecode
      cases hdecode
      exact hencode
    · rw [decode, hbad 0] at hdecode
      cases hdecode
  · rintro rfl
    exact decode_encode chars

theorem encode_injective {chars others : List Char} (same : encode chars = encode others) :
    chars = others := by
  have hdecode := decode_encode chars
  rw [same, decode_encode] at hdecode
  exact (Except.ok.inj hdecode).symm

theorem exists_decode_eq_error_iff {bytes : List UInt8} :
    (∃ error, decode bytes = .error error) ↔ ¬ WellFormed bytes := by
  constructor
  · rintro ⟨error, herror⟩ ⟨chars, hchars⟩
    rw [decode_eq_ok_iff.2 hchars] at herror
    cases herror
  · intro hbad
    cases hdecode : decode bytes with
    | ok chars => exact absurd ⟨chars, decode_eq_ok_iff.1 hdecode⟩ hbad
    | error error => exact ⟨error, rfl⟩

/-- What is not well-formed is refused behind its longest front that is. -/
theorem isGreatest_validUpTo {bytes : List UInt8} {error : Error}
    (refused : decode bytes = .error error) :
    IsGreatest {length | length ≤ bytes.length ∧ WellFormed (bytes.take length)}
      error.validUpTo := by
  constructor
  · rcases decodeFrom_cases bytes with ⟨_, _, hok⟩ | ⟨chars, rest, defect, rfl, hbad⟩
    · rw [decode, hok 0] at refused
      cases refused
    · rw [decode, hbad 0, Nat.zero_add] at refused
      cases refused
      exact ⟨by simp, chars, by simp⟩
  · rintro length ⟨hlength, chars, hchars⟩
    -- Decoding goes through every well-formed front, and can only stop behind it.
    have hrest := decodeFrom_encode_append 0 chars (bytes.drop length)
    rw [hchars, List.take_append_drop, List.length_take_of_le hlength, Nat.zero_add] at hrest
    rw [decode, hrest] at refused
    rcases decodeFrom_cases (bytes.drop length) with ⟨_, _, hok⟩ | ⟨more, _, _, _, hbad⟩
    · rw [hok] at refused
      cases refused
    · rw [hbad] at refused
      cases refused
      exact Nat.le_add_right _ _

/-- A well-formed front of the bytes moves what is wrong behind it, and changes nothing else. -/
theorem decode_append {front : List UInt8} {chars : List Char} (encoded : encode chars = front)
    (back : List UInt8) :
    decode (front ++ back) =
      match decode back with
      | .ok more => .ok (chars ++ more)
      | .error error => .error ⟨front.length + error.validUpTo, error.defect⟩ := by
  subst encoded
  rw [decode, decode, decodeFrom_encode_append]
  rcases decodeFrom_cases back with ⟨_, _, hok⟩ | ⟨_, _, _, _, hbad⟩
  · rw [hok, hok]
    rfl
  · rw [hbad, hbad, Nat.zero_add, Nat.zero_add]
    rfl

end Primer.Text.Utf8
