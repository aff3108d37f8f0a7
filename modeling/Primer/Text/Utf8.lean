/-!
# Reading and writing UTF-8

The decoder goes through bytes one at a time. Between characters it accepts a byte that can begin
one, and the table `shapes` says which bytes have to follow; inside a character it accepts only a
byte of the range that is due. The table leaves no room for overlong forms, surrogates and numbers
above U+10FFFF, so what it accepts is exactly what the encoder writes.

An error tells how many bytes before the offending character were good, and either the length of
the part of it that could have begun a character, or that the bytes ended inside it.
-/

namespace Primer.Text.Utf8

/-- The bytes from `low` to `high`. -/
structure ByteRange where
  low : UInt8
  high : UInt8
deriving Repr, DecidableEq

/-- Whether a byte lies in a range. -/
def ByteRange.contains (range : ByteRange) (byte : UInt8) : Bool :=
  range.low ≤ byte && byte ≤ range.high

/-- The bytes that continue a character. -/
def continuation : ByteRange := ⟨0x80, 0xBF⟩

/-- How the characters that begin with a byte of `lead` go on. -/
structure Shape where
  lead : ByteRange
  /-- The ranges of the bytes after the first, in order. -/
  owed : List ByteRange
deriving Repr, DecidableEq

/-- The shapes of all characters. -/
def shapes : List Shape := [
  ⟨⟨0x00, 0x7F⟩, []⟩,
  ⟨⟨0xC2, 0xDF⟩, [continuation]⟩,
  ⟨⟨0xE0, 0xE0⟩, [⟨0xA0, 0xBF⟩, continuation]⟩,
  ⟨⟨0xE1, 0xEC⟩, [continuation, continuation]⟩,
  ⟨⟨0xED, 0xED⟩, [⟨0x80, 0x9F⟩, continuation]⟩,
  ⟨⟨0xEE, 0xEF⟩, [continuation, continuation]⟩,
  ⟨⟨0xF0, 0xF0⟩, [⟨0x90, 0xBF⟩, continuation, continuation]⟩,
  ⟨⟨0xF1, 0xF3⟩, [continuation, continuation, continuation]⟩,
  ⟨⟨0xF4, 0xF4⟩, [⟨0x80, 0x8F⟩, continuation, continuation]⟩]

/-- The bits that a first byte adds to the code of its character. -/
def leadBits (owed : List ByteRange) (byte : UInt8) : Nat :=
  match owed.length with
  | 0 => byte.toNat
  | 1 => byte.toNat % 32
  | 2 => byte.toNat % 16
  | _ => byte.toNat % 8

/-- Where a decoder stands. -/
inductive State where
  /-- Between two characters. -/
  | between
  /-- Inside a character, after `taken` bytes with the bits `code`: a byte of `due` has to come
  next, and then bytes of `later`. -/
  | inside (due : ByteRange) (later : List ByteRange) (taken code : Nat)
deriving Repr, DecidableEq

/-- The state after some bytes of a character, and the character if nothing more is owed. -/
def settle (owed : List ByteRange) (taken code : Nat) : Option Char × State :=
  match owed with
  | [] => (some (Char.ofNat code), .between)
  | due :: later => (none, .inside due later taken code)

/-- Take one byte, or tell the length of the sequence that it shows to be invalid. -/
def step (state : State) (byte : UInt8) : Except Nat (Option Char × State) :=
  match state with
  | .between =>
    match shapes.find? fun shape => shape.lead.contains byte with
    | some shape => .ok (settle shape.owed 1 (leadBits shape.owed byte))
    | none => .error 1
  | .inside due later taken code =>
    if due.contains byte then
      .ok (settle later (taken + 1) (code * 64 + byte.toNat % 64))
    else
      .error taken

/-- What is wrong with a character. -/
inductive Defect where
  /-- Its first `length` bytes can begin no character together with the byte after them. -/
  | invalid (length : Nat)
  /-- The bytes end inside it. -/
  | truncated
deriving Repr, DecidableEq

/-- Why bytes are not UTF-8: after `validUpTo` good bytes comes a bad character. -/
structure Error where
  validUpTo : Nat
  defect : Defect
deriving Repr, DecidableEq

/-- The text shown for bytes that are not UTF-8. -/
def Error.message (error : Error) : String :=
  match error.defect with
  | .invalid length =>
    "invalid utf-8 sequence of " ++ toString length ++ " bytes from index " ++
      toString error.validUpTo
  | .truncated => "incomplete utf-8 byte sequence from index " ++ toString error.validUpTo

/-- Decode from a state on, in a character that began at `start`. -/
def decodeFrom (start : Nat) (state : State) : List UInt8 → Except Error (List Char)
  | [] =>
    match state with
    | .between => .ok []
    | .inside .. => .error ⟨start, .truncated⟩
  | byte :: rest =>
    match step state byte with
    | .error length => .error ⟨start, .invalid length⟩
    | .ok (none, state) => decodeFrom start state rest
    | .ok (some char, state) =>
      (decodeFrom (start + char.utf8Size) state rest).map fun chars => char :: chars

/-- The characters that bytes stand for. -/
def decode (bytes : List UInt8) : Except Error (List Char) := decodeFrom 0 .between bytes

/-- The bytes that stand for characters. -/
def encode (chars : List Char) : List UInt8 := chars.flatMap String.utf8EncodeChar

end Primer.Text.Utf8
