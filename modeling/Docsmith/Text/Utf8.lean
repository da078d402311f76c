import Docsmith.Text.Quoted

namespace Docsmith.Text

/-!
# Text as bytes

Source files are bytes.  Names and comments inside them are read as UTF-8, and a byte sequence
that is not UTF-8 is a fault with a position and a reason.

* `encode`: the bytes of a text.
* `Rune.read`: the first character of a byte sequence with the number of bytes it takes.
* `decode`: the text of a byte sequence, or the first fault.
* `DecodeFault.message`: the wording of a fault, by its position and reason.
-/

/-- The bytes of a text. -/
def encodeChars (cs : List Char) : List UInt8 :=
  cs.flatMap String.utf8EncodeChar

/-- The bytes of a text. -/
def encode (s : String) : List UInt8 :=
  encodeChars s.toList

/-- Why bytes are not a character. -/
inductive DecodeReason where
  | invalidStart
  | invalidContinuation
  | unexpectedEnd

/-- A byte sequence that is not text: the bytes before it, those in fault, and the reason. -/
structure DecodeFault where
  position : Nat
  length : Nat
  firstByte : UInt8
  reason : DecodeReason

/-- The byte continues a character. -/
def isContinuation (b : UInt8) : Bool :=
  0x80 ≤ b && b < 0xc0

/-- The six value bits of a continuation byte. -/
def lowBits (b : UInt8) : Nat :=
  b.toNat % 0x40

/-- The second byte may follow the first of a three-byte character. -/
def validSecondOfThree (a b : UInt8) : Bool :=
  isContinuation b && !(if b < 0xa0 then a == 0xe0 else a == 0xed)

/-- The second byte may follow the first of a four-byte character. -/
def validSecondOfFour (a b : UInt8) : Bool :=
  isContinuation b && !(if b < 0x90 then a == 0xf0 else a == 0xf4)

/-- What stands at the head of a byte sequence: a character of some bytes, or a fault of some. -/
inductive Rune where
  | char (code : Nat) (size : Nat)
  | fault (size : Nat) (reason : DecodeReason)

/-- Reads the character at the head of `a :: rest`. -/
def Rune.read (a : UInt8) (rest : List UInt8) : Rune :=
  if a < 0x80 then .char a.toNat 1
  else if a < 0xc2 then .fault 1 .invalidStart
  else if a < 0xe0 then
    match rest with
    | [] => .fault 1 .unexpectedEnd
    | b :: _ =>
      if isContinuation b then .char ((a.toNat - 0xc0) * 0x40 + lowBits b) 2
      else .fault 1 .invalidContinuation
  else if a < 0xf0 then
    match rest with
    | [] => .fault 1 .unexpectedEnd
    | b :: more =>
      if !validSecondOfThree a b then .fault 1 .invalidContinuation
      else match more with
        | [] => .fault 2 .unexpectedEnd
        | c :: _ =>
          if isContinuation c then
            .char (((a.toNat - 0xe0) * 0x40 + lowBits b) * 0x40 + lowBits c) 3
          else .fault 2 .invalidContinuation
  else if a < 0xf5 then
    match rest with
    | [] => .fault 1 .unexpectedEnd
    | b :: more =>
      if !validSecondOfFour a b then .fault 1 .invalidContinuation
      else match more with
        | [] => .fault 2 .unexpectedEnd
        | c :: more =>
          if !isContinuation c then .fault 2 .invalidContinuation
          else match more with
            | [] => .fault 3 .unexpectedEnd
            | d :: _ =>
              if isContinuation d then
                .char ((((a.toNat - 0xf0) * 0x40 + lowBits b) * 0x40 + lowBits c) * 0x40
                  + lowBits d) 4
              else .fault 3 .invalidContinuation
  else .fault 1 .invalidStart

/-- Decodes the bytes from a position on; `skip` bytes belong to the character before. -/
def decodeFrom : Nat → Nat → List UInt8 → Except DecodeFault (List Char)
  | _, _, [] => .ok []
  | position, skip + 1, _ :: rest => decodeFrom (position + 1) skip rest
  | position, 0, a :: rest =>
    match Rune.read a rest with
    | .char code size => do
      let cs ← decodeFrom (position + 1) (size - 1) rest
      return Char.ofNat code :: cs
    | .fault length reason => .error ⟨position, length, a, reason⟩

/-- The characters of a byte sequence, or the first place where it is not UTF-8. -/
def decodeChars (bytes : List UInt8) : Except DecodeFault (List Char) :=
  decodeFrom 0 0 bytes

/-- The text of a byte sequence, or the first place where it is not UTF-8. -/
def decode (bytes : List UInt8) : Except DecodeFault String :=
  (decodeChars bytes).map String.ofList

/-- The reason of a fault in words. -/
def DecodeReason.message : DecodeReason → String
  | .invalidStart => "invalid start byte"
  | .invalidContinuation => "invalid continuation byte"
  | .unexpectedEnd => "unexpected end of data"

/-- A fault in words: one byte is shown, of several only their positions. -/
def DecodeFault.message (f : DecodeFault) : String :=
  if f.length == 1 then
    "'utf-8' codec can't decode byte 0x" ++ String.ofList (hexDigits 2 f.firstByte.toNat)
      ++ " in position " ++ toString f.position ++ ": " ++ f.reason.message
  else
    "'utf-8' codec can't decode bytes in position " ++ toString f.position ++ "-"
      ++ toString (f.position + f.length - 1) ++ ": " ++ f.reason.message

end Docsmith.Text
