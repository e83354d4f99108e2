import DocSignature.Text.Quoted

/-!
# Bytes of UTF-8

Decoding that says where and why it fails. Only shortest forms of scalar values are accepted.
-/

namespace DocSignature.Text

/-- Why a byte sequence is not UTF-8. -/
inductive DecodeReason where
  | invalidStart
  | invalidContinuation
  | unexpectedEnd

/-- A failed decoding: the bytes from `start` to before `stop` are the culprits, and `byte` is the
first of them. -/
structure DecodeError where
  start : Nat
  stop : Nat
  byte : UInt8
  reason : DecodeReason

def DecodeReason.text : DecodeReason → String
  | .invalidStart => "invalid start byte"
  | .invalidContinuation => "invalid continuation byte"
  | .unexpectedEnd => "unexpected end of data"

def DecodeError.message (e : DecodeError) : String :=
  let culprit :=
    if e.stop = e.start + 1 then
      "byte 0x" ++ String.ofList (hex 2 e.byte.toNat) ++ " in position " ++ toString e.start
    else "bytes in position " ++ toString e.start ++ "-" ++ toString (e.stop - 1)
  "'utf-8' codec can't decode " ++ culprit ++ ": " ++ e.reason.text

/-- The number of bytes that follow the first byte of a character; a byte that starts none has no
answer. -/
def followers? (b : UInt8) : Option Nat :=
  if b < 0x80 then some 0
  else if b < 0xC2 then none
  else if b < 0xE0 then some 1
  else if b < 0xF0 then some 2
  else if b < 0xF5 then some 3
  else none

/-- Holds when `c` continues a character. -/
def continues (c : UInt8) : Bool :=
  0x80 ≤ c && c < 0xC0

/-- Holds when `c` may follow the first byte `b`: shortest forms only, no surrogates, nothing past
the last code point. -/
def followsFirst (b c : UInt8) : Bool :=
  continues c &&
    (if b = 0xE0 then 0xA0 ≤ c
     else if b = 0xED then c < 0xA0
     else if b = 0xF0 then 0x90 ≤ c
     else if b = 0xF4 then c < 0x90
     else true)

/-- The six low bits of a continuation byte. -/
def payload (c : UInt8) : Nat := c.toNat % 64

/-- The characters written by the bytes from offset `pos` on. -/
def decodeFrom (pos : Nat) : List UInt8 → Except DecodeError (List Char)
  | [] => .ok []
  | b :: rest =>
    match followers? b with
    | none => .error ⟨pos, pos + 1, b, .invalidStart⟩
    | some 0 => (decodeFrom (pos + 1) rest).map (Char.ofNat b.toNat :: ·)
    | some 1 =>
      match rest with
      | [] => .error ⟨pos, pos + 1, b, .unexpectedEnd⟩
      | c :: rest =>
        if followsFirst b c then
          (decodeFrom (pos + 2) rest).map (Char.ofNat (b.toNat % 32 * 64 + payload c) :: ·)
        else .error ⟨pos, pos + 1, b, .invalidContinuation⟩
    | some 2 =>
      match rest with
      | [] => .error ⟨pos, pos + 1, b, .unexpectedEnd⟩
      | c :: rest =>
        if !followsFirst b c then .error ⟨pos, pos + 1, b, .invalidContinuation⟩
        else match rest with
          | [] => .error ⟨pos, pos + 2, b, .unexpectedEnd⟩
          | d :: rest =>
            if continues d then
              (decodeFrom (pos + 3) rest).map
                (Char.ofNat ((b.toNat % 16 * 64 + payload c) * 64 + payload d) :: ·)
            else .error ⟨pos, pos + 2, b, .invalidContinuation⟩
    | some _ =>
      match rest with
      | [] => .error ⟨pos, pos + 1, b, .unexpectedEnd⟩
      | c :: rest =>
        if !followsFirst b c then .error ⟨pos, pos + 1, b, .invalidContinuation⟩
        else match rest with
          | [] => .error ⟨pos, pos + 2, b, .unexpectedEnd⟩
          | d :: rest =>
            if !continues d then .error ⟨pos, pos + 2, b, .invalidContinuation⟩
            else match rest with
              | [] => .error ⟨pos, pos + 3, b, .unexpectedEnd⟩
              | e :: rest =>
                if continues e then
                  (decodeFrom (pos + 4) rest).map
                    (Char.ofNat
                      (((b.toNat % 8 * 64 + payload c) * 64 + payload d) * 64 + payload e) :: ·)
                else .error ⟨pos, pos + 3, b, .invalidContinuation⟩

/-- The text that a byte sequence writes. -/
def decodeUtf8 (bytes : List UInt8) : Except DecodeError (List Char) :=
  decodeFrom 0 bytes

end DocSignature.Text
