/-!
# Strict UTF-8

Every character has exactly one encoding: no overlong forms, no surrogates, nothing above the last
code point. The range that the lead byte allows for the second byte enforces this.

* `decodeUtf8` — the characters of a byte sequence, or its first malformed part.
* `encodeUtf8` — the bytes of a text.
-/

namespace Wordlet.Text

/-- Why a byte sequence is no encoding. -/
inductive Utf8Flaw where
  /-- A byte that begins no character. -/
  | start
  /-- A byte that cannot continue the character begun before it. -/
  | continuation
  /-- The bytes end inside a character. -/
  | truncated
deriving DecidableEq, Repr

/-- The first malformed part: `count` bytes from the offset `offset` on, the first being `lead`. -/
structure Utf8Error where
  lead : UInt8
  offset : Nat
  count : Nat
  flaw : Utf8Flaw
deriving DecidableEq, Repr

/-- How many bytes follow a lead byte, and the range of the first of them. -/
def utf8Tail? (lead : UInt8) : Option (Nat × UInt8 × UInt8) :=
  if lead < 0x80 then some (0, 0x80, 0xbf)
  else if lead < 0xc2 then none
  else if lead < 0xe0 then some (1, 0x80, 0xbf)
  else if lead = 0xe0 then some (2, 0xa0, 0xbf)
  else if lead = 0xed then some (2, 0x80, 0x9f)
  else if lead < 0xf0 then some (2, 0x80, 0xbf)
  else if lead = 0xf0 then some (3, 0x90, 0xbf)
  else if lead < 0xf4 then some (3, 0x80, 0xbf)
  else if lead = 0xf4 then some (3, 0x80, 0x8f)
  else none

/-- The bits that a lead byte contributes. -/
def utf8LeadBits (lead : UInt8) : Nat :=
  if lead < 0x80 then lead.toNat
  else if lead < 0xe0 then lead.toNat % 0x20
  else if lead < 0xf0 then lead.toNat % 0x10
  else lead.toNat % 8

/-- The state of decoding between two bytes: inside a character begun by `lead` with `seen` bytes
so far, `missing` more to come, the next of them between `low` and `high`, or between characters
when `missing` is zero. -/
structure Utf8State where
  lead : UInt8 := 0
  seen : Nat := 0
  missing : Nat := 0
  low : UInt8 := 0x80
  high : UInt8 := 0xbf
  value : Nat := 0
deriving Repr, Inhabited

/-- The characters of `bytes`, read from `state` at offset `offset`. -/
def decodeUtf8From (state : Utf8State) (offset : Nat) : List UInt8 → Except Utf8Error (List Char)
  | [] =>
    if state.missing = 0 then .ok []
    else .error ⟨state.lead, offset - state.seen, state.seen, .truncated⟩
  | b :: bytes =>
    if state.missing = 0 then
      match utf8Tail? b with
      | none => .error ⟨b, offset, 1, .start⟩
      | some (0, _, _) =>
        match decodeUtf8From {} (offset + 1) bytes with
        | .ok cs => .ok (Char.ofNat b.toNat :: cs)
        | .error e => .error e
      | some (more + 1, low, high) =>
        decodeUtf8From ⟨b, 1, more + 1, low, high, utf8LeadBits b⟩ (offset + 1) bytes
    else if state.low ≤ b ∧ b ≤ state.high then
      let value := 0x40 * state.value + b.toNat % 0x40
      if state.missing = 1 then
        match decodeUtf8From {} (offset + 1) bytes with
        | .ok cs => .ok (Char.ofNat value :: cs)
        | .error e => .error e
      else
        decodeUtf8From ⟨state.lead, state.seen + 1, state.missing - 1, 0x80, 0xbf, value⟩
          (offset + 1) bytes
    else .error ⟨state.lead, offset - state.seen, state.seen, .continuation⟩

/-- The characters that `bytes` encode, or the first malformed part of `bytes`. -/
def decodeUtf8 (bytes : List UInt8) : Except Utf8Error (List Char) := decodeUtf8From {} 0 bytes

/-- The bytes that encode a text. -/
def encodeUtf8 (s : String) : List UInt8 := s.toUTF8.toList

namespace Utf8Flaw

/-- The wording of a flaw. -/
def message : Utf8Flaw → String
  | start => "invalid start byte"
  | continuation => "invalid continuation byte"
  | truncated => "unexpected end of data"

end Utf8Flaw

end Wordlet.Text
