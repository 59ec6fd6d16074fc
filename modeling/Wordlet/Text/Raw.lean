import Wordlet.Text.Quoted

/-!
# Raw texts

The arguments of a command line and the names of files are bytes. They are read as UTF-8, and a byte
that belongs to no character is kept as it is. A raw text is what comes of that: characters, and
stray bytes among them.

A stray byte has no encoding, so a raw text that holds one cannot be written to a file or to the
output. Messages show it by an escape.

* `Raw.encode` — the text that can be written, or what stands in the way.
* `Raw.shown`, `Raw.quoted` — how a raw text looks in messages.
* `Raw.encode_eq_ok_iff` — the raw texts that can be written are the texts.
-/

namespace Wordlet

/-- A part of a raw text: a character, or a byte that belongs to none. -/
inductive Piece where
  | char (c : Char)
  | stray (byte : UInt8)
deriving DecidableEq, Repr, Inhabited

namespace Piece

/-- How many bytes the part was read from. -/
def size : Piece → Nat
  | char c => c.utf8Size
  | stray _ => 1

/-- The part is a stray byte. -/
def isStray : Piece → Bool
  | char _ => false
  | stray _ => true

/-- The part in a message. -/
def shown : Piece → List Char
  | char c => [c]
  | stray b => '\\' :: 'u' :: Text.hex 4 (0xdc00 + b.toNat)

/-- The part between quotes `q`. -/
def quoted (q : Char) : Piece → List Char
  | char c => Text.quoteChar q c
  | stray b => shown (stray b)

end Piece

/-- A text that may hold stray bytes. -/
structure Raw where
  pieces : List Piece
deriving DecidableEq, Repr, Inhabited

namespace Raw

/-- Why a raw text cannot be written: the first of its stray bytes, how many parts stand before it
and how many stray bytes follow one another there. -/
structure EncodeError where
  byte : UInt8
  offset : Nat
  count : Nat
deriving DecidableEq, Repr

/-- The raw text without stray bytes. -/
def ofString (s : String) : Raw := ⟨s.toList.map .char⟩

instance : Coe String Raw := ⟨ofString⟩

instance : Append Raw := ⟨fun t u => ⟨t.pieces ++ u.pieces⟩⟩

/-- There are no characters and no bytes. -/
def isEmpty (t : Raw) : Bool := t.pieces.isEmpty

/-- The number of bytes. -/
def byteSize (t : Raw) : Nat := t.pieces.foldl (fun n p => n + p.size) 0

/-- The raw text in a message. -/
def shown (t : Raw) : String := String.ofList (t.pieces.flatMap Piece.shown)

/-- The raw text between quotes. -/
def quoted (t : Raw) : String :=
  let q := Text.quoteFor (t.pieces.flatMap Piece.shown)
  String.ofList (q :: (t.pieces.flatMap (Piece.quoted q) ++ [q]))

/-- The characters of parts of a raw text, before which `offset` parts stand. -/
def encodeFrom (offset : Nat) : List Piece → Except EncodeError (List Char)
  | [] => .ok []
  | .char c :: ps =>
    match encodeFrom (offset + 1) ps with
    | .ok cs => .ok (c :: cs)
    | .error e => .error e
  | .stray b :: ps => .error ⟨b, offset, 1 + (ps.takeWhile Piece.isStray).length⟩

/-- The text that can be written, or what stands in the way. -/
def encode (t : Raw) : Except EncodeError String :=
  match encodeFrom 0 t.pieces with
  | .ok cs => .ok (String.ofList cs)
  | .error e => .error e

/-- The text, if there are no stray bytes. -/
def text? (t : Raw) : Option String := t.encode.toOption

/-- The wording of an encoding error. -/
def EncodeError.text (e : EncodeError) : String :=
  let place :=
    if e.count = 1 then
      "character '" ++ String.ofList (Piece.stray e.byte).shown ++ "' in position " ++
        toString e.offset
    else
      "characters in position " ++ toString e.offset ++ "-" ++ toString (e.offset + e.count - 1)
  "'utf-8' codec can't encode " ++ place ++ ": surrogates not allowed"

/-! ## Texts -/

@[simp] theorem pieces_ofString (s : String) : (ofString s).pieces = s.toList.map .char := rfl

/-- A text begins with a character if its parts do. -/
theorem head?_pieces_ofString {s : String} {c : Char} :
    (ofString s).pieces.head? = some (.char c) ↔ s.toList.head? = some c := by
  rw [pieces_ofString, List.head?_map]
  cases s.toList.head? <;> simp

theorem ofString_ofList (cs : List Char) : ofString (String.ofList cs) = ⟨cs.map .char⟩ := by
  rw [ofString, String.toList_ofList]

theorem ofString_append (s t : String) : ofString (s ++ t) = ofString s ++ ofString t := by
  rw [ofString, String.toList_append, List.map_append]
  rfl

@[simp] theorem shown_ofString (s : String) : (ofString s).shown = s := by
  simp [shown, Piece.shown, List.flatMap_map]

theorem encodeFrom_map_char (offset : Nat) (cs : List Char) :
    encodeFrom offset (cs.map .char) = .ok cs := by
  induction cs generalizing offset with
  | nil => rfl
  | cons c cs ih => rw [List.map_cons, encodeFrom, ih]

theorem eq_map_char_of_encodeFrom {offset : Nat} {ps : List Piece} {cs : List Char}
    (h : encodeFrom offset ps = .ok cs) : ps = cs.map .char := by
  induction ps generalizing offset cs with
  | nil =>
    cases h
    rfl
  | cons p ps ih =>
    cases p with
    | stray b => cases h
    | char c =>
      rw [encodeFrom] at h
      split at h
      · next rest hrest =>
        cases h
        rw [ih hrest, List.map_cons]
      · cases h

@[simp] theorem encode_ofString (s : String) : (ofString s).encode = .ok s := by
  rw [encode, pieces_ofString, encodeFrom_map_char]
  simp only [String.ofList_toList]

/-- **The raw texts that can be written are the texts.** -/
theorem encode_eq_ok_iff {t : Raw} {s : String} : t.encode = .ok s ↔ t = s := by
  constructor
  · intro h
    obtain ⟨ps⟩ := t
    unfold encode at h
    split at h
    · next cs hcs =>
      cases h
      rw [ofString_ofList, ← eq_map_char_of_encodeFrom hcs]
    · cases h
  · rintro rfl
    exact encode_ofString s

@[simp] theorem text?_ofString (s : String) : (ofString s).text? = some s := by
  rw [text?, encode_ofString]
  rfl

end Raw

end Wordlet
