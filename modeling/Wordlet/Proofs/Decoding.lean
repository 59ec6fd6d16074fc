import Mathlib.Data.List.Basic
import Mathlib.Order.Bounds.Defs
import Wordlet.Proofs.Utf8
import Wordlet.SourceFile

/-!
# What decoding accepts, and where it fails

Decoding is strict: it accepts the encodings of texts and nothing else. Between two characters it
either meets the bytes of a further character, which it reads, or fails at once, and then reports
the place where it stood. So bytes fall into the encodings of some characters and a rest at whose
start decoding stops, and no other characters are encoded in front of it.

* `exists_encodeChar`: **every byte sequence that the ranges of the decoder allow** is the encoding
  of a character.
* `decodeUtf8From_step`: decoding between two characters.
* `decodeUtf8_eq_ok_iff`: **decoding accepts exactly the encodings of texts.**
* `isGreatest_offset`: a failure is placed at the end of the longest text that the bytes begin with.
* `Files.readSource_utf8`: **the text of a source file**, and where it has none.
-/

namespace Wordlet

namespace Text

/-! ## Bytes of one character -/

/-- A code point that is no surrogate is that of a character. -/
theorem exists_val {v : Nat} (h : v < 0xd800 ∨ 0xe000 ≤ v ∧ v < 0x110000) :
    ∃ c : Char, c.val.toNat = v := by
  have hvalid : v.isValidChar := by
    unfold Nat.isValidChar
    omega
  exact ⟨Char.ofNatAux v hvalid, UInt32.toNat_ofNatLT⟩

/-- A byte that may stand behind the second byte of a character. -/
def Continues (b : UInt8) : Prop := 0x80 ≤ b ∧ b ≤ 0xbf

instance (b : UInt8) : Decidable (Continues b) := inferInstanceAs (Decidable (_ ∧ _))

theorem Continues.toNat {b : UInt8} (h : Continues b) : 128 ≤ b.toNat ∧ b.toNat ≤ 191 := h

/-- Bytes are in the order of their numbers. -/
theorem toNat_between {low high : Nat} {b : UInt8} (h : UInt8.ofNat low ≤ b ∧ b ≤ UInt8.ofNat high)
    (hlow : low < 256) (hhigh : high < 256) : low ≤ b.toNat ∧ b.toNat ≤ high := by
  rwa [UInt8.le_iff_toNat_le, UInt8.le_iff_toNat_le, UInt8.toNat_ofNat_of_lt' hlow,
    UInt8.toNat_ofNat_of_lt' hhigh] at h

/-- A byte is the one that carries the bits of its number. -/
theorem eq_ofNat {b : UInt8} {n : Nat} (h : n = b.toNat) : UInt8.ofNat n = b := by
  rw [h, UInt8.ofNat_toNat]

/-- **Bytes in the ranges of the decoder** are the encoding of a character: a lead byte, a second
byte that it allows, and as many further ones as it asks for. -/
theorem exists_encodeChar {m : Nat} {b : UInt8} {tail : List UInt8} (hm : 0xc2 ≤ m ∧ m < 0xf5)
    (hb : UInt8.ofNat (utf8Low m) ≤ b ∧ b ≤ UInt8.ofNat (utf8High m))
    (htail : ∀ b ∈ tail, Continues b) (hmore : tail.length + 1 = utf8More m) :
    ∃ c, String.utf8EncodeChar c = UInt8.ofNat m :: b :: tail := by
  -- the bounds on the second byte rule out what has a shorter encoding, surrogates and the rest
  have hsecond : 128 ≤ b.toNat ∧ b.toNat ≤ 191 ∧ (m = 0xe0 → 0xa0 ≤ b.toNat) ∧
      (m = 0xed → b.toNat < 0xa0) ∧ (m = 0xf0 → 0x90 ≤ b.toNat) ∧
      (m = 0xf4 → b.toNat < 0x90) := by
    have hnat := toNat_between hb (by unfold utf8Low; split_ifs <;> decide)
      (by unfold utf8High; split_ifs <;> decide)
    unfold utf8Low utf8High at hnat
    split_ifs at hnat <;> omega
  unfold utf8More at hmore
  split_ifs at hmore with htwo hthree
  · obtain rfl := List.length_eq_zero_iff.1 (Nat.succ.inj hmore)
    obtain ⟨v, hv⟩ : ∃ v, v = 64 * (m - 192) + (b.toNat - 128) := ⟨_, rfl⟩
    obtain ⟨c, hc⟩ := exists_val (v := v) (by omega)
    refine ⟨c, ?_⟩
    unfold String.utf8EncodeChar
    dsimp only
    rw [hc, if_neg (by omega), if_pos (by omega)]
    simp only [List.cons.injEq, and_true]
    exact ⟨congrArg _ (by omega), eq_ofNat (by omega)⟩
  · obtain ⟨b₂, rfl⟩ := List.length_eq_one_iff.1 (Nat.succ.inj hmore)
    have hb₂ := (htail b₂ (by simp)).toNat
    obtain ⟨v, hv⟩ : ∃ v, v = 4096 * (m - 224) + 64 * (b.toNat - 128) + (b₂.toNat - 128) :=
      ⟨_, rfl⟩
    obtain ⟨c, hc⟩ := exists_val (v := v) (by omega)
    refine ⟨c, ?_⟩
    unfold String.utf8EncodeChar
    dsimp only
    rw [hc, if_neg (by omega), if_neg (by omega), if_pos (by omega)]
    simp only [List.cons.injEq, and_true]
    exact ⟨congrArg _ (by omega), eq_ofNat (by omega), eq_ofNat (by omega)⟩
  · obtain ⟨b₂, b₃, rfl⟩ := List.length_eq_two.1 (Nat.succ.inj hmore)
    have hb₂ := (htail b₂ (by simp)).toNat
    have hb₃ := (htail b₃ (by simp)).toNat
    obtain ⟨v, hv⟩ : ∃ v, v = 262144 * (m - 240) + 4096 * (b.toNat - 128) +
        64 * (b₂.toNat - 128) + (b₃.toNat - 128) := ⟨_, rfl⟩
    obtain ⟨c, hc⟩ := exists_val (v := v) (by omega)
    refine ⟨c, ?_⟩
    unfold String.utf8EncodeChar
    dsimp only
    rw [hc, if_neg (by omega), if_neg (by omega), if_neg (by omega)]
    simp only [List.cons.injEq, and_true]
    exact ⟨congrArg _ (by omega), eq_ofNat (by omega), eq_ofNat (by omega), eq_ofNat (by omega)⟩

/-! ## Between two characters -/

section Steps

variable {bytes : List UInt8} {e : Utf8Error}

/-- **Inside a character** the bytes go on as the lead byte asks, or decoding fails and reports
where the character began. -/
theorem decodeUtf8From_tail (lead : UInt8) (missing : Nat) :
    ∀ (seen : Nat) (low high : UInt8) (value offset : Nat) (bytes : List UInt8),
      (∃ b tail rest, bytes = b :: (tail ++ rest) ∧ (low ≤ b ∧ b ≤ high) ∧
        (∀ b ∈ tail, Continues b) ∧ tail.length = missing) ∨
      ∃ e, decodeUtf8From ⟨lead, seen, missing + 1, low, high, value⟩ offset bytes = .error e ∧
        e.offset = offset - seen := by
  induction missing with
  | zero =>
    intro seen low high value offset bytes
    cases bytes with
    | nil => exact .inr ⟨_, rfl, rfl⟩
    | cons b bytes =>
      by_cases hb : low ≤ b ∧ b ≤ high
      · exact .inl ⟨b, [], bytes, rfl, hb, by simp, rfl⟩
      · right
        rw [decodeUtf8From, if_neg (by simp), if_neg hb]
        exact ⟨_, rfl, rfl⟩
  | succ missing ih =>
    intro seen low high value offset bytes
    cases bytes with
    | nil => exact .inr ⟨_, rfl, rfl⟩
    | cons b bytes =>
      by_cases hb : low ≤ b ∧ b ≤ high
      · rw [decodeUtf8From_continue hb]
        rcases ih (seen + 1) 0x80 0xbf _ (offset + 1) bytes with
          ⟨b', tail, rest, rfl, hb', htail, hlength⟩ | ⟨e, he, hoffset⟩
        · exact .inl ⟨b, b' :: tail, rest, rfl, hb, List.forall_mem_cons.2 ⟨hb', htail⟩,
            congrArg (· + 1) hlength⟩
        · exact .inr ⟨e, he, by omega⟩
      · right
        rw [decodeUtf8From, if_neg (by simp), if_neg hb]
        exact ⟨_, rfl, rfl⟩

/-- **Between two characters** the bytes begin with a further character, or decoding fails there. -/
theorem decodeUtf8From_step (hne : bytes ≠ []) (offset : Nat) :
    (∃ c rest, bytes = String.utf8EncodeChar c ++ rest) ∨
      ∃ e, decodeUtf8From {} offset bytes = .error e ∧ e.offset = offset := by
  obtain ⟨b, bytes, rfl⟩ := List.exists_cons_of_ne_nil hne
  obtain ⟨m, hm, rfl⟩ : ∃ m < 256, b = UInt8.ofNat m :=
    ⟨b.toNat, b.toNat_lt, UInt8.ofNat_toNat.symm⟩
  have htail := utf8Tail?_ofNat m hm
  by_cases hascii : m < 0x80
  · left
    obtain ⟨c, hc⟩ := exists_val (v := m) (by omega)
    refine ⟨c, bytes, ?_⟩
    unfold String.utf8EncodeChar
    dsimp only
    rw [hc, if_pos (by omega)]
    rfl
  rw [if_neg hascii] at htail
  by_cases hlead : 0xc2 ≤ m ∧ m < 0xf5
  · obtain ⟨more, hmore⟩ : ∃ more, utf8More m = more + 1 := by
      unfold utf8More
      split_ifs <;> exact ⟨_, rfl⟩
    rw [decodeUtf8From_lead hlead, hmore]
    rcases decodeUtf8From_tail (UInt8.ofNat m) more 1 (UInt8.ofNat (utf8Low m))
      (UInt8.ofNat (utf8High m)) (utf8Bits m) (offset + 1) bytes with
      ⟨b, tail, rest, rfl, hb, htail, hlength⟩ | ⟨e, he, hoffset⟩
    · left
      obtain ⟨c, hc⟩ := exists_encodeChar hlead hb htail (by omega)
      exact ⟨c, rest, by rw [hc]; rfl⟩
    · exact .inr ⟨e, he, hoffset⟩
  · right
    rw [if_neg hlead] at htail
    rw [decodeUtf8From, if_pos rfl, htail]
    exact ⟨_, rfl, rfl⟩

/-- **Bytes fall into characters and a rest** at whose start decoding stops. -/
theorem exists_decodeUtf8From (bytes : List UInt8) (offset : Nat) :
    ∃ (cs : List Char) (rest : List UInt8),
      bytes = cs.flatMap String.utf8EncodeChar ++ rest ∧ (rest = [] ∨
        ∃ e, decodeUtf8From {} offset bytes = .error e ∧
          e.offset = offset + (cs.flatMap String.utf8EncodeChar).length) := by
  induction hn : bytes.length using Nat.strongRecOn generalizing bytes offset with
  | ind n ih =>
    by_cases hne : bytes = []
    · exact ⟨[], [], hne, .inl rfl⟩
    rcases decodeUtf8From_step hne offset with ⟨c, rest, rfl⟩ | ⟨e, he, hoffset⟩
    · have hpos := List.length_pos_iff.2 (String.utf8EncodeChar_ne_nil (c := c))
      rw [List.length_append] at hn
      obtain ⟨cs, rest, rfl, hrest⟩ :=
        ih rest.length (by omega) rest (offset + (String.utf8EncodeChar c).length) rfl
      refine ⟨c :: cs, rest, by rw [List.flatMap_cons, List.append_assoc], ?_⟩
      rcases hrest with rfl | ⟨e, he, hoffset⟩
      · exact .inl rfl
      · refine .inr ⟨e, ?_, ?_⟩
        · rw [decodeUtf8From_encodeChar, he]
          rfl
        · rw [hoffset, List.flatMap_cons, List.length_append, Nat.add_assoc]
    · exact ⟨[], bytes, rfl, .inr ⟨e, he, hoffset⟩⟩

end Steps

/-! ## All bytes -/

section Whole

variable {bytes : List UInt8} {cs : List Char} {e : Utf8Error}

/-- **Decoding accepts exactly the encodings of texts.** -/
theorem decodeUtf8_eq_ok_iff :
    decodeUtf8 bytes = .ok cs ↔ bytes = cs.flatMap String.utf8EncodeChar := by
  constructor
  · intro h
    obtain ⟨us, rest, rfl, rfl | ⟨e, he, -⟩⟩ := exists_decodeUtf8From bytes 0
    · rw [List.append_nil] at h ⊢
      rw [decodeUtf8, decodeUtf8From_flatMap] at h
      rw [Except.ok.inj h]
    · rw [decodeUtf8, he] at h
      cases h
  · rintro rfl
    exact decodeUtf8From_flatMap cs 0

/-- The lengths of the encoded texts that the bytes begin with. -/
def textLengths (bytes : List UInt8) : Set Nat :=
  {n | ∃ u : String, encodeUtf8 u <+: bytes ∧ (encodeUtf8 u).length = n}

theorem mem_textLengths {n : Nat} : n ∈ textLengths bytes ↔
    ∃ (us : List Char) (rest : List UInt8), bytes = us.flatMap String.utf8EncodeChar ++ rest ∧
      (us.flatMap String.utf8EncodeChar).length = n := by
  constructor
  · rintro ⟨u, ⟨rest, rfl⟩, hn⟩
    rw [encodeUtf8_eq] at hn ⊢
    exact ⟨u.toList, rest, rfl, hn⟩
  · rintro ⟨us, rest, rfl, hn⟩
    refine ⟨String.ofList us, ?_, ?_⟩
    · rw [encodeUtf8_eq, String.toList_ofList]
      exact List.prefix_append _ _
    · rwa [encodeUtf8_eq, String.toList_ofList]

/-- **A failure is placed** where the longest text ends that the bytes begin with. -/
theorem isGreatest_offset (h : decodeUtf8 bytes = .error e) :
    IsGreatest (textLengths bytes) e.offset := by
  constructor
  · obtain ⟨us, rest, hbytes, hrest⟩ := exists_decodeUtf8From bytes 0
    rcases hrest with rfl | ⟨e', he', hoffset⟩
    · rw [List.append_nil] at hbytes
      rw [decodeUtf8_eq_ok_iff.2 hbytes] at h
      cases h
    · rw [decodeUtf8, he'] at h
      cases h
      exact mem_textLengths.2 ⟨us, rest, hbytes, by omega⟩
  · -- behind any text decoding goes on, and then it fails behind that text
    intro n hn
    obtain ⟨us, rest, rfl, rfl⟩ := mem_textLengths.1 hn
    rw [decodeUtf8, decodeUtf8From_append, Nat.zero_add] at h
    obtain ⟨vs, rest', hrest, hstop⟩ :=
      exists_decodeUtf8From rest (us.flatMap String.utf8EncodeChar).length
    rcases hstop with rfl | ⟨e', he', hoffset⟩
    · rw [List.append_nil] at hrest
      rw [hrest, decodeUtf8From_flatMap] at h
      cases h
    · rw [he'] at h
      cases h
      omega

end Whole

/-! ## Line ends -/

/-- The text with a newline in the place of each carriage return that a newline follows, and of this
newline. -/
def mergeReturns : List Char → List Char
  | '\r' :: '\n' :: cs => '\n' :: mergeReturns cs
  | c :: cs => c :: mergeReturns cs
  | [] => []

/-- **Line ends in two passes**: first those of two characters, then the carriage returns that are
left. -/
theorem unifyNewlines_eq_map (cs : List Char) :
    unifyNewlines cs = (mergeReturns cs).map fun c => if c = '\r' then '\n' else c := by
  unfold unifyNewlines
  fun_induction mergeReturns cs with
  | case1 cs ih =>
    have hpair : unifyNewlinesFrom false ('\r' :: '\n' :: cs) =
        '\n' :: unifyNewlinesFrom false cs := rfl
    rw [hpair, ih]
    rfl
  | case2 c cs hpair ih =>
    rw [List.map_cons, unifyNewlinesFrom, ← ih]
    by_cases hc : c = '\r'
    · -- no newline follows, so it does not matter that this is a carriage return
      have hrest : unifyNewlinesFrom true cs = unifyNewlinesFrom false cs := by
        cases cs with
        | nil => rfl
        | cons c' cs =>
          have hc' : c' ≠ '\n' := by
            rintro rfl
            exact hpair cs hc rfl
          simp only [unifyNewlinesFrom, hc', false_and, if_false]
      rw [if_pos hc, if_pos hc, hrest]
    · rw [if_neg hc, if_neg hc, if_neg (by simp)]
  | case3 => rfl

/-- The bytes encode a text exactly if they are decoded. -/
theorem decodeUtf8_eq_ok_iff_encodeUtf8 {bytes : List UInt8} {u : String} :
    decodeUtf8 bytes = .ok u.toList ↔ bytes = encodeUtf8 u := by
  rw [decodeUtf8_eq_ok_iff, encodeUtf8_eq]

end Text

/-! ## Files -/

variable {bytes : List UInt8}

/-- **The text of a content** is that of some text whose encoding the content is, with its line ends
made newlines. -/
theorem sourceText_eq_ok_iff {x : String} :
    sourceText bytes = .ok x ↔ ∃ u, bytes = Text.encodeUtf8 u ∧
      x.toList = (Text.mergeReturns u.toList).map fun c => if c = '\r' then '\n' else c := by
  unfold sourceText
  constructor
  · intro h
    cases hdecode : Text.decodeUtf8 bytes with
    | error e =>
      rw [hdecode] at h
      cases h
    | ok cs =>
      rw [hdecode] at h
      cases h
      refine ⟨String.ofList cs, ?_, ?_⟩
      · rw [← Text.decodeUtf8_eq_ok_iff_encodeUtf8, String.toList_ofList, hdecode]
      · rw [String.toList_ofList, String.toList_ofList, Text.unifyNewlines_eq_map]
  · rintro ⟨u, rfl, hx⟩
    rw [Text.decodeUtf8_encodeUtf8]
    dsimp only
    rw [Text.unifyNewlines_eq_map, ← hx, String.ofList_toList]

/-- A content that encodes no text fails where the longest text ends that it begins with. -/
theorem exists_sourceText_error (h : ¬∃ u, bytes = Text.encodeUtf8 u) :
    ∃ e, sourceText bytes = .error e ∧ IsGreatest (Text.textLengths bytes) e.offset := by
  unfold sourceText
  cases hdecode : Text.decodeUtf8 bytes with
  | error e => exact ⟨e, rfl, Text.isGreatest_offset hdecode⟩
  | ok cs =>
    refine absurd ⟨String.ofList cs, ?_⟩ h
    rw [← Text.decodeUtf8_eq_ok_iff_encodeUtf8, String.toList_ofList, hdecode]

namespace Files

variable {fs : Files} {path : Raw} {extension : String} {names : List Raw}

theorem readSource_of_file (hext : (Raw.ofString extension).pieces <:+ path.pieces)
    (hfile : fs.resolve path = .file names bytes) :
    fs.readSource path extension =
      (sourceText bytes).mapError fun e => .unreadable path (.undecodable e) := by
  unfold readSource
  rw [if_neg (not_not.2 (List.isSuffixOf_iff_suffix.2 hext)), hfile]
  cases h : sourceText bytes <;> simp only [h] <;> rfl

/-- **The text of a source file.** Let a path with the right end lead to a file. The file is read as
the text `x` exactly if its bytes are the encoding of a text of which `x` is left when each carriage
return and newline, and then each other carriage return, is made a newline. If its bytes encode no
text, reading it fails, at the end of the longest text whose encoding they begin with. -/
theorem readSource_utf8 (hext : (Raw.ofString extension).pieces <:+ path.pieces)
    (hfile : fs.resolve path = .file names bytes) :
    (∀ x, fs.readSource path extension = .ok x ↔
      ∃ u, bytes = Text.encodeUtf8 u ∧
        x.toList = (Text.mergeReturns u.toList).map fun c => if c = '\r' then '\n' else c) ∧
    ((¬∃ u, bytes = Text.encodeUtf8 u) →
      ∃ e, fs.readSource path extension = .error (.unreadable path (.undecodable e)) ∧
        IsGreatest {n | ∃ u, Text.encodeUtf8 u <+: bytes ∧ (Text.encodeUtf8 u).length = n}
          e.offset) := by
  rw [readSource_of_file hext hfile]
  constructor
  · intro x
    rw [← sourceText_eq_ok_iff]
    cases sourceText bytes <;> simp [Except.mapError]
  · intro h
    obtain ⟨e, he, hgreatest⟩ := exists_sourceText_error h
    exact ⟨e, by rw [he]; rfl, hgreatest⟩

/-- Line ends of both kinds after a character of two bytes; and the bytes of a surrogate, which no
text has, after a byte that is a text by itself. -/
theorem readSource_utf8_surrogate :
    ∃ fs : Files,
      fs.resolve "a.id" = .file ["a.id"] (Text.encodeUtf8 "é\r\r\n#") ∧
      fs.resolve "b.id" = .file ["b.id"] [0x61, 0xed, 0xa0, 0x80] ∧
      fs.readSource "a.id" ".id" = .ok "é\n\n#" ∧
      ∃ e, fs.readSource "b.id" ".id" = .error (.unreadable "b.id" (.undecodable e)) ∧
        e.offset = 1 ∧
        IsGreatest {n | ∃ u, Text.encodeUtf8 u <+: [0x61, 0xed, 0xa0, 0x80] ∧
          (Text.encodeUtf8 u).length = n} 1 := by
  let fs : Files := ⟨[], [(["a.id"], .file (Text.encodeUtf8 "é\r\r\n#")),
    (["b.id"], .file [0x61, 0xed, 0xa0, 0x80])]⟩
  have ha : fs.resolve "a.id" = .file ["a.id"] (Text.encodeUtf8 "é\r\r\n#") := by
    decide +kernel
  have hb : fs.resolve "b.id" = .file [Raw.ofString "b.id"] [0x61, 0xed, 0xa0, 0x80] := by
    decide +kernel
  have hexta : (Raw.ofString ".id").pieces <:+ (Raw.ofString "a.id").pieces := by decide
  have hextb : (Raw.ofString ".id").pieces <:+ (Raw.ofString "b.id").pieces := by decide
  have hdecode : Text.decodeUtf8 [0x61, 0xed, 0xa0, 0x80] =
      .error ⟨0xed, 1, 1, .continuation⟩ := by decide +kernel
  have hno : ¬∃ u, [0x61, 0xed, 0xa0, 0x80] = Text.encodeUtf8 u := by
    rintro ⟨u, hu⟩
    rw [hu, Text.decodeUtf8_encodeUtf8] at hdecode
    cases hdecode
  have hread : fs.readSource "b.id" ".id" =
      .error (.unreadable "b.id" (.undecodable ⟨0xed, 1, 1, .continuation⟩)) := by
    decide +kernel
  obtain ⟨e, he, hgreatest⟩ := (readSource_utf8 hextb hb).2 hno
  rw [hread] at he
  cases he
  exact ⟨fs, ha, hb, ((readSource_utf8 hexta ha).1 _).2 ⟨_, rfl, by decide⟩, _, hread, rfl,
    hgreatest⟩

end Files

end Wordlet
