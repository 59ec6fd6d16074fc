import Wordlet.SourceFile
import Wordlet.Proofs.Layout
import Wordlet.Proofs.Utf8

/-!
# Overwriting a source file

Writing to a path that leads to a file replaces the content of that file and nothing else: the names
of all entries stay, so every path leads where it led before. A text without carriage returns is
read back as it was written.

* `Files.resolve_set`: **what paths lead to** after a file has new content.
* `Files.write_eq`: **writing to a file** that can be read and written.
* `Files.readSource_set`: **reading what was written.**
-/

namespace Wordlet

/-! ## Texts of contents -/

/-- **The text of a written text** is that text, if no carriage return stands in it. -/
theorem sourceText_encodeUtf8 {text : String} (h : '\r' ∉ text.toList) :
    sourceText (Text.encodeUtf8 text) = .ok text := by
  rw [sourceText, Text.decodeUtf8_encodeUtf8]
  simp only [Text.unifyNewlines_eq h, String.ofList_toList]

/-! ## Entries -/

/-- The place after the file at `names` has new content. -/
def Place.overwritten (names : List Raw) (content : List UInt8) : Place → Place
  | .file found bytes => .file found (if found = names then content else bytes)
  | place => place

namespace Files

variable {fs : Files} {names : List Raw} {bytes : List UInt8}

theorem lookup_of_find? (h : fs.find? names = some (.file bytes)) :
    fs.entries.lookup names = some (.file bytes) := by
  unfold find? at h
  split at h
  · next e he => rw [he, h]
  · split at h <;> cases h

/-- Setting the entry of names that have one keeps the names of all entries. -/
theorem set_of_any (hany : (fs.entries.any fun f => f.1 == names) = true) (e : Entry) :
    fs.set names e =
      { fs with entries := fs.entries.map fun f => (f.1, if f.1 = names then e else f.2) } := by
  rw [set, if_pos hany]
  congr 1
  refine List.map_congr_left fun f _ => ?_
  by_cases hf : f.1 = names <;> simp [hf]

theorem set_eq (h : fs.find? names = some (.file bytes)) (e : Entry) :
    fs.set names e =
      { fs with entries := fs.entries.map fun f => (f.1, if f.1 = names then e else f.2) } := by
  have hsome : (fs.entries.lookup names).isSome = true := by rw [lookup_of_find? h]; rfl
  obtain ⟨f, hf, heq⟩ := List.lookup_isSome_iff.1 hsome
  exact set_of_any (List.any_eq_true.2 ⟨f, hf, beq_iff_eq.2 (beq_iff_eq.1 heq).symm⟩) e

theorem lookup_map_entry (g : List Raw → Entry → Entry) (names : List Raw)
    (entries : List (List Raw × Entry)) :
    (entries.map fun f => (f.1, g f.1 f.2)).lookup names =
      (entries.lookup names).map (g names) := by
  induction entries with
  | nil => rfl
  | cons f entries ih =>
    obtain ⟨key, e⟩ := f
    rw [List.map_cons, List.lookup_cons, List.lookup_cons, ih]
    by_cases hkey : names = key
    · subst hkey
      rw [beq_self_eq_true]
      rfl
    · rw [beq_false_of_ne hkey]

/-- **The entries after a file has new content.** -/
theorem find?_set (h : fs.find? names = some (.file bytes)) (content : List UInt8)
    (other : List Raw) :
    (fs.set names (.file content)).find? other =
      if other = names then some (.file content) else fs.find? other := by
  have hpassed : (fs.set names (.file content)).isPassed other = fs.isPassed other := by
    rw [set_eq h, isPassed, isPassed, List.any_map]
    rfl
  have hlookup : (fs.set names (.file content)).entries.lookup other =
      (fs.entries.lookup other).map fun e => if other = names then .file content else e := by
    rw [set_eq h]
    exact lookup_map_entry (fun key e => if key = names then .file content else e) other _
  rw [find?, hlookup, hpassed]
  by_cases hother : other = names
  · subst hother
    rw [lookup_of_find? h, if_pos rfl]
    simp
  · rw [if_neg hother, find?]
    cases fs.entries.lookup other <;> simp [hother]

/-! ## Paths -/

/-- Steps that lead to a file end at its entry. -/
theorem find?_of_follow {here steps : List Raw} (h : fs.follow here steps = .file names bytes) :
    fs.find? names = some (.file bytes) := by
  fun_induction follow fs here steps with
  | case1 => cases h
  | case2 here step rest hstay ih => exact ih h
  | case3 here rest hstay ih => exact ih h
  | case4 => cases h
  | case5 here step rest hstay hup hlen hfind ih => exact ih h
  | case6 here step rest hstay hup hlen bytes hfind hlast => cases h; exact hfind
  | case7 => cases h
  | case8 => cases h
  | case9 => cases h

theorem follow_set (h : fs.find? names = some (.file bytes)) (content : List UInt8)
    (here steps : List Raw) :
    (fs.set names (.file content)).follow here steps =
      (fs.follow here steps).overwritten names content := by
  induction steps generalizing here with
  | nil => rfl
  | cons step rest ih =>
    rw [follow, follow, find?_set h]
    split
    · exact ih here
    split
    · exact ih here.dropLast
    split
    · rfl
    by_cases hnames : here ++ [step] = names
    · -- the step to the file itself
      rw [if_pos hnames, hnames, h]
      cases rest <;> simp [Place.overwritten]
    · rw [if_neg hnames]
      cases fs.find? (here ++ [step]) with
      | none => cases rest <;> rfl
      | some e =>
        cases e with
        | directory => exact ih _
        | file found => cases rest <;> simp [Place.overwritten, hnames]

theorem find?_of_resolve {path : Raw} (h : fs.resolve path = .file names bytes) :
    fs.find? names = some (.file bytes) := by
  unfold resolve at h
  split_ifs at h
  exact find?_of_follow h

/-- **What paths lead to after a file has new content**: where they led before. -/
theorem resolve_set (h : fs.find? names = some (.file bytes)) (content : List UInt8)
    (path : Raw) :
    (fs.set names (.file content)).resolve path = (fs.resolve path).overwritten names content := by
  have horigin : (fs.set names (.file content)).origin path = fs.origin path := by
    rw [set_eq h]
    rfl
  unfold resolve
  split_ifs
  · rfl
  · rfl
  · rw [horigin, follow_set h]

/-! ## Source files -/

/-- **Writing to a file** that a path leads to and that can be written. The path of a source file
has no slash at its end, so that writing takes the steps that reading takes. -/
theorem write_eq {path : Raw} {text : String} (h : fs.resolve path = .file names bytes)
    (hslash : path.pieces.getLast? ≠ some (.char '/'))
    (hw : ∃ names', fs.target path = .ok names') :
    fs.write path text = (.ok (), fs.set names (.file (Text.encodeUtf8 text))) := by
  have htarget : fs.target path = .ok names := by
    obtain ⟨names', hw⟩ := hw
    unfold resolve at h
    unfold target writeSteps at hw ⊢
    rw [if_neg hslash] at hw ⊢
    split_ifs at h hw ⊢
    rw [h]
  rw [write, htarget, Raw.encode_ofString]

/-- What a source text is read from. -/
theorem exists_file_of_readSource {path : Raw} {extension text : String}
    (h : fs.readSource path extension = .ok text) :
    (Raw.ofString extension).pieces <:+ path.pieces ∧
      ∃ names bytes, fs.resolve path = .file names bytes ∧ sourceText bytes = .ok text := by
  unfold readSource at h
  split at h
  · cases h
  next hext =>
  refine ⟨List.isSuffixOf_iff_suffix.1 (not_not.1 hext), ?_⟩
  split at h
  · next names bytes hplace =>
    split at h
    · next text' htext =>
      cases h
      exact ⟨names, bytes, hplace, htext⟩
    · cases h
  · cases h
  · cases h

/-- **Reading what was written.** -/
theorem readSource_set {path : Raw} {extension text : String}
    (h : fs.resolve path = .file names bytes)
    (hext : (Raw.ofString extension).pieces <:+ path.pieces) (htext : '\r' ∉ text.toList) :
    (fs.set names (.file (Text.encodeUtf8 text))).readSource path extension = .ok text := by
  have hplace : (fs.set names (.file (Text.encodeUtf8 text))).resolve path =
      .file names (Text.encodeUtf8 text) := by
    rw [resolve_set (find?_of_resolve h), h, Place.overwritten, if_pos rfl]
  unfold readSource
  rw [if_neg (not_not.2 (List.isSuffixOf_iff_suffix.2 hext)), hplace]
  simp only [sourceText_encodeUtf8 htext]

end Files

end Wordlet
