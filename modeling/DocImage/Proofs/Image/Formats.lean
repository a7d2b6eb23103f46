import Mathlib.Tactic
import DocImage.Image.Format
import DocImage.Proofs.Files.LastName
import DocImage.Proofs.Text.Coding
import DocImage.Proofs.Text.Faults

/-!
The format of an image by the name of its file.

* `foldByte` is the letter case of a single byte; bytes below the letters, as slashes and dots are,
  have none, and neither have bytes outside ASCII (`foldByte_eq_iff`, `lt_of_foldByte_lt`).
* `ImageFormat.ofExtension_eq_iff`: a format is told by its extensions, in any letter case, and so
  by no extension that is not UTF-8 (`ofExtension_of_decode?_eq_none`).
* `ImageFormat.ofPath_eq_iff_lastName`: the format of a path is told by its last name, whatever
  stands in front of that and whatever does not count behind it.
-/

namespace DocImage

/-! ### The letter case of bytes -/

/-- A byte with `A`–`Z` written as `a`–`z`. -/
def foldByte (b : UInt8) : UInt8 :=
  if 0x41 ≤ b && b ≤ 0x5A then b + 0x20 else b

lemma foldCaseBytes_eq_map (s : Bytes) : foldCaseBytes s = s.map foldByte :=
  rfl

lemma toNat_foldByte (b : UInt8) :
    (foldByte b).toNat =
      if 0x41 ≤ b.toNat ∧ b.toNat ≤ 0x5A then b.toNat + 0x20 else b.toNat := by
  have hletter : (0x41 ≤ b && b ≤ 0x5A) = true ↔ 0x41 ≤ b.toNat ∧ b.toNat ≤ 0x5A := by
    simp [UInt8.le_iff_toNat_le]
  have hsmall : (0x20 : UInt8).toNat = 0x20 := rfl
  rw [foldByte, if_congr hletter rfl rfl]
  split
  · rw [UInt8.toNat_add, hsmall]
    omega
  · rfl

/-- A byte below the letters has no case. -/
lemma foldByte_eq_iff {c : UInt8} (hc : c.toNat < 0x41) (b : UInt8) : foldByte b = c ↔ b = c := by
  rw [← UInt8.toNat_inj, ← UInt8.toNat_inj, toNat_foldByte]
  split <;> omega

/-- A byte outside ASCII stays there. -/
lemma lt_of_foldByte_lt {b : UInt8} (h : (foldByte b).toNat < 0x80) : b.toNat < 0x80 := by
  rw [toNat_foldByte] at h
  split at h <;> omega

lemma foldByte_foldByte (b : UInt8) : foldByte (foldByte b) = foldByte b := by
  rw [← UInt8.toNat_inj, toNat_foldByte (foldByte b), if_neg]
  rw [toNat_foldByte]
  split <;> omega

lemma foldCaseBytes_foldCaseBytes (s : Bytes) :
    foldCaseBytes (foldCaseBytes s) = foldCaseBytes s := by
  rw [foldCaseBytes_eq_map, foldCaseBytes_eq_map, List.map_map]
  exact List.map_congr_left fun b _ => foldByte_foldByte b

namespace ImageFormat

/-! ### Extensions -/

/-- The extensions of the files of a format, in small letters. -/
def extensions : ImageFormat → List Text
  | png => [['p', 'n', 'g']]
  | jpeg => [['j', 'p', 'g'], ['j', 'p', 'e', 'g']]
  | gif => [['g', 'i', 'f']]
  | svg => [['s', 'v', 'g']]
  | bmp => [['b', 'm', 'p']]
  | binary => []

lemma isAscii_of_mem_extensions {format : ImageFormat} {word : Text}
    (h : word ∈ format.extensions) : Utf8.IsAscii word := by
  revert word
  cases format <;> simp [extensions, Utf8.IsAscii]

/-- A format is told by its extensions, in any letter case. -/
lemma ofExtension_eq_iff {format : ImageFormat} (hf : format ≠ binary) {extension : Bytes} :
    ofExtension extension = format ↔
      ∃ word ∈ format.extensions, foldCaseBytes extension = Utf8.encode word := by
  have hmem : (∃ word ∈ format.extensions, foldCaseBytes extension = Utf8.encode word) ↔
      ((foldCaseBytes extension).map fun b => Char.ofNat b.toNat) ∈ format.extensions := by
    constructor
    · rintro ⟨word, hw, he⟩
      rwa [(Utf8.eq_encode_iff_of_isAscii (isAscii_of_mem_extensions hw)).mp he]
    · intro hw
      exact ⟨_, hw, (Utf8.eq_encode_iff_of_isAscii (isAscii_of_mem_extensions hw)).mpr rfl⟩
  rw [hmem, ofExtension]
  generalize ((foldCaseBytes extension).map fun b => Char.ofNat b.toNat) = letters
  constructor
  · rintro rfl
    split <;> simp_all [extensions]
  · intro h
    cases format with
    | binary => exact absurd rfl hf
    | jpeg =>
        simp only [extensions, List.mem_cons, List.not_mem_nil, or_false] at h
        rcases h with rfl | rfl <;> rfl
    | _ =>
        obtain rfl := List.mem_singleton.mp h
        rfl

/-- Bytes that are in ASCII but for their letter case are a text. -/
lemma exists_eq_encode_of_foldCaseBytes {bytes : Bytes} {word : Text} (hw : Utf8.IsAscii word)
    (h : foldCaseBytes bytes = Utf8.encode word) : ∃ s, bytes = Utf8.encode s := by
  have hsmall : ∀ b ∈ bytes, b.toNat < 0x80 := by
    intro b hb
    have hmem : foldByte b ∈ Utf8.encode word := h ▸ List.mem_map_of_mem hb
    rw [Utf8.encode_of_isAscii hw] at hmem
    obtain ⟨c, hc, heq⟩ := List.mem_map.mp hmem
    refine lt_of_foldByte_lt ?_
    rw [← heq, Utf8.toNat_ofNat_of_isAscii (hw c hc)]
    exact hw c hc
  have hascii : Utf8.IsAscii (bytes.map fun b => Char.ofNat b.toNat) := by
    intro c hc
    obtain ⟨b, hb, rfl⟩ := List.mem_map.mp hc
    rw [toNat_ofNat_toNat]
    exact hsmall b hb
  exact ⟨_, (Utf8.eq_encode_iff_of_isAscii hascii).mpr rfl⟩

/-- No format is told by an extension that is not UTF-8. -/
lemma ofExtension_of_decode?_eq_none {extension : Bytes} (h : Utf8.decode? extension = none) :
    ofExtension extension = binary := by
  by_contra hf
  obtain ⟨word, hw, hfold⟩ := (ofExtension_eq_iff hf).mp rfl
  obtain ⟨s, rfl⟩ := exists_eq_encode_of_foldCaseBytes (isAscii_of_mem_extensions hw) hfold
  rw [Utf8.decode?_encode] at h
  cases h

/-! ### Paths -/

/-- The name of a file tells the format: something precedes its last dot, and what follows that dot
is an extension of the format, in any letter case. -/
def IsToldBy (format : ImageFormat) (name : Bytes) : Prop :=
  ∃ stem extension, name = stem ++ Path.dot :: extension ∧ stem ≠ [] ∧ Path.dot ∉ extension ∧
    ∃ word ∈ format.extensions, foldCaseBytes extension = Utf8.encode word

lemma ofPath_of_extension? {path : Path} {extension : Bytes}
    (h : path.extension? = some extension) : ofPath path = ofExtension extension := by
  rw [ofPath, h]

lemma ofPath_of_extension?_eq_none {path : Path} (h : path.extension? = none) :
    ofPath path = binary := by
  rw [ofPath, h]

lemma ofPath_eq_iff_isToldBy {format : ImageFormat} (hf : format ≠ binary) {path : Path} :
    ofPath path = format ↔ format.IsToldBy path.lastComponent := by
  constructor
  · intro h
    cases he : path.extension? with
    | none =>
        rw [ofPath_of_extension?_eq_none he] at h
        exact absurd h.symm hf
    | some extension =>
        rw [ofPath_of_extension? he, ofExtension_eq_iff hf] at h
        obtain ⟨stem, hname, hne, hdot⟩ := Path.extension?_eq_some_iff.mp he
        exact ⟨stem, extension, hname, hne, hdot, h⟩
  · rintro ⟨stem, extension, hname, hne, hdot, hword⟩
    rw [ofPath_of_extension? (Path.extension?_eq_some_iff.mpr ⟨stem, hname, hne, hdot⟩)]
    exact (ofExtension_eq_iff hf).mpr hword

/-- No format is known if no name tells one. -/
lemma ofPath_eq_binary_iff {path : Path} :
    ofPath path = binary ↔ ∀ format : ImageFormat, ¬ format.IsToldBy path.lastComponent := by
  constructor
  · rintro h format ⟨stem, extension, hname, hne, hdot, word, hword, hfold⟩
    have hf : format ≠ binary := by
      rintro rfl
      cases hword
    refine hf (((ofPath_eq_iff_isToldBy hf).mpr ?_).symm.trans h)
    exact ⟨stem, extension, hname, hne, hdot, word, hword, hfold⟩
  · intro h
    by_contra hf
    exact h _ ((ofPath_eq_iff_isToldBy hf).mp rfl)

/-- Names that tell no format: one with no dot but its first byte, the directory above, and one
whose extension is not UTF-8. -/
lemma ofPath_eq_binary {path : Path}
    (h : Path.dot ∉ path.lastComponent.tail ∨ path.lastComponent = [Path.dot, Path.dot] ∨
      ∃ stem extension, path.lastComponent = stem ++ Path.dot :: extension ∧
        Path.dot ∉ extension ∧ Utf8.decode? extension = none) : ofPath path = binary := by
  rcases h with htail | habove | ⟨stem, extension, hname, hdot, hfault⟩
  · exact ofPath_of_extension?_eq_none (Path.extension?_of_dot_notMem_tail htail)
  · have hempty : path.extension? = some [] :=
      Path.extension?_eq_some_iff.mpr ⟨[Path.dot], habove, by simp, by simp⟩
    exact ofPath_of_extension? hempty
  · by_cases hne : stem = []
    · refine ofPath_of_extension?_eq_none (Path.extension?_of_dot_notMem_tail ?_)
      rwa [hname, hne]
    · have hextension : path.extension? = some extension :=
        Path.extension?_eq_some_iff.mpr ⟨stem, hname, hne, hdot⟩
      exact (ofPath_of_extension? hextension).trans (ofExtension_of_decode?_eq_none hfault)

lemma ofPath_congr_of_lastComponent {path other : Path}
    (h : other.lastComponent = path.lastComponent) : ofPath other = ofPath path := by
  rw [ofPath, ofPath, Path.extension?, Path.extension?, h]

/-- The letter case of a path does not matter. -/
lemma ofPath_foldCaseBytes (path : Path) : ofPath (foldCaseBytes path) = ofPath path := by
  have hextension := Path.extension?_map (foldByte_eq_iff (c := Path.slash) (by decide))
    (foldByte_eq_iff (c := Path.dot) (by decide)) path
  rw [ofPath, foldCaseBytes_eq_map, hextension, ofPath]
  cases path.extension? with
  | none => rfl
  | some extension =>
      rw [Option.map_some]
      dsimp only
      rw [ofExtension, ← foldCaseBytes_eq_map, foldCaseBytes_foldCaseBytes, ofExtension]

/-- **The last name of a path tells the format.** Without the slashes and the `/.` at its end a path
is its trunk, and the last name of the trunk tells the format by what follows its last dot, in any
letter case, if anything precedes that dot; otherwise no format is known. So none is known for a
name with no dot but its first byte, for the directory above, and for an extension that is not
UTF-8. Directories in front of the path make no difference, unless the trunk is empty or a single
dot, nor do a slash or `/.` behind it, nor its letter case. -/
theorem ofPath_eq_iff_lastName (path : Path) :
    ∃ trunk name, (∀ rest, path.IsTrunk rest ↔ rest = trunk) ∧
      (Path.names trunk).getLast? = some name ∧
      (∀ format, format ≠ binary → (ofPath path = format ↔ format.IsToldBy name)) ∧
      (ofPath path = binary ↔ ∀ format : ImageFormat, ¬ format.IsToldBy name) ∧
      (Path.dot ∉ name.tail ∨ name = [Path.dot, Path.dot] ∨
          (∃ stem extension, name = stem ++ Path.dot :: extension ∧ Path.dot ∉ extension ∧
            Utf8.decode? extension = none) → ofPath path = binary) ∧
      (trunk ≠ [] → trunk ≠ [Path.dot] → ∀ directory : Path,
        ofPath (directory ++ Path.slash :: path) = ofPath path ∧
        ofPath (directory.join path) = ofPath path) ∧
      (∀ piece ∈ Path.trailers, ofPath (path ++ piece) = ofPath path) ∧
      ∀ other, foldCaseBytes other = foldCaseBytes path → ofPath other = ofPath path := by
  obtain ⟨trunk, htrunk⟩ := Path.exists_isTrunk path
  refine ⟨trunk, path.lastComponent, fun rest => ?_, htrunk.getLast?_names,
    fun format hf => ofPath_eq_iff_isToldBy hf, ofPath_eq_binary_iff, ofPath_eq_binary,
    fun hne hdot directory => ⟨?_, ?_⟩, fun piece hp => ?_, fun other hother => ?_⟩
  · rw [Path.isTrunk_iff, Path.isTrunk_iff.mp htrunk]
  · exact ofPath_congr_of_lastComponent (htrunk.lastComponent_behind hne hdot directory)
  · exact ofPath_congr_of_lastComponent (htrunk.lastComponent_join hne hdot directory)
  · exact ofPath_congr_of_lastComponent (Path.lastComponent_append hp path)
  · rw [← ofPath_foldCaseBytes, hother, ofPath_foldCaseBytes]

/-- Slashes behind a hidden file, and directories with other extensions in front of it. -/
example : ofPath (Utf8.encode "/docs.gif/.icon.PNG/./".toList) = png := by decide

example : ofPath (Utf8.encode "docs.gif/.png".toList) = binary := by decide

end ImageFormat

end DocImage
