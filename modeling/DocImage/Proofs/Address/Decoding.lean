import DocImage.Presentation.Plan
import DocImage.Proofs.Address.Cache
import DocImage.Proofs.Files.Names
import DocImage.Proofs.Image.Formats
import DocImage.Proofs.Text.Coding

/-!
What the address of a file says of it: a file URI gives the path, a data URI the contents, whole or
as the text that they are (`StandsFor`).

* `decode_quoteSafe`: coding the quotes of an address does not change what is read.
* `address_standsFor`: every file has an address that can be read back, before and after its quotes
  are coded.
-/

namespace DocImage

/-! ### Quotes -/

lemma quoteSafe_cons (c : Char) (s : Text) :
    quoteSafe (c :: s) = (if c = '\'' then ['%', '2', '7'] else [c]) ++ quoteSafe s :=
  List.flatMap_cons

/-- A digit is no quote and is not written for one. -/
lemma exists_of_quoteSafe_eq_cons {x : Char} {s r : Text} (h : quoteSafe s = x :: r)
    (hx : (Hexadecimal.digitValue? x).isSome) : ∃ s', s = x :: s' ∧ quoteSafe s' = r := by
  cases s with
  | nil => cases h
  | cons c s =>
      rw [quoteSafe_cons] at h
      split at h
      · obtain ⟨rfl, -⟩ := List.cons.inj h
        exact absurd hx (by decide)
      · obtain ⟨rfl, rfl⟩ := List.cons.inj h
        exact ⟨s, rfl, rfl⟩

lemma decode_quoteSafe_cons {c : Char} {s : Text}
    (h : ∀ x y r, c = '%' → s = x :: y :: r →
      (Hexadecimal.digitValue? x).isSome → Hexadecimal.digitValue? y = none) :
    Percent.decode (quoteSafe (c :: s)) =
      String.utf8EncodeChar c ++ Percent.decode (quoteSafe s) := by
  rw [quoteSafe_cons]
  split
  · next hc =>
      rw [hc]
      rfl
  · refine Percent.decode_cons fun x y r hc hr hx => ?_
    obtain ⟨s', rfl, hr'⟩ := exists_of_quoteSafe_eq_cons hr hx
    by_contra hy
    obtain ⟨s'', rfl, -⟩ := exists_of_quoteSafe_eq_cons hr' (Option.isSome_iff_ne_none.mpr hy)
    exact hy (h x y s'' hc rfl hx)

/-- Coding the quotes does not change what is read. -/
lemma decode_quoteSafe (s : Text) : Percent.decode (quoteSafe s) = Percent.decode s := by
  fun_induction Percent.decode s with
  | case1 => rfl
  | case2 x y s m n hx hy ih =>
      have hne : ∀ {c : Char} {m : Nat}, Hexadecimal.digitValue? c = some m → c ≠ '\'' := by
        rintro c m hc rfl
        cases hc
      rw [quoteSafe_cons, quoteSafe_cons, quoteSafe_cons, if_neg (by decide), if_neg (hne hx),
        if_neg (hne hy)]
      simp only [List.cons_append, List.nil_append, Percent.decode, hx, hy, ih]
  | case3 x y s hnone ih =>
      rw [decode_quoteSafe_cons, ih]
      rintro x' y' r - heq hx
      cases heq
      obtain ⟨m, hm⟩ := Option.isSome_iff_exists.mp hx
      exact Option.eq_none_iff_forall_ne_some.mpr fun n hn => hnone m n hm hn
  | case4 c s h ih =>
      rw [decode_quoteSafe_cons fun x y r hc hr => absurd hr (h x y r hc), ih]

lemma quoteSafe_append (s t : Text) : quoteSafe (s ++ t) = quoteSafe s ++ quoteSafe t :=
  List.flatMap_append

lemma quoteSafe_eq_self {s : Text} (h : '\'' ∉ s) : quoteSafe s = s := by
  induction s with
  | nil => rfl
  | cons c s ih =>
      rw [List.mem_cons, not_or] at h
      rw [quoteSafe_cons, if_neg (Ne.symm h.1), ih h.2]
      rfl

/-! ### What an address stands for -/

/-- The extension of a path is the given one, in any letter case. -/
def Path.HasExtension (path : Path) (name : Text) : Prop :=
  ∃ extension, path.extension? = some extension ∧ foldCaseBytes extension = Utf8.encode name

lemma ImageFormat.isInlineText_iff {format : ImageFormat} :
    format.isInlineText = true ↔ format = .svg := by
  cases format <;> simp [isInlineText]

/-- SVG files are told by their extension, in any letter case. -/
lemma isInlineText_ofPath_iff {path : Path} :
    (ImageFormat.ofPath path).isInlineText = true ↔ path.HasExtension "svg".toList := by
  rw [ImageFormat.isInlineText_iff, ImageFormat.ofPath, Path.HasExtension]
  cases path.extension? with
  | none => simp
  | some extension =>
      simp only [Option.some.injEq, exists_eq_left']
      rw [ImageFormat.ofExtension_eq_iff (by decide)]
      simp [ImageFormat.extensions]

/-- An address gives the path of a file that is longer than the threshold, and the contents of any
other: those of an SVG file as the text they are, all others as bytes. -/
structure StandsFor (uri : Text) (path : Path) (contents : Bytes) (threshold : Nat) : Prop where
  path_eq : threshold < contents.length →
    ∃ s, uri = "file://".toList ++ s ∧ Percent.decode s = path
  text_eq : contents.length ≤ threshold → path.HasExtension "svg".toList →
    ∃ s, uri = "data:image/svg+xml;utf8,".toList ++ s ∧ Percent.Escaped IsUnreserved s ∧
      Percent.decode s = Utf8.encode (decodeText contents)
  contents_eq : contents.length ≤ threshold → ¬ path.HasExtension "svg".toList →
    ∃ s, uri = "data:".toList ++ (ImageFormat.ofPath path).mimeType ++ ";base64,".toList ++ s ∧
      Base64.decode? s = some contents

/-! ### Addresses -/

lemma ImageFormat.isLiteral_of_mem_mimeType (format : ImageFormat) :
    ∀ c ∈ format.mimeType, IsLiteral c := by
  cases format <;> exact forall_mem_of_all (by decide)

lemma dataUri_of_isInlineText {format : ImageFormat} (h : format.isInlineText = true)
    (contents : Bytes) :
    dataUri format contents = "data:".toList ++ format.mimeType ++ (";utf8,".toList ++
      Percent.encode Percent.isUnreserved (Utf8.encode (decodeText contents))) :=
  congrArg ("data:".toList ++ format.mimeType ++ ·) (if_pos h)

lemma dataUri_of_not_isInlineText {format : ImageFormat} (h : ¬ format.isInlineText = true)
    (contents : Bytes) :
    dataUri format contents =
      "data:".toList ++ format.mimeType ++ (";base64,".toList ++ Base64.encode contents) :=
  congrArg ("data:".toList ++ format.mimeType ++ ·) (if_neg h)

section Addresses

variable {location : Location} {path : Path} {contents : Bytes} {threshold : Nat}

/-- Names in percent coding, each with a slash before it, are read back. -/
lemma decode_flatten_map_encode (names : List Bytes) :
    Percent.decode (names.map fun name => '/' :: Percent.encode Percent.isPathByte name).flatten =
      names.flatMap fun name => Path.slash :: name := by
  induction names with
  | nil => rfl
  | cons name names ih =>
      have hslash : ∀ s, Percent.decode ('/' :: s) = Path.slash :: Percent.decode s := fun s =>
        Percent.decode_cons fun _ _ _ hc => absurd hc (by decide)
      rw [List.map_cons, List.flatten_cons, List.cons_append, hslash,
        Percent.decode_encode_append Percent.isReadable_isPathByte, ih]
      rfl

lemma isPlain_of_mem_flatten_map_encode (names : List Bytes) :
    ∀ c ∈ (names.map fun name => '/' :: Percent.encode Percent.isPathByte name).flatten,
      IsPlain c := by
  intro c hc
  obtain ⟨_, hpart, hc⟩ := List.mem_flatten.mp hc
  obtain ⟨name, -, rfl⟩ := List.mem_map.mp hpart
  obtain rfl | hc := List.mem_cons.mp hc
  · decide
  · refine (Percent.escaped_encode isPlain_of_isPathByte name).forall_mem (by decide)
      (fun c hd => ?_) (fun c => id) c hc
    exact (isLiteral_of_isAlphanum (isAlphanum_of_digitValue? hd)).1

/-- The file URI of a place is there and is read back as the path. -/
lemma exists_fileUri? (h : ∀ name ∈ location, Path.IsName name) :
    ∃ s, fileUri? location.path = some ("file://".toList ++ s) ∧
      Percent.decode s = location.path ∧ ∀ c ∈ s, IsPlain c := by
  rw [fileUri?, if_pos location.isAbsolute_path, Location.components_path h]
  simp only [List.map_eq_nil_iff]
  rw [Location.path, Path.ofComponents]
  refine ⟨_, rfl, ?_⟩
  split
  · exact ⟨rfl, forall_mem_of_all (by decide)⟩
  · exact ⟨decode_flatten_map_encode location, isPlain_of_mem_flatten_map_encode location⟩

lemma newAddress_of_lt {modified : Time} {readable : Bool} {uri : Text}
    (hlt : threshold < contents.length) (hf : fileUri? location.path = some uri) :
    newAddress location (.file contents modified readable) threshold = .ok uri := by
  simp only [newAddress, makeAddress, Node.metadata, if_pos hlt, hf]

lemma newAddress_of_le (location : Location) (modified : Time) (hle : contents.length ≤ threshold) :
    newAddress location (.file contents modified) threshold =
      .ok (dataUri (.ofPath location.path) contents) :=
  if_neg (Nat.not_lt.mpr hle)

lemma standsFor_fileUri {s : Text} (hlt : threshold < contents.length)
    (hs : Percent.decode s = path) :
    StandsFor ("file://".toList ++ s) path contents threshold where
  path_eq _ := ⟨s, rfl, hs⟩
  text_eq hle := absurd hle (Nat.not_le.mpr hlt)
  contents_eq hle := absurd hle (Nat.not_le.mpr hlt)

lemma standsFor_dataUri (hle : contents.length ≤ threshold) :
    StandsFor (dataUri (.ofPath path) contents) path contents threshold where
  path_eq hlt := absurd hle (Nat.not_le.mpr hlt)
  text_eq _ hx := by
    rw [← isInlineText_ofPath_iff] at hx
    refine ⟨Percent.encode Percent.isUnreserved (Utf8.encode (decodeText contents)), ?_,
      Percent.escaped_encode isUnreserved_ofNat _, ?_⟩
    · rw [dataUri_of_isInlineText hx, ImageFormat.isInlineText_iff.mp hx]
      rfl
    · simpa [Percent.decode] using
        Percent.decode_encode_append Percent.isReadable_isUnreserved
          (Utf8.encode (decodeText contents)) []
  contents_eq _ hx := by
    rw [← isInlineText_ofPath_iff] at hx
    refine ⟨_, ?_, Base64.decode?_encode contents⟩
    rw [dataUri_of_not_isInlineText hx]
    simp only [List.append_assoc]

/-- A data URI can stand anywhere in an element. -/
lemma isLiteral_of_mem_dataUri (format : ImageFormat) (contents : Bytes) :
    ∀ c ∈ dataUri format contents, IsLiteral c := by
  by_cases h : format.isInlineText = true
  · simp only [dataUri_of_isInlineText h, List.forall_mem_append]
    refine ⟨⟨forall_mem_of_all (by decide), format.isLiteral_of_mem_mimeType⟩,
      forall_mem_of_all (by decide), ?_⟩
    refine (Percent.escaped_encode isUnreserved_ofNat _).forall_mem (by decide) (fun c hc => ?_)
      fun c => isLiteral_of_isUnreserved
    exact isLiteral_of_isAlphanum (isAlphanum_of_digitValue? hc)
  · simp only [dataUri_of_not_isInlineText h, List.forall_mem_append]
    exact ⟨⟨forall_mem_of_all (by decide), format.isLiteral_of_mem_mimeType⟩,
      forall_mem_of_all (by decide), Base64.isLiteral_of_mem_encode _⟩

lemma isPlain_of_mem_dataUri (format : ImageFormat) (contents : Bytes) :
    ∀ c ∈ dataUri format contents, IsPlain c ∧ c ≠ '\'' :=
  fun c hc => (isLiteral_of_mem_dataUri format contents c hc).imp_right And.left

/-- **An address can be read back.** What stands for a file in an empty cache is there, if the file
can be read or is too long to be inlined, and it is a file URI with the path or a data URI with the
contents, before and after its quotes are coded. It consists of visible ASCII that may stand in an
attribute. The text of an SVG file that is UTF-8 is the file, without one mark at its beginning. -/
theorem address_standsFor (tree : FileTree) (path : Path) (threshold : Nat) (location : Location)
    (contents : Bytes) (modified : Time) (readable : Bool)
    (hw : ∀ name ∈ tree.workingDirectory, Path.slash ∉ name)
    (hp : tree.canonicalize path = .ok (location, .file contents modified readable))
    (hr : contents.length ≤ threshold → readable = true) :
    ∃ uri cache, AddressCache.address {} tree path threshold = .ok (uri, cache) ∧
      StandsFor uri location.path contents threshold ∧
      StandsFor (quoteSafe uri) location.path contents threshold ∧
      (∀ c ∈ uri, IsPlain c) ∧
      ∀ s, contents = Utf8.encode s →
        Utf8.encode (decodeText contents) = (after? markBytes contents).getD contents := by
  have hread : ∀ s, contents = Utf8.encode s →
      Utf8.encode (decodeText contents) = (after? markBytes contents).getD contents := by
    rintro s rfl
    exact encode_decodeText_encode s
  rw [AddressCache.address_still_of_get?_eq_none hp rfl]
  by_cases hlt : threshold < contents.length
  · obtain ⟨s, hf, hs, hplain⟩ := exists_fileUri? (FileTree.isName_of_canonicalize hw hp)
    rw [newAddress_of_lt hlt hf]
    refine ⟨_, _, rfl, standsFor_fileUri hlt hs, ?_,
      List.forall_mem_append.mpr ⟨forall_mem_of_all (by decide), hplain⟩, hread⟩
    rw [quoteSafe_append]
    exact standsFor_fileUri hlt ((decode_quoteSafe s).trans hs)
  · have hle := Nat.le_of_not_lt hlt
    obtain rfl := hr hle
    have hplain := isPlain_of_mem_dataUri (.ofPath location.path) contents
    rw [newAddress_of_le location modified hle]
    refine ⟨_, _, rfl, standsFor_dataUri hle, ?_, fun c hc => (hplain c hc).1, hread⟩
    rw [quoteSafe_eq_self fun hq => (hplain _ hq).2 rfl]
    exact standsFor_dataUri hle

end Addresses

/-- A tree with an SVG file that begins with a byte-order mark. -/
def markedFile : FileTree :=
  { root :=
      .directory [(Utf8.encode "it's.SVG".toList, .file [0xEF, 0xBB, 0xBF, 0x3C] .epoch)] .epoch }

/-- The address of that file is read back without the mark. -/
theorem address_standsFor_markedFile :
    (∀ name ∈ markedFile.workingDirectory, Path.slash ∉ name) ∧
      markedFile.canonicalize (Utf8.encode "/it's.SVG".toList) =
        .ok ([Utf8.encode "it's.SVG".toList], .file [0xEF, 0xBB, 0xBF, 0x3C] .epoch) ∧
      ∃ uri cache s, AddressCache.address {} markedFile (Utf8.encode "/it's.SVG".toList) 4 =
          .ok (uri, cache) ∧
        quoteSafe uri = "data:image/svg+xml;utf8,".toList ++ s ∧ Percent.decode s = [0x3C] := by
  have hw : ∀ name ∈ markedFile.workingDirectory, Path.slash ∉ name := nofun
  have hp : markedFile.canonicalize (Utf8.encode "/it's.SVG".toList) =
      .ok ([Utf8.encode "it's.SVG".toList], .file [0xEF, 0xBB, 0xBF, 0x3C] .epoch) := by cbv
  obtain ⟨uri, cache, ha, -, hs, -, hread⟩ := address_standsFor markedFile _ 4 _ _ _ true hw hp
    fun _ => rfl
  have hx : Path.HasExtension (Location.path [Utf8.encode "it's.SVG".toList]) "svg".toList :=
    ⟨Utf8.encode "SVG".toList, by cbv, by cbv⟩
  obtain ⟨s, huri, -, hd⟩ := hs.text_eq (by decide) hx
  refine ⟨hw, hp, uri, cache, s, ha, huri, ?_⟩
  rw [hd, hread (byteOrderMark :: ['<']) (by cbv)]
  rfl

end DocImage
