import Mathlib.Tactic
import DocImage.Proofs.Image.Unrecognized
import DocImage.Proofs.Text.Lines
import DocImage.Proofs.Text.Units

/-!
The edges of an SVG, which are read back from the text of its first lines.

* `Svg.firstLines` are the first lines of a text, and `Svg.eq_decodeText_searched_or` says that they
  are what is searched in its bytes, but for a mark at their beginning.
* `Svg.Gives` says that a name is followed by a value in double quotes where it stands first.
  `Svg.edge?_eq_some_iff_of_gives`: that value is what is read as the number under the name.
* `probeBytes_svg`: so an SVG has the size that is written in its first lines, and is a square of 64
  pixels where one of the two edges is missing or is no positive number below `2 ^ 31`.
-/

namespace DocImage

namespace Svg

/-! ### The first lines -/

/-- The first three lines of a text, joined, without the line ends and the carriage returns before
them. -/
def firstLines (s : Text) : Text :=
  ((s.splitOn '\n').take 3).flatMap (dropEnd (· == '\r'))

/-- Lines may be joined before or after they are encoded. -/
lemma joinLines_encode (s : Text) : joinLines (Utf8.encode s) = Utf8.encode (firstLines s) := by
  have hline : ∀ s : Text,
      dropEnd (· == carriageReturn) (Utf8.encode s) = Utf8.encode (dropEnd (· == '\r') s) :=
    Utf8.dropEnd_encode (d := '\r') (by decide)
  have hsplit : (Utf8.encode s).splitOn ByteStream.lineFeed = (s.splitOn '\n').map Utf8.encode :=
    Utf8.splitOn_encode (d := '\n') (by decide) s
  rw [joinLines, hsplit, ← List.map_take, List.flatMap_map, firstLines, Utf8.encode,
    List.flatMap_assoc]
  exact List.flatMap_congr fun line _ => hline line

/-- A character that is part of no line end stays in front of the lines. -/
lemma firstLines_cons {c : Char} (hfeed : c ≠ '\n') (hreturn : c ≠ '\r') (s : Text) :
    firstLines (c :: s) = c :: firstLines s := by
  obtain ⟨line, lines, hs⟩ := List.exists_cons_of_ne_nil (List.splitOn_ne_nil '\n' s)
  have hsplit : (c :: s).splitOn '\n' = (c :: line) :: lines := by
    rw [List.splitOn_cons_eq_if_modifyHead, if_neg (by simpa using hfeed), hs]
    rfl
  rw [firstLines, firstLines, hsplit, hs, List.take_succ_cons, List.take_succ_cons,
    List.flatMap_cons, List.flatMap_cons, dropEnd_cons_of_neg (by simpa using hreturn)]
  rfl

/-- **What is searched are the first lines**, whether the bytes begin with a mark or not, but for a
mark at the beginning of the lines. -/
lemma eq_decodeText_searched_or (marked : Bool) (s : Text) {bytes : Bytes}
    (hbytes : bytes = (if marked then markBytes else []) ++ Utf8.encode s)
    (hlen : bytes.length ≤ headLimit) :
    firstLines s = decodeText (searched bytes) ∨
      firstLines s = byteOrderMark :: decodeText (searched bytes) := by
  rw [searched, List.take_of_length_le hlen, hbytes]
  cases marked with
  | false =>
      rw [if_neg Bool.false_ne_true, List.nil_append, joinLines_encode]
      exact eq_decodeText_encode_or (firstLines s)
  | true =>
      have hmark : ∀ t, markBytes ++ Utf8.encode t = Utf8.encode (byteOrderMark :: t) :=
        fun _ => rfl
      rw [if_pos rfl, hmark, joinLines_encode, firstLines_cons (by decide) (by decide), ← hmark,
        decodeText_markBytes_append]
      exact .inl rfl

/-! ### The value under a name -/

def widthName : Text := ['w', 'i', 'd', 't', 'h']

def heightName : Text := ['h', 'e', 'i', 'g', 'h', 't']

/-- Where the name stands first, in any letter case, it is followed by `=` and the value in double
quotes. -/
def Gives (name value s : Text) : Prop :=
  ∃ before word rest, s = before ++ (word ++ '=' :: '"' :: (value ++ '"' :: rest)) ∧
    foldCase word = name ∧ ¬ Mentions name (before ++ word.dropLast) ∧ '"' ∉ value

/-- The value is a number from `1` to `2 ^ 31 - 1` with the units of an edge, or with none. -/
def Tells (value : Text) (n : Nat) : Prop :=
  (1 ≤ n ∧ n < 2 ^ 31) ∧ ∃ t : UnitText ['p', 'x', '%'], t.write = value ∧ t.count = n

lemma tells_iff {value : Text} {n : Nat} :
    Tells value n ↔ Numeral.readPositive? (withoutUnits ['p', 'x', '%'] value) = some n :=
  (readPositive?_withoutUnits_eq_some_iff (by decide)).symm

/-- A name is found where it stands first. -/
lemma fromName?_of_first {name before word : Text} (hne : name ≠ []) (hword : foldCase word = name)
    (h : ¬ Mentions name (before ++ word.dropLast)) (tail : Text) :
    fromName? name (before ++ (word ++ tail)) = some (word ++ tail) := by
  have hfirst : ¬ name <:+: foldCase before ++ name.dropLast := by
    rw [← hword] at h ⊢
    simpa only [Mentions, foldCase, List.map_append, List.map_dropLast] using h
  have hbreak : breakAt (startsWith name) (foldCase (before ++ (word ++ tail))) =
      (foldCase before, name ++ foldCase tail) := by
    rw [foldCase, List.map_append, List.map_append, ← foldCase, ← foldCase, ← foldCase, hword]
    exact breakAt_of_first hfirst _
  obtain ⟨c, more, hname⟩ := List.exists_cons_of_ne_nil hne
  rw [fromName?, hbreak, hname, List.cons_append]
  simp

/-- A name is found at the beginning of a text or behind its first character. -/
lemma fromName?_cons_eq_ite (name : Text) (c : Char) (s : Text) :
    fromName? name (c :: s) =
      if name <+: foldCase (c :: s) then some (c :: s) else fromName? name s := by
  have hbreak := breakAt_cons (startsWith name) c.toLower (foldCase s)
  rw [fromName?, foldCase, List.map_cons, ← foldCase, hbreak]
  by_cases hp : name <+: c.toLower :: foldCase s
  · have hs : startsWith name (c.toLower :: foldCase s) = true := isSome_after?_iff.mpr hp
    rw [if_pos hs, if_pos hp]
    rfl
  · have hs : ¬ startsWith name (c.toLower :: foldCase s) = true := fun hs =>
      hp (isSome_after?_iff.mp hs)
    rw [if_neg hs, if_neg hp, fromName?]
    cases breakAt (startsWith name) (foldCase s) with
    | mk before rest => cases rest <;> rfl

/-- A character that is not in a name may stand in front of the text in which it is searched. -/
lemma fromName?_cons {name : Text} {c : Char} (hne : name ≠ []) (hc : c.toLower ∉ name) (s : Text) :
    fromName? name (c :: s) = fromName? name s := by
  rw [fromName?_cons_eq_ite, if_neg]
  intro hs
  obtain ⟨d, more, rfl⟩ := List.exists_cons_of_ne_nil hne
  obtain ⟨rfl, -⟩ := List.cons_prefix_cons.mp hs
  exact hc (.head more)

lemma bne_quote_of_notMem {s : Text} (hs : '"' ∉ s) : ∀ c ∈ s, (c != '"') = true :=
  fun _ hc => bne_iff_ne.mpr fun he => hs (he ▸ hc)

/-- What stands in front of the first quote is not in the quotes. -/
lemma quoted?_append_of_notMem {front : Text} (hfront : '"' ∉ front) (rest : Text) :
    quoted? (front ++ rest) = quoted? rest := by
  rw [quoted?, List.dropWhile_append_of_pos (bne_quote_of_notMem hfront), ← quoted?]

/-- The text between the first two double quotes. -/
lemma quoted?_append {front value : Text} (hfront : '"' ∉ front) (hvalue : '"' ∉ value)
    (rest : Text) : quoted? (front ++ '"' :: (value ++ '"' :: rest)) = some value := by
  have hother := bne_quote_of_notMem hvalue
  rw [quoted?_append_of_notMem hfront, quoted?, List.dropWhile_cons_of_neg (by simp)]
  dsimp only
  rw [List.dropWhile_append_of_pos hother, List.dropWhile_cons_of_neg (by simp),
    List.takeWhile_append_of_pos hother, List.takeWhile_cons_of_neg (by simp), List.append_nil]

/-- **The value that is given is what is read** as the number under a name. -/
lemma edge?_eq_some_iff_of_gives {name value s : Text} (hne : name ≠ []) (hquote : '"' ∉ name)
    (h : Gives name value s) {n : Nat} : edge? name s = some n ↔ Tells value n := by
  obtain ⟨before, word, rest, rfl, hword, hfirst, hvalue⟩ := h
  have hfront : '"' ∉ word ++ ['='] := by
    rw [List.mem_append, not_or]
    refine ⟨fun hq => hquote ?_, by decide⟩
    rw [← hword]
    exact List.mem_map_of_mem hq
  have hquoted := quoted?_append hfront hvalue rest
  rw [List.append_assoc, List.singleton_append] at hquoted
  rw [edge?, fromName?_of_first hne hword hfirst, Option.bind_eq_bind, Option.bind_some, hquoted,
    Option.bind_some, tells_iff]

lemma edge?_of_not_mentions {name s : Text} (hne : name ≠ []) (h : ¬ Mentions name s) :
    edge? name s = none := by
  rw [edge?, (fromName?_eq_none_iff hne).mpr h]
  rfl

/-! ### The size -/

/-- A text with the word by which an SVG is told has a size. -/
lemma verdict_of_mentions {s : Text} (h : Mentions mark s) :
    verdict s = .recognized (some (match edge? widthName s, edge? heightName s with
      | some width, some height => ⟨width, height⟩
      | _, _ => fallbackSize)) := by
  have hmark : fromName? ['<', 's', 'v', 'g'] s ≠ none :=
    fun hnone => (fromName?_eq_none_iff (by decide)).mp hnone h
  rw [verdict]
  split
  · next hnone => exact absurd hnone hmark
  · change (match edge? widthName s, edge? heightName s with
      | some width, some height => Verdict.recognized (some ⟨width, height⟩)
      | _, _ => .recognized (some fallbackSize)) = _
    cases edge? widthName s <;> cases edge? heightName s <;> rfl

/-- A character that is in none of the names may stand in front of the text. -/
lemma verdict_cons {c : Char} (hc : ∀ name ∈ [mark, widthName, heightName], c.toLower ∉ name)
    (s : Text) : verdict (c :: s) = verdict s := by
  have hname : ∀ name ∈ [mark, widthName, heightName],
      fromName? name (c :: s) = fromName? name s := fun name hname =>
    fromName?_cons ((by decide : ∀ name ∈ [mark, widthName, heightName], name ≠ []) name hname)
      (hc name hname) s
  simp only [List.forall_mem_cons, mark, widthName, heightName] at hname
  obtain ⟨hmark, hwidth, hheight, -⟩ := hname
  simp only [verdict, edge?, hmark, hwidth, hheight]

end Svg

/-- **The size of an SVG is read back from its first lines.** For a text that takes at most 64 KiB,
with a mark in front of it or none, whose first lines hold `<svg`: where `width` and `height` are
each followed by a number in double quotes, the first time they stand there, these are the edges.
Where one of them does not stand there, or is followed by something else in double quotes, the image
is a square of 64 pixels. -/
theorem probeBytes_svg (marked : Bool) (s : Text) {bytes : Bytes}
    (hbytes : bytes = (if marked then markBytes else []) ++ Utf8.encode s)
    (hlen : bytes.length ≤ 65536)
    (hraster : ∀ signature ∈ rasterSignatures, ¬ signature <+: bytes)
    (hmark : Mentions Svg.mark (Svg.firstLines s)) :
    (∀ width height w h, Svg.Gives Svg.widthName width (Svg.firstLines s) →
      Svg.Gives Svg.heightName height (Svg.firstLines s) → Svg.Tells width w →
      Svg.Tells height h → probeBytes bytes = some ⟨w, h⟩) ∧
    ((∃ name ∈ [Svg.widthName, Svg.heightName], ¬ Mentions name (Svg.firstLines s) ∨
        ∃ value, Svg.Gives name value (Svg.firstLines s) ∧ ∀ n, ¬ Svg.Tells value n) →
      probeBytes bytes = some ⟨64, 64⟩) := by
  have hverdict :
      Svg.verdict (decodeText (Svg.searched bytes)) = Svg.verdict (Svg.firstLines s) := by
    rcases Svg.eq_decodeText_searched_or marked s hbytes hlen with h | h
    · rw [h]
    · rw [h, Svg.verdict_cons (by decide)]
  have hsize := probeBytes_of_not_raster hraster
  rw [hverdict, Svg.verdict_of_mentions hmark] at hsize
  rw [hsize]
  constructor
  · intro width height w h hwidth hheight hw hh
    rw [(Svg.edge?_eq_some_iff_of_gives (by decide) (by decide) hwidth).mpr hw,
      (Svg.edge?_eq_some_iff_of_gives (by decide) (by decide) hheight).mpr hh]
    rfl
  · rintro ⟨name, hname, hbad⟩
    have hnone : Svg.edge? name (Svg.firstLines s) = none := by
      obtain ⟨hne, hquote⟩ := (by decide : ∀ name ∈ [Svg.widthName, Svg.heightName],
        name ≠ [] ∧ '"' ∉ name) name hname
      rcases hbad with hno | ⟨value, hgives, hno⟩
      · exact Svg.edge?_of_not_mentions hne hno
      · refine Option.eq_none_iff_forall_ne_some.mpr fun n hn => hno n ?_
        exact (Svg.edge?_eq_some_iff_of_gives hne hquote hgives).mp hn
    simp only [List.mem_cons, List.not_mem_nil, or_false] at hname
    rcases hname with rfl | rfl
    · rw [hnone]
      rfl
    · rw [hnone]
      cases Svg.edge? Svg.widthName (Svg.firstLines s) <;> rfl

/-- Two marked lines, the first one ended by CR and LF, with the height in front of the width, and a
line with a negative width. -/
theorem probeBytes_svg_of_marked_lines :
    (∃ s lines : Text, s = "<Svg HEIGHT=\" 20 px\"\r\nü Width=\"10%\">".toList ∧
      lines = "<Svg HEIGHT=\" 20 px\"ü Width=\"10%\">".toList ∧ Svg.firstLines s = lines ∧
      probeBytes (markBytes ++ Utf8.encode s) = some ⟨10, 20⟩) ∧
    ∃ s : Text, s = "<svg width=\"-5\" height=\"7\">".toList ∧ Svg.firstLines s = s ∧
      probeBytes (Utf8.encode s) = some ⟨64, 64⟩ := by
  constructor
  · let s : Text := ['<', 'S', 'v', 'g', ' ', 'H', 'E', 'I', 'G', 'H', 'T', '=', '"', ' ', '2',
      '0', ' ', 'p', 'x', '"', '\r', '\n', 'ü', ' ', 'W', 'i', 'd', 't', 'h', '=', '"', '1', '0',
      '%', '"', '>']
    let lines : Text := ['<', 'S', 'v', 'g', ' ', 'H', 'E', 'I', 'G', 'H', 'T', '=', '"', ' ',
      '2', '0', ' ', 'p', 'x', '"', 'ü', ' ', 'W', 'i', 'd', 't', 'h', '=', '"', '1', '0', '%',
      '"', '>']
    have hlines : Svg.firstLines s = lines := by decide
    have hwidth : Svg.Gives Svg.widthName ['1', '0', '%'] lines :=
      ⟨lines.take 22, ['W', 'i', 'd', 't', 'h'], ['>'], rfl, rfl, by decide, by decide⟩
    have hheight : Svg.Gives Svg.heightName [' ', '2', '0', ' ', 'p', 'x'] lines :=
      ⟨lines.take 5, ['H', 'E', 'I', 'G', 'H', 'T'], lines.drop 20, rfl, rfl, by decide, by decide⟩
    have hw : Svg.Tells ['1', '0', '%'] 10 := Svg.tells_iff.mpr (by decide)
    have hh : Svg.Tells [' ', '2', '0', ' ', 'p', 'x'] 20 := Svg.tells_iff.mpr (by decide)
    have hsvg := probeBytes_svg true s rfl (by decide) (by decide) (by rw [hlines]; decide)
    rw [hlines] at hsvg
    exact ⟨s, lines, rfl, rfl, hlines, hsvg.1 _ _ _ _ hwidth hheight hw hh⟩
  · let s : Text := ['<', 's', 'v', 'g', ' ', 'w', 'i', 'd', 't', 'h', '=', '"', '-', '5', '"',
      ' ', 'h', 'e', 'i', 'g', 'h', 't', '=', '"', '7', '"', '>']
    have hlines : Svg.firstLines s = s := by decide
    have hwidth : Svg.Gives Svg.widthName ['-', '5'] s :=
      ⟨s.take 5, ['w', 'i', 'd', 't', 'h'], s.drop 15, rfl, rfl, by decide, by decide⟩
    have hno : ∀ n, ¬ Svg.Tells ['-', '5'] n := by
      intro n hn
      have hread := Svg.tells_iff.mp hn
      rw [show Numeral.readPositive? _ = none by decide] at hread
      cases hread
    have hsvg := probeBytes_svg false s rfl (by decide) (by decide) (by rw [hlines]; decide)
    rw [hlines] at hsvg
    exact ⟨s, rfl, hlines, hsvg.2 ⟨_, .head _, .inr ⟨_, hwidth, hno⟩⟩⟩

end DocImage
