import Mathlib.Tactic
import DocImage.Proofs.Image.Recognition
import DocImage.Proofs.Text.Coding
import DocImage.Proofs.Text.Occurrence

/-!
Line ends with a carriage return and without one.

* `withReturns` writes every line end as a carriage return and a line end.
* `Svg.joinLines_withReturns`: the same bytes are searched, since the carriage returns at the end of
  a line are left out, one as well as many.
* `probeBytes_withReturns`: so the size of an image is the same if it has none of the signatures of
  the other formats, which neither of the two ways of ending lines can hide or bring about.
-/

namespace DocImage

open ByteStream (lineFeed)

open Svg (carriageReturn)

/-- The bytes with a carriage return in front of every line end, also behind another one. -/
def withReturns (bytes : Bytes) : Bytes :=
  bytes.flatMap fun b => if b = lineFeed then [carriageReturn, lineFeed] else [b]

lemma withReturns_append (bytes rest : Bytes) :
    withReturns (bytes ++ rest) = withReturns bytes ++ withReturns rest :=
  List.flatMap_append

lemma withReturns_of_notMem {line : Bytes} (h : lineFeed ∉ line) : withReturns line = line := by
  have hkeep : ∀ b ∈ line, (if b = lineFeed then [carriageReturn, lineFeed] else [b]) = [b] :=
    fun b hb => if_neg (ne_of_mem_of_not_mem hb h)
  rw [withReturns, List.flatMap_congr hkeep, List.flatMap_singleton']

/-- A line and what follows it. -/
lemma withReturns_append_cons {line : Bytes} (h : lineFeed ∉ line) (rest : Bytes) :
    withReturns (line ++ lineFeed :: rest) =
      (line ++ [carriageReturn]) ++ lineFeed :: withReturns rest := by
  rw [withReturns_append, withReturns_of_notMem h, List.append_assoc]
  rfl

lemma length_le_length_withReturns (bytes : Bytes) :
    bytes.length ≤ (withReturns bytes).length := by
  induction bytes using induction_on_separator lineFeed with
  | piece line h => rw [withReturns_of_notMem h]
  | separated line rest h ih =>
      rw [withReturns_append_cons h]
      simp only [List.length_append, List.length_cons]
      omega

/-- A word without line ends and carriage returns stands at the beginning of both or of neither. -/
lemma prefix_withReturns_iff {word : Bytes} (hfeed : lineFeed ∉ word)
    (hreturn : carriageReturn ∉ word) (bytes : Bytes) :
    word <+: withReturns bytes ↔ word <+: bytes := by
  induction word generalizing bytes with
  | nil => simp
  | cons a word ih =>
      rw [List.mem_cons, not_or] at hfeed hreturn
      cases bytes with
      | nil => rfl
      | cons b bytes =>
          by_cases hb : b = lineFeed
          · have hleft : withReturns (b :: bytes) =
                carriageReturn :: lineFeed :: withReturns bytes := by
              rw [hb]
              rfl
            rw [hleft, hb, List.cons_prefix_cons, List.cons_prefix_cons]
            exact iff_of_false (fun h => hreturn.1 h.1.symm) fun h => hfeed.1 h.1.symm
          · have hleft : withReturns (b :: bytes) = b :: withReturns bytes := by
              rw [withReturns, List.flatMap_cons, if_neg hb]
              rfl
            rw [hleft, List.cons_prefix_cons, List.cons_prefix_cons, ih hfeed.2 hreturn.2]

namespace Svg

/-- Line by line, both are the same without the carriage returns at the end of a line. -/
lemma map_dropEnd_splitOn_withReturns (bytes : Bytes) :
    ((withReturns bytes).splitOn lineFeed).map (dropEnd (· == carriageReturn)) =
      (bytes.splitOn lineFeed).map (dropEnd (· == carriageReturn)) := by
  induction bytes using induction_on_separator lineFeed with
  | piece line h => rw [withReturns_of_notMem h]
  | separated line rest h ih =>
      have hfeed : lineFeed ∉ line ++ [carriageReturn] := by
        rw [List.mem_append, not_or]
        exact ⟨h, by decide⟩
      rw [withReturns_append_cons h, List.splitOn_append_cons_self_of_not_mem hfeed,
        List.splitOn_append_cons_self_of_not_mem h, List.map_cons, List.map_cons, ih,
        dropEnd_append (by simp)]

/-- The lines of both are joined to the same bytes. -/
lemma joinLines_withReturns (bytes : Bytes) : joinLines (withReturns bytes) = joinLines bytes := by
  rw [joinLines, joinLines, List.flatMap_def, List.flatMap_def, List.map_take, List.map_take,
    map_dropEnd_splitOn_withReturns]

/-- The same bytes are searched where all of them are. -/
lemma searched_withReturns {bytes : Bytes} (hlen : (withReturns bytes).length ≤ headLimit) :
    searched (withReturns bytes) = searched bytes := by
  rw [searched, List.take_of_length_le hlen, joinLines_withReturns, searched,
    List.take_of_length_le ((length_le_length_withReturns bytes).trans hlen)]

end Svg

/-- **The manner in which lines are ended does not matter.** Bytes that begin with none of the
signatures of the other formats have the same size, or none, when a carriage return is put in front
of every line end, as long as they take at most 64 KiB with it. -/
theorem probeBytes_withReturns (bytes : Bytes)
    (hraster : ∀ signature ∈ rasterSignatures, ¬ signature <+: bytes)
    (hlen : (withReturns bytes).length ≤ 65536) :
    probeBytes (withReturns bytes) = probeBytes bytes := by
  have hends : ∀ signature ∈ rasterSignatures,
      lineFeed ∉ signature ∧ carriageReturn ∉ signature := by decide
  have hraster' : ∀ signature ∈ rasterSignatures, ¬ signature <+: withReturns bytes := by
    intro signature hs hp
    obtain ⟨hfeed, hreturn⟩ := hends signature hs
    exact hraster signature hs ((prefix_withReturns_iff hfeed hreturn bytes).mp hp)
  rw [probeBytes_of_not_raster hraster', probeBytes_of_not_raster hraster,
    Svg.searched_withReturns hlen]

/-- Three lines, of which the first one has a carriage return at its end already and the second one
is empty. -/
theorem probeBytes_withReturns_of_three_lines :
    ∃ bytes : Bytes, bytes = Utf8.encode "<svg width=\"7\"\r\n\nheight=\"5\"".toList ∧
      (∀ signature ∈ rasterSignatures, ¬ signature <+: bytes) ∧
      (withReturns bytes).length = bytes.length + 2 ∧
      probeBytes bytes = some ⟨7, 5⟩ ∧ probeBytes (withReturns bytes) = some ⟨7, 5⟩ := by
  let s : Text := ['<', 's', 'v', 'g', ' ', 'w', 'i', 'd', 't', 'h', '=', '"', '7', '"', '\r',
    '\n', '\n', 'h', 'e', 'i', 'g', 'h', 't', '=', '"', '5', '"']
  let lines : Text := ['<', 's', 'v', 'g', ' ', 'w', 'i', 'd', 't', 'h', '=', '"', '7', '"', 'h',
    'e', 'i', 'g', 'h', 't', '=', '"', '5', '"']
  have hraster : ∀ signature ∈ rasterSignatures, ¬ signature <+: Utf8.encode s := by decide
  have hlines : Svg.searched (Utf8.encode s) = Utf8.encode lines := by decide
  have hread : decodeText (Utf8.encode lines) = lines := Utf8.decodeLossy_encode lines
  have hsize : probeBytes (Utf8.encode s) = some ⟨7, 5⟩ := by
    rw [probeBytes_of_not_raster hraster, hlines, hread]
    decide
  have hreturns := probeBytes_withReturns (Utf8.encode s) hraster (by decide)
  exact ⟨Utf8.encode s, rfl, hraster, by decide, hsize, hreturns.trans hsize⟩

end DocImage
