import Mathlib.Data.List.TakeWhile
import Mathlib.Tactic
import DocImage.Files.Path
import DocImage.Proofs.Text.Occurrence

/-!
The last name of a path and its extension.

* `Path.IsTrunk` says what a path is without the slashes and the `/.` at its end. Every path has
  exactly one trunk (`Path.isTrunk_iff`), whatever of this is put behind it
  (`Path.IsTrunk.append`); names in front of the path stand in front of its trunk
  (`Path.IsTrunk.behind`).
* `Path.IsTrunk.getLast?_names`: the last component of a path is the last name of its trunk.
* `Path.extension?_eq_some_iff`: the extension is what follows the last dot of the last component,
  if anything precedes that dot. `Path.extension?_map`: it changes byte by byte with the path.
-/

namespace DocImage

namespace Path

/-! ### The end of a path that does not count -/

/-- What does not count at the end of a path. -/
def trailers : List Bytes :=
  [[slash], [slash, dot]]

/-- A path without the slashes and the `/.` at its end. -/
structure IsTrunk (path trunk : Path) : Prop where
  exists_tail : ∃ tail : List Bytes, (∀ piece ∈ tail, piece ∈ trailers) ∧
    path = trunk ++ tail.flatten
  not_suffix : ∀ piece ∈ trailers, ¬ piece <:+ trunk

lemma IsTrunk.refl {path : Path} (h : ∀ piece ∈ trailers, ¬ piece <:+ path) : path.IsTrunk path :=
  ⟨⟨[], by simp, by simp⟩, h⟩

/-- What does not count may be put behind a path. -/
lemma IsTrunk.append {path trunk : Path} (h : path.IsTrunk trunk) {piece : Bytes}
    (hp : piece ∈ trailers) : IsTrunk (path ++ piece) trunk := by
  obtain ⟨tail, htail, rfl⟩ := h.exists_tail
  refine ⟨⟨tail ++ [piece], ?_, by simp⟩, h.not_suffix⟩
  exact List.forall_mem_append.mpr ⟨htail, List.forall_mem_singleton.mpr hp⟩

/-- A path that is written backwards ends in something that counts. -/
lemma forall_not_suffix_reverse_iff {backwards : Bytes} :
    (∀ piece ∈ trailers, ¬ piece <:+ backwards.reverse) ↔
      ¬ [slash] <+: backwards ∧ ¬ [dot, slash] <+: backwards := by
  have hreverse : ∀ piece : Bytes, piece <:+ backwards.reverse ↔ piece.reverse <+: backwards :=
    fun piece => by rw [← List.reverse_prefix, List.reverse_reverse]
  simp [trailers, hreverse]

/-- What is left of a path that is shortened from its end is its trunk. -/
lemma isTrunk_dropTrailing (backwards : Bytes) :
    IsTrunk backwards.reverse (dropTrailing backwards).reverse := by
  fun_induction dropTrailing backwards with
  | case1 => exact .refl (by decide)
  | case2 =>
      have hnil : IsTrunk [] [] := .refl (by decide)
      exact hnil.append (.head _)
  | case3 b hb =>
      refine .refl (forall_not_suffix_reverse_iff.mpr ⟨?_, ?_⟩)
      · simpa [List.cons_prefix_cons] using Ne.symm hb
      · simp [List.cons_prefix_cons]
  | case4 c l ih =>
      rw [List.reverse_cons]
      exact ih.append (.head _)
  | case5 b c l _ hbc ih =>
      obtain ⟨rfl, rfl⟩ := hbc
      rw [List.reverse_cons, List.reverse_cons, List.append_assoc]
      exact ih.append (.tail _ (.head _))
  | case6 b c l hb hc =>
      refine .refl (forall_not_suffix_reverse_iff.mpr ⟨?_, ?_⟩)
      · simpa [List.cons_prefix_cons] using Ne.symm hb
      · rintro ⟨rest, hrest⟩
        cases hrest
        exact hc ⟨rfl, rfl⟩

lemma dropTrailing_reverse_append {piece : Bytes} (h : piece ∈ trailers) (backwards : Bytes) :
    dropTrailing (piece.reverse ++ backwards) = dropTrailing backwards := by
  simp only [trailers, List.mem_cons, List.not_mem_nil, or_false] at h
  rcases h with rfl | rfl
  · cases backwards with
    | nil => rfl
    | cons b l => exact if_pos rfl
  · exact (if_neg (by decide)).trans (if_pos ⟨rfl, rfl⟩)

lemma dropTrailing_eq_self {trunk : Path} (h : ∀ piece ∈ trailers, ¬ piece <:+ trunk) :
    dropTrailing trunk.reverse = trunk.reverse := by
  rw [← List.reverse_reverse trunk, forall_not_suffix_reverse_iff] at h
  generalize trunk.reverse = backwards at h
  fun_cases dropTrailing backwards with
  | case1 => rfl
  | case2 => exact absurd (List.prefix_refl _) h.1
  | case3 => rfl
  | case4 c l => exact absurd ⟨c :: l, rfl⟩ h.1
  | case5 b c l _ hbc =>
      obtain ⟨rfl, rfl⟩ := hbc
      exact absurd ⟨l, rfl⟩ h.2
  | case6 => rfl

/-- **A path has exactly one trunk.** -/
lemma isTrunk_iff {path trunk : Path} :
    path.IsTrunk trunk ↔ trunk = (dropTrailing path.reverse).reverse := by
  constructor
  · rintro ⟨⟨tail, htail, rfl⟩, hsuffix⟩
    have hdrop : dropTrailing (trunk ++ tail.flatten).reverse = dropTrailing trunk.reverse := by
      induction tail using List.reverseRecOn with
      | nil => rw [List.flatten_nil, List.append_nil]
      | append_singleton tail piece ih =>
          obtain ⟨htail, hpiece⟩ := List.forall_mem_append.mp htail
          rw [List.flatten_concat, ← List.append_assoc, List.reverse_append,
            dropTrailing_reverse_append (List.forall_mem_singleton.mp hpiece), ih htail]
    rw [hdrop, dropTrailing_eq_self hsuffix, List.reverse_reverse]
  · rintro rfl
    have htrunk := isTrunk_dropTrailing path.reverse
    rwa [List.reverse_reverse] at htrunk

/-- Every path has a trunk. -/
lemma exists_isTrunk (path : Path) : ∃ trunk, path.IsTrunk trunk :=
  ⟨_, isTrunk_iff.mpr rfl⟩

/-- Names in front of a path stand in front of its trunk, unless they would make something of it
that does not count. -/
lemma IsTrunk.behind {path trunk : Path} (h : path.IsTrunk trunk) (hne : trunk ≠ [])
    (hdot : trunk ≠ [dot]) (directory : Path) :
    IsTrunk (directory ++ slash :: path) (directory ++ slash :: trunk) := by
  obtain ⟨tail, htail, rfl⟩ := h.exists_tail
  refine ⟨⟨tail, htail, by simp⟩, fun piece hp hs => ?_⟩
  have hlen : piece.length ≤ (slash :: trunk).length := by
    have htwo : ∀ piece ∈ trailers, piece.length ≤ 2 := by decide
    have hpos := List.length_pos_iff.mpr hne
    have := htwo piece hp
    rw [List.length_cons]
    omega
  have hshort := List.suffix_of_suffix_length_le hs (List.suffix_append _ _) hlen
  rcases List.suffix_cons_iff.mp hshort with heq | hsuffix
  · rw [heq] at hp
    simp only [trailers, List.mem_cons, List.cons.injEq, true_and, List.not_mem_nil, or_false] at hp
    exact hp.elim hne hdot
  · exact h.not_suffix piece hp hsuffix

/-! ### The last name -/

/-- Slashes in front of a name make no difference to it. -/
lemma getLast?_names_append_cons (directory path : Path) :
    (names (directory ++ slash :: path)).getLast? = (names path).getLast? := by
  rw [names, List.splitOn_append_cons_self,
    List.getLast?_append_of_ne_nil _ (List.splitOn_ne_nil _ _), names]

/-- The last name of a path is what follows its last slash. -/
lemma getLast?_names (path : Path) :
    (names path).getLast? = some (path.reverse.takeWhile (· != slash)).reverse := by
  induction path using induction_on_separator slash with
  | piece name h =>
      have hall : ∀ b ∈ name.reverse, (b != slash) = true := fun b hb =>
        bne_iff_ne.mpr (ne_of_mem_of_not_mem (List.mem_reverse.mp hb) h)
      rw [names, List.splitOn_eq_singleton h, List.getLast?_singleton,
        List.takeWhile_eq_self_iff.mpr hall, List.reverse_reverse]
  | separated name rest _ ih =>
      have hstop : (rest.reverse ++ slash :: name.reverse).takeWhile (· != slash) =
          rest.reverse.takeWhile (· != slash) := by
        rw [List.takeWhile_append, List.takeWhile_cons_of_neg (by simp), List.append_nil]
        split
        · next heq => exact ((List.takeWhile_prefix _).eq_of_length heq).symm
        · rfl
      rw [List.reverse_append, List.reverse_cons, List.append_assoc, List.singleton_append, hstop,
        ← ih, getLast?_names_append_cons]

/-- The last component of a path is the last name of its trunk. -/
lemma IsTrunk.getLast?_names {path trunk : Path} (h : path.IsTrunk trunk) :
    (names trunk).getLast? = some (lastComponent path) := by
  rw [Path.getLast?_names, isTrunk_iff.mp h, List.reverse_reverse, lastComponent]

lemma lastComponent_append {piece : Bytes} (h : piece ∈ trailers) (path : Path) :
    lastComponent (path ++ piece) = lastComponent path := by
  obtain ⟨trunk, htrunk⟩ := exists_isTrunk path
  exact Option.some.inj ((htrunk.append h).getLast?_names.symm.trans htrunk.getLast?_names)

lemma IsTrunk.lastComponent_behind {path trunk : Path} (h : path.IsTrunk trunk) (hne : trunk ≠ [])
    (hdot : trunk ≠ [dot]) (directory : Path) :
    lastComponent (directory ++ slash :: path) = lastComponent path := by
  have hbehind := (h.behind hne hdot directory).getLast?_names
  rw [getLast?_names_append_cons, h.getLast?_names] at hbehind
  exact (Option.some.inj hbehind).symm

/-- A path has the same last component when it is joined to a directory. -/
lemma IsTrunk.lastComponent_join {path trunk : Path} (h : path.IsTrunk trunk) (hne : trunk ≠ [])
    (hdot : trunk ≠ [dot]) (directory : Path) :
    lastComponent (join directory path) = lastComponent path := by
  rw [join]
  split
  · rfl
  · split
    · next hend =>
        rcases hend with rfl | hlast
        · rfl
        · obtain ⟨front, rfl⟩ := List.getLast?_eq_some_iff.mp hlast
          rw [List.append_assoc]
          exact h.lastComponent_behind hne hdot front
    · exact h.lastComponent_behind hne hdot directory

/-! ### The extension -/

/-- The extension is what follows the last dot of the last component, if anything precedes it. -/
lemma extension?_eq_some_iff {path : Path} {extension : Bytes} :
    path.extension? = some extension ↔
      ∃ stem, lastComponent path = stem ++ dot :: extension ∧ stem ≠ [] ∧ dot ∉ extension := by
  rw [extension?]
  generalize lastComponent path = name
  constructor
  · intro h
    have happ := List.takeWhile_append_dropWhile (p := (· != dot)) (l := name.reverse)
    have hfirst := List.head?_dropWhile_not (· != dot) name.reverse
    split at h
    · next b c rest hd =>
        obtain rfl := Option.some.inj h
        rw [hd] at happ hfirst
        obtain rfl : b = dot := by simpa using hfirst
        refine ⟨(c :: rest).reverse, ?_, by simp, fun hm => ?_⟩
        · rw [← List.reverse_inj, List.reverse_append]
          simpa using happ.symm
        · simpa using List.mem_takeWhile_imp (List.mem_reverse.mp hm)
    · cases h
  · rintro ⟨stem, rfl, hne, hdot⟩
    have hother : ∀ b ∈ extension.reverse, (b != dot) = true := fun b hb =>
      bne_iff_ne.mpr (ne_of_mem_of_not_mem (List.mem_reverse.mp hb) hdot)
    obtain ⟨c, rest, hstem⟩ := List.exists_cons_of_ne_nil (List.reverse_ne_nil_iff.mpr hne)
    rw [List.reverse_append, List.reverse_cons, List.append_assoc, List.singleton_append,
      List.dropWhile_append_of_pos hother, List.dropWhile_cons_of_neg (by simp), hstem,
      List.takeWhile_append_of_pos hother, List.takeWhile_cons_of_neg (by simp)]
    simp

/-- A name without a dot behind its first byte has no extension. -/
lemma extension?_of_dot_notMem_tail {path : Path} (h : dot ∉ path.lastComponent.tail) :
    path.extension? = none := by
  refine Option.eq_none_iff_forall_ne_some.mpr fun extension he => ?_
  obtain ⟨stem, hname, hne, -⟩ := extension?_eq_some_iff.mp he
  obtain ⟨b, stem, rfl⟩ := List.exists_cons_of_ne_nil hne
  rw [hname] at h
  simp at h

section Map

variable {f : UInt8 → UInt8} (hslash : ∀ b, f b = slash ↔ b = slash)
  (hdot : ∀ b, f b = dot ↔ b = dot)
include hslash hdot

lemma dropTrailing_map (backwards : Bytes) :
    dropTrailing (backwards.map f) = (dropTrailing backwards).map f := by
  fun_induction dropTrailing backwards with
  | case1 => rfl
  | case2 => exact if_pos ((hslash slash).mpr rfl)
  | case3 b hb => exact if_neg (mt (hslash b).mp hb)
  | case4 c l ih =>
      rw [← ih]
      exact if_pos ((hslash slash).mpr rfl)
  | case5 b c l hb hbc ih =>
      rw [← ih]
      exact (if_neg (mt (hslash b).mp hb)).trans
        (if_pos ⟨(hdot b).mpr hbc.1, (hslash c).mpr hbc.2⟩)
  | case6 b c l hb hbc =>
      refine (if_neg (mt (hslash b).mp hb)).trans (if_neg fun h => hbc ?_)
      exact ⟨(hdot b).mp h.1, (hslash c).mp h.2⟩

/-- Where slashes and dots stay what they are, the last component changes byte by byte. -/
lemma lastComponent_map (path : Path) :
    lastComponent (path.map f) = (lastComponent path).map f := by
  have hother : (· != slash) ∘ f = (· != slash) := by
    funext b
    simp [bne, hslash b]
  rw [lastComponent, ← List.map_reverse, dropTrailing_map hslash hdot, List.takeWhile_map, hother,
    ← List.map_reverse, lastComponent]

/-- And so does the extension. -/
lemma extension?_map (path : Path) :
    extension? (path.map f) = (extension? path).map (List.map f) := by
  have hother : (· != dot) ∘ f = (· != dot) := by
    funext b
    simp [bne, hdot b]
  rw [extension?, lastComponent_map hslash hdot, extension?]
  rw [← List.map_reverse, List.takeWhile_map, List.dropWhile_map, hother]
  cases (lastComponent path).reverse.dropWhile (· != dot) with
  | nil => rfl
  | cons b rest =>
      cases rest with
      | nil => rfl
      | cons c rest => simp

end Map

end Path

end DocImage
