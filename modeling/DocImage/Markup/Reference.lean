import DocImage.Text.Numeral
import DocImage.Markup.Basic

/-!
Character references. `escape` writes the five characters that markup reserves as references to
their names. `unescape?` replaces references by what they stand for: the five names, and
decimal or hexadecimal numbers of characters; anything else behind an `&` is refused. An escaped
text is read back (`unescape?_escape`).
-/

namespace DocImage.Markup

/-- The reserved characters and the names that stand for them. -/
def entities : List (Char × Text) :=
  [('<', ['l', 't']), ('>', ['g', 't']), ('&', ['a', 'm', 'p']), ('\'', ['a', 'p', 'o', 's']),
    ('"', ['q', 'u', 'o', 't'])]

/-- A character as it is written in text. -/
def escapeChar (c : Char) : Text :=
  match entities.lookup c with
  | some name => '&' :: (name ++ [';'])
  | none => [c]

/-- A text with its reserved characters written as references. -/
def escape (s : Text) : Text :=
  s.flatMap escapeChar

namespace Reference

/-- The character with the given number. No reference stands for the number 0. -/
def charOfNumber? (n : Nat) : Option Char :=
  if n ≠ 0 ∧ n.isValidChar then some (Char.ofNat n) else none

/-- The number above those of all characters. -/
def charLimit : Nat := 0x110000

/-- What the text between `&` and `;` stands for. -/
def resolve? : Text → Option Char
  | '#' :: 'x' :: digits => (Hexadecimal.read? charLimit digits).bind charOfNumber?
  | '#' :: digits => (Numeral.readDigits? charLimit digits).bind charOfNumber?
  | name => (entities.find? fun e => e.2 = name).map Prod.fst

/-- `unescape?` in the middle of a text, with the characters already read, the last one first.
-/
def unescapeFrom? (read : Text) (s : Text) : Option Text :=
  match s with
  | [] => some read.reverse
  | '&' :: s =>
    let inName := fun c => c != ';' && c != '&'
    match _h : s.dropWhile inName with
    | ';' :: rest =>
      match resolve? (s.takeWhile inName) with
      | some c => unescapeFrom? (c :: read) rest
      | none => none
    | _ => none
  | c :: s => unescapeFrom? (c :: read) s
termination_by s.length
decreasing_by
  · have := length_dropWhile_le inName s
    rw [_h, List.length_cons] at this
    rw [List.length_cons]; omega
  · rw [List.length_cons]; omega

theorem resolve?_of_mem_entities {e : Char × Text} (h : e ∈ entities) : resolve? e.2 = some e.1 :=
  (by decide : ∀ e ∈ entities, resolve? e.2 = some e.1) e h

/-- A reference by name stands for its character. -/
theorem unescapeFrom?_name {read name s : Text} {c : Char}
    (hn : ∀ d ∈ name, (d != ';' && d != '&') = true) (hc : resolve? name = some c) :
    unescapeFrom? read ('&' :: (name ++ ';' :: s)) = unescapeFrom? (c :: read) s := by
  have hd : (name ++ ';' :: s).dropWhile (fun c => c != ';' && c != '&') = ';' :: s := by
    rw [List.dropWhile_append_of_pos hn]; rfl
  have ht : (name ++ ';' :: s).takeWhile (fun c => c != ';' && c != '&') = name := by
    rw [List.takeWhile_append_of_pos hn]; simp
  rw [unescapeFrom?]
  split
  · next rest h =>
      rw [hd, List.cons.injEq] at h
      rw [ht, hc, h.2]
  · next h => exact absurd hd (h s)

theorem unescapeFrom?_escapeChar_append (read : Text) (c : Char) (s : Text) :
    unescapeFrom? read (escapeChar c ++ s) = unescapeFrom? (c :: read) s := by
  rw [escapeChar]
  split
  · next name h =>
      have hm : (c, name) ∈ entities := by
        obtain ⟨l, r, he, -⟩ := List.lookup_eq_some_iff.1 h
        rw [he]; simp
      rw [List.cons_append, List.append_assoc, List.singleton_append]
      refine unescapeFrom?_name ?_ (resolve?_of_mem_entities hm)
      have hall : (entities.all fun e => e.2.all fun d => d != ';' && d != '&') = true := by decide
      exact List.all_eq_true.1 (List.all_eq_true.1 hall _ hm)
  · next h =>
      rw [List.singleton_append, unescapeFrom?]
      intro hc
      rw [hc] at h
      exact absurd h (by decide)

theorem unescapeFrom?_escape_append (read s t : Text) :
    unescapeFrom? read (escape s ++ t) = unescapeFrom? (s.reverse ++ read) t := by
  induction s generalizing read with
  | nil => rfl
  | cons c s ih =>
      rw [escape, List.flatMap_cons, List.append_assoc, unescapeFrom?_escapeChar_append,
        ← escape, ih]
      simp

end Reference

/-- A text with its references replaced, or `none` if an `&` does not begin a known reference.
-/
def unescape? (s : Text) : Option Text :=
  Reference.unescapeFrom? [] s

/-- An escaped text is read back. -/
theorem unescape?_escape (s : Text) : unescape? (escape s) = some s := by
  have h := Reference.unescapeFrom?_escape_append [] s []
  simpa [unescape?, Reference.unescapeFrom?] using h

end DocImage.Markup
