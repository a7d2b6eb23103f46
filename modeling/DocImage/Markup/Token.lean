import DocImage.Markup.Doctype
import DocImage.Text.Character

/-!
The tokens of markup. `Token.next?` reads the first one: a character of running text, a
reference, or one piece of markup with its own end, so that a token never depends on what comes
after it. Nothing is read from an empty text or from malformed markup. `eq_lexeme_of_next?`
says that a token is read from exactly the text that writes it, `Token.lexeme`.
-/

namespace DocImage.Markup

/-- One token of markup. -/
inductive Token where
  /-- A character of running text. -/
  | char (c : Char)
  /-- The name between `&` and `;`. -/
  | reference (name : Text)
  /-- The text of a comment. -/
  | comment (body : Text)
  /-- The text of a literal section. -/
  | literal (body : Text)
  /-- A document type declaration, from after its `<!` to its end. -/
  | doctype (body : Text)
  /-- The text of a processing instruction. -/
  | instruction (body : Text)
  /-- What an end tag holds after `</`. -/
  | close (content : Text)
  /-- What any other tag holds after `<`. -/
  | tag (content : Text)

namespace Token

/-- The text that a token is read from. -/
def lexeme : Token → Text
  | char c => [c]
  | reference name => '&' :: (name ++ [';'])
  | comment body => ['<', '!', '-', '-'] ++ (body ++ ['-', '-', '>'])
  | literal body => ['<', '!', '[', 'C', 'D', 'A', 'T', 'A', '['] ++ (body ++ [']', ']', '>'])
  | doctype body => ['<', '!'] ++ body
  | instruction body => ['<', '?'] ++ (body ++ ['?', '>'])
  | close content => ['<', '/'] ++ (content ++ ['>'])
  | tag content => '<' :: (content ++ ['>'])

/-- A token after `<!`. -/
def declaration? (s : Text) : Option (Token × Text) :=
  match after? ['-', '-'] s, after? ['[', 'C', 'D', 'A', 'T', 'A', '['] s with
  | some r, _ => (splitAtFirst? ['-', '-', '>'] r).map fun (body, rest) => (comment body, rest)
  | none, some r => (splitAtFirst? [']', ']', '>'] r).map fun (body, rest) => (literal body, rest)
  | none, none =>
    if sameUpToCase (s.take 7) ['D', 'O', 'C', 'T', 'Y', 'P', 'E'] then
      (Doctype.rest? (s.drop 7)).map fun rest => (doctype (s.take (s.length - rest.length)), rest)
    else none

/-- A token after `<?`. An instruction holds at least its own two question marks. -/
def instruction? : Text → Option (Token × Text)
  | '>' :: _ => none
  | s => (splitAtFirst? ['?', '>'] s).map fun (body, rest) => (instruction body, rest)

/-- A token after `&`. -/
def reference? (s : Text) : Option (Token × Text) :=
  let inName := fun c => c != ';' && c != '&' && c != '<'
  match s.dropWhile inName with
  | ';' :: rest => some (reference (s.takeWhile inName), rest)
  | _ => none

/-- The first token of a text and the text after it; nothing if the text is empty or does not
begin with a token. -/
def next? : Text → Option (Token × Text)
  | '<' :: '!' :: s => declaration? s
  | '<' :: '?' :: s => instruction? s
  | '<' :: '/' :: s => (tagEnd? s).map fun (content, rest) => (close content, rest)
  | '<' :: s => (tagEnd? s).map fun (content, rest) => (tag content, rest)
  | '&' :: s => reference? s
  | c :: s => some (char c, s)
  | [] => none

theorem eq_of_declaration? {s rest : Text} {t : Token} (h : declaration? s = some (t, rest)) :
    '<' :: '!' :: s = t.lexeme ++ rest := by
  rw [declaration?] at h
  split at h
  · next _ _ r hs =>
      obtain ⟨⟨body, r'⟩, hr, he⟩ := Option.map_eq_some_iff.1 h
      cases he
      rw [after?_eq_some_iff.1 hs, eq_of_splitAtFirst? hr]
      simp [lexeme]
  · next _ _ r _ hs =>
      obtain ⟨⟨body, r'⟩, hr, he⟩ := Option.map_eq_some_iff.1 h
      cases he
      rw [after?_eq_some_iff.1 hs, eq_of_splitAtFirst? hr]
      simp [lexeme]
  · split at h
    · obtain ⟨r, hr, he⟩ := Option.map_eq_some_iff.1 h
      cases he
      obtain ⟨p, hp⟩ := (Doctype.isLocal_rest?.suffix hr).trans (List.drop_suffix 7 s)
      rw [← hp]
      simp [lexeme]
    · cases h

theorem eq_of_instruction? {s rest : Text} {t : Token} (h : instruction? s = some (t, rest)) :
    '<' :: '?' :: s = t.lexeme ++ rest := by
  rw [instruction?.eq_def] at h
  split at h
  · cases h
  · obtain ⟨⟨body, r⟩, hr, he⟩ := Option.map_eq_some_iff.1 h
    cases he
    rw [eq_of_splitAtFirst? hr]
    simp [lexeme]

theorem eq_of_reference? {s rest : Text} {t : Token} (h : reference? s = some (t, rest)) :
    '&' :: s = t.lexeme ++ rest := by
  simp only [reference?] at h
  split at h
  · next r hd =>
      cases h
      have hs := List.takeWhile_append_dropWhile (l := s)
        (p := fun c => c != ';' && c != '&' && c != '<')
      rw [hd] at hs
      simpa [lexeme] using hs.symm
  · cases h

/-- The first token is read from exactly the text that writes it. -/
theorem eq_lexeme_of_next? {s rest : Text} {t : Token} (h : next? s = some (t, rest)) :
    s = t.lexeme ++ rest := by
  rw [next?.eq_def] at h
  split at h
  · exact eq_of_declaration? h
  · exact eq_of_instruction? h
  · obtain ⟨⟨content, r⟩, hr, he⟩ := Option.map_eq_some_iff.1 h
    cases he
    rw [eq_of_tagEnd? hr]
    simp [lexeme]
  · obtain ⟨⟨content, r⟩, hr, he⟩ := Option.map_eq_some_iff.1 h
    cases he
    rw [eq_of_tagEnd? hr]
    simp [lexeme]
  · exact eq_of_reference? h
  · cases h; rfl
  · cases h

/-- No token is empty. -/
theorem lexeme_length_pos (t : Token) : 0 < t.lexeme.length := by
  cases t <;> simp [lexeme]

/-- The text after a token is shorter than the text that holds it. -/
theorem length_lt_of_next? {s rest : Text} {t : Token} (h : next? s = some (t, rest)) :
    rest.length < s.length := by
  have := t.lexeme_length_pos
  rw [eq_lexeme_of_next? h, List.length_append]
  omega

end Token

end DocImage.Markup
