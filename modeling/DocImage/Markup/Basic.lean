import DocImage.Text.Basic

/-!
White space and quotes in markup. Markup knows four white-space characters only. Quotes of
either kind hide the character that would end a tag; a quote is closed by the character that
opened it (`quoteAfter`). `breakUnquoted? stop` finds the first character of a kind outside
quotes, and `tagEnd?` the `>` that ends a tag.
-/

namespace DocImage.Markup

/-- The white space of markup: space, tab, line feed and carriage return. -/
def isSpace (c : Char) : Bool :=
  c == ' ' || c == '\t' || c == '\n' || c == '\r'

/-- Whether a character opens a quote. -/
def isQuote (c : Char) : Bool :=
  c == '"' || c == '\''

/-- The open quote after a character, given the one before it. -/
def quoteAfter (quote : Option Char) (c : Char) : Option Char :=
  match quote with
  | none => if isQuote c then some c else none
  | some q => if c = q then none else some q

/-- `breakUnquoted?` in the middle of a text: the open quote and the characters already passed,
the last one first. -/
def breakUnquotedFrom? (stop : Char → Bool) (quote : Option Char) (passed : Text) :
    Text → Option (Text × Text)
  | [] => none
  | c :: s =>
    if quote.isNone && stop c then some (passed.reverse, c :: s)
    else breakUnquotedFrom? stop (quoteAfter quote c) (c :: passed) s

/-- The text before the first character outside quotes that satisfies `stop`, and the text from
it on. -/
def breakUnquoted? (stop : Char → Bool) (s : Text) : Option (Text × Text) :=
  breakUnquotedFrom? stop none [] s

theorem append_of_breakUnquotedFrom? {stop : Char → Bool} {quote : Option Char}
    {passed s before rest : Text}
    (h : breakUnquotedFrom? stop quote passed s = some (before, rest)) :
    passed.reverse ++ s = before ++ rest := by
  induction s generalizing quote passed with
  | nil => simp [breakUnquotedFrom?] at h
  | cons c s ih =>
      rw [breakUnquotedFrom?] at h
      split at h
      · cases h; rfl
      · rw [← ih h]; simp

/-- Nothing is lost at an unquoted character. -/
theorem append_of_breakUnquoted? {stop : Char → Bool} {s before rest : Text}
    (h : breakUnquoted? stop s = some (before, rest)) : s = before ++ rest := by
  simpa using append_of_breakUnquotedFrom? h

theorem breakUnquotedFrom?_append {stop : Char → Bool} {quote : Option Char}
    {passed s before rest : Text} {c : Char}
    (h : breakUnquotedFrom? stop quote passed s = some (before, c :: rest)) (rest' : Text) :
    ∃ read, s = read ++ c :: rest ∧ before = passed.reverse ++ read ∧
      breakUnquotedFrom? stop quote passed (read ++ c :: rest') = some (before, c :: rest') := by
  induction s generalizing quote passed with
  | nil => simp [breakUnquotedFrom?] at h
  | cons d s ih =>
      rw [breakUnquotedFrom?] at h
      split at h
      · next hd =>
          cases h
          exact ⟨[], rfl, by simp, by rw [List.nil_append, breakUnquotedFrom?, if_pos hd]⟩
      · next hd =>
          obtain ⟨read, rfl, rfl, hr⟩ := ih h
          refine ⟨d :: read, rfl, by simp, ?_⟩
          rw [List.cons_append, breakUnquotedFrom?, if_neg hd, hr]

/-- Where the character stands does not depend on what follows it. -/
theorem breakUnquoted?_append {stop : Char → Bool} {s before rest : Text} {c : Char}
    (h : breakUnquoted? stop s = some (before, c :: rest)) (rest' : Text) :
    breakUnquoted? stop (before ++ c :: rest') = some (before, c :: rest') := by
  obtain ⟨read, -, rfl, hr⟩ := breakUnquotedFrom?_append h rest'
  exact hr

/-- The text before the first `>` outside quotes, and the text after it. -/
def tagEnd? (s : Text) : Option (Text × Text) :=
  match breakUnquoted? (· == '>') s with
  | some (content, '>' :: rest) => some (content, rest)
  | _ => none

theorem eq_of_tagEnd? {s content rest : Text} (h : tagEnd? s = some (content, rest)) :
    s = content ++ '>' :: rest := by
  rw [tagEnd?] at h
  split at h
  · next hb => cases h; exact append_of_breakUnquoted? hb
  · cases h

/-- Where a tag ends does not depend on what follows it. -/
theorem tagEnd?_append {s content rest : Text} (h : tagEnd? s = some (content, rest))
    (rest' : Text) : tagEnd? (content ++ '>' :: rest') = some (content, rest') := by
  rw [tagEnd?] at h
  split at h
  · next hb => cases h; simp [tagEnd?, breakUnquoted?_append hb]
  · cases h

/-- What follows the last colon of a name. -/
def localName (name : Text) : Text :=
  (name.reverse.takeWhile (· != ':')).reverse

end DocImage.Markup
