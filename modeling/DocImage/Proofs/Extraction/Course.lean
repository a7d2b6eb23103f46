import Mathlib.Tactic
import DocImage.Markup.Token.Local
import DocImage.Proofs.Extraction.Reading
import DocImage.Proofs.Markup.Written

/-!
The reading of a comment apart from the text behind it. `Leads ts scan` says that the tokens `ts`
lead a reading to `scan` whatever follows them. Every reading is such a row of tokens
(`Reaches.leads`), and with any text behind it such a row is a reading (`Leads.reaches`), so tokens
of one comment can be read in another one.
-/

namespace DocImage

open Markup Token

/-- What has been read once is read whatever follows it. -/
lemma Markup.Token.isReadable_of_next? {s rest : Text} {t : Token} (h : next? s = some (t, rest)) :
    t.IsReadable :=
  next?_lexeme_append h

namespace Summary

/-- Some tokens at the beginning of a comment lead its reading to `scan`. -/
inductive Leads : List Token → Scan → Prop
  | start : Leads [] Scan.start
  | snoc {ts : List Token} {t : Token} {scan scan' : Scan} :
      Leads ts scan → t.IsReadable →
      scan.step t (Utf8.length (text ts)) (Utf8.length (text (ts ++ [t]))) = .more scan' →
      Leads (ts ++ [t]) scan'

variable {comment s : Text} {ts : List Token} {scan : Scan}

/-- The tokens of a reading do not depend on the text behind them. -/
lemma Reaches.leads (h : Reaches comment ts scan s) : Leads ts scan := by
  induction h with
  | start => exact .start
  | snoc _ hn hs ih => exact ih.snoc (isReadable_of_next? hn) hs

/-- The reading of any text that begins with the tokens gets where they lead. -/
lemma Leads.reaches (h : Leads ts scan) (s : Text) : Reaches (text ts ++ s) ts scan s := by
  induction h generalizing s with
  | start => exact .start
  | @snoc ts t scan scan' _ ht hs ih =>
      have := (ih (t.lexeme ++ s)).snoc (ht s) hs
      simpa using this

end Summary

end DocImage
