import Mathlib.Tactic
import DocImage.ImageTag.Summary

/-!
The reading of a comment as a relation between its places.

* `Scan.Moves` lists what a token can do to a reading that goes on, and `Scan.moves_of_step` says
  that it does nothing else.
* `Reaches` is the run: the tokens read so far, the reading after them, and the text still to come.
  `Reaches.run_eq` says that the scan goes on from there, `exists_reaches_of_images?` how a scan
  that succeeds ends, and `images?_eq_none_iff` that it fails exactly if it meets an error: text
  that begins with no token, an end tag that closes nothing, or an open image at the end.
-/

namespace DocImage

open Markup

namespace Markup.Token

/-- The text of some tokens. -/
def text (tokens : List Token) : Text :=
  tokens.flatMap lexeme

@[simp] lemma text_nil : text [] = [] := rfl

@[simp] lemma text_cons (t : Token) (ts : List Token) : text (t :: ts) = t.lexeme ++ text ts := rfl

@[simp] lemma text_append (ts us : List Token) : text (ts ++ us) = text ts ++ text us :=
  List.flatMap_append

/-- A start tag or an empty tag whose name has the given local part. -/
def IsTagOf (name : Text) : Token → Prop
  | tag content => localName (StartTag.ofContent content).name = name
  | _ => False

instance (name : Text) (t : Token) : Decidable (t.IsTagOf name) := by
  cases t <;> unfold IsTagOf <;> infer_instance

/-- The tokens are the first ones of a text, and the rest comes behind them. -/
inductive Reads (s : Text) : List Token → Text → Prop
  | nil : Reads s [] s
  | snoc {ts : List Token} {t : Token} {r rest : Text} :
      Reads s ts r → next? r = some (t, rest) → Reads s (ts ++ [t]) rest

lemma Reads.eq {s rest : Text} {ts : List Token} (h : Reads s ts rest) : s = text ts ++ rest := by
  induction h with
  | nil => rfl
  | snoc _ hn ih => rw [ih, eq_lexeme_of_next? hn]; simp

end Markup.Token

namespace Summary

open Token

namespace Scan

/-! ### What a token can do -/

/-- What a token from `start` to `stop` makes of a reading that goes on after it. Only the names of
the open elements are left out. -/
inductive Moves (scan : Scan) (token : Token) (start stop : Nat) : Scan → Prop
  /-- No summary has begun. -/
  | before {opened : List Text} (opened' : List Text) :
      scan.place = .before opened → ¬ token.IsTagOf summaryName →
      Moves scan token start stop { scan with place := .before opened' }
  /-- The summary begins. -/
  | enters {opened : List Text} {content : Text} :
      scan.place = .before opened → token = .tag content → token.IsTagOf summaryName →
      (StartTag.ofContent content).isEmpty = false →
      Moves scan token start stop
        { scan with place := .summary [(StartTag.ofContent content).name] }
  /-- Something other than an image stands in the summary. -/
  | within {opened : List Text} (opened' : List Text) :
      scan.place = .summary opened →
      Moves scan token start stop { scan with place := .summary opened' }
  /-- An image that is an empty tag stands in the summary. -/
  | passes {opened : List Text} {content : Text} :
      scan.place = .summary opened → token = .tag content → token.IsTagOf imageName →
      Moves scan token start stop
        ⟨.summary opened,
          ⟨⟨start, stop⟩, (StartTag.ofContent content).attributes⟩ :: scan.images⟩
  /-- An image begins. -/
  | opens {opened : List Text} {content : Text} :
      scan.place = .summary opened → token = .tag content → token.IsTagOf imageName →
      Moves scan token start stop
        { scan with
          place := .image opened [(StartTag.ofContent content).name] start
            (StartTag.ofContent content).attributes }
  /-- The token belongs to the open image. -/
  | inside {opened inner : List Text} {start' : Nat} {attributes : Text} (inner' : List Text) :
      scan.place = .image opened inner start' attributes →
      Moves scan token start stop
        { scan with place := .image opened inner' start' attributes }
  /-- The open image ends. -/
  | closes {opened inner : List Text} {start' : Nat} {attributes content : Text} :
      scan.place = .image opened inner start' attributes → token = .close content →
      Moves scan token start stop
        ⟨.summary opened, ⟨⟨start', stop⟩, attributes⟩ :: scan.images⟩

variable {scan scan' : Scan} {token : Token} {start stop : Nat} {images : List ImageElement}

/-- A token that is no tag changes nothing. -/
lemma moves_refl (h : ∀ content, token ≠ .tag content) : scan.Moves token start stop scan := by
  obtain ⟨place, images⟩ := scan
  cases place with
  | before opened =>
      refine .before opened rfl ?_
      cases token <;> simp_all [IsTagOf]
  | summary opened => exact .within opened rfl
  | image opened inner start' attributes =>
      exact .inside inner rfl

lemma moves_of_close {content : Text}
    (h : scan.close (closedName content) stop = .more scan') :
    scan.Moves (.close content) start stop scan' := by
  obtain ⟨place, images⟩ := scan
  have hnot : ¬ (Token.close content).IsTagOf summaryName := id
  rw [close.eq_def] at h
  split at h
  · cases h
  · cases h
  · cases h
  · next n opened hp =>
      split at h
      · cases h; exact .before _ hp hnot
      · cases h
  · next n opened hp =>
      split at h
      · cases h
      · split at h
        · cases h
        · cases h; exact .within _ hp
  · next opened n inner start' attributes hp =>
      split at h
      · cases h
      · split at h
        · cases h; exact .closes hp rfl
        · cases h; exact .inside _ hp

lemma moves_of_enter {content : Text}
    (h : scan.enter (.ofContent content) start stop = .more scan') :
    scan.Moves (.tag content) start stop scan' := by
  obtain ⟨place, images⟩ := scan
  rw [enter.eq_def] at h
  cases place with
  | before opened =>
      simp only at h
      split at h
      · next hs =>
          split at h
          · cases h
          · next he => cases h; exact .enters rfl rfl hs (by simpa using he)
      · next hs =>
          split at h
          · cases h
            exact .before opened rfl hs
          · cases h; exact .before _ rfl hs
  | summary opened =>
      simp only at h
      split at h
      · next hi =>
          split at h
          · cases h; exact .passes rfl rfl hi
          · cases h; exact .opens rfl rfl hi
      · split at h
        · cases h
          exact .within opened rfl
        · cases h; exact .within _ rfl
  | image opened inner start' attributes =>
      simp only at h
      split at h
      · cases h
        exact .inside inner rfl
      · cases h; exact .inside _ rfl

/-- A token after which the reading goes on does one of the things listed. -/
lemma moves_of_step (h : scan.step token start stop = .more scan') :
    scan.Moves token start stop scan' := by
  cases token with
  | close content => exact moves_of_close h
  | tag content => exact moves_of_enter h
  | char c => cases h; exact moves_refl (by simp)
  | reference name => cases h; exact moves_refl (by simp)
  | comment body => cases h; exact moves_refl (by simp)
  | literal body => cases h; exact moves_refl (by simp)
  | doctype body => cases h; exact moves_refl (by simp)
  | instruction body => cases h; exact moves_refl (by simp)

/-- The names of the open elements among which the next end tag looks for its own, the last opened
one first. -/
def opened (scan : Scan) : List Text :=
  match scan.place with
  | .before opened => opened
  | .summary opened => opened
  | .image _ inner .. => inner

/-- The only token that is an error is an end tag that does not close the element opened last. -/
lemma step_eq_malformed_iff :
    scan.step token start stop = .malformed ↔
      ∃ content, token = .close content ∧ scan.opened.head? ≠ some (closedName content) := by
  obtain ⟨place, images⟩ := scan
  cases token with
  | close content =>
      rcases place with (_ | ⟨n, o⟩) | (_ | ⟨n, o⟩) | ⟨o, _ | ⟨n, o'⟩, st, a⟩ <;>
        simp only [step, close, opened, goTo, passImage] <;> grind
  | tag content =>
      cases place <;> simp only [step, enter, goTo, passImage] <;> grind
  | _ => simp [step]

/-- What is found when the summary ends has been found before. -/
lemma step_eq_finished (h : scan.step token start stop = .finished images) :
    images = scan.found ∧ ∀ o i st a, scan.place ≠ .image o i st a := by
  obtain ⟨place, images'⟩ := scan
  cases token with
  | close content =>
      rcases place with (_ | ⟨n, o⟩) | (_ | ⟨n, o⟩) | ⟨o, _ | ⟨n, o'⟩, st, a⟩ <;>
        simp only [step, close, goTo, passImage] at h <;> grind
  | tag content =>
      cases place <;> simp only [step, enter, goTo, passImage] at h <;> grind
  | _ => simp [step] at h

/-! ### Reading on -/

lemma run_nil (scan : Scan) (pos : Nat) : scan.run pos [] = scan.atEnd := by
  rw [run, if_pos rfl]

lemma run_of_next?_eq_none {s : Text} (hs : s ≠ []) (h : next? s = none) (pos : Nat) :
    scan.run pos s = none := by
  rw [run, if_neg hs]
  split
  · rfl
  · next hn => rw [h] at hn; cases hn

lemma run_of_next? {s rest : Text} (h : next? s = some (token, rest)) (pos : Nat) :
    scan.run pos s =
      match scan.step token pos (pos + Utf8.length token.lexeme) with
      | .more scan => scan.run (pos + Utf8.length token.lexeme) rest
      | .finished images => some images
      | .malformed => none := by
  have hs : s ≠ [] := fun hs => by rw [hs] at h; cases h
  rw [run, if_neg hs]
  split
  · next hn => rw [h] at hn; cases hn
  · next hn => rw [h] at hn; cases hn; rfl

lemma run_of_step {s rest : Text} {pos : Nat} (h : next? s = some (token, rest))
    (hs : scan.step token pos (pos + Utf8.length token.lexeme) = .more scan') :
    scan.run pos s = scan'.run (pos + Utf8.length token.lexeme) rest := by
  rw [run_of_next? h, hs]

/-- A reading that cannot go on because of an error in the text still to come. -/
inductive Fault (scan : Scan) (s : Text) : Prop
  /-- The text begins with no token. -/
  | noToken : s ≠ [] → next? s = none → Fault scan s
  /-- An end tag does not close the element opened last. -/
  | closesNothing {content rest : Text} : next? s = some (.close content, rest) →
      scan.opened.head? ≠ some (closedName content) → Fault scan s
  /-- An image is open at the end of the comment. -/
  | openImage {opened inner : List Text} {start : Nat} {attributes : Text} : s = [] →
      scan.place = .image opened inner start attributes → Fault scan s

/-- A reading that is over with the images found so far. -/
inductive Over (scan : Scan) (s : Text) : Prop
  /-- The comment ends, and no image is open. -/
  | atEnd : s = [] → (∀ o i st a, scan.place ≠ .image o i st a) → Over scan s
  /-- The next token ends the first summary. -/
  | atSummary {t : Token} {rest : Text} (start stop : Nat) : next? s = some (t, rest) →
      scan.step t start stop = .finished scan.found → Over scan s

lemma Over.place_ne {s : Text} (h : scan.Over s) : ∀ o i st a, scan.place ≠ .image o i st a := by
  cases h with
  | atEnd _ hp => exact hp
  | atSummary _ _ _ hs => exact (step_eq_finished hs).2

end Scan

/-- The reading of a comment gets to `scan` when it has read some tokens, with the given text still
to come. -/
inductive Reaches (comment : Text) : List Token → Scan → Text → Prop
  | start : Reaches comment [] Scan.start comment
  | snoc {ts : List Token} {t : Token} {scan scan' : Scan} {s rest : Text} :
      Reaches comment ts scan s → next? s = some (t, rest) →
      scan.step t (Utf8.length (text ts)) (Utf8.length (text (ts ++ [t]))) = .more scan' →
      Reaches comment (ts ++ [t]) scan' rest

namespace Reaches

variable {comment s : Text} {ts : List Token} {scan : Scan}

lemma reads (h : Reaches comment ts scan s) : Reads comment ts s := by
  induction h with
  | start => exact .nil
  | snoc _ hn _ ih => exact ih.snoc hn

lemma eq (h : Reaches comment ts scan s) : comment = text ts ++ s :=
  h.reads.eq

lemma length_snoc (ts : List Token) (t : Token) :
    Utf8.length (text (ts ++ [t])) = Utf8.length (text ts) + Utf8.length t.lexeme := by
  rw [text_append, Utf8.length_append, text_cons, text_nil, List.append_nil]

/-- The scan of the comment goes on from every reading that it gets to. -/
lemma run_eq (h : Reaches comment ts scan s) :
    images? comment = scan.run (Utf8.length (text ts)) s := by
  induction h with
  | start => rfl
  | snoc _ hn hs ih =>
      rw [length_snoc] at hs ⊢
      rw [ih, Scan.run_of_step hn hs]

/-- Every reading goes on until it is over, with all that has been found, or until an error. -/
lemma ends (h : Reaches comment ts scan s) :
    ∃ ts' scan' s', Reaches comment ts' scan' s' ∧
      (images? comment = some scan'.found ∧ scan'.Over s' ∨
        images? comment = none ∧ scan'.Fault s') := by
  induction hl : s.length using Nat.strong_induction_on generalizing ts scan s with
  | _ n ih =>
      by_cases hs : s = []
      · refine ⟨ts, scan, s, h, ?_⟩
        rw [h.run_eq, hs, Scan.run_nil, Scan.atEnd]
        split
        · next hp => exact .inr ⟨rfl, .openImage rfl hp⟩
        · next hp => exact .inl ⟨rfl, .atEnd rfl hp⟩
      · cases hn : next? s with
        | none =>
            exact ⟨ts, scan, s, h, .inr
              ⟨by rw [h.run_eq, Scan.run_of_next?_eq_none hs hn], .noToken hs hn⟩⟩
        | some p =>
            obtain ⟨t, rest⟩ := p
            have hrun := h.run_eq
            rw [Scan.run_of_next? hn, ← length_snoc] at hrun
            cases hstep : scan.step t (Utf8.length (text ts)) (Utf8.length (text (ts ++ [t]))) with
            | more scan' =>
                exact ih _ (hl ▸ length_lt_of_next? hn) (h.snoc hn hstep) rfl
            | finished images =>
                rw [hstep] at hrun
                obtain ⟨rfl, -⟩ := Scan.step_eq_finished hstep
                exact ⟨ts, scan, s, h, .inl ⟨hrun, .atSummary _ _ hn hstep⟩⟩
            | malformed =>
                rw [hstep] at hrun
                obtain ⟨content, rfl, ho⟩ := Scan.step_eq_malformed_iff.mp hstep
                exact ⟨ts, scan, s, h, .inr ⟨hrun, .closesNothing hn ho⟩⟩

/-- At an error the scan fails. -/
lemma images?_eq_none (h : Reaches comment ts scan s) (hf : scan.Fault s) :
    images? comment = none := by
  rw [h.run_eq]
  cases hf with
  | noToken hs hn => exact Scan.run_of_next?_eq_none hs hn _
  | closesNothing hn ho =>
      rw [Scan.run_of_next? hn, Scan.step_eq_malformed_iff.mpr ⟨_, rfl, ho⟩]
  | openImage hs hp => rw [hs, Scan.run_nil, Scan.atEnd, hp]

end Reaches

/-- The scan fails exactly if the reading meets an error. -/
lemma images?_eq_none_iff {comment : Text} :
    images? comment = none ↔ ∃ ts scan s, Reaches comment ts scan s ∧ scan.Fault s := by
  refine ⟨fun h => ?_, fun ⟨_, _, _, h, hf⟩ => h.images?_eq_none hf⟩
  have hstart : Reaches comment [] Scan.start comment := .start
  obtain ⟨ts, scan, s, hr, ⟨hs, -⟩ | ⟨-, hf⟩⟩ := hstart.ends
  · rw [h] at hs; cases hs
  · exact ⟨ts, scan, s, hr, hf⟩

/-- A scan that succeeds gives all that has been found when the reading is over. -/
lemma exists_reaches_of_images? {comment : Text} {images : List ImageElement}
    (h : images? comment = some images) :
    ∃ ts scan s, Reaches comment ts scan s ∧ images = scan.found ∧ scan.Over s := by
  have hstart : Reaches comment [] Scan.start comment := .start
  obtain ⟨ts, scan, s, hr, ⟨hs, ho⟩ | ⟨hs, -⟩⟩ := hstart.ends
  · rw [h] at hs; exact ⟨ts, scan, s, hr, Option.some.inj hs, ho⟩
  · rw [h] at hs; cases hs

end Summary

end DocImage
