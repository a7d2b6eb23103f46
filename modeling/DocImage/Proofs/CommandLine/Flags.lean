import Mathlib.Tactic
import DocImage.CommandLine.Run
import DocImage.Files.Error
import DocImage.Proofs.Presentation.Enlarging

/-!
The flag for enlarging among the arguments of the render command.

* `takeArgument` is what one argument comes to, and `readRender_cons` says that the arguments are
  read by taking one after another. Only an option takes the argument behind it as well.
* `readRender_withUpscale`: arguments that are accepted with the flag set before, and with the flag
  not set, ask for the same command but for the flag.
* `readRender_insert_upscaleFlag`: so wherever the flag is put in, the command is the same but for
  it, if the arguments are accepted both ways.
-/

namespace DocImage

namespace CommandLine

/-- The command with another flag for enlarging. -/
def Command.withUpscale (allow : Bool) : Command → Command
  | probe files asJson => probe files asJson
  | render comment root settings => render comment root (settings.withUpscale allow)

/-- The arguments read so far with another flag for enlarging. -/
def RenderArguments.withUpscale (allow : Bool) (a : RenderArguments) : RenderArguments :=
  { a with upscale := allow }

/-! ### Reading one argument after another -/

/-- What an argument of the render command comes to. -/
inductive Taken where
  | stopped (stop : Stop)
  | read (a : RenderArguments) (separated : Bool)
  /-- The option has its value in the next argument. -/
  | option (option : RenderOption)

/-- An option whose value is taken in, or refused. -/
def Taken.ofOption (separated : Bool) : Option RenderArguments → Taken
  | some a => read a separated
  | none => stopped .refused

/-- Takes in one argument of the render command. -/
def takeArgument (a : RenderArguments) (separated : Bool) (arg : Bytes) : Taken :=
  match if separated then .plain arg else Argument.ofBytes arg with
  | .separator => .read a true
  | .plain comment =>
    if a.comment.isSome ∨ comment = [] then .stopped .refused
    else .read { a with comment := some comment } separated
  | .short letter rest =>
    if letter = helpLetter then .stopped .help
    else if letter ≠ rootLetter then .stopped .refused
    else if rest ≠ [] then .ofOption separated (RenderOption.root.set? a (attached rest))
    else .option .root
  | .long name value =>
    match RenderOption.ofName? name, value with
    | some option, some value => .ofOption separated (option.set? a value)
    | some option, none => .option option
    | none, some _ => .stopped .refused
    | none, none =>
      if name = word "help" then .stopped .help
      else if name = word "upscale" ∧ a.upscale = false then .read (a.withUpscale true) separated
      else .stopped .refused

/-- Arguments are read by taking one after another. -/
lemma readRender_cons (a : RenderArguments) (separated : Bool) (arg : Bytes) (args : List Bytes) :
    readRender a separated (arg :: args) =
      match takeArgument a separated arg, args with
      | .stopped stop, _ => .error stop
      | .read a separated, args => readRender a separated args
      | .option _, [] => .error .refused
      | .option option, value :: args =>
        proceed (readRender · separated args) ((plainValue? value).bind (option.set? a)) := by
  have hofOption : ∀ taken : Option RenderArguments,
      proceed (readRender · separated args) taken =
        match Taken.ofOption separated taken, args with
        | .stopped stop, _ => .error stop
        | .read a separated, args => readRender a separated args
        | .option _, [] => .error .refused
        | .option option, value :: args =>
          proceed (readRender · separated args) ((plainValue? value).bind (option.set? a)) :=
    fun taken => by cases taken <;> rfl
  rw [readRender.eq_def, takeArgument]
  dsimp only
  generalize (if separated = true then Argument.plain arg else Argument.ofBytes arg) = form
  cases form with
  | separator => rfl
  | plain comment => dsimp only; split_ifs <;> rfl
  | short letter rest =>
      dsimp only
      split_ifs
      · rfl
      · rfl
      · exact hofOption _
      · cases args <;> rfl
  | long name value =>
      dsimp only
      cases RenderOption.ofName? name with
      | none =>
          cases value with
          | none => dsimp only; split_ifs <;> rfl
          | some value => rfl
      | some option =>
          cases value with
          | none => cases args <;> rfl
          | some value => exact hofOption _

/-! ### Another flag -/

/-- What an argument comes to with another flag for enlarging. -/
def Taken.withUpscale (allow : Bool) : Taken → Taken
  | stopped stop => stopped stop
  | read a separated => read (a.withUpscale allow) separated
  | option needed => option needed

lemma RenderOption.set?_withUpscale (option : RenderOption) (allow : Bool) (a : RenderArguments)
    (value : Bytes) :
    option.set? (a.withUpscale allow) value =
      (option.set? a value).map (·.withUpscale allow) := by
  cases option with
  | root =>
      rw [set?, set?, apply_ite (Option.map _)]
      rfl
  | threshold =>
      rw [set?, set?, apply_ite (Option.map _), Option.map_map]
      rfl
  | assetDirectory =>
      rw [set?, set?, apply_ite (Option.map _), Option.map_map]
      rfl

lemma RenderArguments.command_withUpscale (allow : Bool) (a : RenderArguments) :
    (a.withUpscale allow).command = a.command.map (·.withUpscale allow) := by
  rw [command, command, withUpscale]
  cases a.comment <;> rfl

lemma Taken.ofOption_map_withUpscale (allow separated : Bool) (taken : Option RenderArguments) :
    ofOption separated (taken.map (·.withUpscale allow)) =
      (ofOption separated taken).withUpscale allow := by
  cases taken <;> rfl

section Argument

variable {separated : Bool} {arg : Bytes}

/-- All arguments but the flag itself are taken in whatever the flag is. -/
lemma takeArgument_withUpscale
    (h : separated = true ∨ Argument.ofBytes arg ≠ .long (word "upscale") none) (allow : Bool)
    (a : RenderArguments) :
    takeArgument (a.withUpscale allow) separated arg =
      (takeArgument a separated arg).withUpscale allow := by
  have hform : (if separated then .plain arg else Argument.ofBytes arg) ≠
      .long (word "upscale") none := by
    split_ifs with hs
    · nofun
    · exact h.resolve_left hs
  rw [takeArgument, takeArgument]
  revert hform
  generalize (if separated then .plain arg else Argument.ofBytes arg) = form
  intro hform
  cases form with
  | separator => rfl
  | plain comment =>
      dsimp only
      rw [apply_ite (Taken.withUpscale allow)]
      rfl
  | short letter rest =>
      dsimp only
      split_ifs
      · rfl
      · rfl
      · rw [RenderOption.set?_withUpscale, Taken.ofOption_map_withUpscale]
      · rfl
  | long name value =>
      dsimp only
      cases RenderOption.ofName? name with
      | none =>
          cases value with
          | none =>
              have hname : name ≠ word "upscale" := fun he => hform (he ▸ rfl)
              simp only [hname, false_and, if_false]
              split_ifs <;> rfl
          | some value => rfl
      | some option =>
          cases value with
          | none => rfl
          | some value =>
              dsimp only
              rw [RenderOption.set?_withUpscale, Taken.ofOption_map_withUpscale]

/-- The flag is set, unless it is set already. -/
lemma takeArgument_upscale (h : Argument.ofBytes arg = .long (word "upscale") none)
    (a : RenderArguments) :
    takeArgument a false arg =
      if a.upscale = false then .read (a.withUpscale true) false else .stopped .refused := by
  have hname : RenderOption.ofName? (word "upscale") = none := by decide
  have hhelp : word "upscale" ≠ word "help" := by decide
  rw [takeArgument, if_neg Bool.false_ne_true, h]
  simp only [hname, if_neg hhelp, true_and]

end Argument

/-- An option takes in its value whatever the flag is. -/
lemma bind_set?_withUpscale (option : RenderOption) (allow : Bool) (a : RenderArguments)
    (value : Option Bytes) :
    value.bind (option.set? (a.withUpscale allow)) =
      (value.bind (option.set? a)).map (·.withUpscale allow) := by
  rw [Option.map_bind]
  exact congrArg value.bind (funext fun value => option.set?_withUpscale allow a value)

/-- Arguments that are accepted both with the flag set before and with the flag not set ask for the
same but for the flag. -/
lemma readRender_withUpscale {args : List Bytes} {a : RenderArguments} {separated : Bool}
    {allow allow' : Bool} {c c' : Command}
    (h : readRender (a.withUpscale allow) separated args = .ok c)
    (h' : readRender (a.withUpscale allow') separated args = .ok c') :
    c.withUpscale true = c'.withUpscale true := by
  induction hn : args.length using Nat.strong_induction_on generalizing args a separated with
  | _ n ih =>
  cases args with
  | nil =>
      rw [readRender, a.command_withUpscale] at h h'
      obtain ⟨d, hd, rfl⟩ := Except.map_eq_ok_iff.mp h
      obtain ⟨d', hd', rfl⟩ := Except.map_eq_ok_iff.mp h'
      obtain rfl := Except.ok.inj (hd.symm.trans hd')
      cases d <;> rfl
  | cons arg args =>
      rw [List.length_cons] at hn
      rw [readRender_cons] at h h'
      by_cases hflag : separated = true ∨ Argument.ofBytes arg ≠ .long (word "upscale") none
      · rw [takeArgument_withUpscale hflag] at h h'
        cases ht : takeArgument a separated arg with
        | stopped stop =>
            rw [ht] at h
            cases h
        | read b separated' =>
            rw [ht] at h h'
            exact ih args.length (by omega) h h' rfl
        | option option =>
            rw [ht] at h h'
            cases args with
            | nil => cases h
            | cons value args =>
                simp only [Taken.withUpscale, bind_set?_withUpscale] at h h'
                cases hb : (plainValue? value).bind (option.set? a) with
                | none =>
                    rw [hb] at h
                    cases h
                | some b =>
                    rw [hb] at h h'
                    rw [List.length_cons] at hn
                    exact ih args.length (by omega) h h' rfl
      · -- the flag itself is only accepted where it is not set before
        rw [not_or, not_not, Bool.not_eq_true] at hflag
        obtain ⟨rfl, hflag⟩ := hflag
        rw [takeArgument_upscale hflag] at h h'
        cases allow with
        | true => cases h
        | false =>
            cases allow' with
            | true => cases h'
            | false => rw [Except.ok.inj (h.symm.trans h')]

/-! ### The flag among other arguments -/

/-- The argument that sets the flag. -/
def upscaleFlag : Bytes := word "--upscale"

lemma ofBytes_upscaleFlag : Argument.ofBytes upscaleFlag = .long (word "upscale") none := by cbv

/-- Behind the separator the flag is a comment like any other, and there cannot be two. -/
lemma readRender_separated_upscaleFlag {args : List Bytes} {a : RenderArguments} {c c' : Command}
    (h : readRender a true (upscaleFlag :: args) = .ok c) : readRender a true args ≠ .ok c' := by
  have hplain : ∀ a arg, takeArgument a true arg =
      if a.comment.isSome ∨ arg = [] then .stopped .refused
      else .read { a with comment := some arg } true := fun _ _ => rfl
  intro h'
  rw [readRender_cons, hplain] at h
  split_ifs at h with hcomment
  rw [not_or, Option.not_isSome_iff_eq_none] at hcomment
  cases args with
  | nil =>
      rw [readRender, RenderArguments.command, hcomment.1] at h'
      cases h'
  | cons arg args =>
      simp only [readRender_cons, hplain, Option.isSome_some, true_or, if_true] at h
      cases h

/-- Wherever the flag is put in, the command is the same but for it. -/
lemma readRender_insert_upscaleFlag {before after : List Bytes} {a : RenderArguments}
    {separated : Bool} {c c' : Command}
    (h : readRender a separated (before ++ after) = .ok c)
    (h' : readRender a separated (before ++ upscaleFlag :: after) = .ok c') :
    c.withUpscale true = c'.withUpscale true := by
  induction hn : before.length using Nat.strong_induction_on generalizing before a separated with
  | _ n ih =>
  cases before with
  | nil =>
      cases separated with
      | true => exact absurd h (readRender_separated_upscaleFlag h')
      | false =>
          rw [List.nil_append, readRender_cons, takeArgument_upscale ofBytes_upscaleFlag] at h'
          split_ifs at h' with hupscale
          have ha : a = a.withUpscale false := by
            rw [RenderArguments.withUpscale, ← hupscale]
          rw [List.nil_append, ha] at h
          exact readRender_withUpscale h h'
  | cons arg before =>
      rw [List.length_cons] at hn
      rw [List.cons_append, readRender_cons] at h h'
      cases ht : takeArgument a separated arg with
      | stopped stop =>
          rw [ht] at h
          cases h
      | read b separated' =>
          rw [ht] at h h'
          exact ih before.length (by omega) h h' rfl
      | option option =>
          rw [ht] at h h'
          cases before with
          | nil =>
              -- the flag would be the value of the option
              rw [List.nil_append] at h'
              have hvalue : plainValue? upscaleFlag = none := by
                rw [plainValue?, ofBytes_upscaleFlag]
              simp only [hvalue] at h'
              cases h'
          | cons value before =>
              simp only [List.cons_append] at h h'
              cases hb : (plainValue? value).bind (option.set? a) with
              | none =>
                  rw [hb] at h
                  cases h
              | some b =>
                  rw [hb] at h h'
                  rw [List.length_cons] at hn
                  exact ih before.length (by omega) h h' rfl

end CommandLine

end DocImage
