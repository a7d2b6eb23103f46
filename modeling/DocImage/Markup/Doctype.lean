import DocImage.Markup.Basic

/-!
Where a document type declaration ends. Before its internal subset quotes hide `>` and `[`; the
subset holds declarations of its own, each with its own end, and stops at the first `]` between
them; the next `>` ends the whole. What is found is the text after the end, and
`Doctype.isLocal_rest?` says that the place does not depend on that text.
-/

namespace DocImage.Markup.Doctype

/-- The text after the first occurrence of `stop`. -/
def past? (stop s : Text) : Option Text :=
  (splitAtFirst? stop s).map Prod.snd

theorem isLocal_past? (stop : Text) : IsLocal (past? stop) := by
  intro s rest h
  obtain ⟨⟨before, r⟩, hr, rfl⟩ := Option.map_eq_some_iff.1 h
  refine ⟨before ++ stop, by simpa using eq_of_splitAtFirst? hr, fun rest' => ?_⟩
  rw [past?, List.append_assoc, splitAtFirst?_append hr]
  rfl

/-- The keywords of the declarations in the subset whose end quotes can hide. -/
def quotedKeywords : List Text :=
  [['E', 'N', 'T', 'I', 'T', 'Y'], ['A', 'T', 'T', 'L', 'I', 'S', 'T'],
    ['N', 'O', 'T', 'A', 'T', 'I', 'O', 'N']]

/-- Whether quotes can hide the end of a declaration in the subset, given from after its `<`.
-/
def hasQuotes (s : Text) : Bool :=
  quotedKeywords.any fun keyword => (after? ('!' :: keyword) s).isSome

/-- The keywords of the subset are decided before the first `>`. -/
theorem hasQuotes_append {p : Text} (hp : '>' ∈ p) (r r' : Text) :
    hasQuotes (p ++ r) = hasQuotes (p ++ r') := by
  simp only [hasQuotes, quotedKeywords, List.any_cons, List.any_nil]
  rw [isSome_after?_append_of_mem hp (by decide) r r',
    isSome_after?_append_of_mem hp (by decide) r r',
    isSome_after?_append_of_mem hp (by decide) r r']

/-- The text after a declaration in the subset, given from after its `<`. An instruction ends
at `?>`, a comment at `-->`; all else ends at `>`, which quotes hide in some declarations. -/
def afterDeclaration? (s : Text) : Option Text :=
  match after? ['?'] s, after? ['!', '-', '-'] s with
  | some s, _ => past? ['?', '>'] s
  | none, some s => past? ['-', '-', '>'] s
  | none, none => if hasQuotes s then (tagEnd? s).map Prod.snd else past? ['>'] s

theorem isLocal_afterDeclaration? : IsLocal afterDeclaration? := by
  intro s rest h
  rw [afterDeclaration?] at h
  split at h
  · next _ _ s' hs =>
      obtain ⟨p, rfl, hp⟩ := isLocal_past? _ h
      refine ⟨'?' :: p, by simpa using after?_eq_some_iff.1 hs, fun rest' => ?_⟩
      simp [afterDeclaration?, after?, hp]
  · next _ _ s' hs =>
      obtain ⟨p, rfl, hp⟩ := isLocal_past? _ h
      refine ⟨'!' :: '-' :: '-' :: p, by simpa using after?_eq_some_iff.1 hs, fun rest' => ?_⟩
      simp [afterDeclaration?, after?, hp]
  · next h1 h2 =>
      have key : ∃ p, '>' ∈ p ∧ s = p ++ rest ∧ ∀ rest',
          (if hasQuotes s then (tagEnd? (p ++ rest')).map Prod.snd
            else past? ['>'] (p ++ rest')) = some rest' := by
        split at h
        · next hq =>
            obtain ⟨⟨content, r⟩, hr, rfl⟩ := Option.map_eq_some_iff.1 h
            refine ⟨content ++ ['>'], by simp, by simpa using eq_of_tagEnd? hr, fun rest' => ?_⟩
            rw [if_pos hq, List.append_assoc]
            simp [tagEnd?_append hr]
        · next hq =>
            obtain ⟨⟨before, r⟩, hr, rfl⟩ := Option.map_eq_some_iff.1 h
            refine ⟨before ++ ['>'], by simp, by simpa using eq_of_splitAtFirst? hr,
              fun rest' => ?_⟩
            rw [if_neg hq, List.append_assoc, past?, splitAtFirst?_append hr]
            rfl
      obtain ⟨p, hm, rfl, hp⟩ := key
      refine ⟨p, rfl, fun rest' => ?_⟩
      rw [afterDeclaration?]
      have e1 : after? ['?'] (p ++ rest') = none := by
        have := isSome_after?_append_of_mem hm (p := ['?']) (by decide) rest rest'
        rw [h1] at this; simpa using this.symm
      have e2 : after? ['!', '-', '-'] (p ++ rest') = none := by
        have := isSome_after?_append_of_mem hm (p := ['!', '-', '-']) (by decide) rest rest'
        rw [h2] at this; simpa using this.symm
      rw [e1, e2]
      show (if hasQuotes (p ++ rest') then _ else _) = _
      rw [hasQuotes_append hm rest' rest]
      exact hp rest'

/-- The text after the `]` that ends the subset. -/
def afterSubset? : Text → Option Text
  | [] => none
  | c :: s =>
    if c = ']' then some s
    else if c = '<' then
      match _h : afterDeclaration? s with
      | some s' => afterSubset? s'
      | none => none
    else afterSubset? s
termination_by s => s.length
decreasing_by
  · have := (isLocal_afterDeclaration?.suffix _h).length_le
    rw [List.length_cons]; omega
  · rw [List.length_cons]; omega

theorem isLocal_afterSubset? : IsLocal afterSubset? := by
  intro s rest h
  fun_induction afterSubset? s with
  | case1 => cases h
  | case2 s =>
      cases h
      exact ⟨[']'], rfl, fun rest' => by simp [afterSubset?]⟩
  | case3 s s' hs _ ih =>
      obtain ⟨p, rfl, hp⟩ := isLocal_afterDeclaration? hs
      obtain ⟨q, rfl, hq⟩ := ih h
      refine ⟨'<' :: (p ++ q), by simp, fun rest' => ?_⟩
      rw [List.cons_append, afterSubset?, if_neg (by decide), if_pos rfl]
      rw [List.append_assoc, hp]
      exact hq rest'
  | case4 => cases h
  | case5 c s h1 h2 ih =>
      obtain ⟨p, rfl, hp⟩ := ih h
      refine ⟨c :: p, rfl, fun rest' => ?_⟩
      rw [List.cons_append, afterSubset?, if_neg h1, if_neg h2, hp]

/-- The text after a document type declaration that is given from after its keyword. It must
hold something that is not white space. -/
def rest? (s : Text) : Option Text :=
  match breakUnquoted? (fun c => c == '>' || c == '[') s with
  | some (before, '>' :: rest) => if before.all isSpace then none else some rest
  | some (_, '[' :: rest) => (afterSubset? rest).bind (past? ['>'])
  | _ => none

/-- Where a document type declaration ends does not depend on what follows it. -/
theorem isLocal_rest? : IsLocal rest? := by
  intro s rest h
  rw [rest?] at h
  split at h
  · next before r hb =>
      split at h
      · cases h
      · next hs =>
        cases h
        refine ⟨before ++ ['>'], by simpa using append_of_breakUnquoted? hb, fun rest' => ?_⟩
        rw [rest?, List.append_assoc, List.singleton_append, breakUnquoted?_append hb]
        simp [hs]
  · next before r hb =>
      obtain ⟨r', hr, hp⟩ := Option.bind_eq_some_iff.1 h
      obtain ⟨p, rfl, hr'⟩ := isLocal_afterSubset? hr
      obtain ⟨q, rfl, hp'⟩ := isLocal_past? _ hp
      refine ⟨before ++ '[' :: (p ++ q), by simpa using append_of_breakUnquoted? hb,
        fun rest' => ?_⟩
      rw [rest?, List.append_assoc, List.cons_append, breakUnquoted?_append hb, List.append_assoc]
      simp [hr', hp']
  · cases h

end DocImage.Markup.Doctype
