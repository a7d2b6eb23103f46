import DocImage.Markup.Token

/-!
A token is read from its own text alone: `next?_lexeme_append` says that a token read once is
read again from its lexeme, whatever follows it. A text put together from tokens is therefore
read piece by piece.
-/

namespace DocImage.Markup.Token

theorem declaration?_append {s rest : Text} {t : Token} (h : declaration? s = some (t, rest))
    (rest' : Text) : next? (t.lexeme ++ rest') = some (t, rest') := by
  rw [declaration?] at h
  split at h
  · next hs =>
      obtain ⟨⟨body, r'⟩, hr, he⟩ := Option.map_eq_some_iff.1 h
      cases he
      have := splitAtFirst?_append hr rest'
      simp only [List.cons_append, List.nil_append] at this
      simp [lexeme, next?, declaration?, after?, this]
  · next hs =>
      obtain ⟨⟨body, r'⟩, hr, he⟩ := Option.map_eq_some_iff.1 h
      cases he
      have := splitAtFirst?_append hr rest'
      simp only [List.cons_append, List.nil_append] at this
      simp [lexeme, next?, declaration?, after?, this]
  · next h1 h2 =>
      split at h
      · next hk =>
          obtain ⟨r, hr, he⟩ := Option.map_eq_some_iff.1 h
          rw [Prod.mk.injEq] at he
          obtain ⟨rfl, rfl⟩ := he
          obtain ⟨p, hp, hl⟩ := Doctype.isLocal_rest? hr
          have h7 : (s.take 7).length = 7 := by
            have := congrArg List.length (beq_iff_eq.1 hk)
            simpa using this
          have hs : s = (s.take 7 ++ p) ++ r := by
            rw [List.append_assoc, ← hp, List.take_append_drop]
          have hb : s.take (s.length - r.length) = s.take 7 ++ p := by
            have hlen := congrArg List.length hs
            rw [List.length_append] at hlen
            rw [show s.length - r.length = (s.take 7 ++ p).length by omega]
            conv => lhs; arg 2; rw [hs]
            exact List.take_left
          have e1 : after? ['-', '-'] (s.take 7 ++ p ++ rest') = none := by
            have := isSome_after?_append (p := ['-', '-']) (x := s.take 7 ++ p)
              (by rw [List.length_append, h7, List.length_cons]; simp; omega) r rest'
            rw [← hs, h1] at this; simpa using this.symm
          have e2 : after? ['[', 'C', 'D', 'A', 'T', 'A', '['] (s.take 7 ++ p ++ rest') = none := by
            have := isSome_after?_append (p := ['[', 'C', 'D', 'A', 'T', 'A', '['])
              (x := s.take 7 ++ p) (by rw [List.length_append, h7]; simp) r rest'
            rw [← hs, h2] at this; simpa using this.symm
          have e3 : (s.take 7 ++ p ++ rest').take 7 = s.take 7 := by
            rw [List.append_assoc, List.take_left' h7]
          have e4 : (s.take 7 ++ p ++ rest').drop 7 = p ++ rest' := by
            rw [List.append_assoc, List.drop_left' h7]
          show declaration? (s.take (s.length - r.length) ++ rest') = _
          rw [hb, declaration?, e1, e2]
          simp only [e3, hk, if_true, e4, hl, Option.map_some]
          rw [show (s.take 7 ++ p ++ rest').length - rest'.length = (s.take 7 ++ p).length by
            rw [List.length_append]; omega, List.take_left]
      · cases h

theorem instruction?_append {s rest : Text} {t : Token} (h : instruction? s = some (t, rest))
    (rest' : Text) : next? (t.lexeme ++ rest') = some (t, rest') := by
  rw [instruction?.eq_def] at h
  split at h
  · cases h
  · next hs =>
      obtain ⟨⟨body, r⟩, hr, he⟩ := Option.map_eq_some_iff.1 h
      cases he
      show instruction? (body ++ ['?', '>'] ++ rest') = _
      rw [instruction?.eq_def, List.append_assoc]
      split
      · next x hx =>
          have := eq_of_splitAtFirst? hr
          cases body with
          | nil => simp at hx
          | cons c body =>
              rw [List.cons_append, List.cons.injEq] at hx
              rw [hx.1] at this
              exact absurd this (hs _)
      · rw [splitAtFirst?_append hr]; rfl

theorem reference?_append {s rest : Text} {t : Token} (h : reference? s = some (t, rest))
    (rest' : Text) : next? (t.lexeme ++ rest') = some (t, rest') := by
  simp only [reference?] at h
  split at h
  · next r hd =>
      cases h
      have hall : ∀ c ∈ s.takeWhile fun c => c != ';' && c != '&' && c != '<',
          (c != ';' && c != '&' && c != '<') = true := List.all_eq_true.1 List.all_takeWhile
      generalize (s.takeWhile fun c => c != ';' && c != '&' && c != '<') = name at hall
      show reference? (name ++ [';'] ++ rest') = _
      simp only [reference?, List.append_assoc, List.singleton_append]
      rw [List.dropWhile_append_of_pos hall, List.takeWhile_append_of_pos hall]
      simp
  · cases h

/-- A token does not depend on what follows it. -/
theorem next?_lexeme_append {s rest : Text} {t : Token} (h : next? s = some (t, rest))
    (rest' : Text) : next? (t.lexeme ++ rest') = some (t, rest') := by
  rw [next?.eq_def] at h
  split at h
  · exact declaration?_append h rest'
  · exact instruction?_append h rest'
  · obtain ⟨⟨content, r⟩, hr, he⟩ := Option.map_eq_some_iff.1 h
    cases he
    simp [lexeme, next?, tagEnd?_append hr]
  · next s' h1 h2 h3 =>
    obtain ⟨⟨content, r⟩, hr, he⟩ := Option.map_eq_some_iff.1 h
    cases he
    have hs := eq_of_tagEnd? hr
    have hc : ∀ d : Char, (∀ l, ¬ s' = d :: l) → d ≠ '>' →
        ∀ l, ¬ content ++ '>' :: rest' = d :: l := by
      intro d hd hne l he
      cases content with
      | nil => exact hne (List.cons.inj he).1.symm
      | cons c content =>
          rw [List.cons_append, List.cons.injEq] at he
          exact hd _ (by rw [hs, ← he.1]; rfl)
    show next? ('<' :: (content ++ ['>'] ++ rest')) = _
    rw [List.append_assoc, List.singleton_append,
      next?.eq_4 _ (hc '!' h1 (by decide)) (hc '?' h2 (by decide)) (hc '/' h3 (by decide)),
      tagEnd?_append hr]
    rfl
  · exact reference?_append h rest'
  · next hl ha =>
    cases h
    exact next?.eq_6 _ _ (fun _ h => absurd h hl) (fun _ h => absurd h hl)
      (fun _ h => absurd h hl) hl ha
  · cases h

end DocImage.Markup.Token
