import LazyLang.Proofs.Tokens.Places

/-!
# The layout of a text without its comments

No literal and no comment goes on after a line end, so comments are blanked out line by line
(`blankChars_append_newline`). A line keeps what stands before its comment and gets a space for each
character of the comment (`BlankedLine`). The text keeps its length, its line ends and every other
character that is not blanked out at its index (`KeepsLayout`).

After that nothing is left to blank out (`blankChars_blankChars`). On a blanked line whatever
precedes a character that is no space is as it was (`Blanked.exists_eq_append`), so a quote without
an end gets none, and no two minus signs come together.
-/

namespace LazyLang.Text

variable {cs ds w line : List Char} {c : Char}

section Repetition

/-- Up to a character that is no space a blanked line is the line itself. -/
theorem Blanked.exists_eq_append (h : Blanked cs (w ++ c :: ds)) (hc : c ≠ ' ')
    (hline : '\n' ∉ w ++ [c]) : ∃ rest, cs = w ++ c :: rest := by
  obtain ⟨before, rest, rfl, hbefore, -⟩ := h.exists_append hc
  have hsame : before ++ [c] = w ++ [c] := hbefore.eq_of_notMem (by simpa using hc) hline
  obtain rfl := List.append_cancel_right hsame
  exact ⟨rest, rfl⟩

/-- A literal without an end in `cs` has none in `ds`, if whatever leads to a quote on the first line
of `ds` also leads to one in `cs`. -/
theorem closing?_eq_none_of_imp (hnone : Quoted.closing? false cs = none)
    (h : ∀ w rest, '\n' ∉ w → ds = w ++ '"' :: rest → ∃ rest', cs = w ++ '"' :: rest') :
    Quoted.closing? false ds = none := by
  rw [Option.eq_none_iff_forall_ne_some] at hnone ⊢
  intro n hn
  obtain ⟨w, rest, hw, hline, hds, rfl⟩ := closing?_false_eq_some_iff_exists.1 hn
  obtain ⟨rest', rfl⟩ := h w rest hline hds
  exact hnone _ (closing?_false_eq_some_iff_exists.2 ⟨w, rest', hw, hline, rfl, rfl⟩)

theorem Blanked.closing?_eq_none (h : Blanked cs ds) (hnone : Quoted.closing? false cs = none) :
    Quoted.closing? false ds = none := by
  refine closing?_eq_none_of_imp hnone fun w rest hline hds => ?_
  subst hds
  exact h.exists_eq_append (by decide) (by simpa using hline)

theorem Blanked.head?_ne_minus (h : Blanked cs ds) (hhead : cs.head? ≠ some '-') :
    ds.head? ≠ some '-' := by
  intro hds
  obtain ⟨rest, rfl⟩ := List.head?_eq_some_iff.1 hds
  obtain ⟨rest', rfl⟩ := h.exists_eq_append (w := []) (by decide) (by decide)
  exact hhead rfl

theorem blankChars_spaces (n : ℕ) (cs : List Char) :
    blankChars (List.replicate n ' ' ++ cs) = List.replicate n ' ' ++ blankChars cs := by
  induction n with
  | zero => rfl
  | succ n ih =>
      rw [List.replicate_succ, List.cons_append, List.cons_append,
        blankChars_cons (by decide) (by simp), ih]

/-- A text without its comments has no comments. -/
theorem blankChars_blankChars (cs : List Char) : blankChars (blankChars cs) = blankChars cs := by
  induction cs using pieces_induction with
  | nil => rw [blankChars, blankChars]
  | literal hw hline ih => rw [blankChars_literal hw hline, blankChars_literal hw hline, ih]
  | quote hclosing ih =>
      -- no quote comes out of a comment, so this one still has no end
      have hblanked := (blanked_blankChars _).closing?_eq_none hclosing
      rw [blankChars_quote hclosing, blankChars_quote hblanked, ih]
  | comment hline hend ih => rw [blankChars_comment hline hend, blankChars_spaces, ih]
  | other hc hhead ih =>
      -- nor does a minus sign, so `c` still begins no marker
      have hblanked := fun hminus => (blanked_blankChars _).head?_ne_minus (hhead hminus)
      rw [blankChars_cons hc hhead, blankChars_cons hc hblanked, ih]

end Repetition

section Characters

/-- Every character is left as it is, or it is no line end and becomes a space. -/
theorem Blanked.forall₂ (h : Blanked cs ds) :
    List.Forall₂ (fun c d => d = c ∨ c ≠ '\n' ∧ d = ' ') cs ds := by
  induction h with
  | nil => exact .nil
  | keep c h ih => exact .cons (.inl rfl) ih
  | @comment w cs ds hmarker hline hend h ih =>
      refine List.rel_append ?_ ih
      rw [← List.map_const', List.forall₂_map_right_iff, List.forall₂_same]
      exact fun c hc => .inr ⟨ne_of_mem_of_not_mem hc hline, rfl⟩

theorem Blanked.length_eq (h : Blanked cs ds) : ds.length = cs.length :=
  h.forall₂.length_eq.symm

theorem Blanked.getElem?_cases (h : Blanked cs ds) (i : ℕ) :
    ds[i]? = cs[i]? ∨ ∃ c, cs[i]? = some c ∧ c ≠ '\n' ∧ ds[i]? = some ' ' := by
  obtain hi | hi := lt_or_ge i cs.length
  · have hi' : i < ds.length := h.length_eq ▸ hi
    rw [List.getElem?_eq_getElem hi, List.getElem?_eq_getElem hi']
    rcases h.forall₂.get hi hi' with hsame | ⟨hline, hspace⟩
    · exact .inl (congrArg some hsame)
    · exact .inr ⟨_, rfl, hline, congrArg some hspace⟩
  · left
    rw [List.getElem?_eq_none hi, List.getElem?_eq_none (h.length_eq ▸ hi)]

/-- Line ends stay, and there are no others. -/
theorem Blanked.getElem?_eq_newline_iff (h : Blanked cs ds) (i : ℕ) :
    ds[i]? = some '\n' ↔ cs[i]? = some '\n' := by
  rcases h.getElem?_cases i with hsame | ⟨c, hcs, hline, hds⟩
  · rw [hsame]
  · simp [hcs, hds, hline]

theorem Blanked.mem_newline_iff (h : Blanked cs ds) : '\n' ∈ ds ↔ '\n' ∈ cs := by
  simp only [List.mem_iff_getElem?, h.getElem?_eq_newline_iff]

end Characters

section Lines

/-- `blanked` is the line with a space for each character of its comment. The comment begins with
`--`, and every `--` without a quote before it is part of it. -/
def BlankedLine (line blanked : List Char) : Prop :=
  ∃ front comment, line = front ++ comment ∧
    blanked = front ++ List.replicate comment.length ' ' ∧
    (comment = [] ∨ ['-', '-'] <+: comment) ∧
    ∀ before, before ++ ['-', '-'] <+: line → '"' ∉ before → front <+: before

theorem quote_mem_of_marker {before : List Char} (h : before ++ ['-', '-'] <+: '"' :: line) :
    '"' ∈ before := by
  cases before with
  | nil => exact absurd (List.cons_prefix_cons.1 h).1 (by decide)
  | cons c before =>
      obtain ⟨rfl, -⟩ := List.cons_prefix_cons.1 h
      exact List.mem_cons_self

/-- A line that begins with a quote is blanked as what follows the quote, or the literal. -/
theorem BlankedLine.append_of_quote {blanked : List Char} (h : BlankedLine line blanked)
    (w : List Char) : BlankedLine ('"' :: (w ++ line)) ('"' :: (w ++ blanked)) := by
  obtain ⟨front, comment, rfl, rfl, hcomment, -⟩ := h
  refine ⟨'"' :: (w ++ front), comment, by simp, by simp, hcomment, fun before hbefore hno => ?_⟩
  exact absurd (quote_mem_of_marker hbefore) hno

/-- On a single line at most one comment is blanked out, the one at its end. -/
theorem blankedLine_blankChars (h : '\n' ∉ line) : BlankedLine line (blankChars line) := by
  induction line using pieces_induction with
  | nil =>
      rw [blankChars]
      exact ⟨[], [], rfl, rfl, .inl rfl, fun _ _ _ => List.nil_prefix⟩
  | @literal w rest hw hline ih =>
      rw [blankChars_literal hw hline]
      simpa using (ih (by simp_all)).append_of_quote (w ++ ['"'])
  | quote hclosing ih =>
      rw [blankChars_quote hclosing]
      exact (ih (List.not_mem_of_not_mem_cons h)).append_of_quote []
  | @comment w rest hline hend ih =>
      -- nothing follows on the line
      obtain rfl : rest = [] := by
        cases rest with
        | nil => rfl
        | cons c rest => simp [hend c rfl] at h
      rw [blankChars_comment hline hend, blankChars]
      exact ⟨[], '-' :: '-' :: w, by simp, by simp, .inr ⟨w, rfl⟩, fun _ _ _ => List.nil_prefix⟩
  | @other c rest hc hhead ih =>
      rw [blankChars_cons hc hhead]
      obtain ⟨front, comment, hrest, hblank, hcomment, hmarker⟩ :=
        ih (List.not_mem_of_not_mem_cons h)
      refine ⟨c :: front, comment, by rw [hrest]; rfl, by rw [hblank]; rfl, hcomment, ?_⟩
      intro before hbefore hno
      cases before with
      | nil =>
          -- a marker here would have been the comment
          obtain ⟨rfl, hminus⟩ := List.cons_prefix_cons.1 hbefore
          obtain ⟨rest', rfl⟩ := hminus
          exact absurd rfl (hhead rfl)
      | cons b before =>
          obtain ⟨rfl, htail⟩ := List.cons_prefix_cons.1 hbefore
          exact List.cons_prefix_cons.2
            ⟨rfl, hmarker before htail (List.not_mem_of_not_mem_cons hno)⟩

/-- A literal that does not end on its line does not end on the next. -/
theorem closing?_append_newline (hnone : Quoted.closing? false cs = none) (ds : List Char) :
    Quoted.closing? false (cs ++ '\n' :: ds) = none := by
  refine closing?_eq_none_of_imp hnone fun w rest hline heq => ?_
  -- `w` has no line end, so the quote after it stands before the line end
  rcases List.append_eq_append_iff.1 heq with ⟨v, rfl, hv⟩ | ⟨v, rfl, hv⟩
  · cases v with
    | nil => cases hv
    | cons c v =>
        obtain ⟨rfl, -⟩ := List.cons_eq_cons.1 hv
        exact absurd (by simp) hline
  · cases v with
    | nil => cases hv
    | cons c v =>
        obtain ⟨rfl, -⟩ := List.cons_eq_cons.1 hv
        exact ⟨v, rfl⟩

/-- The comments of a line are blanked out whatever stands on the next. -/
theorem blankChars_append_newline (cs ds : List Char) :
    blankChars (cs ++ '\n' :: ds) = blankChars cs ++ '\n' :: blankChars ds := by
  induction cs using pieces_induction with
  | nil => rw [blankChars, List.nil_append, List.nil_append, blankChars_cons (by decide) (by simp)]
  | @literal w rest hw hline ih =>
      have happend := blankChars_literal hw hline (rest ++ '\n' :: ds)
      rw [ih] at happend
      rw [blankChars_literal hw hline]
      simpa using happend
  | quote hclosing ih =>
      rw [List.cons_append, blankChars_quote (closing?_append_newline hclosing ds), ih,
        blankChars_quote hclosing, List.cons_append]
  | @comment w rest hline hend ih =>
      have hend' : ∀ c ∈ (rest ++ '\n' :: ds).head?, c = '\n' := by
        cases rest <;> simp_all
      have happend := blankChars_comment hline hend'
      rw [ih] at happend
      rw [blankChars_comment hline hend]
      simpa using happend
  | @other c rest hc hhead ih =>
      have hhead' : c = '-' → (rest ++ '\n' :: ds).head? ≠ some '-' := by
        cases rest <;> simp_all
      rw [List.cons_append, blankChars_cons hc hhead', ih, blankChars_cons hc hhead,
        List.cons_append]

/-- Every line is blanked on its own. -/
theorem forall₂_blankedLine (cs : List Char) :
    List.Forall₂ BlankedLine (cs.splitOn '\n') ((blankChars cs).splitOn '\n') := by
  induction hlength : cs.length using Nat.strong_induction_on generalizing cs with
  | h k ih =>
    subst hlength
    by_cases hline : '\n' ∈ cs
    · obtain ⟨line, rest, rfl, hfirst⟩ := List.eq_append_cons_of_mem hline
      have hblanked : '\n' ∉ blankChars line :=
        fun hmem => hfirst ((blanked_blankChars line).mem_newline_iff.1 hmem)
      rw [blankChars_append_newline, List.splitOn_append_cons_self_of_not_mem hfirst,
        List.splitOn_append_cons_self_of_not_mem hblanked]
      exact .cons (blankedLine_blankChars hfirst) (ih rest.length (by simp; omega) rest rfl)
    · have hblanked : '\n' ∉ blankChars cs :=
        fun hmem => hline ((blanked_blankChars cs).mem_newline_iff.1 hmem)
      rw [List.splitOn_eq_singleton hline, List.splitOn_eq_singleton hblanked]
      exact .cons (blankedLine_blankChars hline) .nil

end Lines

/-- What stays of the layout of a text when its comments are blanked out. -/
structure KeepsLayout (source blanked : String) : Prop where
  length : blanked.length = source.length
  /-- The line ends stay where they are, and there are no others. -/
  lineEnd : ∀ i : ℕ, blanked.toList[i]? = some '\n' ↔ source.toList[i]? = some '\n'
  /-- A character stays, or it is no line end and becomes a space. -/
  character : ∀ (i : ℕ) (c : Char), source.toList[i]? = some c →
    blanked.toList[i]? = some c ∨ c ≠ '\n' ∧ blanked.toList[i]? = some ' '
  /-- Each line stays up to its comment and has only spaces from there on. -/
  lines : List.Forall₂ BlankedLine (source.toList.splitOn '\n') (blanked.toList.splitOn '\n')

/-- Blanking out comments keeps the layout of every text, and a second time it changes nothing. -/
theorem keepsLayout_blankComments (source : String) :
    KeepsLayout source (blankComments source) ∧
      blankComments (blankComments source) = blankComments source := by
  have htext : (blankComments source).toList = blankChars source.toList := String.toList_ofList
  have hblanked := blanked_blankChars source.toList
  rw [← htext] at hblanked
  refine ⟨⟨?_, hblanked.getElem?_eq_newline_iff, fun i c hc => ?_, ?_⟩, ?_⟩
  · rw [← String.length_toList, ← String.length_toList, hblanked.length_eq]
  · rcases hblanked.getElem?_cases i with hsame | ⟨d, hd, hline, hspace⟩
    · exact .inl (hsame.trans hc)
    · rw [hc, Option.some_inj] at hd
      exact .inr ⟨hd ▸ hline, hspace⟩
  · rw [htext]
    exact forall₂_blankedLine source.toList
  · rw [blankComments, htext, blankChars_blankChars]
    rfl

/-- After a quote without an end a marker still begins a comment. -/
example : blankComments "\"a\" \" -- b\nc" = "\"a\" \"     \nc" := by decide +kernel

end LazyLang.Text
