import LazyLang.Proofs.Tokens.Patterns

/-!
# Comments and literals

Read from left to right by the tokens' own pattern of literals, a text falls into literals, comments
and other characters (`sections`). The pattern by which comments are found takes no literal across a
line end, so the two readings agree as far as no literal spans lines (`blankChars_of_sections`): up
to there every literal is left as it is and every comment is blanked out. Inside a literal that
spans lines they differ (`not_blankComments_sections`).

The stripping of comments itself goes from piece to piece: a literal that ends on its line, a quote
without an end, a comment, or another character (`pieces_induction`). Whatever is blanked out, each
run of blanked characters begins with `--`, contains no line end and stops at one, or at the end of
the text (`Blanked`).
-/

namespace LazyLang.Text

/-- A stretch of a text. -/
inductive Section where
  | literal (text : List Char)
  | comment (text : List Char)
  | other (c : Char)
  deriving DecidableEq

namespace Section

/-- The characters of a stretch. -/
def text : Section → List Char
  | literal text => text
  | comment text => text
  | other c => [c]

/-- A stretch without its comment. -/
def blanked : Section → List Char
  | literal text => text
  | comment text => List.replicate text.length ' '
  | other c => [c]

end Section

/-- The stretches of a text: at a quote the literal that the pattern of tokens finds there, at `--`
a comment up to the end of the line. -/
def sections : List Char → List Section
  | [] => []
  | c :: rest =>
    if c = '"' then
      match TokenKind.string.matchLength? (c :: rest) with
      | some n => .literal (c :: rest.take (n - 1)) :: sections (rest.drop (n - 1))
      | none => .other c :: sections rest
    else if c = '-' ∧ rest.head? = some '-' then
      .comment (c :: rest.takeWhile (· ≠ '\n')) ::
        sections (rest.dropWhile (· ≠ '\n'))
    else .other c :: sections rest
  termination_by cs => cs.length
  decreasing_by
    all_goals simp only [List.length_cons, List.length_drop]
    all_goals have := (List.dropWhile_sublist (l := rest) (· ≠ '\n')).length_le; omega

variable {cs : List Char} {before after : List Section} {n : ℕ}

theorem drop_length_takeWhile (p : Char → Bool) (cs : List Char) :
    cs.drop (cs.takeWhile p).length = cs.dropWhile p := by
  have hdrop : (cs.takeWhile p ++ cs.dropWhile p).drop (cs.takeWhile p).length = cs.dropWhile p :=
    List.drop_left
  rwa [List.takeWhile_append_dropWhile] at hdrop

/-- The stretches of a text make up the text. -/
theorem flatMap_text_sections (cs : List Char) : (sections cs).flatMap Section.text = cs := by
  fun_induction sections cs <;> simp_all [Section.text]

/-- Every literal among the stretches of a text is one for the tokens. -/
theorem mem_pattern_of_mem_sections {w : List Char} (h : .literal w ∈ sections cs) :
    w ∈ TokenKind.string.pattern := by
  fun_induction sections cs with
  | case1 => cases h
  | case2 rest n hmatch ih =>
      rcases List.mem_cons.1 h with h | h
      · cases h
        obtain ⟨_, hclosing, rfl⟩ := Option.map_eq_some_iff.1 hmatch
        obtain ⟨v, rest, hv, rfl, rfl⟩ := closing?_eq_some_iff.1 hclosing
        simpa [List.take_length_add_append] using TokenKind.mem_pattern_string hv
      · exact ih h
  | case3 | case4 | case5 => simp_all

theorem closing?_cons {c : Char} (hc : c ≠ '\\') (multiline : Bool) (rest : List Char) :
    Quoted.closing? multiline (c :: rest) =
      if c = '"' then some 1
      else if c = '\n' && !multiline then none
      else (Quoted.closing? multiline rest).map (· + 1) := by
  simp [Quoted.closing?, hc]

/-- The characters before the rest of a literal, none of which is a line end, take nothing from
what is said of the rest. -/
theorem map_closing?_eq_some_iff {w : List Char} (hw : '\n' ∉ w)
    (hrest : ∀ n, Quoted.closing? false cs = some n ↔
      Quoted.closing? true cs = some n ∧ '\n' ∉ cs.take n) :
    (Quoted.closing? false cs).map (· + w.length) = some n ↔
      (Quoted.closing? true cs).map (· + w.length) = some n ∧ '\n' ∉ (w ++ cs).take n := by
  have htake (m : ℕ) : '\n' ∉ (w ++ cs).take (m + w.length) ↔ '\n' ∉ cs.take m := by
    rw [Nat.add_comm, List.take_length_add_append, List.mem_append, or_iff_right hw]
  simp only [Option.map_eq_some_iff]
  constructor
  · rintro ⟨m, hm, rfl⟩
    obtain ⟨hm, hline⟩ := (hrest m).1 hm
    exact ⟨⟨m, hm, rfl⟩, (htake m).2 hline⟩
  · rintro ⟨⟨m, hm, rfl⟩, hline⟩
    exact ⟨m, (hrest m).2 ⟨hm, (htake m).1 hline⟩, rfl⟩

/-- A literal for the comments is a literal for the tokens that spans no lines. -/
theorem closing?_false_eq_some_iff : Quoted.closing? false cs = some n ↔
    Quoted.closing? true cs = some n ∧ '\n' ∉ cs.take n := by
  fun_induction Quoted.closing? true cs generalizing n with
  | case1 | case2 | case3 => simp [Quoted.closing?]
  | case4 c rest hc ih =>
      rw [Quoted.closing?, if_neg hc]
      exact map_closing?_eq_some_iff (w := ['\\', c]) (by simp [Ne.symm hc]) fun _ => ih
  | case5 rest =>
      rw [closing?_cons (by decide), if_pos rfl]
      refine ⟨?_, And.left⟩
      rintro ⟨⟩
      exact ⟨rfl, by simp⟩
  | case6 => simp_all
  | case7 c rest hslash _ hquote _ ih =>
      have hc : c ≠ '\\' := by
        rintro rfl
        cases rest <;> simp_all
      rw [closing?_cons hc, if_neg hquote, Bool.not_false, Bool.and_true]
      split
      · next hline =>
          -- the literal goes on after the line end, which then is one of its characters
          rw [decide_eq_true_eq] at hline
          simp [hline, Option.map_eq_some_iff]
          rintro m - rfl
          simp
      · next hline =>
          rw [decide_eq_true_eq] at hline
          exact map_closing?_eq_some_iff (w := [c]) (by simp [Ne.symm hline]) fun _ => ih

/-- A literal for the comments is what may stand between quotes on one line, and a quote. -/
theorem closing?_false_eq_some_iff_exists : Quoted.closing? false cs = some n ↔
    ∃ w rest, w ∈ quotable ∧ '\n' ∉ w ∧ cs = w ++ '"' :: rest ∧ n = w.length + 1 := by
  have htake (w rest : List Char) : '\n' ∉ (w ++ '"' :: rest).take (w.length + 1) ↔ '\n' ∉ w := by
    simp [List.take_length_add_append]
  rw [closing?_false_eq_some_iff, closing?_eq_some_iff]
  constructor
  · rintro ⟨⟨w, rest, hw, rfl, rfl⟩, hline⟩
    exact ⟨w, rest, hw, (htake w rest).1 hline, rfl, rfl⟩
  · rintro ⟨w, rest, hw, hline, rfl, rfl⟩
    exact ⟨⟨w, rest, hw, rfl, rfl⟩, (htake w rest).2 hline⟩

section Pieces

variable {w : List Char}

/-- A literal that ends on its line is left as it is. -/
theorem blankChars_literal (hw : w ∈ quotable) (hline : '\n' ∉ w) (cs : List Char) :
    blankChars ('"' :: (w ++ '"' :: cs)) = '"' :: (w ++ '"' :: blankChars cs) := by
  have hclosing : Quoted.closing? false (w ++ '"' :: cs) = some (w.length + 1) :=
    closing?_false_eq_some_iff_exists.2 ⟨w, cs, hw, hline, rfl, rfl⟩
  rw [blankChars, if_pos rfl, hclosing]
  simp [List.take_length_add_append]

/-- Of a quote without an end only the quote is passed over. -/
theorem blankChars_quote (h : Quoted.closing? false cs = none) :
    blankChars ('"' :: cs) = '"' :: blankChars cs := by
  rw [blankChars, if_pos rfl, h]

/-- After its first character a comment takes the rest of the line. -/
theorem takeWhile_comment (hline : '\n' ∉ w) (hend : ∀ c ∈ cs.head?, c = '\n') :
    ('-' :: (w ++ cs)).takeWhile (· ≠ '\n') = '-' :: w := by
  have hw : ∀ c ∈ w, decide (c ≠ '\n') = true := by
    simpa using fun c hc => ne_of_mem_of_not_mem hc hline
  rw [List.takeWhile_cons_of_pos (by decide), List.takeWhile_append_of_pos hw]
  cases cs with
  | nil => simp
  | cons c cs => simp [hend c rfl]

/-- A text begins with the rest of a line. -/
theorem exists_line (cs : List Char) : ∃ w rest, cs = w ++ rest ∧ '\n' ∉ w ∧
    ∀ c ∈ rest.head?, c = '\n' := by
  refine ⟨_, _, (List.takeWhile_append_dropWhile (p := (· ≠ '\n'))).symm, ?_, fun c hc => ?_⟩
  · intro hmem
    simpa using List.mem_takeWhile_imp hmem
  · have hstop := List.head?_dropWhile_not (· ≠ '\n') cs
    rw [Option.mem_def.1 hc] at hstop
    simpa using hstop

/-- A comment becomes as many spaces as it has characters. -/
theorem blankChars_comment (hline : '\n' ∉ w) (hend : ∀ c ∈ cs.head?, c = '\n') :
    blankChars ('-' :: '-' :: (w ++ cs)) = List.replicate (w.length + 2) ' ' ++ blankChars cs := by
  have hmarker : (decide ('-' = '-') && decide (('-' :: (w ++ cs)).head? = some '-')) = true := rfl
  rw [blankChars, if_neg (by decide), if_pos hmarker, takeWhile_comment hline hend]
  simp [List.replicate_succ]

/-- A text begins with a literal that ends on its line, a quote without an end, a comment or another
character. -/
@[elab_as_elim]
theorem pieces_induction {motive : List Char → Prop} (nil : motive [])
    (literal : ∀ {w rest}, w ∈ quotable → '\n' ∉ w → motive rest →
      motive ('"' :: (w ++ '"' :: rest)))
    (quote : ∀ {rest}, Quoted.closing? false rest = none → motive rest → motive ('"' :: rest))
    (comment : ∀ {w rest}, '\n' ∉ w → (∀ c ∈ rest.head?, c = '\n') → motive rest →
      motive ('-' :: '-' :: (w ++ rest)))
    (other : ∀ {c rest}, c ≠ '"' → (c = '-' → rest.head? ≠ some '-') → motive rest →
      motive (c :: rest)) (cs : List Char) : motive cs := by
  fun_induction blankChars cs with
  | case1 => exact nil
  | case2 rest n hclosing ih =>
      obtain ⟨w, rest, hw, hline, rfl, rfl⟩ := closing?_false_eq_some_iff_exists.1 hclosing
      exact literal hw hline (by simpa [List.drop_length_add_append] using ih)
  | case3 rest hclosing ih => exact quote hclosing ih
  | case4 c rest hc hcomment ih =>
      rw [Bool.and_eq_true, decide_eq_true_eq, decide_eq_true_eq] at hcomment
      obtain ⟨rfl, hhead⟩ := hcomment
      obtain ⟨rest, rfl⟩ := List.head?_eq_some_iff.1 hhead
      obtain ⟨w, rest, rfl, hline, hend⟩ := exists_line rest
      rw [takeWhile_comment hline hend] at ih
      exact comment hline hend (by simpa using ih)
  | case5 c rest hc hcomment ih => exact other hc (by simpa using hcomment) ih

end Pieces

/-- The first stretch of a text is left as it is or blanked out, unless it is a literal that spans
lines. -/
theorem blankChars_of_sections_cons {first : Section} (h : sections cs = first :: after)
    (hline : ∀ w, first = .literal w → '\n' ∉ w) :
    ∃ rest, sections rest = after ∧ blankChars cs = first.blanked ++ blankChars rest := by
  fun_cases sections cs with
  | case1 => cases (sections.eq_def []).symm.trans h
  | case2 rest n hmatch =>
      rw [sections, if_pos rfl, hmatch] at h
      obtain ⟨rfl, rfl⟩ := List.cons_eq_cons.1 h
      obtain ⟨m, hclosing, rfl⟩ := Option.map_eq_some_iff.1 hmatch
      have hsingle : Quoted.closing? false rest = some m :=
        closing?_false_eq_some_iff.2 ⟨hclosing, by simpa using hline _ rfl⟩
      refine ⟨rest.drop m, rfl, ?_⟩
      rw [blankChars, if_pos rfl, hsingle]
      rfl
  | case3 rest hmatch =>
      rw [sections, if_pos rfl, hmatch] at h
      obtain ⟨rfl, rfl⟩ := List.cons_eq_cons.1 h
      have hnone : Quoted.closing? false rest = none := by
        rw [Option.eq_none_iff_forall_ne_some]
        intro m hm
        have hclosing := (closing?_false_eq_some_iff.1 hm).1
        simp [TokenKind.matchLength?, TokenKind.stringLength?, hclosing] at hmatch
      refine ⟨rest, rfl, ?_⟩
      rw [blankChars, if_pos rfl, hnone]
      rfl
  | case4 c rest hc hcomment =>
      rw [sections, if_neg hc, if_pos hcomment] at h
      obtain ⟨rfl, rfl⟩ := List.cons_eq_cons.1 h
      refine ⟨_, rfl, ?_⟩
      rw [blankChars, if_neg hc, if_pos (by simpa using hcomment), drop_length_takeWhile]
      rfl
  | case5 c rest hc hcomment =>
      rw [sections, if_neg hc, if_neg hcomment] at h
      obtain ⟨rfl, rfl⟩ := List.cons_eq_cons.1 h
      refine ⟨rest, rfl, ?_⟩
      rw [blankChars, if_neg hc, if_neg (by simpa using hcomment)]
      rfl

/-- As far as no literal spans lines, every literal is left as it is and every comment is blanked
out. -/
theorem blankChars_of_sections (h : sections cs = before ++ after)
    (hlines : ∀ w, .literal w ∈ before → '\n' ∉ w) :
    blankChars cs = before.flatMap Section.blanked ++ blankChars (after.flatMap Section.text) := by
  induction before generalizing cs with
  | nil =>
      rw [List.nil_append] at h
      rw [← h, flatMap_text_sections]
      rfl
  | cons first before ih =>
      obtain ⟨rest, hrest, hblank⟩ := blankChars_of_sections_cons h
        fun w hw => hlines w (by simp [hw])
      have htail := ih hrest fun w hw => hlines w (List.mem_cons_of_mem _ hw)
      rw [hblank, htail, List.flatMap_cons, List.append_assoc]

/-- `ds` is `cs` with some stretches blanked out, each of which is a comment up to the end of its
line or of the text. -/
inductive Blanked : List Char → List Char → Prop
  | nil : Blanked [] []
  | keep (c : Char) {cs ds : List Char} (h : Blanked cs ds) : Blanked (c :: cs) (c :: ds)
  | comment {w cs ds : List Char} (hmarker : ['-', '-'] <+: w) (hline : '\n' ∉ w)
      (hend : ∀ c ∈ cs.head?, c = '\n') (h : Blanked cs ds) :
      Blanked (w ++ cs) (List.replicate w.length ' ' ++ ds)

theorem Blanked.append_left {cs ds : List Char} (h : Blanked cs ds) (w : List Char) :
    Blanked (w ++ cs) (w ++ ds) := by
  induction w with
  | nil => exact h
  | cons c w ih => exact .keep c ih

theorem blanked_blankChars (cs : List Char) : Blanked cs (blankChars cs) := by
  induction cs using pieces_induction with
  | nil =>
      rw [blankChars]
      exact .nil
  | @literal w rest hw hline ih =>
      rw [blankChars_literal hw hline]
      simpa using ih.append_left ('"' :: (w ++ ['"']))
  | quote hclosing ih =>
      rw [blankChars_quote hclosing]
      exact .keep _ ih
  | @comment w rest hline hend ih =>
      rw [blankChars_comment hline hend]
      exact .comment (w := '-' :: '-' :: w) ⟨w, rfl⟩ (by simpa using hline) hend ih
  | other hc hhead ih =>
      rw [blankChars_cons hc hhead]
      exact .keep _ ih

/-- Up to the first literal that spans lines no character of a literal is changed and every comment
is blanked out. -/
theorem toList_blankComments {text : String} (before after : List Section)
    (h : sections text.toList = before ++ after) (hlines : ∀ w, .literal w ∈ before → '\n' ∉ w) :
    (blankComments text).toList =
      before.flatMap Section.blanked ++
        (blankComments (String.ofList (after.flatMap Section.text))).toList := by
  simpa only [blankComments, String.toList_ofList] using blankChars_of_sections h hlines

/-- A marker between quotes stays, the comment after it goes, and the literal that spans lines is
where this ends. -/
theorem toList_blankComments_sample :
    (blankComments "\"a -- b\"-- c\n\"d\n--\"").toList =
      "\"a -- b\"    \n".toList ++ (blankComments "\"d\n--\"").toList :=
  toList_blankComments [.literal "\"a -- b\"".toList, .comment "-- c".toList, .other '\n']
    [.literal "\"d\n--\"".toList] (by decide +kernel) (by simp)

/-- A literal that spans lines can lose what follows a marker, and its quote with it. -/
theorem not_blankComments_sections :
    let text := "\"a\n-- b\""
    normalizeNewlines text = text ∧
      sections text.toList = [.literal text.toList] ∧
      (blankComments text).toList ≠ (sections text.toList).flatMap Section.blanked := by
  decide +kernel

end LazyLang.Text
