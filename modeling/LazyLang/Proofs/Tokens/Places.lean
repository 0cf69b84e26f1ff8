import LazyLang.Proofs.Tokens.Comments
import LazyLang.Proofs.Tokens.Tiling

/-!
# Where tokens stand in the source text

Neither the uniform line ends nor the blanks for comments move what follows, so a token stands where
its text stands in the source text, as far as every line end starts a new line
(`exists_readsAt`). A line end inside a literal does not: all tokens after such a literal are
recorded that many lines too early.
-/

namespace LazyLang

namespace Location

/-- The place after a character of a text with uniform line ends. -/
def after (place : Location) (c : Char) : Location :=
  if c = '\n' then ⟨place.line + 1, 0⟩ else ⟨place.line, place.column + c.utf8Size⟩

/-- The place after a text with uniform line ends. -/
def advance (place : Location) (cs : List Char) : Location := cs.foldl after place

variable {place other : Location} {c : Char} {w cs ds front back : List Char}

theorem advance_append (place : Location) (cs ds : List Char) :
    place.advance (cs ++ ds) = (place.advance cs).advance ds :=
  List.foldl_append

theorem after_of_ne (h : c ≠ '\n') :
    place.after c = ⟨place.line, place.column + c.utf8Size⟩ := if_neg h

theorem advance_line (place : Location) (cs : List Char) :
    (place.advance cs).line = place.line + cs.count '\n' := by
  induction cs generalizing place with
  | nil => rfl
  | cons c cs ih =>
      rw [advance, List.foldl_cons]
      refine (ih _).trans ?_
      by_cases hc : c = '\n'
      · subst hc
        rw [List.count_cons_self, after, if_pos rfl, Nat.add_assoc, Nat.add_comm 1]
      · rw [List.count_cons_of_ne hc, after_of_ne hc]

/-- A text without line ends leaves the line, and moves the column by its bytes. -/
theorem advance_of_notMem (h : '\n' ∉ w) (place : Location) :
    place.advance w = ⟨place.line, place.column + (String.ofList w).utf8ByteSize⟩ := by
  induction w generalizing place with
  | nil => simp [advance]
  | cons c w ih =>
      obtain ⟨hc, hw⟩ := List.ne_and_not_mem_of_not_mem_cons h
      have htail := ih hw (place.after c)
      rw [after_of_ne (Ne.symm hc)] at htail
      rw [advance, List.foldl_cons, after_of_ne (Ne.symm hc)]
      refine htail.trans ?_
      rw [String.ofList_cons, String.utf8ByteSize_append, String.utf8ByteSize_singleton,
        Nat.add_assoc]

/-- Two places after the same character are the same only if they were before it. -/
theorem after_injective (hc : c ≠ '\n') (h : place.after c = other.after c) : place = other := by
  rw [after_of_ne hc, after_of_ne hc, mk.injEq, Nat.add_right_cancel_iff] at h
  cases place
  cases other
  simpa using h

/-- After a line end it does not matter how long the line was. -/
theorem advance_newline (h : place.line = other.line) (cs : List Char) :
    place.advance ('\n' :: cs) = other.advance ('\n' :: cs) := by
  simp [advance, after, h]

/-- The recorded place is `n` lines before the real one; when it is on the same line it is the same
place. -/
structure LinesBefore (n : ℕ) (recorded real : Location) : Prop where
  line : real.line = recorded.line + n
  eq : n = 0 → recorded = real

theorem LinesBefore.refl (place : Location) : LinesBefore 0 place place := ⟨rfl, fun _ => rfl⟩

theorem LinesBefore.advance {n : ℕ} (h : LinesBefore n place other) (cs : List Char) :
    LinesBefore n (place.advance cs) (other.advance cs) := by
  refine ⟨?_, fun hn => by rw [h.eq hn]⟩
  rw [advance_line, advance_line, h.line]
  omega

/-- A token moves the recorded place along its line, and the real one by its line ends as well. -/
theorem LinesBefore.token {n : ℕ} (h : LinesBefore n place other) (w : List Char) :
    LinesBefore (n + w.count '\n') ⟨place.line, place.column + (String.ofList w).utf8ByteSize⟩
      (other.advance w) := by
  constructor
  · rw [advance_line, h.line, Nat.add_assoc]
  · intro hn
    have hw : '\n' ∉ w := List.count_eq_zero.1 (Nat.eq_zero_of_add_eq_zero_left hn)
    rw [← advance_of_notMem hw, h.eq (Nat.eq_zero_of_add_eq_zero_right hn)]

end Location

namespace Text

variable {place : Location} {c : Char} {cs ds front back w : List Char}

/-- The place that a source text leads to from `place`: `\n`, `\r\n` and `\r` end lines, and every
other character takes the columns of its bytes. -/
def placeAfter (place : Location) : List Char → Location
  | [] => place
  | '\r' :: '\n' :: rest => placeAfter ⟨place.line + 1, 0⟩ rest
  | '\r' :: rest => placeAfter ⟨place.line + 1, 0⟩ rest
  | '\n' :: rest => placeAfter ⟨place.line + 1, 0⟩ rest
  | c :: rest => placeAfter ⟨place.line, place.column + c.utf8Size⟩ rest

/-- The source text reads `text` at `place`, when its line ends are written uniformly. -/
def ReadsAt (source : String) (place : Location) (text : List Char) : Prop :=
  ∃ front back, source.toList = front ++ back ∧ placeAfter ⟨0, 0⟩ front = place ∧
    text <+: normalizeChars back

theorem placeAfter_eq_advance (place : Location) (cs : List Char) :
    placeAfter place cs = place.advance (normalizeChars cs) := by
  fun_induction placeAfter place cs with
  | case1 => rfl
  | case2 place rest ih => exact ih
  | case3 place rest hnot ih =>
      rw [ih]
      simp [normalizeChars, Location.advance, Location.after]
  | case4 place rest ih =>
      rw [ih, normalizeChars_cons (by decide)]
      rfl
  | case5 place c rest _ hreturn hline ih =>
      rw [ih, normalizeChars_cons hreturn, ← Location.after_of_ne hline]
      rfl

/-- A text with uniform line ends can be divided before and after what a character or a line end of
the source text has become. -/
theorem exists_append_of_cons (unit : List Char) {rest : List Char} {x : Char}
    (hunit : ∀ cs, cs <+: rest → normalizeChars (unit ++ cs) = x :: normalizeChars cs)
    (hrest : ∀ {front}, normalizeChars rest = front ++ back → ∃ before after,
      rest = before ++ after ∧ normalizeChars before = front ∧ normalizeChars after = back)
    (h : x :: normalizeChars rest = front ++ back) : ∃ before after,
      unit ++ rest = before ++ after ∧ normalizeChars before = front ∧
        normalizeChars after = back := by
  cases front with
  | nil => exact ⟨[], unit ++ rest, rfl, rfl, (hunit rest (List.prefix_refl rest)).trans h⟩
  | cons y front =>
      rw [List.cons_append] at h
      obtain ⟨rfl, htail⟩ := List.cons_eq_cons.1 h
      obtain ⟨before, after, rfl, hbefore, hafter⟩ := hrest htail
      refine ⟨unit ++ before, after, (List.append_assoc unit before after).symm, ?_, hafter⟩
      rw [hunit before (List.prefix_append before after), hbefore]

/-- Where a text with uniform line ends is divided the source text can be divided. -/
theorem exists_append_of_normalizeChars (h : normalizeChars cs = front ++ back) :
    ∃ before after, cs = before ++ after ∧ normalizeChars before = front ∧
      normalizeChars after = back := by
  fun_induction normalizeChars cs generalizing front with
  | case1 =>
      obtain ⟨rfl, rfl⟩ := List.append_eq_nil_iff.1 h.symm
      exact ⟨[], [], rfl, rfl, rfl⟩
  | case2 rest ih =>
      exact exists_append_of_cons ['\r', '\n'] (fun _ _ => rfl) ih h
  | case3 rest hnot ih =>
      refine exists_append_of_cons ['\r'] (fun cs hcs => ?_) ih h
      rw [List.singleton_append, normalizeChars]
      rintro cs rfl
      obtain ⟨after, rfl⟩ := hcs
      exact hnot _ rfl
  | case4 c rest _ hreturn ih =>
      exact exists_append_of_cons [c] (fun cs _ => normalizeChars_cons hreturn cs) ih h

/-- A blanked text is divided at a character that is no space where the text itself can be
divided. -/
theorem Blanked.exists_append (h : Blanked cs (front ++ c :: back)) (hc : c ≠ ' ') :
    ∃ before after, cs = before ++ c :: after ∧ Blanked (before ++ [c]) (front ++ [c]) ∧
      Blanked (c :: after) (c :: back) := by
  generalize hds : front ++ c :: back = ds at h
  induction h generalizing front with
  | nil => simp at hds
  | keep x h ih =>
      cases front with
      | nil =>
          obtain ⟨rfl, rfl⟩ := List.cons_eq_cons.1 hds
          exact ⟨[], _, rfl, .keep c .nil, .keep c h⟩
      | cons y front =>
          rw [List.cons_append] at hds
          obtain ⟨rfl, htail⟩ := List.cons_eq_cons.1 hds
          obtain ⟨before, after, rfl, hbefore, hafter⟩ := ih htail
          exact ⟨y :: before, after, rfl, .keep y hbefore, hafter⟩
  | @comment w cs ds hmarker hline hend h ih =>
      have hno : c ∉ List.replicate w.length ' ' := fun hmem => hc (List.eq_of_mem_replicate hmem)
      obtain ⟨tail, rfl, htail⟩ : ∃ tail, front = List.replicate w.length ' ' ++ tail ∧
          tail ++ c :: back = ds := by
        rcases List.append_eq_append_iff.1 hds with ⟨spaces, hspaces, hback⟩ | ⟨tail, hfront, hback⟩
        · cases spaces with
          | nil => exact ⟨[], by simpa using hspaces.symm, hback⟩
          | cons y spaces =>
              obtain ⟨rfl, -⟩ := List.cons_eq_cons.1 hback
              exact absurd (hspaces ▸ by simp) hno
        · exact ⟨tail, hfront, hback.symm⟩
      obtain ⟨before, after, rfl, hbefore, hafter⟩ := ih htail
      refine ⟨w ++ before, after, by simp, ?_, hafter⟩
      rw [List.append_assoc, List.append_assoc]
      refine .comment hmarker hline (fun x hx => hend x ?_) hbefore
      cases before <;> simpa using hx

theorem getLast?_ne_of_append {x : Char} (h : (w ++ ds).getLast? ≠ some x) :
    ds.getLast? ≠ some x := by
  intro hds
  rw [List.getLast?_append, hds] at h
  exact h rfl

/-- After a comment that is not the end of the blanked text comes a line end. -/
theorem Blanked.exists_line_end (hmarker : ['-', '-'] <+: w) (hend : ∀ c ∈ cs.head?, c = '\n')
    (h : Blanked cs ds) (hlast : (List.replicate w.length ' ' ++ ds).getLast? ≠ some ' ') :
    ∃ cs' ds', cs = '\n' :: cs' ∧ ds = '\n' :: ds' := by
  cases h with
  | nil =>
      obtain ⟨v, rfl⟩ := hmarker
      simp [List.getLast?_replicate] at hlast
  | keep c h =>
      obtain rfl := hend c rfl
      exact ⟨_, _, rfl, rfl⟩
  | comment hmarker' =>
      obtain ⟨v, rfl⟩ := hmarker'
      exact absurd (hend '-' rfl) (by decide)

/-- A text and its blanked form lead to the same place, unless a comment stands at the end. -/
theorem Blanked.advance_eq (h : Blanked cs ds) (hlast : ds.getLast? ≠ some ' ')
    (place : Location) : place.advance cs = place.advance ds := by
  induction h generalizing place with
  | nil => rfl
  | keep c h ih => exact ih (getLast?_ne_of_append (w := [c]) hlast) (place.after c)
  | @comment w cs ds hmarker hline hend h ih =>
      have htail := ih (getLast?_ne_of_append hlast)
      obtain ⟨cs', ds', rfl, rfl⟩ := h.exists_line_end hmarker hend hlast
      have hlines : (place.advance w).line =
          (place.advance (List.replicate w.length ' ')).line := by
        rw [Location.advance_line, Location.advance_line, List.count_eq_zero.2 hline,
          List.count_eq_zero.2 (by simp [List.mem_replicate])]
      rw [Location.advance_append, Location.advance_append, Location.advance_newline hlines, htail]

/-- Nothing is blanked out of a line that does not end in a comment. -/
theorem Blanked.eq_of_notMem (h : Blanked cs ds) (hlast : ds.getLast? ≠ some ' ')
    (hline : '\n' ∉ ds) : cs = ds := by
  induction h with
  | nil => rfl
  | keep c h ih =>
      rw [ih (getLast?_ne_of_append (w := [c]) hlast) fun hmem => hline (List.mem_cons_of_mem c hmem)]
  | comment hmarker _ hend h _ =>
      obtain ⟨_, _, rfl, rfl⟩ := h.exists_line_end hmarker hend hlast
      exact absurd (by simp) hline

end Text

namespace Token

open Text

variable {place real : Location} {cs : List Char} {before after : List Token} {t : Token}

/-- The line ends inside tokens. -/
def lineEnds : List Token → ℕ
  | [] => 0
  | t :: rest => t.text.toList.count '\n' + lineEnds rest

theorem afterBlanks_eq_advance {blanks : List Char} (h : ∀ c ∈ blanks, isBlank c = true)
    (place : Location) : afterBlanks place blanks = place.advance blanks := by
  induction blanks generalizing place with
  | nil => rfl
  | cons c blanks ih =>
      obtain ⟨hc, hblanks⟩ := List.forall_mem_cons.1 h
      have hsize : afterBlank c place = place.after c := by
        simp only [isBlank, Bool.or_eq_true, decide_eq_true_eq] at hc
        rcases hc with (((rfl | rfl) | rfl) | rfl) | rfl <;> rfl
      rw [afterBlanks, List.foldl_cons, hsize]
      exact ih hblanks _

/-- A token stands at the place that the text before it leads to, less the line ends inside the
tokens before it. -/
theorem Tiles.linesBefore {n : ℕ} (h : Tiles place cs (before ++ t :: after))
    (hplace : Location.LinesBefore n place real) : ∃ front rest,
      cs = front ++ t.text.toList ++ rest ∧ t.text.toList ∈ t.kind.pattern ∧
        Location.LinesBefore (n + lineEnds before) t.span.start (real.advance front) := by
  induction before generalizing place cs real n with
  | nil =>
      cases h with
      | @token _ blanks rest _ _ _ hblanks hforemost _ =>
          have hstart := hplace.advance blanks
          rw [← afterBlanks_eq_advance hblanks] at hstart
          exact ⟨blanks, rest, rfl, hforemost.matched, hstart⟩
  | cons b before ih =>
      cases h with
      | @token _ blanks rest _ text _ hblanks hforemost hrest =>
          have hstop := (hplace.advance blanks).token text.toList
          rw [← afterBlanks_eq_advance hblanks, String.ofList_toList] at hstop
          obtain ⟨front, rest, rfl, hmatched, hstart⟩ := ih hrest hstop
          refine ⟨blanks ++ text.toList ++ front, rest, by simp, hmatched, ?_⟩
          rw [Location.advance_append, Location.advance_append]
          rwa [lineEnds, ← Nat.add_assoc]

theorem ne_of_isBlank_false {c d : Char} (hc : isBlank c = false) (hd : isBlank d = true) :
    c ≠ d := by
  rintro rfl
  rw [hc] at hd
  cases hd

/-- Each token is read in the source text at a place that is as many lines after the recorded one as
the tokens before it have line ends inside them, and at the recorded one when they have none. What
is read there is the text of the token, or the literal of several lines that it was before comments
were blanked out of it. -/
theorem exists_readsAt {source : String} (before : List Token) (t : Token) (after : List Token)
    (h : tokenize source = .ok (before ++ t :: after)) : ∃ place w, ReadsAt source place w ∧
      Location.LinesBefore (lineEnds before) t.span.start place ∧
      Blanked w t.text.toList ∧ ('\n' ∉ t.text.toList → w = t.text.toList) := by
  obtain ⟨front, rest, hprepared, hmatched, hstart⟩ :=
    (tokenize_eq_ok_iff_tiles.1 h).linesBefore (Location.LinesBefore.refl _)
  obtain ⟨c, tail, htext, hc⟩ := TokenKind.exists_head_of_mem_pattern hmatched
  obtain ⟨init, d, hlast, hd⟩ := TokenKind.exists_last_of_mem_pattern hmatched
  have hblanked := blanked_blankChars (normalizeChars source.toList)
  rw [toList_prepare] at hprepared
  -- the text before the token and the text of the token are blanked on their own
  rw [hprepared, List.append_assoc, htext, List.cons_append] at hblanked
  obtain ⟨before', rest', hnormal, hbefore, hrest⟩ :=
    hblanked.exists_append (ne_of_isBlank_false hc rfl)
  rw [← List.cons_append, ← htext, hlast, List.append_assoc, List.singleton_append] at hrest
  obtain ⟨init', rest'', hread, hinit, -⟩ := hrest.exists_append (ne_of_isBlank_false hd rfl)
  rw [hread] at hnormal
  obtain ⟨first, second, hsource, hfirst, hsecond⟩ := exists_append_of_normalizeChars hnormal
  have hplace : placeAfter ⟨0, 0⟩ first = Location.advance ⟨0, 0⟩ front := by
    rw [placeAfter_eq_advance, hfirst]
    refine Location.after_injective (ne_of_isBlank_false hc rfl) ?_
    have hsame := hbefore.advance_eq
      (by simpa using ne_of_isBlank_false hc rfl) ⟨0, 0⟩
    rwa [Location.advance_append, Location.advance_append] at hsame
  refine ⟨placeAfter ⟨0, 0⟩ first, init' ++ [d], ⟨first, second, hsource, rfl, ?_⟩, ?_, ?_, ?_⟩
  · exact ⟨rest'', by simp [hsecond]⟩
  · rw [hplace]
    simpa using hstart
  · rwa [hlast]
  · rw [hlast]
    exact hinit.eq_of_notMem (by simpa using ne_of_isBlank_false hd rfl)

/-- The line ends and the comment before the literal leave it where it stands. -/
theorem exists_readsAt_sample :
    ∃ place w, ReadsAt "1 -- é\r\r\n \"a\"" place w ∧
      Location.LinesBefore 0 ⟨2, 1⟩ place ∧ Blanked w "\"a\"".toList ∧
        ('\n' ∉ "\"a\"".toList → w = "\"a\"".toList) :=
  exists_readsAt [ofText .integer "1" ⟨0, 0⟩] (ofText .string "\"a\"" ⟨2, 1⟩) []
    (by decide +kernel)

/-- After a literal of two lines the recorded place is on the first of them, where the source text
has nothing. -/
theorem not_readsAt_start :
    ∃ first t, tokenize "\"a\nb\" 1" = .ok [first, t] ∧
      ¬ReadsAt "\"a\nb\" 1" t.span.start t.text.toList := by
  refine ⟨ofText .string "\"a\nb\"" ⟨0, 0⟩, ofText .integer "1" ⟨0, 6⟩, by decide +kernel, ?_⟩
  rintro ⟨front, back, hsource, hplace, -⟩
  have hnowhere : ∀ front ∈ "\"a\nb\" 1".toList.inits, placeAfter ⟨0, 0⟩ front ≠ ⟨0, 6⟩ := by
    decide +kernel
  exact hnowhere front ((List.mem_inits _ _).2 ⟨back, hsource.symm⟩) hplace

end Token

end LazyLang
