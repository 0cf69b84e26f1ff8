import LazyLang.Proofs.Tokens.Patterns

/-!
# Tokens tile the text

What the tokens of a text are is said without the scan: between blanks, each token is the longest
text of any pattern that the remaining text begins with, of the first kind that has this text, and
it stands where the blanks and the tokens before it end (`Tiles`). The scan finds these tokens and
no others (`scan_eq_ok_iff`), and they follow each other in reading order without overlapping
(`Tiles.pairwise`).
-/

namespace LazyLang

namespace Location

/-- Strict reading order. -/
def Before (a b : Location) : Prop := a.line < b.line ∨ a.line = b.line ∧ a.column < b.column

variable {a b c : Location}

theorem le_iff : a.le b = true ↔ a.line < b.line ∨ a.line = b.line ∧ a.column ≤ b.column := by
  simp [le]

theorem le_refl (a : Location) : a.le a = true :=
  le_iff.2 (.inr ⟨rfl, Nat.le_refl _⟩)

theorem le_trans (hab : a.le b = true) (hbc : b.le c = true) : a.le c = true := by
  rw [le_iff] at hab hbc ⊢
  omega

theorem Before.le (h : a.Before b) : a.le b = true :=
  le_iff.2 (h.imp_right fun ⟨hline, hcolumn⟩ => ⟨hline, Nat.le_of_lt hcolumn⟩)

theorem Before.trans_le (hab : a.Before b) (hbc : b.le c = true) : a.Before c := by
  rw [le_iff] at hbc
  unfold Before at hab ⊢
  omega

end Location

namespace TokenKind

variable {kind : TokenKind} {kinds : List TokenKind} {cs text rest : List Char} {n : ℕ}

/-- At the beginning of `text ++ rest`, `text` is the longest text of any pattern, and `kind` is the
first kind that has it. -/
structure Foremost (kind : TokenKind) (text rest : List Char) : Prop where
  matched : text ∈ kind.pattern
  longest : ∀ other : TokenKind, ∀ w ∈ other.pattern, w <+: text ++ rest → w.length ≤ text.length
  first : ∀ other ∈ all.takeWhile (· ≠ kind), text ∉ other.pattern

/-- Where some kind matches there is a winner, which matches no less. -/
theorem exists_longestAmong (hmem : kind ∈ kinds) (h : kind.matchLength? cs = some n) :
    ∃ winner m, longestAmong cs kinds = some (winner, m) ∧ n ≤ m := by
  induction kinds with
  | nil => cases hmem
  | cons first rest ih =>
      rw [longestAmong]
      rcases List.mem_cons.1 hmem with rfl | hmem
      · rw [h]
        cases longestAmong cs rest with
        | none => exact ⟨kind, n, rfl, Nat.le_refl n⟩
        | some best =>
            by_cases hle : best.2 ≤ n
            · exact ⟨kind, n, if_pos hle, Nat.le_refl n⟩
            · exact ⟨best.1, best.2, if_neg hle, Nat.le_of_not_le hle⟩
      · obtain ⟨winner, m, hbest, hle⟩ := ih hmem
        rw [hbest]
        cases first.matchLength? cs with
        | none => exact ⟨winner, m, rfl, hle⟩
        | some k =>
            by_cases hlek : m ≤ k
            · exact ⟨first, k, if_pos hlek, hle.trans hlek⟩
            · exact ⟨winner, m, if_neg hlek, hle⟩

/-- A text of a pattern that is the longest of any is what its kind matches. -/
theorem matchLength?_of_longest (hmatched : text ∈ kind.pattern)
    (hlongest : ∀ w ∈ kind.pattern, w <+: text ++ rest → w.length ≤ text.length) :
    kind.matchLength? (text ++ rest) = some text.length := by
  refine matchLength?_eq_some_iff.2 ⟨⟨text, hmatched, List.prefix_append text rest, rfl⟩, ?_⟩
  rintro _ ⟨w, hw, hbegins, rfl⟩
  exact hlongest w hw hbegins

theorem Foremost.longest?_eq (h : Foremost kind text rest) :
    longest? (text ++ rest) = some (kind, text.length) := by
  have hle (other : TokenKind) (m : ℕ) (hm : other.matchLength? (text ++ rest) = some m) :
      m ≤ text.length := by
    obtain ⟨w, hw, hbegins, rfl⟩ := mem_lengths_of_matchLength? hm
    exact h.longest other w hw hbegins
  refine longestAmong_eq (mem_all kind) (matchLength?_of_longest h.matched (h.longest kind))
    (fun other _ m hm => hle other m hm) fun other hother m hm => ?_
  refine Nat.lt_of_le_of_ne (hle other m hm) ?_
  rintro rfl
  -- a text of the same length at the same place is the same text
  obtain ⟨w, hw, hbegins, hlength⟩ := mem_lengths_of_matchLength? hm
  obtain rfl : w = text := (List.prefix_of_prefix_length_le hbegins (List.prefix_append text rest)
    (Nat.le_of_eq hlength)).eq_of_length hlength
  exact h.first other hother hw

theorem exists_of_longest? (h : longest? cs = some (kind, n)) :
    ∃ text rest, cs = text ++ rest ∧ n = text.length ∧ Foremost kind text rest := by
  obtain ⟨-, hmatch, hbefore⟩ := of_longestAmong h
  obtain ⟨text, hmatched, ⟨rest, rfl⟩, rfl⟩ := mem_lengths_of_matchLength? hmatch
  have hlongest (other : TokenKind) (w : List Char) (hw : w ∈ other.pattern)
      (hbegins : w <+: text ++ rest) : w.length ≤ text.length := by
    obtain ⟨m, hm, hle⟩ := exists_matchLength?_of_mem_lengths ⟨w, hw, hbegins, rfl⟩
    obtain ⟨_, _, hwinner, hmost⟩ := exists_longestAmong (mem_all other) hm
    cases h.symm.trans hwinner
    exact hle.trans hmost
  refine ⟨text, rest, rfl, rfl, hmatched, hlongest, fun other hother hmem => ?_⟩
  have hm := matchLength?_of_longest hmem (hlongest other)
  exact Nat.lt_irrefl _ (hbefore other hother _ hm)

end TokenKind

namespace Token

variable {place : Location} {cs blanks text rest : List Char} {tokens : List Token}
  {kind : TokenKind}

/-- The place after blanks. -/
def afterBlanks (place : Location) (blanks : List Char) : Location :=
  blanks.foldl (fun place c => afterBlank c place) place

/-- The text `cs`, which stands at `place`, consists of the texts of `tokens` with blanks before,
between and after them. -/
inductive Tiles : Location → List Char → List Token → Prop
  | blanks {place : Location} {cs : List Char} (hcs : ∀ c ∈ cs, isBlank c = true) : Tiles place cs []
  | token {place : Location} {blanks rest : List Char} {kind : TokenKind} {text : String}
      {tokens : List Token} (hblanks : ∀ c ∈ blanks, isBlank c = true)
      (hforemost : TokenKind.Foremost kind text.toList rest)
      (hrest : Tiles (ofText kind text (afterBlanks place blanks)).span.stop rest tokens) :
      Tiles place (blanks ++ text.toList ++ rest)
        (ofText kind text (afterBlanks place blanks) :: tokens)

theorem Tiles.cons_blank {c : Char} (hc : isBlank c = true)
    (h : Tiles (afterBlank c place) cs tokens) : Tiles place (c :: cs) tokens := by
  cases h with
  | blanks hcs => exact .blanks (List.forall_mem_cons.2 ⟨hc, hcs⟩)
  | token hblanks hforemost hrest =>
      exact .token (List.forall_mem_cons.2 ⟨hc, hblanks⟩) hforemost hrest

theorem scan_blanks (h : ∀ c ∈ blanks, isBlank c = true) (place : Location) (cs : List Char) :
    scan place (blanks ++ cs) = scan (afterBlanks place blanks) cs := by
  induction blanks generalizing place with
  | nil => rfl
  | cons c blanks ih =>
      obtain ⟨hc, hblanks⟩ := List.forall_mem_cons.1 h
      rw [List.cons_append, scan, if_pos hc, ih hblanks]
      rfl

theorem scan_token {text : String} (h : TokenKind.Foremost kind text.toList rest)
    (hrest : scan (ofText kind text place).span.stop rest = .ok tokens) :
    scan place (text.toList ++ rest) = .ok (ofText kind text place :: tokens) := by
  have hwinner := h.longest?_eq
  obtain ⟨c, cs, htext, hc⟩ := TokenKind.exists_head_of_mem_pattern h.matched
  have hof : text = String.ofList (c :: cs) := by rw [← htext, String.ofList_toList]
  rw [htext, List.cons_append] at hwinner ⊢
  subst hof
  rw [scan, if_neg (by simp [hc]), hwinner]
  simp only [List.length_cons, Nat.add_sub_cancel, List.take_left, List.drop_left, hrest]

theorem scan_of_tiles (h : Tiles place cs tokens) : scan place cs = .ok tokens := by
  induction h with
  | blanks hcs =>
      have hscan := scan_blanks hcs ‹_› []
      rw [List.append_nil] at hscan
      rw [hscan, scan]
  | token hblanks hforemost hrest ih =>
      rw [List.append_assoc, scan_blanks hblanks]
      exact scan_token hforemost ih

theorem tiles_of_scan (h : scan place cs = .ok tokens) : Tiles place cs tokens := by
  induction place, cs using scan.induct generalizing tokens with
  | case1 =>
      rw [scan] at h
      cases h
      exact .blanks (by simp)
  | case2 place c rest hblank ih =>
      rw [scan, if_pos hblank] at h
      exact (ih h).cons_blank hblank
  | case3 place c rest hblank hnone =>
      rw [scan, if_neg hblank, hnone] at h
      cases h
  | case4 place c rest hblank kind n hlongest token remaining hrest =>
      rw [scan, if_neg hblank, hlongest] at h
      simp only [token] at hrest
      simp only [hrest] at h
      cases h
  | case5 place c rest hblank kind n hlongest token tokens hrest =>
      rename_i ih
      rw [scan, if_neg hblank, hlongest] at h
      simp only [token] at hrest ih
      simp only [hrest] at h
      cases h
      obtain ⟨text, after, hcs, rfl, hforemost⟩ := TokenKind.exists_of_longest? hlongest
      obtain ⟨d, ds, rfl, -⟩ := TokenKind.exists_head_of_mem_pattern hforemost.matched
      rw [List.cons_append] at hcs
      obtain ⟨rfl, rfl⟩ := List.cons_eq_cons.1 hcs
      have htail := ih hrest
      rw [List.length_cons, Nat.add_sub_cancel, List.take_left, List.drop_left] at htail
      rw [List.length_cons, Nat.add_sub_cancel, List.take_left]
      have htext : (String.ofList (c :: ds)).toList = c :: ds := String.toList_ofList
      have hno : ∀ x ∈ ([] : List Char), isBlank x = true := by simp
      have htiles := Tiles.token hno (htext.symm ▸ hforemost) htail
      rwa [htext] at htiles

/-- The scan succeeds with the tokens that tile the text, and only with them. -/
theorem scan_eq_ok_iff : scan place cs = .ok tokens ↔ Tiles place cs tokens :=
  ⟨tiles_of_scan, scan_of_tiles⟩

theorem le_afterBlank (c : Char) (place : Location) :
    place.le (afterBlank c place) = true := by
  rw [Location.le_iff, afterBlank]
  split
  · exact .inl (Nat.lt_succ_self _)
  · exact .inr ⟨rfl, Nat.le_succ _⟩

theorem le_afterBlanks (place : Location) (blanks : List Char) :
    place.le (afterBlanks place blanks) = true := by
  induction blanks generalizing place with
  | nil => exact Location.le_refl place
  | cons c blanks ih => exact Location.le_trans (le_afterBlank c place) (ih _)

/-- A token of a pattern ends after it starts. -/
theorem start_before_stop {text : String} (h : text.toList ∈ kind.pattern) (place : Location) :
    (ofText kind text place).span.start.Before (ofText kind text place).span.stop := by
  obtain ⟨c, cs, htext, -⟩ := TokenKind.exists_head_of_mem_pattern h
  have hpos : 0 < text.utf8ByteSize := by
    refine Nat.pos_of_ne_zero fun hzero => ?_
    rw [String.utf8ByteSize_eq_zero_iff.1 hzero] at htext
    cases htext
  exact .inr ⟨rfl, Nat.lt_add_of_pos_right hpos⟩

/-- Every token stands after the place of the text and ends after it starts. -/
theorem Tiles.le_start (h : Tiles place cs tokens) :
    ∀ t ∈ tokens, place.le t.span.start = true ∧ t.span.start.Before t.span.stop := by
  induction h with
  | blanks => simp
  | @token place blanks _ kind text _ _ hforemost _ ih =>
      have hplace := le_afterBlanks place blanks
      have hspan := start_before_stop hforemost.matched (afterBlanks place blanks)
      refine List.forall_mem_cons.2 ⟨⟨hplace, hspan⟩, fun t ht => ?_⟩
      obtain ⟨hle, ht⟩ := ih t ht
      exact ⟨Location.le_trans hplace (Location.le_trans hspan.le hle), ht⟩

/-- Of two tokens the later starts no earlier than the other ends. -/
theorem Tiles.pairwise (h : Tiles place cs tokens) :
    tokens.Pairwise fun a b => a.span.stop.le b.span.start = true := by
  induction h with
  | blanks => exact .nil
  | token _ _ hrest ih => exact .cons (fun t ht => (hrest.le_start t ht).1) ih

theorem tokenize_eq_ok_iff_tiles {source : String} :
    tokenize source = .ok tokens ↔ Tiles ⟨0, 0⟩ (Text.prepare source).toList tokens := by
  rw [← scan_eq_ok_iff]
  simp only [tokenize]
  cases scan ⟨0, 0⟩ (Text.prepare source).toList <;> simp

/-- A text has the tokens that tile its prepared form, and no others. They start one after the
other, in the order of lines and columns, and none starts before the one before it has ended. -/
theorem tokenize_eq_ok_iff {source : String} :
    tokenize source = .ok tokens ↔
      Tiles ⟨0, 0⟩ (Text.prepare source).toList tokens ∧
        tokens.Pairwise (fun a b => a.span.start.Before b.span.start ∧
          a.span.stop.le b.span.start = true) ∧
        ∀ t ∈ tokens, t.span.start.Before t.span.stop := by
  rw [tokenize_eq_ok_iff_tiles]
  refine ⟨fun h => ⟨h, ?_, fun t ht => (h.le_start t ht).2⟩, And.left⟩
  refine h.pairwise.imp_of_mem fun {a b} ha _ hle => ⟨?_, hle⟩
  exact (h.le_start a ha).2.trans_le hle

end Token

end LazyLang
