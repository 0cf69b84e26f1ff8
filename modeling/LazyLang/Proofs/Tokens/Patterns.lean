import Mathlib.Computability.Language
import LazyLang.Proofs.Grammar.Lexemes

/-!
# The patterns of tokens

`pattern` gives the texts of each kind of token as a language, by union, concatenation and
repetition. What a kind matches at the beginning of a text is the longest of its texts that the text
begins with (`matchLength?_eq_some_iff`).

A text of a pattern is not empty, and neither its first nor its last character is a blank.
-/

namespace LazyLang

open scoped Computability

/-- The texts of a single character of which `p` holds. -/
def single (p : Char → Bool) : Language Char := {w | ∃ c, p c = true ∧ w = [c]}

/-- One digit or more. -/
def digits : Language Char := single Char.isDigit * (single Char.isDigit)∗

/-- What may stand between quotes: characters that are neither a quote nor a backslash, and
backslashes, each with the character after it, which is no line end. -/
def quotable : Language Char :=
  (single (fun c => c ≠ '"' && c ≠ '\\') + {['\\']} * single (· ≠ '\n'))∗

/-- The texts of the tokens of a kind. -/
def TokenKind.pattern : TokenKind → Language Char
  | identifier => single isIdentifierStart * (single isIdentifierRest)∗
  | float => digits * {['.']} * digits
  | integer => digits
  | string => {['"']} * quotable * {['"']}
  | other => {w | ∃ word, other.spelling? = some word ∧ w = word.toList}

section Languages

variable {p q : Char → Bool} {w cs : List Char} {n : ℕ}

theorem mem_single_kstar : w ∈ (single p)∗ ↔ ∀ c ∈ w, p c = true := by
  constructor
  · rintro ⟨pieces, rfl, hpieces⟩ c hc
    obtain ⟨piece, hpiece, hc⟩ := List.mem_flatten.1 hc
    obtain ⟨_, hp, rfl⟩ := hpieces piece hpiece
    rwa [List.mem_singleton.1 hc]
  · intro h
    refine ⟨w.map ([·]), by simp [← List.flatMap_def], fun piece hpiece => ?_⟩
    obtain ⟨c, hc, rfl⟩ := List.mem_map.1 hpiece
    exact ⟨c, h c hc, rfl⟩

theorem mem_single_mul_kstar :
    w ∈ single p * (single q)∗ ↔ ∃ c r, w = c :: r ∧ p c = true ∧ ∀ x ∈ r, q x = true := by
  rw [Language.mem_mul]
  constructor
  · rintro ⟨_, ⟨c, hc, rfl⟩, r, hr, rfl⟩
    exact ⟨c, r, rfl, hc, mem_single_kstar.1 hr⟩
  · rintro ⟨c, r, rfl, hc, hr⟩
    exact ⟨[c], ⟨c, hc, rfl⟩, r, mem_single_kstar.2 hr, rfl⟩

theorem mem_digits : w ∈ digits ↔ w ≠ [] ∧ ∀ c ∈ w, c.isDigit = true := by
  rw [digits, mem_single_mul_kstar]
  constructor
  · rintro ⟨c, r, rfl, hc, hr⟩
    exact ⟨List.cons_ne_nil c r, List.forall_mem_cons.2 ⟨hc, hr⟩⟩
  · rintro ⟨hne, hw⟩
    obtain ⟨c, r, rfl⟩ := List.exists_cons_of_ne_nil hne
    exact ⟨c, r, rfl, List.forall_mem_cons.1 hw⟩

/-- What may stand between quotes is empty, or begins with a character that stands for itself, or
with a backslash and the character after it. -/
theorem mem_quotable_iff :
    w ∈ quotable ↔ w = [] ∨
      (∃ c v, w = c :: v ∧ c ≠ '"' ∧ c ≠ '\\' ∧ v ∈ quotable) ∨
        ∃ c v, w = '\\' :: c :: v ∧ c ≠ '\n' ∧ v ∈ quotable := by
  have hunfold : quotable = 1 + (single (fun c => c ≠ '"' && c ≠ '\\') +
      {['\\']} * single (· ≠ '\n')) * quotable :=
    (Language.one_add_self_mul_kstar_eq_kstar _).symm
  conv_lhs => rw [hunfold, Language.mem_add, Language.mem_one, add_mul, Language.mem_add, mul_assoc]
  refine or_congr Iff.rfl (or_congr ?_ ?_)
  · constructor
    · rintro ⟨_, ⟨c, hc, rfl⟩, v, hv, rfl⟩
      simp only [Bool.and_eq_true, decide_eq_true_eq] at hc
      exact ⟨c, v, rfl, hc.1, hc.2, hv⟩
    · rintro ⟨c, v, rfl, hquote, hslash, hv⟩
      exact ⟨[c], ⟨c, by simp [hquote, hslash], rfl⟩, v, hv, rfl⟩
  · constructor
    · rintro ⟨_, rfl, _, ⟨_, ⟨c, hc, rfl⟩, v, hv, rfl⟩, rfl⟩
      exact ⟨c, v, rfl, by simpa using hc, hv⟩
    · rintro ⟨c, v, rfl, hc, hv⟩
      exact ⟨['\\'], rfl, c :: v, ⟨[c], ⟨c, by simpa using hc, rfl⟩, v, hv, rfl⟩, rfl⟩

/-- A literal that may span lines is closed by the first quote after what may stand between
quotes. -/
theorem closing?_eq_some_iff :
    Text.Quoted.closing? true cs = some n ↔
      ∃ w rest, w ∈ quotable ∧ cs = w ++ '"' :: rest ∧ n = w.length + 1 := by
  constructor
  · intro h
    fun_induction Text.Quoted.closing? true cs generalizing n with
    | case1 | case2 => cases h
    | case3 => cases h
    | case4 c rest hc ih =>
        obtain ⟨m, hm, rfl⟩ := Option.map_eq_some_iff.1 h
        obtain ⟨w, rest, hw, rfl, rfl⟩ := ih hm
        exact ⟨'\\' :: c :: w, rest, mem_quotable_iff.2 (.inr (.inr ⟨c, w, rfl, hc, hw⟩)), rfl,
          rfl⟩
    | case5 rest =>
        cases h
        exact ⟨[], rest, mem_quotable_iff.2 (.inl rfl), rfl, rfl⟩
    | case6 => simp_all
    | case7 c rest hslash _ hquote _ ih =>
        obtain ⟨m, hm, rfl⟩ := Option.map_eq_some_iff.1 h
        obtain ⟨w, rest, hw, rfl, rfl⟩ := ih hm
        have hne : c ≠ '\\' := by
          rintro rfl
          cases w <;> simp_all
        exact ⟨c :: w, rest, mem_quotable_iff.2 (.inr (.inl ⟨c, w, rfl, hquote, hne, hw⟩)), rfl,
          rfl⟩
  · rintro ⟨w, rest, hw, rfl, rfl⟩
    induction hlen : w.length using Nat.strong_induction_on generalizing w with
    | h k ih =>
      subst hlen
      rcases mem_quotable_iff.1 hw with rfl | ⟨c, v, rfl, hquote, hslash, hv⟩ | ⟨c, v, rfl, hc, hv⟩
      · rfl
      · have hrest := ih v.length (Nat.lt_succ_self _) v hv rfl
        simp [Text.Quoted.closing?, hquote, hslash, hrest]
      · have hrest := ih v.length (Nat.lt_add_of_pos_right Nat.two_pos) v hv rfl
        simp [Text.Quoted.closing?, hc, hrest]

end Languages

namespace TokenKind

variable {kind : TokenKind} {w cs : List Char} {n : ℕ}

/-- A text is one of the four kinds of many texts, or the one text of its kind. -/
theorem of_mem_pattern (h : w ∈ kind.pattern) :
    (kind = identifier ∧ ∃ c r, w = c :: r ∧ isIdentifierStart c = true ∧
        ∀ x ∈ r, isIdentifierRest x = true) ∨
      (kind = float ∧ ∃ a ∈ digits, ∃ b ∈ digits, w = a ++ '.' :: b) ∨
        (kind = integer ∧ w ∈ digits) ∨
          (kind = string ∧ ∃ v ∈ quotable, w = '"' :: v ++ ['"']) ∨
            ∃ word, kind.spelling? = some word ∧ w = word.toList := by
  cases kind
  case identifier => exact .inl ⟨rfl, mem_single_mul_kstar.1 h⟩
  case float =>
    obtain ⟨_, ⟨a, ha, _, rfl, rfl⟩, b, hb, rfl⟩ := h
    exact .inr (.inl ⟨rfl, a, ha, b, hb, by simp⟩)
  case integer => exact .inr (.inr (.inl ⟨rfl, h⟩))
  case string =>
    obtain ⟨_, ⟨_, rfl, v, hv, rfl⟩, _, rfl, rfl⟩ := h
    exact .inr (.inr (.inr (.inl ⟨rfl, v, hv, rfl⟩)))
  all_goals exact .inr (.inr (.inr (.inr h)))

theorem mem_pattern_of_spelling? {word : String} (h : kind.spelling? = some word) :
    word.toList ∈ kind.pattern := by
  cases kind <;> cases h <;> exact ⟨_, rfl, rfl⟩

theorem mem_pattern_float {a b : List Char} (ha : a ∈ digits) (hb : b ∈ digits) :
    a ++ '.' :: b ∈ float.pattern :=
  ⟨a ++ ['.'], ⟨a, ha, ['.'], rfl, rfl⟩, b, hb, by simp⟩

theorem mem_pattern_string {v : List Char} (hv : v ∈ quotable) :
    '"' :: v ++ ['"'] ∈ string.pattern :=
  ⟨'"' :: v, ⟨['"'], rfl, v, hv, rfl⟩, ['"'], rfl, rfl⟩

/-- The characters at the beginning of a text of which `p` holds are at least those of a text of
such characters that it begins with. -/
theorem length_le_takeWhile {p : Char → Bool} (hw : ∀ c ∈ w, p c = true) (h : w <+: cs) :
    w.length ≤ (cs.takeWhile p).length := by
  obtain ⟨rest, rfl⟩ := h
  rw [List.takeWhile_append_of_pos hw, List.length_append]
  exact Nat.le_add_right _ _

theorem integerLength?_of_mem_digits (hw : w ∈ digits) (h : w <+: cs) :
    ∃ n, integerLength? cs = some n ∧ w.length ≤ n := by
  obtain ⟨hne, hw⟩ := mem_digits.1 hw
  have hle := length_le_takeWhile hw h
  have hpos := List.length_pos_iff.2 hne
  exact ⟨leadingDigits cs, if_neg (Nat.ne_of_gt (hpos.trans_le hle)), hle⟩

theorem exists_of_integerLength? (h : integerLength? cs = some n) :
    ∃ w ∈ digits, ∃ rest, cs = w ++ rest ∧ w.length = n := by
  unfold integerLength? at h
  split at h
  · cases h
  · next hne =>
      cases h
      have hw : cs.takeWhile Char.isDigit ∈ digits :=
        mem_digits.2 ⟨mt List.length_eq_zero_iff.2 hne, fun c hc => List.mem_takeWhile_imp hc⟩
      exact ⟨_, hw, _, List.takeWhile_append_dropWhile.symm, rfl⟩

/-- The lengths of the texts of a kind that a text begins with. -/
def lengths (kind : TokenKind) (cs : List Char) : Set ℕ :=
  {n | ∃ w ∈ kind.pattern, w <+: cs ∧ w.length = n}

/-- What a kind matches is one of its texts. -/
theorem mem_lengths_of_matchLength? (h : kind.matchLength? cs = some n) : n ∈ kind.lengths cs := by
  rcases of_matchLength? h with
    ⟨rfl, hm⟩ | ⟨rfl, hm⟩ | ⟨rfl, hm⟩ | ⟨rfl, hm⟩ | ⟨word, hword, hbegins, rfl⟩
  · unfold identifierLength? at hm
    split at hm
    · cases hm
    · next c rest =>
        split at hm
        · next hc =>
            cases hm
            refine ⟨c :: rest.takeWhile isIdentifierRest, ?_, ?_, Nat.add_comm _ _⟩
            · exact mem_single_mul_kstar.2
                ⟨c, _, rfl, hc, fun x hx => List.mem_takeWhile_imp hx⟩
            · exact List.cons_prefix_cons.2 ⟨rfl, List.takeWhile_prefix _⟩
        · cases hm
  · unfold floatLength? at hm
    split at hm
    · cases hm
    · next whole hwhole =>
        obtain ⟨a, ha, _, rfl, rfl⟩ := exists_of_integerLength? hwhole
        rw [List.drop_left] at hm
        split at hm
        · obtain ⟨_, hpart, rfl⟩ := Option.map_eq_some_iff.1 hm
          obtain ⟨b, hb, rest, rfl, rfl⟩ := exists_of_integerLength? hpart
          refine ⟨a ++ '.' :: b, mem_pattern_float ha hb, ⟨rest, by simp⟩, ?_⟩
          rw [List.length_append, List.length_cons, Nat.add_assoc, Nat.add_comm 1]
        · cases hm
  · obtain ⟨w, hw, rest, rfl, rfl⟩ := exists_of_integerLength? hm
    exact ⟨w, hw, List.prefix_append w rest, rfl⟩
  · unfold stringLength? at hm
    split at hm
    · obtain ⟨_, hclosing, rfl⟩ := Option.map_eq_some_iff.1 hm
      obtain ⟨v, rest, hv, rfl, rfl⟩ := closing?_eq_some_iff.1 hclosing
      exact ⟨'"' :: v ++ ['"'], mem_pattern_string hv, ⟨rest, by simp⟩, by simp⟩
    · cases hm
  · exact ⟨word.toList, mem_pattern_of_spelling? hword, hbegins, rfl⟩

/-- A kind matches no less than any of its texts that a text begins with. -/
theorem exists_matchLength?_of_mem_lengths (h : n ∈ kind.lengths cs) :
    ∃ m, kind.matchLength? cs = some m ∧ n ≤ m := by
  obtain ⟨w, hw, hbegins, rfl⟩ := h
  rcases of_mem_pattern hw with
    ⟨rfl, c, r, rfl, hc, hr⟩ | ⟨rfl, a, ha, b, hb, rfl⟩ | ⟨rfl, hw⟩ | ⟨rfl, v, hv, rfl⟩ |
      ⟨word, hword, rfl⟩
  · obtain ⟨rest, rfl⟩ := hbegins
    refine ⟨_, if_pos hc, ?_⟩
    rw [List.length_cons, Nat.add_comm]
    exact Nat.add_le_add_left (length_le_takeWhile hr (List.prefix_append r rest)) 1
  · obtain ⟨rest, rfl⟩ := hbegins
    obtain ⟨hne, hall⟩ := mem_digits.1 ha
    -- the first run of digits ends at the point
    have hwhole : integerLength? (a ++ '.' :: (b ++ rest)) = some a.length := by
      have hrun : (a ++ '.' :: (b ++ rest)).takeWhile Char.isDigit = a := by
        rw [List.takeWhile_append_of_pos hall, List.takeWhile_cons_of_neg (by decide),
          List.append_nil]
      rw [integerLength?, leadingDigits, hrun, if_neg (mt List.length_eq_zero_iff.1 hne)]
    obtain ⟨m, hm, hle⟩ := integerLength?_of_mem_digits hb (List.prefix_append b rest)
    refine ⟨a.length + 1 + m, ?_, by simp; omega⟩
    rw [List.append_assoc, List.cons_append]
    simp [matchLength?, floatLength?, hwhole, hm]
  · exact integerLength?_of_mem_digits hw hbegins
  · obtain ⟨rest, rfl⟩ := hbegins
    have hclosing : Text.Quoted.closing? true (v ++ '"' :: rest) = some (v.length + 1) :=
      closing?_eq_some_iff.2 ⟨v, rest, hv, rfl, rfl⟩
    refine ⟨v.length + 2, ?_, by simp⟩
    simp [matchLength?, stringLength?, hclosing]
  · exact ⟨_, matchLength?_of_spelling? hword hbegins, Nat.le_refl _⟩

/-- What a kind matches is the longest of its texts that a text begins with. -/
theorem matchLength?_eq_some_iff :
    kind.matchLength? cs = some n ↔ IsGreatest (kind.lengths cs) n := by
  constructor
  · intro h
    refine ⟨mem_lengths_of_matchLength? h, fun m hm => ?_⟩
    obtain ⟨k, hk, hle⟩ := exists_matchLength?_of_mem_lengths hm
    rw [h] at hk
    cases hk
    exact hle
  · rintro ⟨hmem, hmost⟩
    obtain ⟨m, hm, hle⟩ := exists_matchLength?_of_mem_lengths hmem
    rw [hm, Nat.le_antisymm (hmost (mem_lengths_of_matchLength? hm)) hle]

theorem matchLength?_eq_none_iff : kind.matchLength? cs = none ↔ kind.lengths cs = ∅ := by
  rw [Set.eq_empty_iff_forall_notMem]
  constructor
  · intro h n hn
    obtain ⟨m, hm, -⟩ := exists_matchLength?_of_mem_lengths hn
    rw [h] at hm
    cases hm
  · intro h
    cases hm : kind.matchLength? cs with
    | none => rfl
    | some m => exact absurd (mem_lengths_of_matchLength? hm) (h m)

theorem ne_blank_of_isIdentifierRest {c : Char} (h : isIdentifierRest c = true) :
    Token.isBlank c = false := by
  rw [Bool.eq_false_iff]
  intro hblank
  simp only [Token.isBlank, Bool.or_eq_true, decide_eq_true_eq] at hblank
  rcases hblank with (((rfl | rfl) | rfl) | rfl) | rfl <;> cases h

theorem ne_blank_of_isDigit {c : Char} (h : c.isDigit = true) : Token.isBlank c = false :=
  ne_blank_of_isIdentifierRest (by simp [isIdentifierRest, Char.isAlphanum, h])

/-- A text of a pattern has no blanks, or it stands between quotes. -/
theorem solid_or_quoted (h : w ∈ kind.pattern) :
    (w ≠ [] ∧ ∀ c ∈ w, Token.isBlank c = false) ∨ ∃ v, w = '"' :: v ++ ['"'] := by
  rcases of_mem_pattern h with
    ⟨-, c, r, rfl, hc, hr⟩ | ⟨-, a, ha, b, hb, rfl⟩ | ⟨-, hw⟩ | ⟨-, v, -, rfl⟩ |
      ⟨word, hword, rfl⟩
  · have hstart := ne_blank_of_isIdentifierRest (isIdentifierRest_of_start hc)
    exact .inl ⟨List.cons_ne_nil c r,
      List.forall_mem_cons.2 ⟨hstart, fun x hx => ne_blank_of_isIdentifierRest (hr x hx)⟩⟩
  · refine .inl ⟨by simp, List.forall_mem_append.2 ⟨fun c hc => ?_, ?_⟩⟩
    · exact ne_blank_of_isDigit ((mem_digits.1 ha).2 c hc)
    · exact List.forall_mem_cons.2 ⟨rfl, fun c hc => ne_blank_of_isDigit ((mem_digits.1 hb).2 c hc)⟩
  · obtain ⟨hne, hall⟩ := mem_digits.1 hw
    exact .inl ⟨hne, fun c hc => ne_blank_of_isDigit (hall c hc)⟩
  · exact .inr ⟨v, rfl⟩
  · have hsolid : (!word.toList.isEmpty && word.toList.all fun c => !Token.isBlank c) = true := by
      cases kind <;> cases hword <;> rfl
    simpa using Or.inl hsolid

theorem exists_head_of_mem_pattern (h : w ∈ kind.pattern) :
    ∃ c r, w = c :: r ∧ Token.isBlank c = false := by
  rcases solid_or_quoted h with ⟨hne, hsolid⟩ | ⟨v, rfl⟩
  · obtain ⟨c, r, rfl⟩ := List.exists_cons_of_ne_nil hne
    exact ⟨c, r, rfl, hsolid c List.mem_cons_self⟩
  · exact ⟨'"', _, rfl, rfl⟩

theorem exists_last_of_mem_pattern (h : w ∈ kind.pattern) :
    ∃ r c, w = r ++ [c] ∧ Token.isBlank c = false := by
  rcases solid_or_quoted h with ⟨hne, hsolid⟩ | ⟨v, rfl⟩
  · exact ⟨w.dropLast, w.getLast hne, (List.dropLast_append_getLast hne).symm,
      hsolid _ (List.getLast_mem hne)⟩
  · exact ⟨'"' :: v, '"', rfl, rfl⟩

end TokenKind

end LazyLang
