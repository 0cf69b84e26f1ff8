import LazyLang.Text.Layout

/-!
# Quoted text

A text is written as a literal on one line: `closing?` finds the quote at its end
(`closing?_escaped`), and the preparation of a source text passes over the literal
(`normalizeChars_encode`, `blankChars_encode`). `decode` reads a character that is written as it is,
or by a backslash and a letter; one that is written by its code point is read as several others. So
a text is read back if and only if none of its characters is written by its code point
(`decode_encode_eq_iff`).
-/

namespace LazyLang.Text

/-- The printable characters of ASCII, the line ends, the tab and the null character. -/
def isPlain (c : Char) : Bool :=
  (' ' ≤ c && c ≤ '~') || c = '\n' || c = '\t' || c = '\r' || c = '\x00'

theorem normalizeChars_cons {c : Char} (hc : c ≠ '\r') (cs : List Char) :
    normalizeChars (c :: cs) = c :: normalizeChars cs := by
  simp [normalizeChars, hc]

theorem blankChars_cons {c : Char} {cs : List Char} (hc : c ≠ '"')
    (hcomment : c = '-' → cs.head? ≠ some '-') : blankChars (c :: cs) = c :: blankChars cs := by
  have hno : ¬((decide (c = '-') && decide (cs.head? = some '-')) = true) := by
    simpa using hcomment
  rw [blankChars, if_neg hc, if_neg hno]

namespace Quoted

/-- Whether a character is written by its code point: it extends the one before it or has no printed
form, and no escape of its own. -/
def isCoded (c : Char) : Bool :=
  c ∉ ['\x00', '\t', '\r', '\n', '"', '\\'] &&
    (extendingMarks.holds c.toNat || unprintable.holds c.toNat)

/-- Neither a mark nor without a printed form. -/
theorem not_holds_of_printable {c : Char} (h : ' ' ≤ c ∧ c ≤ '~') :
    (extendingMarks.holds c.toNat || unprintable.holds c.toNat) = false := by
  have hc : 32 ≤ c.toNat ∧ c.toNat ≤ 126 := h
  have hmark : extendingMarks.holds c.toNat = false := Ranges.holds_cons_of_lt (by omega)
  have hprinted : unprintable.holds c.toNat = false := by
    rw [unprintable, Ranges.holds, if_neg (Nat.not_lt_zero _), Ranges.holds_cons_of_lt (by omega),
      Bool.or_false, decide_eq_false_iff_not]
    omega
  rw [hmark, hprinted]
  rfl

theorem isCoded_of_isPlain {c : Char} (h : isPlain c = true) : isCoded c = false := by
  simp only [isPlain, Bool.or_eq_true, Bool.and_eq_true, decide_eq_true_eq] at h
  rcases h with (((h | rfl) | rfl) | rfl) | rfl
  · rw [isCoded, not_holds_of_printable h, Bool.and_false]
  all_goals rfl

/-- What ends a literal or a line, or protects the next character. -/
def isSpecial (c : Char) : Bool := c ∈ ['"', '\\', '\n', '\r']

/-- A character stands for itself, or it is written by a letter after a backslash, or by its code
point. -/
theorem escape_cases (c : Char) :
    (isCoded c = false ∧ escape c = [c] ∧ isSpecial c = false) ∨
      (isCoded c = false ∧ ∃ x, escape c = ['\\', x] ∧ unescape x = c ∧ x ∉ ['\n', '\r']) ∨
        (isCoded c = true ∧ escape c = escapeCode c) := by
  by_cases hletter : c ∈ ['\x00', '\t', '\r', '\n', '"', '\\']
  · refine .inr (.inl ⟨by simp [isCoded, hletter], ?_⟩)
    simp only [List.mem_cons, List.not_mem_nil, or_false] at hletter
    rcases hletter with rfl | rfl | rfl | rfl | rfl | rfl
    · exact ⟨'0', rfl, rfl, by decide⟩
    · exact ⟨'t', rfl, rfl, by decide⟩
    · exact ⟨'r', rfl, rfl, by decide⟩
    · exact ⟨'n', rfl, rfl, by decide⟩
    · exact ⟨'"', rfl, rfl, by decide⟩
    · exact ⟨'\\', rfl, rfl, by decide⟩
  · have hescape : escape c = if extendingMarks.holds c.toNat || unprintable.holds c.toNat then
        escapeCode c else [c] := by
      unfold escape
      split
      case h_7 => rfl
      all_goals exact absurd (by simp) hletter
    cases hcoded : extendingMarks.holds c.toNat || unprintable.holds c.toNat with
    | true => exact .inr (.inr ⟨by simp [isCoded, hletter, hcoded], by rw [hescape, hcoded]; rfl⟩)
    | false =>
        refine .inl ⟨by simp [isCoded, hcoded], by rw [hescape, hcoded]; rfl, ?_⟩
        simp only [List.mem_cons, List.not_mem_nil, or_false, not_or] at hletter
        simp [isSpecial, hletter]

theorem exists_digitChar_of_mem_hex {n : Nat} {c : Char} (h : c ∈ Nat.toDigits 16 n) :
    ∃ d, d < 16 ∧ c = Nat.digitChar d := by
  induction n using Nat.strongRecOn with
  | ind n ih =>
    by_cases hn : n < 16
    · rw [Nat.toDigits_of_lt_base hn] at h
      exact ⟨n, hn, List.mem_singleton.1 h⟩
    · rw [Nat.toDigits_of_base_le (by decide) (Nat.le_of_not_lt hn)] at h
      rcases List.mem_append.1 h with h | h
      · exact ih (n / 16) (by omega) h
      · exact ⟨n % 16, Nat.mod_lt n (by decide), List.mem_singleton.1 h⟩

/-- What stands after the `u` of a character written by its code point. -/
theorem isSpecial_of_mem_code (n : Nat) :
    ∀ c ∈ '\x7b' :: (Nat.toDigits 16 n ++ ['\x7d']), isSpecial c = false := by
  refine List.forall_mem_cons.2 ⟨rfl, List.forall_mem_append.2 ⟨fun c hc => ?_,
    List.forall_mem_singleton.2 rfl⟩⟩
  obtain ⟨d, hd, rfl⟩ := exists_digitChar_of_mem_hex hc
  have hall : ∀ d < 16, isSpecial (Nat.digitChar d) = false := by decide
  exact hall d hd

theorem escapeCode_eq (c : Char) :
    escapeCode c = '\\' :: 'u' :: '\x7b' :: (Nat.toDigits 16 c.toNat ++ ['\x7d']) := rfl

/-- A character is written without any that is special, but for a backslash at the beginning and the
one it protects. -/
theorem escape_shape (c : Char) :
    (escape c = [c] ∧ isSpecial c = false) ∨
      ∃ x tail, escape c = '\\' :: x :: tail ∧ x ∉ ['\n', '\r'] ∧
        ∀ y ∈ tail, isSpecial y = false := by
  rcases escape_cases c with ⟨-, hescape, hspecial⟩ | ⟨-, x, hescape, -, hx⟩ | ⟨-, hescape⟩
  · exact .inl ⟨hescape, hspecial⟩
  · exact .inr ⟨x, [], hescape, hx, by simp⟩
  · rw [escapeCode_eq] at hescape
    exact .inr ⟨'u', _, hescape, by decide, isSpecial_of_mem_code c.toNat⟩

theorem isSpecial_eq_false_iff {c : Char} :
    isSpecial c = false ↔ c ≠ '"' ∧ c ≠ '\\' ∧ c ≠ '\n' ∧ c ≠ '\r' := by
  simp [isSpecial]

section Ordinary

variable {cs : List Char}

theorem closing?_cons {c : Char} (hc : isSpecial c = false) (multiline : Bool) (rest : List Char) :
    closing? multiline (c :: rest) = (closing? multiline rest).map (· + 1) := by
  rw [isSpecial_eq_false_iff] at hc
  simp [closing?, hc]

theorem closing?_append (h : ∀ c ∈ cs, isSpecial c = false) (multiline : Bool) (rest : List Char) :
    closing? multiline (cs ++ rest) = (closing? multiline rest).map (· + cs.length) := by
  induction cs with
  | nil => simp
  | cons c cs ih =>
      obtain ⟨hc, hcs⟩ := List.forall_mem_cons.1 h
      rw [List.cons_append, closing?_cons hc, ih hcs, Option.map_map, List.length_cons]
      rfl

theorem decodeChars_append (h : ∀ c ∈ cs, isSpecial c = false) (rest : List Char) :
    decodeChars (cs ++ rest) = cs ++ decodeChars rest := by
  induction cs with
  | nil => rfl
  | cons c cs ih =>
      obtain ⟨hc, hcs⟩ := List.forall_mem_cons.1 h
      rw [isSpecial_eq_false_iff] at hc
      rw [List.cons_append, decodeChars_cons hc.2.1, ih hcs]
      rfl

theorem normalizeChars_append (h : ∀ c ∈ cs, isSpecial c = false) (rest : List Char) :
    normalizeChars (cs ++ rest) = cs ++ normalizeChars rest := by
  induction cs with
  | nil => rfl
  | cons c cs ih =>
      obtain ⟨hc, hcs⟩ := List.forall_mem_cons.1 h
      rw [isSpecial_eq_false_iff] at hc
      rw [List.cons_append, normalizeChars_cons hc.2.2.2, ih hcs]
      rfl

end Ordinary

section Escaped

variable {cs : List Char}

/-- Every character that ends a literal or a line is escaped, so the literal ends at its quote. -/
theorem closing?_escaped (cs : List Char) (multiline : Bool) (rest : List Char) :
    closing? multiline (cs.flatMap escape ++ '"' :: rest) =
      some ((cs.flatMap escape).length + 1) := by
  induction cs with
  | nil => rfl
  | cons c cs ih =>
      rw [List.flatMap_cons, List.append_assoc]
      rcases escape_shape c with ⟨hescape, hc⟩ | ⟨x, tail, hescape, hx, htail⟩
      · rw [hescape, closing?_append (by simpa using hc), ih]
        simp
      · have hline : x ≠ '\n' := by simp_all
        rw [hescape, List.cons_append, List.cons_append, closing?, if_neg hline,
          closing?_append htail, ih]
        simp; omega

theorem normalizeChars_escaped (cs rest : List Char) :
    normalizeChars (cs.flatMap escape ++ rest) = cs.flatMap escape ++ normalizeChars rest := by
  induction cs with
  | nil => rfl
  | cons c cs ih =>
      rw [List.flatMap_cons, List.append_assoc, List.append_assoc]
      rcases escape_shape c with ⟨hescape, hc⟩ | ⟨x, tail, hescape, hx, htail⟩
      · rw [hescape, normalizeChars_append (by simpa using hc), ih]
      · have hreturn : x ≠ '\r' := by simp_all
        rw [hescape, List.cons_append, List.cons_append, normalizeChars_cons (by decide),
          normalizeChars_cons hreturn, normalizeChars_append htail, ih]
        simp

/-- A character is read back, or several are read for it. -/
theorem decodeChars_escape_append (c : Char) (rest : List Char) :
    (isCoded c = false ∧ decodeChars (escape c ++ rest) = c :: decodeChars rest) ∨
      (isCoded c = true ∧ ∃ read, 2 ≤ read.length ∧
        decodeChars (escape c ++ rest) = read ++ decodeChars rest) := by
  rcases escape_cases c with ⟨hcoded, hescape, hspecial⟩ | ⟨hcoded, x, hescape, hx, -⟩ |
    ⟨hcoded, hescape⟩
  · exact .inl ⟨hcoded, by rw [hescape, decodeChars_append (by simpa using hspecial)]; rfl⟩
  · exact .inl ⟨hcoded, by rw [hescape, List.cons_append, List.cons_append, decodeChars, hx]; rfl⟩
  · refine .inr ⟨hcoded, 'u' :: '\x7b' :: (Nat.toDigits 16 c.toNat ++ ['\x7d']), by simp, ?_⟩
    rw [hescape, escapeCode_eq, List.cons_append, List.cons_append, decodeChars,
      decodeChars_append (isSpecial_of_mem_code c.toNat)]
    rfl

theorem length_le_decodeChars_escaped (cs : List Char) :
    cs.length ≤ (decodeChars (cs.flatMap escape)).length := by
  induction cs with
  | nil => simp
  | cons c cs ih =>
      rw [List.flatMap_cons]
      rcases decodeChars_escape_append c (cs.flatMap escape) with ⟨-, h⟩ | ⟨-, read, hread, h⟩
      · rw [h]
        simpa using ih
      · rw [h, List.length_append, List.length_cons]
        omega

/-- The inside of a literal is read back if no character of it is written by its code point. -/
theorem decodeChars_escaped_eq_iff :
    decodeChars (cs.flatMap escape) = cs ↔ ∀ c ∈ cs, isCoded c = false := by
  induction cs with
  | nil => simp [decodeChars]
  | cons c cs ih =>
      rw [List.flatMap_cons, List.forall_mem_cons, ← ih]
      rcases decodeChars_escape_append c (cs.flatMap escape) with ⟨hc, h⟩ | ⟨hc, read, hread, h⟩
      · rw [h, List.cons_inj_right]
        exact ⟨fun heq => ⟨hc, heq⟩, And.right⟩
      · -- what is read is longer than the text
        have hlength := length_le_decodeChars_escaped cs
        constructor
        · intro heq
          have := congrArg List.length heq
          rw [h, List.length_append, List.length_cons] at this
          omega
        · intro hnot
          rw [hc] at hnot
          cases hnot.1

end Escaped

variable {text : String}

theorem toList_encode (text : String) :
    (encode text).toList = '"' :: text.toList.flatMap escape ++ ['"'] := by
  rw [encode, String.toList_ofList]

theorem normalizeChars_encode (text : String) (rest : List Char) :
    normalizeChars ((encode text).toList ++ rest) =
      (encode text).toList ++ normalizeChars rest := by
  rw [toList_encode, List.append_assoc, List.cons_append, normalizeChars_cons (by decide),
    normalizeChars_escaped, List.singleton_append, normalizeChars_cons (by decide)]
  simp

theorem blankChars_encode (text : String) (rest : List Char) :
    blankChars ((encode text).toList ++ rest) = (encode text).toList ++ blankChars rest := by
  rw [toList_encode, List.append_assoc, List.cons_append, List.singleton_append, blankChars,
    if_pos rfl, closing?_escaped]
  generalize text.toList.flatMap escape = body
  simp [List.take_append, List.drop_append, List.take_of_length_le, List.drop_of_length_le]

/-- The value of the literal that a text is written as is the text, if none of its characters is
written by its code point. -/
theorem decode_encode_eq_iff :
    decode (encode text) = text ↔ ∀ c ∈ text.toList, isCoded c = false := by
  have hinner : inner (encode text).toList = text.toList.flatMap escape := by
    rw [toList_encode, List.cons_append, inner, if_pos List.getLast?_concat, List.dropLast_concat]
  rw [decode, hinner, ← decodeChars_escaped_eq_iff, ← String.toList_inj, String.toList_ofList]

theorem decode_encode (h : ∀ c ∈ text.toList, isPlain c = true) : decode (encode text) = text :=
  decode_encode_eq_iff.2 fun c hc => isCoded_of_isPlain (h c hc)

end Quoted

end LazyLang.Text
