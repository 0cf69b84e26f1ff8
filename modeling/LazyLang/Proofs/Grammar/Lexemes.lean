import LazyLang.Proofs.Grammar.Precedence
import LazyLang.Proofs.Quoting
import LazyLang.Token.Lexer
import Mathlib.Data.List.TakeWhile

/-!
# How a text is cut into lexemes

`Cut cs ls` says that the text `cs` consists of the lexemes `ls` with spaces between them, each of
which fits the text after it: no other kind takes more of the text there, and preparing the text
neither changes the lexeme nor finds a comment in it. Such a text is cut into tokens with these
lexemes (`Cut.tokenize`).

A lexeme is known by how it begins: punctuation fits every text that does not go on with it, and a
name, a word, a number or a literal fits a text that begins with a space or a mark that closes it.
-/

namespace LazyLang

namespace TokenKind

variable {cs : List Char} {kinds : List TokenKind} {kind : TokenKind} {n : Nat}

/-- The kind that wins is one of those that match, and matches more than those before it. -/
theorem of_longestAmong (h : longestAmong cs kinds = some (kind, n)) :
    kind ∈ kinds ∧ kind.matchLength? cs = some n ∧
      ∀ other ∈ kinds.takeWhile (· ≠ kind), ∀ m, other.matchLength? cs = some m → m < n := by
  induction kinds with
  | nil => cases h
  | cons first rest ih =>
      rw [longestAmong] at h
      -- a kind before the winner is the first of all or stands before it in the rest
      have hrest (hbest : longestAmong cs rest = some (kind, n))
          (hfirst : ∀ m, first.matchLength? cs = some m → m < n) :
          kind ∈ first :: rest ∧ kind.matchLength? cs = some n ∧
            ∀ other ∈ (first :: rest).takeWhile (· ≠ kind), ∀ m,
              other.matchLength? cs = some m → m < n := by
        obtain ⟨hmem, hmatch, hbefore⟩ := ih hbest
        refine ⟨List.mem_cons_of_mem _ hmem, hmatch, fun other hother m hm => ?_⟩
        rw [List.takeWhile_cons] at hother
        split at hother
        · rcases List.mem_cons.1 hother with rfl | hother
          · exact hfirst m hm
          · exact hbefore other hother m hm
        · cases hother
      split at h
      · next hnone => exact hrest h fun m hm => by rw [hnone] at hm; cases hm
      · next k hk _ =>
          cases h
          exact ⟨List.mem_cons_self, hk, by simp⟩
      · next k other m hk hbest =>
          split at h
          · cases h
            exact ⟨List.mem_cons_self, hk, by simp⟩
          · next hlt =>
              cases h
              refine hrest hbest fun m' hm' => ?_
              rw [hk] at hm'
              cases hm'
              exact Nat.lt_of_not_le hlt

/-- The kind wins that matches no less than any other and more than those before it. -/
theorem longestAmong_eq (hmem : kind ∈ kinds) (hmatch : kind.matchLength? cs = some n)
    (hmost : ∀ other ∈ kinds, ∀ m, other.matchLength? cs = some m → m ≤ n)
    (hbefore : ∀ other ∈ kinds.takeWhile (· ≠ kind), ∀ m,
      other.matchLength? cs = some m → m < n) : longestAmong cs kinds = some (kind, n) := by
  induction kinds with
  | nil => cases hmem
  | cons first rest ih =>
      rw [longestAmong]
      by_cases hfirst : first = kind
      · subst hfirst
        rw [hmatch]
        cases hbest : longestAmong cs rest with
        | none => rfl
        | some best =>
            obtain ⟨hother, hm, -⟩ := of_longestAmong hbest
            exact if_pos (hmost _ (List.mem_cons_of_mem _ hother) _ hm)
      · rw [List.takeWhile_cons_of_pos (by simpa using hfirst)] at hbefore
        have hrest := ih ((List.mem_cons.1 hmem).resolve_left (Ne.symm hfirst))
          (fun other hother => hmost other (List.mem_cons_of_mem _ hother))
          fun other hother => hbefore other (List.mem_cons_of_mem _ hother)
        rw [hrest]
        cases hm : first.matchLength? cs with
        | none => rfl
        | some m => exact if_neg (Nat.not_le.2 (hbefore first List.mem_cons_self m hm))

theorem mem_all (kind : TokenKind) : kind ∈ all := by
  cases kind <;> decide

/-- A text is matched as one of the four kinds of many texts, or begins with the one text of the
kind. -/
theorem of_matchLength? (h : kind.matchLength? cs = some n) :
    (kind = identifier ∧ identifierLength? cs = some n) ∨
      (kind = float ∧ floatLength? cs = some n) ∨ (kind = integer ∧ integerLength? cs = some n) ∨
        (kind = string ∧ stringLength? cs = some n) ∨
          ∃ word, kind.spelling? = some word ∧ word.toList <+: cs ∧ n = word.toList.length := by
  cases kind
  case identifier => exact .inl ⟨rfl, h⟩
  case float => exact .inr (.inl ⟨rfl, h⟩)
  case integer => exact .inr (.inr (.inl ⟨rfl, h⟩))
  case string => exact .inr (.inr (.inr (.inl ⟨rfl, h⟩)))
  all_goals
    refine .inr (.inr (.inr (.inr ⟨_, rfl, ?_⟩)))
    simp only [matchLength?, spelling?] at h
    split at h
    · next hbegins =>
        cases h
        exact ⟨List.isPrefixOf_iff_prefix.1 hbegins, String.length_toList.symm⟩
    · cases h

theorem matchLength?_of_spelling? {word : String} (h : kind.spelling? = some word)
    (hbegins : word.toList <+: cs) : kind.matchLength? cs = some word.toList.length := by
  rw [String.length_toList]
  cases kind <;> cases h <;> exact if_pos (List.isPrefixOf_iff_prefix.2 hbegins)

theorem head_of_begins {p c : Char} {word cs : List Char} (h : word <+: c :: cs)
    (hp : p ∈ word.head?) : p = c := by
  cases word with
  | nil => cases hp
  | cons q qs =>
      obtain ⟨rfl, -⟩ := List.cons_prefix_cons.1 h
      exact (Option.some.inj hp).symm

/-- The one text of a kind is a word, or punctuation. -/
theorem of_spelling? {word : String} (h : kind.spelling? = some word) :
    (∀ c ∈ word.toList, isIdentifierRest c = true) ∨
      ∃ c ∈ word.toList.head?, isIdentifierRest c = false := by
  have hword : (word.toList.all isIdentifierRest ||
      word.toList.head?.any (!isIdentifierRest ·)) = true := by
    cases kind <;> cases h <;> rfl
  rw [Bool.or_eq_true, List.all_eq_true, Option.any_eq_true] at hword
  exact hword.imp_right fun ⟨c, hc, hno⟩ => ⟨c, hc, by simpa using hno⟩

/-- The one text of a kind begins with no digit and no quote. -/
theorem head_of_spelling? {word : String} (h : kind.spelling? = some word) :
    ∃ c ∈ word.toList.head?, c.isDigit = false ∧ c ≠ '"' := by
  have hword : word.toList.head?.any (fun c => !c.isDigit && c ≠ '"') = true := by
    cases kind <;> cases h <;> rfl
  obtain ⟨c, hc, hno⟩ := (Option.any_eq_true _ _).1 hword
  exact ⟨c, hc, by simpa using hno⟩

end TokenKind

/-- The end of the text, or a character that ends every name and every number before it. -/
def Closes : List Char → Prop
  | [] => True
  | c :: _ => c ∈ [' ', ')', ']', '[', '(', ',', ':']

section Closes

variable {rest : List Char}

theorem Closes.not_isIdentifierRest {c : Char} (h : Closes (c :: rest)) :
    TokenKind.isIdentifierRest c = false := by
  simp only [Closes, List.mem_cons, List.not_mem_nil, or_false] at h
  rcases h with rfl | rfl | rfl | rfl | rfl | rfl | rfl <;> decide

theorem Closes.not_isDigit {c : Char} (h : Closes (c :: rest)) : c.isDigit = false := by
  have hno := h.not_isIdentifierRest
  simp only [TokenKind.isIdentifierRest, Char.isAlphanum, Bool.or_eq_false_iff] at hno
  exact hno.1.2

theorem Closes.takeWhile_rest (h : Closes rest) (w : List Char)
    (hw : ∀ c ∈ w, TokenKind.isIdentifierRest c = true) :
    (w ++ rest).takeWhile TokenKind.isIdentifierRest = w := by
  rw [List.takeWhile_append_of_pos hw]
  cases rest with
  | nil => exact List.append_nil w
  | cons c rest =>
      rw [List.takeWhile_cons_of_neg (by simp [h.not_isIdentifierRest]), List.append_nil]

end Closes

namespace TokenKind

theorem isIdentifierRest_of_start {c : Char} (h : isIdentifierStart c = true) :
    isIdentifierRest c = true := by
  simp only [isIdentifierStart, isIdentifierRest, Char.isAlphanum, Bool.or_eq_true] at h ⊢
  exact h.imp .inl id

theorem not_isDigit_of_start {c : Char} (h : isIdentifierStart c = true) : c.isDigit = false := by
  simp only [isIdentifierStart, Bool.or_eq_true, decide_eq_true_eq] at h
  rcases h with h | rfl
  · unfold Char.isAlpha Char.isUpper Char.isLower at h
    simp only [Bool.or_eq_true, Bool.and_eq_true, decide_eq_true_eq, UInt32.le_iff_toNat_le,
      ge_iff_le] at h
    simp only [Char.isDigit, Bool.and_eq_false_imp, decide_eq_true_eq, decide_eq_false_iff_not,
      UInt32.le_iff_toNat_le, ge_iff_le]
    change (65 ≤ c.toNat ∧ c.toNat ≤ 90) ∨ (97 ≤ c.toNat ∧ c.toNat ≤ 122) at h
    change 48 ≤ c.toNat → ¬c.toNat ≤ 57
    omega
  · rfl

theorem leadingDigits_cons {c : Char} (h : c.isDigit = false) (cs : List Char) :
    leadingDigits (c :: cs) = 0 := by
  simp [leadingDigits, h]

theorem integerLength?_cons {c : Char} (h : c.isDigit = false) (cs : List Char) :
    integerLength? (c :: cs) = none := by
  rw [integerLength?, leadingDigits_cons h, if_pos rfl]

theorem floatLength?_cons {c : Char} (h : c.isDigit = false) (cs : List Char) :
    floatLength? (c :: cs) = none := by
  rw [floatLength?, integerLength?_cons h]

theorem stringLength?_cons {c : Char} (h : c ≠ '"') (cs : List Char) :
    stringLength? (c :: cs) = none := by
  unfold stringLength?
  split
  · next heq => exact absurd (List.cons.inj heq).1 h
  · rfl

section Name

variable {c : Char} {w rest : List Char}

theorem identifierLength?_name (hc : isIdentifierStart c = true)
    (hw : ∀ x ∈ w, isIdentifierRest x = true) (hrest : Closes rest) :
    identifierLength? (c :: w ++ rest) = some (c :: w).length := by
  rw [List.cons_append, identifierLength?, if_pos hc, hrest.takeWhile_rest w hw, List.length_cons,
    Nat.add_comm]

/-- What is matched where a text begins with a name or a word is no longer than it, and a word that
is as long is that word. -/
theorem le_of_matchLength?_name (hc : isIdentifierStart c = true)
    (hw : ∀ x ∈ w, isIdentifierRest x = true) (hrest : Closes rest)
    (h : kind.matchLength? (c :: w ++ rest) = some n) :
    n ≤ (c :: w).length ∧ (n = (c :: w).length →
      kind = identifier ∨ kind.spelling? = some (String.ofList (c :: w))) := by
  rcases of_matchLength? h with
    ⟨rfl, hm⟩ | ⟨-, hm⟩ | ⟨-, hm⟩ | ⟨-, hm⟩ | ⟨word, hword, hbegins, rfl⟩
  · rw [identifierLength?_name hc hw hrest] at hm
    cases hm
    exact ⟨Nat.le_refl _, fun _ => .inl rfl⟩
  · rw [List.cons_append, floatLength?_cons (not_isDigit_of_start hc)] at hm
    cases hm
  · rw [List.cons_append, integerLength?_cons (not_isDigit_of_start hc)] at hm
    cases hm
  · rw [List.cons_append, stringLength?_cons (by rintro rfl; cases hc)] at hm
    cases hm
  · obtain ⟨more, hmore⟩ := hbegins
    rcases of_spelling? hword with hall | ⟨p, hp, hno⟩
    · have hcut : word.toList <+: c :: w := by
        refine ⟨more.takeWhile isIdentifierRest, ?_⟩
        rw [← List.takeWhile_append_of_pos hall, hmore]
        exact hrest.takeWhile_rest (c :: w)
          (List.forall_mem_cons.2 ⟨isIdentifierRest_of_start hc, hw⟩)
      refine ⟨hcut.length_le, fun hlen => .inr ?_⟩
      rw [hword, ← hcut.eq_of_length hlen, String.ofList_toList]
    · obtain rfl : p = c := head_of_begins ⟨more, hmore⟩ hp
      rw [isIdentifierRest_of_start hc] at hno
      cases hno

/-- A name or a word is the longest match at the beginning of a text, if no kind before it has that
very text. -/
theorem longest?_name (hc : isIdentifierStart c = true)
    (hw : ∀ x ∈ w, isIdentifierRest x = true) (hrest : Closes rest)
    (hkind : kind = identifier ∨ kind.spelling? = some (String.ofList (c :: w)))
    (hbefore : ∀ other ∈ all.takeWhile (· ≠ kind),
      other ≠ identifier ∧ other.spelling? ≠ some (String.ofList (c :: w))) :
    longest? (c :: w ++ rest) = some (kind, (c :: w).length) := by
  have hmatch : kind.matchLength? (c :: w ++ rest) = some (c :: w).length := by
    rcases hkind with rfl | hkind
    · exact identifierLength?_name hc hw hrest
    · have hbegins : (String.ofList (c :: w)).toList <+: c :: w ++ rest := by simp
      simpa using matchLength?_of_spelling? hkind hbegins
  refine longestAmong_eq (mem_all kind) hmatch
    (fun other _ m hm => (le_of_matchLength?_name hc hw hrest hm).1) fun other hother m hm => ?_
  obtain ⟨hle, heq⟩ := le_of_matchLength?_name hc hw hrest hm
  refine Nat.lt_of_le_of_ne hle fun hlen => ?_
  rcases heq hlen with rfl | hspelled
  · exact (hbefore _ hother).1 rfl
  · exact (hbefore _ hother).2 hspelled

end Name

/-- A kind wins where no other matches. -/
theorem longest?_of_only (hmatch : kind.matchLength? cs = some n)
    (honly : ∀ other m, other.matchLength? cs = some m → other = kind) :
    longest? cs = some (kind, n) := by
  refine longestAmong_eq (mem_all kind) hmatch (fun other _ m hm => ?_) fun other hother m hm => ?_
  · rw [honly other m hm, hmatch] at hm
    cases hm
    exact Nat.le_refl _
  · have hne := List.mem_takeWhile_imp hother
    simp [honly other m hm] at hne

section Digits

variable {w rest : List Char}

theorem leadingDigits_digits (hw : ∀ c ∈ w, c.isDigit = true) (hrest : Closes rest) :
    leadingDigits (w ++ rest) = w.length := by
  rw [leadingDigits, List.takeWhile_append_of_pos hw, List.length_append]
  cases rest with
  | nil => rfl
  | cons c rest =>
      rw [List.takeWhile_cons_of_neg (by simp [hrest.not_isDigit]), List.length_nil]
      rfl

theorem integerLength?_digits (hne : w ≠ []) (hw : ∀ c ∈ w, c.isDigit = true)
    (hrest : Closes rest) : integerLength? (w ++ rest) = some w.length := by
  rw [integerLength?, leadingDigits_digits hw hrest, if_neg (mt List.length_eq_zero_iff.1 hne)]

theorem floatLength?_digits (hne : w ≠ []) (hw : ∀ c ∈ w, c.isDigit = true)
    (hrest : Closes rest) : floatLength? (w ++ rest) = none := by
  rw [floatLength?, integerLength?_digits hne hw hrest]
  simp only [List.drop_left]
  split
  · exact absurd hrest (by simp [Closes])
  · rfl

/-- Digits that no name and no point follows are an integer. -/
theorem longest?_digits (hne : w ≠ []) (hw : ∀ c ∈ w, c.isDigit = true) (hrest : Closes rest) :
    longest? (w ++ rest) = some (integer, w.length) := by
  refine longest?_of_only (integerLength?_digits hne hw hrest) fun other m hm => ?_
  obtain ⟨c, cs, rfl⟩ := List.exists_cons_of_ne_nil hne
  have hc : c.isDigit = true := hw c List.mem_cons_self
  rcases of_matchLength? hm with ⟨-, hm⟩ | ⟨-, hm⟩ | ⟨rfl, -⟩ | ⟨-, hm⟩ | ⟨word, hword, hbegins, -⟩
  · have hstart : isIdentifierStart c ≠ true := fun hs => by
      rw [not_isDigit_of_start hs] at hc
      cases hc
    rw [List.cons_append, identifierLength?, if_neg hstart] at hm
    cases hm
  · rw [floatLength?_digits hne hw hrest] at hm
    cases hm
  · rfl
  · rw [List.cons_append, stringLength?_cons (by rintro rfl; cases hc)] at hm
    cases hm
  · obtain ⟨p, hp, hno, -⟩ := head_of_spelling? hword
    rw [head_of_begins hbegins hp, hc] at hno
    cases hno

end Digits

/-- Where a text begins with a literal nothing else matches. -/
theorem longest?_quote (h : stringLength? ('"' :: cs) = some n) :
    longest? ('"' :: cs) = some (string, n) := by
  refine longest?_of_only h fun other m hm => ?_
  rcases of_matchLength? hm with ⟨-, hm⟩ | ⟨-, hm⟩ | ⟨-, hm⟩ | ⟨rfl, -⟩ | ⟨word, hword, hbegins, -⟩
  · cases hm
  · rw [floatLength?_cons (by decide)] at hm
    cases hm
  · rw [integerLength?_cons (by decide)] at hm
    cases hm
  · rfl
  · obtain ⟨p, hp, -, hno⟩ := head_of_spelling? hword
    exact absurd (head_of_begins hbegins hp) hno

end TokenKind

/-- The lexeme is what a text begins with that goes on with `rest`, and preparing the text leaves it
alone. -/
structure Lexeme.Fits (l : Lexeme) (rest : List Char) : Prop where
  start : ∃ c cs, l.text.toList = c :: cs ∧ Token.isBlank c = false
  longest : TokenKind.longest? (l.text.toList ++ rest) = some (l.kind, l.text.toList.length)
  normal : Text.normalizeChars (l.text.toList ++ rest) = l.text.toList ++ Text.normalizeChars rest
  kept : Text.blankChars (l.text.toList ++ rest) = l.text.toList ++ Text.blankChars rest

/-- The text consists of the lexemes and of spaces. -/
inductive Cut : List Char → List Lexeme → Prop
  | nil : Cut [] []
  | space {cs : List Char} {ls : List Lexeme} (h : Cut cs ls) : Cut (' ' :: cs) ls
  | lexeme {l : Lexeme} {cs : List Char} {ls : List Lexeme} (hl : l.Fits cs) (h : Cut cs ls) :
      Cut (l.text.toList ++ cs) (l :: ls)

namespace Cut

variable {cs : List Char} {ls : List Lexeme}

theorem normal (h : Cut cs ls) : Text.normalizeChars cs = cs := by
  induction h with
  | nil => rfl
  | space _ ih => rw [Text.normalizeChars_cons (by decide), ih]
  | lexeme hl _ ih => rw [hl.normal, ih]

theorem kept (h : Cut cs ls) : Text.blankChars cs = cs := by
  induction h with
  | nil => rw [Text.blankChars]
  | space _ ih => rw [Text.blankChars_cons (by decide) (fun hno => absurd hno (by decide)), ih]
  | lexeme hl _ ih => rw [hl.kept, ih]

theorem scan (h : Cut cs ls) (place : Location) :
    ∃ ts, Token.scan place cs = .ok ts ∧ ts.map Token.lexeme = ls := by
  induction h generalizing place with
  | nil => exact ⟨[], by rw [Token.scan], rfl⟩
  | @space cs ls _ ih =>
      obtain ⟨ts, hts, hls⟩ := ih (Token.afterBlank ' ' place)
      exact ⟨ts, by rw [Token.scan, if_pos (by decide), hts], hls⟩
  | @lexeme l cs ls hl _ ih =>
      obtain ⟨c, word, hword, hblank⟩ := hl.start
      have hlong := hl.longest
      rw [hword, List.cons_append] at hlong ⊢
      have htext : String.ofList (c :: (word ++ cs).take word.length) = l.text := by
        rw [List.take_left, ← hword, String.ofList_toList]
      obtain ⟨ts, hts, hls⟩ := ih (Token.ofText l.kind l.text place).span.stop
      refine ⟨Token.ofText l.kind l.text place :: ts, ?_, by rw [List.map_cons, hls]; rfl⟩
      rw [Token.scan, if_neg (by simp [hblank]), hlong]
      simp only [htext, List.length_cons, Nat.add_sub_cancel, List.drop_left, hts]

/-- A text that consists of lexemes is cut into tokens with these lexemes. -/
theorem tokenize {source : String} (h : Cut source.toList ls) :
    ∃ ts, Token.tokenize source = .ok ts ∧ ts.map Token.lexeme = ls := by
  obtain ⟨ts, hts, hls⟩ := h.scan ⟨0, 0⟩
  exact ⟨ts, by simp only [Token.tokenize_eq, h.normal, h.kept, hts], hls⟩

end Cut

/-- Whether a character is no blank, begins no literal and can begin no comment. -/
def isSolid (c : Char) : Bool := !Token.isBlank c && c ≠ '"' && c ≠ '-'

theorem isSolid_iff {c : Char} :
    isSolid c = true ↔ Token.isBlank c = false ∧ c ≠ '"' ∧ c ≠ '-' := by
  simp [isSolid, and_assoc]

theorem ne_return_of_not_isBlank {c : Char} (h : Token.isBlank c = false) : c ≠ '\r' := by
  rintro rfl
  cases h

section Solid

variable {cs : List Char}

theorem normalizeChars_of_isSolid (h : ∀ c ∈ cs, isSolid c = true) (rest : List Char) :
    Text.normalizeChars (cs ++ rest) = cs ++ Text.normalizeChars rest := by
  induction cs with
  | nil => rfl
  | cons c cs ih =>
      obtain ⟨hc, hcs⟩ := List.forall_mem_cons.1 h
      have hreturn := ne_return_of_not_isBlank (isSolid_iff.1 hc).1
      rw [List.cons_append, Text.normalizeChars_cons hreturn, ih hcs]
      rfl

theorem blankChars_of_isSolid (h : ∀ c ∈ cs, isSolid c = true) (rest : List Char) :
    Text.blankChars (cs ++ rest) = cs ++ Text.blankChars rest := by
  induction cs with
  | nil => rfl
  | cons c cs ih =>
      obtain ⟨hc, hcs⟩ := List.forall_mem_cons.1 h
      obtain ⟨-, hquote, hminus⟩ := isSolid_iff.1 hc
      rw [List.cons_append, Text.blankChars_cons hquote (fun hno => absurd hno hminus), ih hcs]
      rfl

/-- The characters of names and of numbers are solid. -/
theorem isSolid_of_isIdentifierRest {c : Char} (h : TokenKind.isIdentifierRest c = true) :
    isSolid c = true := by
  refine isSolid_iff.2 ⟨?_, fun hno => ?_, fun hno => ?_⟩
  · simp only [Token.isBlank, Bool.or_eq_false_iff, decide_eq_false_iff_not]
    refine ⟨⟨⟨⟨?_, ?_⟩, ?_⟩, ?_⟩, ?_⟩ <;> (rintro rfl; cases h)
  all_goals
    subst hno
    cases h

theorem isSolid_of_isDigit {c : Char} (h : c.isDigit = true) : isSolid c = true :=
  isSolid_of_isIdentifierRest (by simp [TokenKind.isIdentifierRest, Char.isAlphanum, h])

end Solid

/-- A lexeme of solid characters is left alone by the preparation of the text. -/
theorem Lexeme.fits_of_isSolid {l : Lexeme} {rest : List Char} (hne : l.text.toList ≠ [])
    (hsolid : ∀ c ∈ l.text.toList, isSolid c = true)
    (hlongest : TokenKind.longest? (l.text.toList ++ rest) =
      some (l.kind, l.text.toList.length)) : l.Fits rest := by
  obtain ⟨c, cs, hcs⟩ := List.exists_cons_of_ne_nil hne
  exact ⟨⟨c, cs, hcs, (isSolid_iff.1 (hsolid c (by simp [hcs]))).1⟩, hlongest,
    normalizeChars_of_isSolid hsolid rest, blankChars_of_isSolid hsolid rest⟩

section Fits

variable {rest : List Char}

/-- Punctuation that no other punctuation begins like fits every text. -/
theorem fits_mark {kind : TokenKind}
    (h : kind ∈ [.openParen, .closeParen, .openBracket, .closeBracket, .comma, .colon])
    (rest : List Char) : kind.lexeme.Fits rest := by
  simp only [List.mem_cons, List.not_mem_nil, or_false] at h
  rcases h with rfl | rfl | rfl | rfl | rfl | rfl <;>
    exact Lexeme.fits_of_isSolid (by decide) (List.all_eq_true.1 (by decide)) rfl

/-- A minus sign fits a text that does not make it a comment. -/
theorem fits_minus (h : rest.head? ≠ some '-') : TokenKind.minus.lexeme.Fits rest := by
  refine ⟨⟨'-', [], rfl, rfl⟩, rfl, Text.normalizeChars_cons (by decide) rest, ?_⟩
  exact Text.blankChars_cons (by decide) fun _ => h

/-- A binary operator fits a text that begins with a space. -/
theorem fits_binary {kind : TokenKind} (h : kind.IsBinary) (rest : List Char) :
    kind.lexeme.Fits (' ' :: rest) := by
  by_cases hminus : kind = .minus
  · subst hminus
    exact fits_minus (fun h => absurd h (by simp))
  · obtain ⟨op, hop, -⟩ := h
    cases kind <;> cases hop <;> first
      | exact absurd rfl hminus
      | exact Lexeme.fits_of_isSolid (by decide) (List.all_eq_true.1 (by decide)) rfl

end Fits

/-- Names: what the lexer takes for an identifier. -/
structure IsName (text : String) : Prop where
  first : ∃ c cs, text.toList = c :: cs ∧ TokenKind.isIdentifierStart c = true ∧
    ∀ x ∈ cs, TokenKind.isIdentifierRest x = true
  ne : ∀ other ∈ TokenKind.all.takeWhile (· ≠ .identifier), other.spelling? ≠ some text

/-- A name fits a text that closes it. -/
theorem fits_name {text : String} (h : IsName text) {rest : List Char} (hrest : Closes rest) :
    Lexeme.Fits ⟨.identifier, text⟩ rest := by
  obtain ⟨c, cs, htext, hc, hcs⟩ := h.first
  have hof : String.ofList (c :: cs) = text := by rw [← htext, String.ofList_toList]
  refine Lexeme.fits_of_isSolid (by simp [htext]) ?_ ?_
  · rw [htext]
    have hall : ∀ x ∈ c :: cs, TokenKind.isIdentifierRest x = true :=
      List.forall_mem_cons.2 ⟨TokenKind.isIdentifierRest_of_start hc, hcs⟩
    exact fun x hx => isSolid_of_isIdentifierRest (hall x hx)
  · rw [htext]
    refine TokenKind.longest?_name hc hcs hrest (.inl rfl) fun other hother => ⟨?_, ?_⟩
    · simpa using List.mem_takeWhile_imp hother
    · rw [hof]
      exact h.ne other hother

/-- A word of the language fits a text that closes it. -/
theorem fits_word {kind : TokenKind}
    (h : kind ∈ [.trueWord, .falseWord, .noneWord, .underscore]) {rest : List Char}
    (hrest : Closes rest) : kind.lexeme.Fits rest := by
  simp only [List.mem_cons, List.not_mem_nil, or_false] at h
  rcases h with rfl | rfl | rfl | rfl <;>
    exact Lexeme.fits_of_isSolid (by decide) (List.all_eq_true.1 (by decide))
      (TokenKind.longest?_name (by decide) (List.all_eq_true.1 (by decide)) hrest (.inr rfl)
        (by decide))

theorem isDigit_of_mem_toString {n : Nat} {c : Char} (h : c ∈ (toString n).toList) :
    c.isDigit = true := by
  rw [Nat.toString_eq_ofList_toDigits, String.toList_ofList] at h
  exact Nat.isDigit_of_mem_toDigits (by decide) (by decide) h

/-- The digits of a number fit a text that closes them. -/
theorem fits_toString (n : Nat) {rest : List Char} (hrest : Closes rest) :
    Lexeme.Fits ⟨.integer, toString n⟩ rest := by
  have hne : (toString n).toList ≠ [] := by
    rw [Nat.toString_eq_ofList_toDigits, String.toList_ofList]
    exact Nat.toDigits_ne_nil
  exact Lexeme.fits_of_isSolid hne (fun c hc => isSolid_of_isDigit (isDigit_of_mem_toString hc))
    (TokenKind.longest?_digits hne (fun c => isDigit_of_mem_toString) hrest)

/-- The literal of a text fits every text. -/
theorem fits_encode (text : String) (rest : List Char) :
    Lexeme.Fits ⟨.string, Text.Quoted.encode text⟩ rest := by
  refine ⟨⟨'"', _, Text.Quoted.toList_encode text, rfl⟩, ?_,
    Text.Quoted.normalizeChars_encode text rest, Text.Quoted.blankChars_encode text rest⟩
  rw [Text.Quoted.toList_encode, List.append_assoc, List.cons_append, List.singleton_append]
  refine TokenKind.longest?_quote ?_
  rw [TokenKind.stringLength?, Text.Quoted.closing?_escaped]
  simp

theorem isName_of_longest? {c : Char} {cs : List Char} {n : Nat}
    (h : TokenKind.longest? (c :: cs) = some (.identifier, n)) :
    IsName (String.ofList (c :: cs.take (n - 1))) := by
  obtain ⟨-, hmatch, hbefore⟩ := TokenKind.of_longestAmong h
  have hlength : TokenKind.identifierLength? (c :: cs) = some n := hmatch
  rw [TokenKind.identifierLength?] at hlength
  split at hlength
  · next hc =>
      cases hlength
      have htake : cs.take (1 + (cs.takeWhile TokenKind.isIdentifierRest).length - 1) =
          cs.takeWhile TokenKind.isIdentifierRest := by
        rw [Nat.add_sub_cancel_left]
        exact (List.prefix_iff_eq_take.1 (List.takeWhile_prefix _)).symm
      rw [htake]
      refine ⟨⟨c, _, String.toList_ofList, hc, fun x hx => List.mem_takeWhile_imp hx⟩,
        fun other hother hspelled => ?_⟩
      have hbegins : (String.ofList (c :: cs.takeWhile TokenKind.isIdentifierRest)).toList <+:
          c :: cs := by
        rw [String.toList_ofList]
        exact (List.prefix_cons_inj c).2 (List.takeWhile_prefix _)
      have hlt := hbefore other hother _ (TokenKind.matchLength?_of_spelling? hspelled hbegins)
      rw [String.toList_ofList, List.length_cons] at hlt
      omega
  · cases hlength

theorem isName_of_scan {place : Location} {cs : List Char} {ts : List Token}
    (h : Token.scan place cs = .ok ts) {t : Token} (ht : t ∈ ts) (hkind : t.kind = .identifier) :
    IsName t.text := by
  induction place, cs using Token.scan.induct generalizing ts with
  | case1 =>
      rw [Token.scan] at h
      cases h
      cases ht
  | case2 place c rest hblank ih =>
      rw [Token.scan, if_pos hblank] at h
      exact ih h ht
  | case3 place c rest hblank hlongest =>
      rw [Token.scan, if_neg hblank, hlongest] at h
      cases h
  | case4 place c rest hblank kind n hlongest token remaining hrest =>
      rw [Token.scan, if_neg hblank, hlongest] at h
      simp only [token] at hrest
      simp only [hrest] at h
      cases h
  | case5 place c rest hblank kind n hlongest token tokens hrest =>
      rename_i ih
      rw [Token.scan, if_neg hblank, hlongest] at h
      simp only [token] at hrest
      simp only [hrest] at h
      cases h
      rcases List.mem_cons.1 ht with rfl | ht
      · obtain rfl : kind = .identifier := hkind
        exact isName_of_longest? hlongest
      · exact ih hrest ht

/-- The identifiers of a text are names. -/
theorem isName_of_tokenize {source : String} {ts : List Token}
    (h : Token.tokenize source = .ok ts) {t : Token} (ht : t ∈ ts) (hkind : t.kind = .identifier) :
    IsName t.text := by
  unfold Token.tokenize at h
  dsimp only at h
  split at h
  · next hscan =>
      cases h
      exact isName_of_scan hscan ht hkind
  · cases h

end LazyLang
