import LazyLang.Expr.Printer
import LazyLang.Proofs.Decimal.Bits
import LazyLang.Proofs.Decimal.Text
import LazyLang.Proofs.Grammar.Precedence
import LazyLang.Proofs.Tokens.Tiling

/-!
# Literals in writing

A float or a text is written as a literal. The literal is one token that is read as the same value
if the float is written without an exponent, or the text without code points (`Tree.IsFaithful`).
That is the only case (`Tree.readsBack_iff`), since the lexer knows no exponents and no name of an
infinite number, and the parser knows no code points.
-/

namespace LazyLang

open Decimal (Denotes)

namespace TokenKind

variable {w : List Char} {r : ℚ}

/-- A float consists of digits and a point. -/
theorem of_mem_float (h : w ∈ float.pattern) : ∀ c ∈ w, c.isDigit = true ∨ c = '.' := by
  rcases of_mem_pattern h with ⟨hno, -⟩ | ⟨-, a, ha, b, hb, rfl⟩ | ⟨hno, -⟩ | ⟨hno, -⟩ | ⟨_, hno, -⟩
  · cases hno
  · refine List.forall_mem_append.2 ⟨fun c hc => .inl ((mem_digits.1 ha).2 c hc), ?_⟩
    exact List.forall_mem_cons.2 ⟨.inr rfl, fun c hc => .inl ((mem_digits.1 hb).2 c hc)⟩
  all_goals cases hno

/-- A text that denotes a decimal is one float. -/
theorem foremost_of_denotes (h : Denotes w r) : Foremost float w [] := by
  obtain ⟨a, ha, b, hb, rfl, -⟩ := h
  obtain ⟨hne, hdigits⟩ := mem_digits.1 ha
  obtain ⟨c, cs, rfl⟩ := List.exists_cons_of_ne_nil hne
  have hc : c.isDigit = true := hdigits c List.mem_cons_self
  refine ⟨mem_pattern_float ha hb, fun other v _ hbegins => ?_, fun other hother hmem => ?_⟩
  · rw [List.append_nil] at hbegins
    exact hbegins.length_le
  · rcases of_mem_pattern hmem with
      ⟨-, d, ds, heq, hd, -⟩ | ⟨rfl, -⟩ | ⟨-, hall⟩ | ⟨-, v, -, heq⟩ | ⟨word, hword, heq⟩
    · obtain ⟨rfl, -⟩ := List.cons.inj heq
      rw [not_isDigit_of_start hd] at hc
      cases hc
    · simpa using List.mem_takeWhile_imp hother
    · have hpoint := (mem_digits.1 hall).2 '.' (by simp)
      cases hpoint
    · obtain ⟨rfl, -⟩ := List.cons.inj heq
      cases hc
    · obtain ⟨d, hd, hno, -⟩ := head_of_spelling? hword
      rw [← heq] at hd
      cases hd
      rw [hno] at hc
      cases hc

end TokenKind

/-- A text that denotes a decimal fits the end of the text. -/
theorem fits_of_denotes {text : String} {r : ℚ} (h : Denotes text.toList r) :
    Lexeme.Fits ⟨.float, text⟩ [] := by
  have hforemost := TokenKind.foremost_of_denotes h
  obtain ⟨c, cs, hcs, -⟩ := TokenKind.exists_head_of_mem_pattern hforemost.matched
  refine Lexeme.fits_of_isSolid (by simp [hcs]) (fun c hc => ?_) hforemost.longest?_eq
  rcases TokenKind.of_mem_float hforemost.matched c hc with hdigit | rfl
  · exact isSolid_of_isDigit hdigit
  · rfl

/-- A text that is a single float has no characters but blanks, digits and points. -/
theorem Token.Tiles.of_float {place : Location} {cs : List Char} {t : Token}
    (h : Tiles place cs [t]) (hkind : t.kind = .float) :
    ∀ c ∈ cs, isBlank c = true ∨ c.isDigit = true ∨ c = '.' := by
  cases h with
  | @token _ _ _ kind _ _ hblanks hforemost hrest =>
      obtain rfl : kind = .float := hkind
      cases hrest with
      | blanks hrest =>
          refine List.forall_mem_append.2 ⟨List.forall_mem_append.2 ⟨?_, ?_⟩, ?_⟩
          · exact fun c hc => .inl (hblanks c hc)
          · exact fun c hc => .inr (TokenKind.of_mem_float hforemost.matched c hc)
          · exact fun c hc => .inl (hrest c hc)

/-- A text is no single float if it has another character than digits and points before anything
that preparing the text changes. -/
theorem kind_ne_float {source : String} {before after : List Char} {c : Char} {t : Token}
    (hsource : source.toList = before ++ c :: after) (hbefore : ∀ x ∈ before, isSolid x = true)
    (hc : isSolid c = true) (hother : ¬(c.isDigit = true ∨ c = '.'))
    (h : Token.tokenize source = .ok [t]) : t.kind ≠ .float := by
  have hsolid : ∀ x ∈ before ++ [c], isSolid x = true :=
    List.forall_mem_append.2 ⟨hbefore, by simpa using hc⟩
  have hmem : c ∈ (Text.prepare source).toList := by
    have hsplit : source.toList = (before ++ [c]) ++ after := by simp [hsource]
    rw [Text.toList_prepare, hsplit, normalizeChars_of_isSolid hsolid,
      blankChars_of_isSolid hsolid]
    simp
  intro hkind
  rcases (Token.tokenize_eq_ok_iff_tiles.1 h).of_float hkind c hmem with hblank | hplain
  · rw [(isSolid_iff.1 hc).1] at hblank
    cases hblank
  · exact hother hplain

namespace Tree

open LazyLang.Expr

/-- What is written of the tree is one token of the kind, and it is read as the tree, without a
message. -/
def ReadsBack (kind : TokenKind) (e : Tree) : Prop :=
  ∃ t, Token.tokenize (render e) = .ok [t] ∧ t.kind = kind ∧
    bare (ofTokens [t]) = bare e ∧ (ofTokens [t]).allMessages = []

/-- Whether writing keeps the value: a float is written without an exponent, and a text without code
points. -/
def IsFaithful : Tree → Prop
  | .float _ x => ∃ m e, Decimal.Binary.ofFloat x = .finite false m e ∧ Decimal.IsPositional m e
  | .string _ text => ∀ c ∈ text.toList, Text.Quoted.isCoded c = false
  | _ => True

/-- A lexeme that fits the end of the text is one token, read as the tree that it spells. -/
theorem exists_token_of_fits {l : Lexeme} {e : Tree} (hfits : l.Fits [])
    (hspells : ∀ t : Token, t.lexeme = l → SpellsToken e t) :
    ∃ t, Token.tokenize l.text = .ok [t] ∧ t.kind = l.kind ∧ Shows (ofTokens [t]) e := by
  have hcut : Cut l.text.toList [l] := by simpa using Cut.lexeme hfits .nil
  obtain ⟨ts, hts, hls⟩ := hcut.tokenize
  obtain ⟨t, rest, rfl, rfl, hrest⟩ := List.map_eq_cons_iff.1 hls
  rw [List.map_eq_nil_iff.1 hrest] at hts
  exact ⟨t, hts, rfl, ofTokens_of_writes (.token hspells)⟩

/-- A text is read back if and only if none of its characters is written by its code point. -/
theorem readsBack_string_iff {node : Node Unit} {text : String} :
    ReadsBack .string (.string node text) ↔ ∀ c ∈ text.toList, Text.Quoted.isCoded c = false := by
  have hspells : ∀ t : Token, t.lexeme = ⟨.string, Text.Quoted.encode text⟩ →
      SpellsToken (.string node (Text.Quoted.decode (Text.Quoted.encode text))) t := by
    intro t ht
    obtain ⟨hkind, htext⟩ := Lexeme.mk.inj ht
    exact htext ▸ .string node hkind
  obtain ⟨t, ht, hkind, hshows⟩ := exists_token_of_fits (fits_encode text []) hspells
  rw [← Text.Quoted.decode_encode_eq_iff]
  constructor
  · rintro ⟨u, hu, -, hbare, -⟩
    cases ht.symm.trans hu
    rw [hshows.1] at hbare
    simpa [bare] using hbare
  · intro heq
    rw [heq] at hshows
    exact ⟨t, ht, hkind, hshows.1, hshows.2⟩

section Float

variable {node : Node Unit} {x : Float}

/-- A float is read back from a decimal if every quotient that equals the decimal is read as it. -/
theorem readsBack_of_denotes {r : ℚ} (h : Denotes (Decimal.text .literal x).toList r)
    (hread : ∀ num den : ℕ, 0 < den → (num : ℚ) / den = r → Decimal.nearest false num den = x) :
    ReadsBack .float (.float node x) := by
  have hvalue := hread _ _ (Nat.pow_pos (by decide)) h.numberOfDigits_div
  have hspells : ∀ t : Token, t.lexeme = ⟨.float, Decimal.text .literal x⟩ →
      SpellsToken (.float node x) t := by
    intro t ht
    obtain ⟨hkind, htext⟩ := Lexeme.mk.inj ht
    have hspells := SpellsToken.float node hkind
    rw [htext] at hspells
    exact hvalue ▸ hspells
  obtain ⟨t, ht, hkind, hshows⟩ := exists_token_of_fits (fits_of_denotes h) hspells
  exact ⟨t, ht, hkind, hshows.1, hshows.2⟩

/-- A float is not read back from a text in which a letter follows digits and points. -/
theorem not_readsBack_float {before after : List Char} {c : Char}
    (h : (Decimal.text .literal x).toList = before ++ c :: after)
    (hbefore : ∀ y ∈ before, y.isDigit = true ∨ y = '.') (hc : c ∈ ['e', 'i']) :
    ¬ReadsBack .float (.float node x) := by
  rintro ⟨t, ht, hkind, -⟩
  have hsolid : ∀ y ∈ before, isSolid y = true := by
    intro y hy
    rcases hbefore y hy with hdigit | rfl
    · exact isSolid_of_isDigit hdigit
    · rfl
  simp only [List.mem_cons, List.not_mem_nil, or_false] at hc
  rcases hc with rfl | rfl
  · exact kind_ne_float h hsolid rfl (by decide) ht hkind
  · exact kind_ne_float h hsolid rfl (by decide) ht hkind

/-- The float that a decimal is read as is read back if and only if it is written without an
exponent. -/
theorem readsBack_float_iff (num places : ℕ) :
    ReadsBack .float (.float node (Decimal.ofDigits num places)) ↔
      ∃ m e, Decimal.Binary.ofFloat (Decimal.ofDigits num places) = .finite false m e ∧
        Decimal.IsPositional m e := by
  unfold Decimal.ofDigits
  generalize Nat.pow 10 places = den
  rcases Decimal.ofFloat_nearest_cases num den with
    hinfinite | ⟨m, e, hcanonical, hlt, hread, hparts⟩
  · have htext : (Decimal.text .literal (Decimal.nearest false num den)).toList =
        [] ++ 'i' :: ['n', 'f'] := by
      rw [Decimal.text_of_infinite hinfinite]
      rfl
    refine iff_of_false (not_readsBack_float htext (by simp) (by decide)) ?_
    rintro ⟨m, e, hparts, -⟩
    rw [hinfinite] at hparts
    cases hparts
  · have htext := Decimal.text_of_finite hparts .literal
    constructor
    · intro hback
      refine ⟨m, e, hparts, by_contra fun hnot => ?_⟩
      obtain ⟨before, after, hsplit, hbefore⟩ :=
        Decimal.exists_exponent_unsignedText hcanonical hnot
      exact not_readsBack_float (htext ▸ hsplit) hbefore (by decide) hback
    · rintro ⟨m', e', hparts', hpositional⟩
      cases hparts.symm.trans hparts'
      obtain ⟨r, hdenotes, hround⟩ :=
        Decimal.exists_denotes_unsignedText hcanonical hpositional
      refine readsBack_of_denotes (htext ▸ hdenotes) fun num' den' hden heq => ?_
      exact Decimal.nearest_eq_of_roundsTo hcanonical hlt hread hden (heq ▸ hround)

end Float

/-- The literals of floats and texts are read back just as far as writing keeps the value. -/
theorem readsBack_iff {t : Token} {e : Tree} (hkind : t.kind = .float ∨ t.kind = .string)
    (h : ofToken? t = some e) : ReadsBack t.kind e ↔ e.IsFaithful := by
  rcases hkind with hkind | hkind
  · simp only [ofToken?, hkind] at h
    cases h
    rw [hkind]
    exact readsBack_float_iff _ _
  · simp only [ofToken?, hkind] at h
    cases h
    rw [hkind]
    exact readsBack_string_iff

section Sample

/-- The token of `0.1`. -/
def tenthToken : Token := .ofText .float "0.1" ⟨0, 0⟩

theorem ofFloat_tenth : Decimal.Binary.ofFloat (Decimal.ofDigits 1 1) =
    .finite false 7205759403792794 (-56) := by
  decide +kernel

theorem readsBack_iff_tenth :
    tenthToken.kind = .float ∧ ofToken? tenthToken = some (ofFloat tenthToken) ∧
      ReadsBack .float (ofFloat tenthToken) := by
  have hpositional : Decimal.IsPositional 7205759403792794 (-56) := by
    right
    norm_num [Decimal.magnitudeOf]
  exact ⟨rfl, rfl, (readsBack_iff (t := tenthToken) (.inl rfl) rfl).2
    ⟨_, _, ofFloat_tenth, hpositional⟩⟩

/-- The token of the least whole float that is written with an exponent. -/
def largeToken : Token := .ofText .float "10000000000000000.0" ⟨0, 0⟩

/-- It is written `1e16`, which is an integer and a name. -/
theorem not_readsBack_large :
    Token.tokenize "10000000000000000.0" = .ok [largeToken] ∧
      (ofTokens [largeToken]).allMessages = [] ∧
        ofToken? largeToken = some (ofFloat largeToken) ∧
          ¬ReadsBack largeToken.kind (ofFloat largeToken) := by
  have htokens : Token.tokenize "10000000000000000.0" = .ok [largeToken] := by decide +kernel
  have hsilent : (ofTokens [largeToken]).allMessages = [] := List.isEmpty_iff.1 (by decide +kernel)
  have htext : (render (ofFloat largeToken)).toList = ['1'] ++ 'e' :: ['1', '6'] := by
    decide +kernel
  have hdigit : ∀ y ∈ ['1'], y.isDigit = true ∨ y = '.' := List.forall_mem_singleton.2 (.inl rfl)
  exact ⟨htokens, hsilent, rfl, not_readsBack_float htext hdigit (by decide)⟩

end Sample

end Tree

end LazyLang
