import LazyLang.Expr.Printer
import LazyLang.Proofs.Grammar.Exactness
import LazyLang.Proofs.Grammar.Lexemes

/-!
# What is printed is read back

The text of a tree has parentheses around every operator and its operands, so whatever its parts
are, it is read as a whole: at every precedence, and whatever follows it. `Prints text e` says this
of a text, and one lemma for each form of expression follows the printer. A tree that a text was
read as without a message is printed that way (`prints_render`), and so the printed text is read as
the same tree (`ofTokens_tokenize_render`).
-/

namespace LazyLang

namespace Expr

variable {α : Type}

mutual

/-- Whether there is no float in the tree and its texts are plain. -/
def writable : Expr α → Bool
  | float _ _ => false
  | string _ value => value.toList.all Text.isPlain
  | array _ elements => elementsWritable elements
  | call _ callee args => writable callee && argsWritable args
  | identifier _ _ | integer _ _ | boolean _ _ | none _ | unrecognized _ _ => true

/-- Whether all elements of an array are writable. -/
def elementsWritable : List (Expr α) → Bool
  | [] => true
  | e :: rest => writable e && elementsWritable rest

/-- Whether all arguments of a call are writable. -/
def argsWritable : List (Option (Expr α)) → Bool
  | [] => true
  | Option.none :: rest => argsWritable rest
  | some e :: rest => writable e && argsWritable rest

end

theorem elementsWritable_iff {elements : List (Expr α)} :
    elementsWritable elements = true ↔ ∀ e ∈ elements, e.writable = true := by
  induction elements with
  | nil => simp [elementsWritable]
  | cons e rest ih => simp [elementsWritable, ih]

theorem argsWritable_iff {args : List (Option (Expr α))} :
    argsWritable args = true ↔ ∀ e, some e ∈ args → e.writable = true := by
  induction args with
  | nil => simp [argsWritable]
  | cons arg rest ih => cases arg <;> simp [argsWritable, ih]

theorem writable_call {node : Node α} {callee : Expr α} {args : List (Option (Expr α))} :
    (call node callee args).writable = true ↔
      callee.writable = true ∧ ∀ e, some e ∈ args → e.writable = true := by
  rw [writable, Bool.and_eq_true, argsWritable_iff]

end Expr

/-- The text is cut into the lexemes, and no matter how the text after it is cut, as long as that
closes it. -/
def Cuts (cs : List Char) (ls : List Lexeme) : Prop :=
  ∀ rest more, Closes rest → Cut rest more → Cut (cs ++ rest) (ls ++ more)

section Cuts

variable {cs ds : List Char} {ls ms : List Lexeme} {kind : TokenKind}

theorem Cuts.nil : Cuts [] [] := fun _ _ _ h => h

theorem Cuts.lexeme {l : Lexeme} (h : ∀ rest, Closes rest → l.Fits rest) : Cuts l.text.toList [l] :=
  fun rest _ hrest hcut => .lexeme (h rest hrest) hcut

/-- A mark that fits every text, with one character. -/
theorem Cut.mark (kind : TokenKind) (c : Char)
    (hkind : kind ∈ [.openParen, .closeParen, .openBracket, .closeBracket, .comma, .colon])
    (hc : kind.lexeme.text.toList = [c]) (h : Cut cs ls) : Cut (c :: cs) (kind.lexeme :: ls) := by
  have hcut := Cut.lexeme (fits_mark hkind cs) h
  rwa [hc] at hcut

theorem closes_cons {c : Char} (hc : c ∈ [' ', ')', ']', '[', '(', ',', ':']) (cs : List Char) :
    Closes (c :: cs) := hc

theorem Cuts.joined {texts : List (List Char)} {pieces : List (List Lexeme)}
    (h : texts.Forall₂ Cuts pieces) :
    Cuts ([',', ' '].intercalate texts) (Lexeme.joined .comma pieces) := by
  induction h with
  | nil => exact .nil
  | @cons cs ls texts pieces hcs htexts ih =>
      cases htexts with
      | nil => simpa [Lexeme.joined] using hcs
      | cons hds htexts =>
          intro rest more hrest hcut
          have hnext := Cut.mark .comma ',' (by decide) rfl (.space (ih rest more hrest hcut))
          have hall := hcs _ _ (closes_cons (by decide) _) hnext
          rw [Lexeme.joined, List.intercalate_cons_cons, List.intercalate_cons_cons]
          simpa [Lexeme.joined] using hall

end Cuts

/-- What stands at some place of the first of two lists has a partner in the other. -/
theorem exists_zip_of_mem_left {α β : Type*} {as : List α} {bs : List β} {a : α}
    (hn : as.length ≤ bs.length) (ha : a ∈ as) : ∃ b, (a, b) ∈ as.zip bs := by
  rw [← List.map_fst_zip hn] at ha
  obtain ⟨⟨a', b⟩, hmem, rfl⟩ := List.mem_map.1 ha
  exact ⟨b, hmem⟩

/-- The tokens of the pieces are among those of the list. -/
theorem Joined.subset {separator : TokenKind} {pieces : List (List Token)}
    {body ts : List Token} (h : Joined separator pieces body) (hts : ts ∈ pieces) : ts ⊆ body :=
  (h.isInfix hts).subset

namespace Tree

open LazyLang.Expr

/-- The text writes the tree, whatever stands around it. It does not begin with a minus sign, which
would make a comment with another one before it. -/
def Prints (text : String) (e : Tree) : Prop :=
  text.toList.head? ≠ some '-' ∧
    ∃ ls, Cuts text.toList ls ∧ ∀ floor edge, Writes floor edge e ls

theorem prints_lexeme {e : Tree} {l : Lexeme} (hstart : l.text.toList.head? ≠ some '-')
    (hfits : ∀ rest, Closes rest → l.Fits rest) (h : ∀ t : Token, t.lexeme = l → SpellsToken e t) :
    Prints l.text e :=
  ⟨hstart, [l], .lexeme hfits, fun _ _ => .token h⟩

theorem head?_append_ne {α : Type} {cs ds : List α} {c : α} (hcs : cs.head? ≠ some c)
    (hds : ds.head? ≠ some c) : (cs ++ ds).head? ≠ some c := by
  cases cs with
  | nil => exact hds
  | cons _ _ => exact hcs

/-- A negation in parentheses. -/
theorem prints_negation {text : String} {e : Tree} (h : Prints text e) (node callee : Node Unit) :
    Prints ("(-" ++ text ++ ")") (.call node (.identifier callee "neg") [some e]) := by
  obtain ⟨hstart, ls, hcuts, hwrites⟩ := h
  have htext : ("(-" ++ text ++ ")").toList = '(' :: '-' :: (text.toList ++ [')']) := by
    simp [String.toList_append]
  refine ⟨by simp [htext], TokenKind.openParen.lexeme ::
    (TokenKind.minus.lexeme :: ls) ++ [TokenKind.closeParen.lexeme], ?_, fun floor edge =>
      .grouped (.negation node callee (Nat.zero_le _) (hwrites _ _))⟩
  intro rest more hrest hcut
  have hclose := Cut.mark .closeParen ')' (by decide) rfl hcut
  have hinner := hcuts _ _ (closes_cons (by decide) _) hclose
  have hminus : Cut ('-' :: (text.toList ++ ')' :: rest)) _ :=
    .lexeme (fits_minus (head?_append_ne hstart (by simp))) hinner
  have hall := Cut.mark .openParen '(' (by decide) rfl hminus
  simpa [htext] using hall

/-- A binary operator in parentheses, with spaces around it. -/
theorem prints_binary {left right symbol : String} {l r : Tree} {kind : TokenKind}
    (hl : Prints left l) (hr : Prints right r) (hkind : kind.IsBinary)
    (hsymbol : kind.spelling? = some symbol) (node callee : Node Unit) :
    Prints ("(" ++ left ++ " " ++ symbol ++ " " ++ right ++ ")")
      (.call node (.identifier callee symbol) [some l, some r]) := by
  obtain ⟨-, ls, hlcuts, hlwrites⟩ := hl
  obtain ⟨-, rs, hrcuts, hrwrites⟩ := hr
  obtain ⟨op, hop, hform⟩ := id hkind
  obtain rfl : op.symbol = symbol :=
    Option.some.inj ((spelling?_of_binary hop hform).symm.trans hsymbol)
  have hword : kind.lexeme.text = op.symbol := by simp [TokenKind.lexeme, hsymbol]
  have htext : ("(" ++ left ++ " " ++ op.symbol ++ " " ++ right ++ ")").toList =
      '(' :: (left.toList ++ ' ' :: (op.symbol.toList ++ ' ' :: (right.toList ++ [')']))) := by
    simp [String.toList_append]
  have hwrites : Writes 0 0 (.call node (.identifier callee op.symbol) [some l, some r])
      (ls ++ kind.lexeme :: rs) :=
    .binary node callee hop hform (hlwrites 0 14)
      (Operator.not_bindsOver_of_lt (Nat.lt_succ_of_le (precedence_le hop hform)))
      (bindsOver_zero hop) (hrwrites _ _) (Nat.zero_le _)
  refine ⟨by simp [htext], _, ?_, fun floor edge => .grouped hwrites⟩
  intro rest more hrest hcut
  have hclose := Cut.mark .closeParen ')' (by decide) rfl hcut
  have hright := Cut.space (hrcuts _ _ (closes_cons (by decide) _) hclose)
  have hop := Cut.lexeme (fits_binary hkind _) hright
  have hleft := hlcuts _ _ (closes_cons (by decide) _) (Cut.space hop)
  have hall := Cut.mark .openParen '(' (by decide) rfl hleft
  simpa [htext, hword] using hall

theorem exists_pieces_elements {es : List Tree} (h : ∀ e ∈ es, Prints (render e) e) :
    ∃ pieces, ((renderElements es).map String.toList).Forall₂ Cuts pieces ∧
      es.Forall₂ (Writes 0 0) pieces := by
  induction es with
  | nil => exact ⟨[], .nil, .nil⟩
  | cons e rest ih =>
      obtain ⟨⟨-, ls, hcuts, hwrites⟩, hrest⟩ := List.forall_mem_cons.1 h
      obtain ⟨pieces, htexts, hes⟩ := ih hrest
      exact ⟨ls :: pieces, .cons hcuts htexts, .cons (hwrites 0 0) hes⟩

/-- An array with the texts of its elements in brackets. -/
theorem prints_array {es : List Tree} (h : ∀ e ∈ es, Prints (render e) e) (node : Node Unit) :
    Prints (render (.array node es)) (.array node es) := by
  obtain ⟨pieces, htexts, hes⟩ := exists_pieces_elements h
  have htext : (render (.array node es)).toList =
      '[' :: ([',', ' '].intercalate ((renderElements es).map String.toList) ++ [']']) := by
    simp [render, String.toList_append, String.toList_intercalate]
  refine ⟨by simp [htext], _, ?_, fun floor edge => .array_of_forall₂ node hes⟩
  intro rest more hrest hcut
  have hclose := Cut.mark .closeBracket ']' (by decide) rfl hcut
  have hall := Cut.mark .openBracket '[' (by decide) rfl
    (Cuts.joined htexts _ _ (closes_cons (by decide) _) hclose)
  simpa [htext] using hall

theorem exists_pieces_arguments {args : List (Option Tree)}
    (h : ∀ e, some e ∈ args → Prints (render e) e) :
    ∃ pieces, ((renderArgs args).map fun x => x.text.toList).Forall₂ Cuts pieces ∧
      args.Forall₂ WritesArgument pieces := by
  induction args with
  | nil => exact ⟨[], .nil, .nil⟩
  | cons arg rest ih =>
      obtain ⟨pieces, htexts, hargs⟩ := ih fun e he => h e (List.mem_cons_of_mem _ he)
      cases arg with
      | none =>
          have hword : Cuts TokenKind.underscore.lexeme.text.toList _ :=
            .lexeme fun rest hrest => fits_word (by decide) hrest
          exact ⟨[TokenKind.underscore.lexeme] :: pieces, .cons hword htexts, .cons rfl hargs⟩
      | some e =>
          obtain ⟨-, ls, hcuts, hwrites⟩ := h e List.mem_cons_self
          refine ⟨ls :: pieces, .cons ?_ htexts, .cons (hwrites 0 0) hargs⟩
          cases e <;> exact hcuts

/-- A call with the texts of the arguments in parentheses. -/
theorem prints_plainCallText {callee : String} {f : Tree} {args : List (Option Tree)}
    (hf : Prints callee f) (hargs : ∀ e, some e ∈ args → Prints (render e) e) (node : Node Unit) :
    Prints (plainCallText callee (renderArgs args)) (.call node f args) := by
  obtain ⟨hstart, ls, hcuts, hwrites⟩ := hf
  obtain ⟨pieces, htexts, hargs⟩ := exists_pieces_arguments hargs
  have htext : (plainCallText callee (renderArgs args)).toList = callee.toList ++
      '(' :: ([',', ' '].intercalate ((renderArgs args).map fun x => x.text.toList) ++ [')']) := by
    simp [plainCallText, String.toList_append, String.toList_intercalate, Function.comp_def]
  refine ⟨htext ▸ head?_append_ne hstart (by simp), _, ?_, fun floor edge =>
    .call_of_forall₂ node (hwrites floor 99) rfl hargs⟩
  intro rest more hrest hcut
  have hclose := Cut.mark .closeParen ')' (by decide) rfl hcut
  have hopen := Cut.mark .openParen '(' (by decide) rfl
    (Cuts.joined htexts _ _ (closes_cons (by decide) _) hclose)
  have hall := hcuts _ _ (closes_cons (by decide) _) hopen
  simpa [htext] using hall

/-- An element of what the text is of. -/
theorem prints_index {text index : String} {e i : Tree} (he : Prints text e) (hi : Prints index i)
    (node callee : Node Unit) : Prints (text ++ "[" ++ index ++ "]")
      (.call node (.identifier callee "[]") [some e, some i]) := by
  obtain ⟨hstart, ls, hcuts, hwrites⟩ := he
  obtain ⟨-, is, hicuts, hiwrites⟩ := hi
  have htext : (text ++ "[" ++ index ++ "]").toList =
      text.toList ++ '[' :: (index.toList ++ [']']) := by simp [String.toList_append]
  refine ⟨htext ▸ head?_append_ne hstart (by simp), _, ?_, fun floor edge =>
    .index node callee (hwrites floor 14) rfl (hiwrites 0 0)⟩
  intro rest more hrest hcut
  have hclose := Cut.mark .closeBracket ']' (by decide) rfl hcut
  have hopen := Cut.mark .openBracket '[' (by decide) rfl
    (hicuts _ _ (closes_cons (by decide) _) hclose)
  have hall := hcuts _ _ (closes_cons (by decide) _) hopen
  simpa [htext] using hall

/-- A bound of a slice in writing: nothing for the literal `none`. -/
theorem exists_lexemes_bound {e : Tree} (h : (∃ n, e = .none n) ∨ Prints (render e) e) :
    ∃ ls, Cuts (ArgText.ofText e (render e)).bound.toList ls ∧
      (ls = [] → ∃ n, e = .none n) ∧ (ls ≠ [] → Writes 0 0 e ls) := by
  rcases h with ⟨n, rfl⟩ | ⟨-, ls, hcuts, hwrites⟩
  · exact ⟨[], .nil, fun _ => ⟨n, rfl⟩, fun h => absurd rfl h⟩
  · cases e with
    | none n => exact ⟨[], .nil, fun _ => ⟨n, rfl⟩, fun h => absurd rfl h⟩
    | _ => exact ⟨ls, hcuts, fun h => absurd h (hwrites 0 0).ne_nil, fun _ => hwrites 0 0⟩

/-- A slice of what the text is of, with two colons. -/
theorem prints_slice {text : String} {e a b d : Tree} (he : Prints text e)
    (h : ∀ i ∈ [a, b, d], (∃ n, i = .none n) ∨ Prints (render i) i) (node callee : Node Unit) :
    Prints (text ++ "[" ++ (ArgText.ofText a (render a)).bound ++ ":" ++
        (ArgText.ofText b (render b)).bound ++ ":" ++ (ArgText.ofText d (render d)).bound ++ "]")
      (.call node (.identifier callee "[:]") [some e, some a, some b, some d]) := by
  obtain ⟨hstart, ls, hcuts, hwrites⟩ := he
  obtain ⟨as, hacuts, hanil, hawrites⟩ := exists_lexemes_bound (h a (by simp))
  obtain ⟨bs, hbcuts, hbnil, hbwrites⟩ := exists_lexemes_bound (h b (by simp))
  obtain ⟨ds, hdcuts, hdnil, hdwrites⟩ := exists_lexemes_bound (h d (by simp))
  generalize (ArgText.ofText a (render a)).bound = first at *
  generalize (ArgText.ofText b (render b)).bound = second at *
  generalize (ArgText.ofText d (render d)).bound = third at *
  have htext : (text ++ "[" ++ first ++ ":" ++ second ++ ":" ++ third ++ "]").toList =
      text.toList ++ '[' :: (first.toList ++ ':' :: (second.toList ++ ':' ::
        (third.toList ++ [']']))) := by simp [String.toList_append]
  have hpieces : Lexeme.joined .colon [as, bs, ds] =
      as ++ TokenKind.colon.lexeme :: (bs ++ TokenKind.colon.lexeme :: ds) := by
    simp [Lexeme.joined, List.intercalate_cons_cons]
  refine ⟨htext ▸ head?_append_ne hstart (by simp), ls ++ (TokenKind.openBracket.lexeme ::
    Lexeme.joined .colon [as, bs, ds] ++ [TokenKind.closeBracket.lexeme]), ?_, fun floor edge =>
      .slice node callee (hwrites floor 14) rfl rfl ?_ ?_⟩
  · intro rest more hrest hcut
    have hclose := Cut.mark .closeBracket ']' (by decide) rfl hcut
    have hthird := Cut.mark .colon ':' (by decide) rfl
      (hdcuts _ _ (closes_cons (by decide) _) hclose)
    have hsecond := Cut.mark .colon ':' (by decide) rfl
      (hbcuts _ _ (closes_cons (by decide) _) hthird)
    have hopen := Cut.mark .openBracket '[' (by decide) rfl
      (hacuts _ _ (closes_cons (by decide) _) hsecond)
    have hall := hcuts _ _ (closes_cons (by decide) _) hopen
    simpa [htext, hpieces] using hall
  · intro i hi
    simp only [List.zip_cons_cons, List.zip_nil_right, List.mem_cons, Prod.mk.injEq,
      List.not_mem_nil, or_false] at hi
    rcases hi with ⟨rfl, hi⟩ | ⟨rfl, hi⟩ | ⟨rfl, hi⟩
    exacts [hanil hi.symm, hbnil hi.symm, hdnil hi.symm]
  · intro i us hi hus
    simp only [List.zip_cons_cons, List.zip_nil_right, List.mem_cons, Prod.mk.injEq,
      List.not_mem_nil, or_false] at hi
    rcases hi with ⟨rfl, rfl⟩ | ⟨rfl, rfl⟩ | ⟨rfl, rfl⟩
    exacts [hawrites hus, hbwrites hus, hdwrites hus]

/-- The names among the tokens are names as they can be written. -/
def Named (ts : List Token) : Prop := ∀ t ∈ ts, t.kind = .identifier → IsName t.text

theorem Named.mono {ts us : List Token} (h : Named ts) (hsub : us ⊆ ts) : Named us :=
  fun t ht => h t (hsub ht)

theorem Named.right {us vs : List Token} (h : Named (us ++ vs)) : Named vs :=
  h.mono (List.subset_append_right us vs)

theorem Named.enclosed {body : List Token} {o c : Token} (h : Named (o :: body ++ [c])) :
    Named body :=
  fun t ht => h t (by simp [ht])

theorem Spells.isName {node : Node Unit} {name : String} {ts : List Token}
    (h : Spells (.identifier node name) ts) (hts : Named ts) : IsName name := by
  generalize he : Expr.identifier node name = e at h
  induction h with
  | token h =>
      cases h <;> cases he
      next hkind => exact hts _ List.mem_cons_self hkind
  | grouped _ _ _ ih => exact ih (hts.mono (by simp)) he
  | _ => cases he

theorem prints_token {e : Tree} {t : Token} (h : SpellsToken e t)
    (hname : t.kind = .identifier → IsName t.text) (hw : e.writable = true) :
    Prints (render e) e := by
  cases h with
  | identifier node ht =>
      have hfits := hname ht
      obtain ⟨c, cs, htext, hc, -⟩ := hfits.first
      refine prints_lexeme (l := ⟨.identifier, t.text⟩) ?_ (fun rest => fits_name hfits)
        fun u hu => ?_
      · rw [htext]
        rintro ⟨⟩
        cases hc
      · obtain ⟨hkind, htext⟩ := Lexeme.mk.inj hu
        exact htext ▸ .identifier node hkind
  | @integer _ value node ht hv =>
      have htext : render (.integer node value : Tree) =
          toString (numberOfDigits t.text.toList) := by
        rw [render, hv]
        rfl
      rw [htext]
      refine prints_lexeme (l := ⟨.integer, toString (numberOfDigits t.text.toList)⟩) ?_
        (fun rest => fits_toString _) fun u hu => ?_
      · exact fun hminus => absurd (isDigit_of_mem_toString (List.mem_of_head? hminus)) (by decide)
      · obtain ⟨hkind, htext⟩ := Lexeme.mk.inj hu
        refine .integer node hkind ?_
        rw [htext, numberOfDigits_toString, hv]
  | float _ ht => cases hw
  | string node ht =>
      have hplain := List.all_eq_true.1 hw
      refine prints_lexeme (l := ⟨.string, Text.Quoted.encode (Text.Quoted.decode t.text)⟩) ?_
        (fun rest _ => fits_encode _ rest) fun u hu => ?_
      · simp [Text.Quoted.toList_encode]
      · obtain ⟨hkind, htext⟩ := Lexeme.mk.inj hu
        have hspells := SpellsToken.string node hkind
        rwa [htext, Text.Quoted.decode_encode hplain] at hspells
  | trueWord node ht =>
      exact prints_lexeme (l := TokenKind.trueWord.lexeme) (by decide)
        (fun rest => fits_word (by decide)) fun u hu => .trueWord node (congrArg Lexeme.kind hu)
  | falseWord node ht =>
      exact prints_lexeme (l := TokenKind.falseWord.lexeme) (by decide)
        (fun rest => fits_word (by decide)) fun u hu => .falseWord node (congrArg Lexeme.kind hu)
  | noneWord node ht =>
      exact prints_lexeme (l := TokenKind.noneWord.lexeme) (by decide)
        (fun rest => fits_word (by decide)) fun u hu => .noneWord node (congrArg Lexeme.kind hu)

@[simp] theorem given_ofText (e : Tree) (text : String) : (ArgText.ofText e text).given = true := by
  cases e <;> rfl

@[simp] theorem text_ofText (e : Tree) (text : String) : (ArgText.ofText e text).text = text := by
  cases e <;> rfl

theorem mem_binarySymbols {kind : TokenKind} {symbol : String} (h : kind.IsBinary)
    (hs : kind.spelling? = some symbol) : symbol ∈ binarySymbols := by
  obtain ⟨op, hop, hform⟩ := h
  cases kind <;> cases hop <;> cases hs <;> first | decide | cases hform

/-- The functions behind operators have no names. -/
theorem not_isName {symbol : String} (h : symbol ∈ "[]" :: "[:]" :: binarySymbols) :
    ¬IsName symbol := by
  intro hname
  have hsymbol : ∀ s ∈ "[]" :: "[:]" :: binarySymbols,
      s = "in" ∨ s.toList.head?.any TokenKind.isIdentifierStart = false := by decide
  rcases hsymbol symbol h with rfl | hno
  · exact hname.ne .inWord (by decide) rfl
  · obtain ⟨c, cs, htext, hc, -⟩ := hname.first
    rw [htext, List.head?_cons, Option.any_some, hc] at hno
    cases hno

/-- A call by name is in the form of a call, unless it is a negation. -/
theorem callText_of_isName {symbol : String} (h : IsName symbol) (callee : String)
    (args : List ArgText) :
    callText (some symbol) callee args = plainCallText callee args ∨
      symbol = "neg" ∧ ∃ x, args = [x] ∧ x.given = true := by
  have hbinary : symbol ∉ binarySymbols := fun hmem => not_isName (by simp [hmem]) h
  have hindex : symbol ≠ "[]" := fun heq => not_isName (by simp [heq]) h
  have hslice : symbol ≠ "[:]" := fun heq => not_isName (by simp [heq]) h
  unfold callText
  split
  · next x heq =>
      obtain rfl := Option.some.inj heq
      by_cases hneg : symbol = "neg" ∧ x.given = true
      · exact .inr ⟨hneg.1, x, rfl, hneg.2⟩
      · exact .inl (if_neg (by simpa using hneg))
  · next heq =>
      obtain rfl := Option.some.inj heq
      simp [hbinary, hindex]
  · next heq =>
      obtain rfl := Option.some.inj heq
      simp [hslice]
  · exact .inl rfl

theorem exists_of_name? {e : Tree} {name : String} (h : e.name? = some name) :
    ∃ node, e = .identifier node name := by
  cases e with
  | identifier node name' => exact ⟨node, by rw [Option.some.inj h]⟩
  | _ => cases h

theorem exists_of_renderArgs {args : List (Option Tree)} {x : ArgText} (h : renderArgs args = [x])
    (hgiven : x.given = true) : ∃ e, args = [some e] := by
  rcases args with _ | ⟨_ | e, _ | ⟨_ | _, rest⟩⟩
  case cons.some.nil => exact ⟨e, rfl⟩
  case cons.none.nil =>
    cases h
    cases hgiven
  all_goals cases h

/-- A tree that was read from names as they can be written is printed so that it is read again. -/
theorem prints_render {e : Tree} {ts : List Token} (h : Spells e ts) (hts : Named ts)
    (hw : e.writable = true) : Prints (render e) e := by
  induction h with
  | token h => exact prints_token h (hts _ List.mem_cons_self) hw
  | grouped _ _ _ ih => exact ih (hts.mono (by simp)) hw
  | @negation e m ts node callee hm h ih =>
      have hinner := ih (hts.mono (by simp)) ((writable_call.1 hw).2 e (by simp))
      have htext : render (.call node (.identifier callee "neg") [some e]) =
          "(-" ++ render e ++ ")" := by
        cases e <;> rfl
      exact htext ▸ prints_negation hinner node callee
  | @binary l r t ls rs symbol node callee ht hs _ _ ihl ihr =>
      have hleft := ihl (hts.mono (by simp)) ((writable_call.1 hw).2 l (by simp))
      have hright := ihr (hts.mono (by simp)) ((writable_call.1 hw).2 r (by simp))
      have htext : render (.call node (.identifier callee symbol) [some l, some r]) =
          "(" ++ render l ++ " " ++ symbol ++ " " ++ render r ++ ")" := by
        have hmem := mem_binarySymbols ht hs
        simp [render, name?, renderArgs, callText, hmem]
      exact htext ▸ prints_binary hleft hright ht hs node callee
  | @array o c es pieces body node _ _ hb hn _ ih =>
      refine prints_array (fun e he => ?_) node
      obtain ⟨ts, hmem⟩ := exists_zip_of_mem_left (Nat.le_of_eq hn) he
      exact ih e ts hmem (hts.enclosed.mono (hb.subset (List.of_mem_zip hmem).2))
        (elementsWritable_iff.1 hw e he)
  | @call f o c fs args pieces body node _ _ hf hb hn hp _ ihf ih =>
      have hcallee := ihf (hts.mono (by simp)) (writable_call.1 hw).1
      have hargs : ∀ e, some e ∈ args → Prints (render e) e := fun e he => by
        obtain ⟨ts, hmem⟩ := exists_zip_of_mem_left (Nat.le_of_eq hn) he
        exact ih e ts hmem (hts.right.enclosed.mono (hb.subset (List.of_mem_zip hmem).2))
          ((writable_call.1 hw).2 e he)
      rw [render]
      cases hname : f.name? with
      | none => exact prints_plainCallText hcallee hargs node
      | some symbol =>
          obtain ⟨callee, rfl⟩ := exists_of_name? hname
          have hsymbol := hf.isName (hts.mono (by simp))
          rcases callText_of_isName hsymbol (render (.identifier callee symbol)) (renderArgs args)
            with htext | ⟨rfl, x, hx, hgiven⟩
          · exact htext ▸ prints_plainCallText hcallee hargs node
          · obtain ⟨e, rfl⟩ := exists_of_renderArgs hx hgiven
            have hinner := prints_negation (hargs e List.mem_cons_self) node callee
            simpa [renderArgs, callText] using hinner
  | @index e i o c ts is node callee _ _ _ _ ihe ihi =>
      have htarget := ihe (hts.mono (by simp)) ((writable_call.1 hw).2 e (by simp))
      have hindex := ihi hts.right.enclosed ((writable_call.1 hw).2 i (by simp))
      have htext : render (.call node (.identifier callee "[]") [some e, some i]) =
          render e ++ "[" ++ render i ++ "]" := by
        simp [render, name?, renderArgs, callText, binarySymbols]
      exact htext ▸ prints_index htarget hindex node callee
  | @slice e a b d o c ts pieces body node callee _ _ _ hb hn hp _ ihe ih =>
      have htarget := ihe (hts.mono (by simp)) ((writable_call.1 hw).2 e (by simp))
      have hbound : ∀ i us, (i, us) ∈ [a, b, d].zip pieces →
          (∃ n, i = .none n) ∨ Prints (render i) i := fun i us hmem => by
        by_cases hus : us = []
        · exact .inl (hp i (hus ▸ hmem))
        · obtain ⟨hmember, hpiece⟩ := List.of_mem_zip hmem
          exact .inr (ih i us hmem hus (hts.right.enclosed.mono (hb.subset hpiece))
            ((writable_call.1 hw).2 i (by simp_all)))
      have hbounds : ∀ i ∈ [a, b, d], (∃ n, i = .none n) ∨ Prints (render i) i := fun i hi => by
        rcases hn with hn | ⟨hn, hd⟩
        · have hle : [a, b, d].length ≤ pieces.length := Nat.le_of_eq hn.symm
          obtain ⟨us, hmem⟩ := exists_zip_of_mem_left hle hi
          exact hbound i us hmem
        · obtain ⟨u, v, rfl⟩ := List.length_eq_two.1 hn
          simp only [List.mem_cons, List.not_mem_nil, or_false] at hi
          rcases hi with rfl | rfl | rfl
          exacts [hbound _ u (by simp), hbound _ v (by simp), .inl hd]
      have htext : render (.call node (.identifier callee "[:]")
          [some e, some a, some b, some d]) = render e ++ "[" ++
            (ArgText.ofText a (render a)).bound ++ ":" ++
              (ArgText.ofText b (render b)).bound ++ ":" ++
                (ArgText.ofText d (render d)).bound ++ "]" := by
        simp [render, name?, renderArgs, callText]
      exact htext ▸ prints_slice htarget hbounds node callee

/-- What is printed of a tree without floats, and with plain texts only, is read as the same tree
again, if the tree was itself read from a text without a message. -/
theorem ofTokens_tokenize_render {source : String} {tokens : List Token}
    (htokens : Token.tokenize source = .ok tokens) (hm : (ofTokens tokens).allMessages = [])
    (hw : (ofTokens tokens).writable = true) :
    ∃ again, Token.tokenize (ofTokens tokens).render = .ok again ∧
      (ofTokens again).bare = (ofTokens tokens).bare ∧ (ofTokens again).allMessages = [] := by
  obtain ⟨-, ls, hcuts, hwrites⟩ := prints_render (spells_ofTokens hm)
    (fun t ht => isName_of_tokenize htokens ht) hw
  have hcut := hcuts [] [] trivial .nil
  rw [List.append_nil, List.append_nil] at hcut
  obtain ⟨again, hagain, hlexemes⟩ := hcut.tokenize
  obtain ⟨hbare, hsilent⟩ := ofTokens_of_writes (hlexemes ▸ hwrites 0 0)
  exact ⟨again, hagain, hbare, hsilent⟩

section Sample

/-- A text with a negation, an index, a slice without a bound, a placeholder and a literal that
holds the mark of a comment. -/
def sampleSource : String := "-f(_, \"a--b\")[1:] + xs[2]"

theorem sampleSource_read : (match Token.tokenize sampleSource with
    | .ok tokens => (ofTokens tokens).allMessages.isEmpty && (ofTokens tokens).writable
    | .error _ => false) = true := by
  rw [Token.tokenize_eq]
  decide +kernel

theorem ofTokens_tokenize_render_sample :
    ∃ tokens, Token.tokenize sampleSource = .ok tokens ∧ (ofTokens tokens).allMessages = [] ∧
      (ofTokens tokens).writable = true ∧
        ∃ again, Token.tokenize (ofTokens tokens).render = .ok again ∧
          (ofTokens again).bare = (ofTokens tokens).bare ∧
            (ofTokens again).allMessages = [] := by
  have hread := sampleSource_read
  split at hread
  · next tokens htokens =>
      rw [Bool.and_eq_true, List.isEmpty_iff] at hread
      exact ⟨tokens, htokens, hread.1, hread.2,
        ofTokens_tokenize_render htokens hread.1 hread.2⟩
  · cases hread

end Sample

end Tree

end LazyLang
