import LazyLang.Expr.Parser

/-!
# What the rules consume

A rule that succeeds has read the tokens from the front of the list up to its rest, and the last of
them is the token that it reports as the last one read. This holds of malformed text just as well,
and so does whatever every rule keeps: if `P` holds of all that the rules build from parts for which
it holds (`Tree.ClosedUnderRecovery`), then it holds of each tree that is read, with the tokens it
is read from (`Tree.consumes_expression`).
-/

namespace LazyLang

variable {P : Tree → List Token → Prop}

/-- The expression is read from the front of `s`. -/
def Taken.Consumes (P : Tree → List Token → Prop) {s : List Token} (r : Taken s) : Prop :=
  ∃ ts, s = ts ++ r.rest ∧ ts.getLast? = some r.last ∧ P r.tree ts

/-- The list goes on, after the token `before`, with the tokens `us`, and its items are read from
among them. -/
structure Listed.Covers (P : Tree → List Token → Prop) (before : Token) (us : List Token)
    {s : List Token} (list : Listed s) : Prop where
  last : (before :: us).getLast? = some list.last
  items : ∀ e, some e ∈ list.items → ∃ ts, ts <:+: us ∧ P e ts

/-- The list is read from the front of `s`, after the token `before`. -/
def Listed.Consumes (P : Tree → List Token → Prop) (before : Token) {s : List Token}
    (list : Listed s) : Prop :=
  ∃ us, s = us ++ list.rest ∧ list.Covers P before us

/-- `left`, up to the token `before`, goes on with operators that are read from the front of `s`. -/
def Extended.Consumes (P : Tree → List Token → Prop) (left : Tree) (before : Token)
    {s : List Token} (r : Extended s) : Prop :=
  ∃ us, s = us ++ r.rest ∧ (before :: us).getLast? = some r.last ∧
    ∀ ts, P left ts → P r.tree (ts ++ us)

/-- Reading goes on after the last token read. -/
theorem getLast?_append_eq {ts : List Token} {last : Token} (h : ts.getLast? = some last)
    (us : List Token) : (ts ++ us).getLast? = (last :: us).getLast? := by
  obtain ⟨front, rfl⟩ := List.getLast?_eq_some_iff.1 h
  rw [List.append_assoc, List.singleton_append, List.getLast?_append, List.getLast?_cons,
    Option.some_or]

/-- Two stretches read one after the other are one stretch. -/
theorem eq_append_trans {s ts us v w : List Token} (hs : s = ts ++ v) (hv : v = us ++ w) :
    s = ts ++ us ++ w := by
  rw [hs, hv, List.append_assoc]

namespace Listed

variable {before t : Token} {s rest : List Token}

theorem consumes_unclosed (form : ListForm) (opening last : Token) (s : List Token) :
    (unclosed form opening last s).Consumes P last :=
  ⟨[], rfl, rfl, nofun⟩

theorem consumes_closed (form : ListForm) (p : ListProgress) (before t : Token)
    (rest : List Token) : (closed form p t rest).Consumes P before := by
  refine ⟨[t], rfl, rfl, fun e he => ?_⟩
  simp only [closed] at he
  split at he <;> simp at he

theorem Consumes.afterSeparator {r : Listed rest} (h : r.Consumes P t) (form : ListForm)
    (p : ListProgress) (before : Token) : (afterSeparator form p t r).Consumes P before := by
  obtain ⟨us, hs, hlast, hitems⟩ := h
  refine ⟨t :: us, congrArg (t :: ·) hs, by rw [List.getLast?_cons_cons]; exact hlast,
    fun e he => ?_⟩
  have hmem : some e ∈ r.items := by
    simp only [Listed.afterSeparator] at he
    split at he
    · simpa using he
    · exact he
  obtain ⟨ts, hts, hP⟩ := hitems e hmem
  exact ⟨ts, hts.trans (List.suffix_cons t us).isInfix, hP⟩

/-- An item is a placeholder, or an expression that is read from the tokens `ts`. -/
theorem Consumes.afterItem {ts : List Token} {last : Token} {item : Option Tree}
    (hs : s = ts ++ rest) (hlast : ts.getLast? = some last) (hitem : ∀ e ∈ item, P e ts)
    {r : Listed rest} (h : r.Consumes P last) (p : ListProgress) (before : Token)
    (hle : rest.length ≤ s.length) : (afterItem p t item hle r).Consumes P before := by
  obtain ⟨us, hrest, hend, hitems⟩ := h
  refine ⟨ts ++ us, eq_append_trans hs hrest, ?_, fun e he => ?_⟩
  · have hcons : (before :: ts).getLast? = some last := by rw [List.getLast?_cons, hlast]; rfl
    rw [← List.cons_append, getLast?_append_eq hcons us]
    exact hend
  · rcases List.mem_cons.1 he with heq | he
    · exact ⟨ts, (List.prefix_append ts us).isInfix, hitem e heq.symm⟩
    · obtain ⟨vs, hvs, hP⟩ := hitems e he
      exact ⟨vs, hvs.trans (List.suffix_append ts us).isInfix, hP⟩

end Listed

namespace Tree

/-- Whatever a rule builds, `P` holds of it with the tokens that it is read from, if it holds of the
parts with theirs. -/
structure ClosedUnderRecovery (P : Tree → List Token → Prop) : Prop where
  token {e : Tree} {t : Token} (h : ofToken? t = some e) : P e [t]
  loneMinus (m : Token) (text : String) : P (unrecognizedTokens [m] m.span text) [m]
  emptyParentheses (o c : Token) (text : String) :
    P (unrecognizedTokens [o, c] (o.span.merge c.span) text) [o, c]
  addMessages {e : Tree} {ts : List Token} (h : P e ts) (messages : List Message) :
    P (e.addMessages messages) ts
  grouped {e : Tree} {ts : List Token} (h : P e ts) (o c : Token) : P e (o :: ts ++ [c])
  opened {e : Tree} {ts : List Token} (h : P e ts) (o : Token) : P e (o :: ts)
  negation {e : Tree} {ts : List Token} (h : P e ts) (m : Token) :
    P (negationOf m.span e) (m :: ts)
  array {o : Token} {s us : List Token} {list : Listed s} (h : list.Covers P o us) :
    P (.array ⟨o.span.merge list.last.span, list.messages, ()⟩ (list.items.filterMap id)) (o :: us)
  call {f : Tree} {o : Token} {fs s us : List Token} {list : Listed s} (hf : P f fs)
    (h : list.Covers P o us) : P (callOf f list) (fs ++ o :: us)
  access {e : Tree} {o : Token} {ts s us : List Token} {list : Listed s} (he : P e ts)
    (h : list.Covers P o us) : P (accessOf e o.span list) (ts ++ o :: us)
  binary {l r : Tree} {ls rs : List Token} (hl : P l ls) (hr : P r rs) (symbol : String)
    (t : Token) : P (binaryOf l symbol t.span r) (ls ++ t :: rs)
  half {l : Tree} {ls : List Token} (hl : P l ls) (symbol : String) (t : Token) :
    P (halfOf l symbol t.span) (ls ++ [t])

theorem consumes_closeParenthesis (hP : ClosedUnderRecovery P) (o : Token) {s : List Token}
    {inner : Taken s} (h : inner.Consumes P) : (closeParenthesis o inner).Consumes P := by
  obtain ⟨ts, hs, hlast, hinner⟩ := h
  have hopen : (unclosedParenthesis o inner).Consumes P := by
    refine ⟨o :: ts, congrArg (o :: ·) hs, ?_, hP.opened (hP.addMessages hinner _) o⟩
    rw [List.getLast?_cons, hlast]
    rfl
  unfold closeParenthesis
  split
  · next c rest hrest =>
      split
      · exact ⟨o :: ts ++ [c], congrArg (o :: ·) (eq_append_trans hs hrest),
          List.getLast?_concat, hP.grouped hinner o c⟩
      · exact hopen
  · exact hopen

/-- What goes on after `left` with the tokens `t :: us`, and from there on with more operators. -/
theorem consumes_extended {left left' : Tree} {before last t : Token} {us s rest : List Token}
    {r : Extended rest} (hs : s = us ++ rest) (hlast : (t :: us).getLast? = some last)
    (hleft : ∀ ts, P left ts → P left' (ts ++ t :: us)) (h : r.Consumes P left' last)
    (hle : rest.length ≤ (t :: s).length) : (r.widen hle).Consumes P left before := by
  obtain ⟨vs, hrest, hend, hextend⟩ := h
  refine ⟨t :: us ++ vs, congrArg (t :: ·) (eq_append_trans hs hrest), ?_, fun ts hts => ?_⟩
  · rw [List.cons_append, List.getLast?_cons_cons, ← List.cons_append, getLast?_append_eq hlast vs]
    exact hend
  · rw [← List.append_assoc]
    exact hextend _ (hleft ts hts)

theorem consumes_unextended (left : Tree) (last : Token) (s : List Token) :
    Extended.Consumes P left last (⟨left, last, s, Nat.le_refl _⟩ : Extended s) :=
  ⟨[], rfl, rfl, fun ts hts => (List.append_nil ts).symm ▸ hts⟩

mutual

theorem consumes_expression (hP : ClosedUnderRecovery P) {floor : Nat} {s : List Token}
    {r : Taken s} (h : expression floor s = .ok r) : r.Consumes P := by
  rw [expression] at h
  split at h
  · cases h
  · next first hfirst =>
      cases h
      have hshort := first.shorter
      obtain ⟨ts, hs, hlast, hts⟩ := consumes_operand hP hfirst
      obtain ⟨us, hus, hend, hextend⟩ :=
        consumes_extend hP floor first.tree first.last first.rest
      exact ⟨ts ++ us, eq_append_trans hs hus, (getLast?_append_eq hlast us).trans hend,
        hextend ts hts⟩
  termination_by 4 * s.length + 1

theorem consumes_operand (hP : ClosedUnderRecovery P) {s : List Token} {r : Taken s}
    (h : operand s = .ok r) : r.Consumes P := by
  cases s with
  | nil => simp [operand] at h
  | cons t rest =>
      rw [operand] at h
      split at h
      · exact consumes_parenthesized hP h
      · cases h
        obtain ⟨us, hs, hlist⟩ := consumes_listItems hP .elements t .start t rest
        exact ⟨t :: us, congrArg (t :: ·) hs, hlist.last, hP.array hlist⟩
      · split at h
        · next r hr =>
            cases h
            obtain ⟨ts, hs, hlast, hts⟩ := consumes_expression hP hr
            refine ⟨t :: ts, congrArg (t :: ·) hs, ?_, hP.negation hts t⟩
            rw [List.getLast?_cons, hlast]
            rfl
        · cases h
          exact ⟨[t], rfl, rfl, hP.loneMinus t _⟩
      · split at h
        · next tree htree =>
            cases h
            exact ⟨[t], rfl, rfl, hP.token htree⟩
        · cases h
  termination_by 4 * s.length

theorem consumes_parenthesized (hP : ClosedUnderRecovery P) {o : Token} {s : List Token}
    {r : Taken (o :: s)} (h : parenthesized o s = .ok r) : r.Consumes P := by
  cases s with
  | nil => simp [parenthesized] at h
  | cons t rest =>
      rw [parenthesized] at h
      split at h
      · cases h
        exact ⟨[o, t], rfl, rfl, hP.emptyParentheses o t _⟩
      · split at h
        · cases h
        · next inner hinner =>
            cases h
            exact consumes_closeParenthesis hP o (consumes_expression hP hinner)
  termination_by 4 * s.length + 2

theorem consumes_extend (hP : ClosedUnderRecovery P) (floor : Nat) (left : Tree) (last : Token)
    (s : List Token) : (extend floor left last s).Consumes P left last := by
  cases s with
  | nil =>
      rw [extend]
      exact consumes_unextended left last []
  | cons t rest =>
      rw [extend]
      split
      · exact consumes_unextended left last (t :: rest)
      · next op hop =>
          split
          · split
            · have hle := (listItems .arguments t .start t rest).le
              obtain ⟨us, hs, hlist⟩ := consumes_listItems hP .arguments t .start t rest
              exact consumes_extended hs hlist.last (fun ts hts => hP.call hts hlist)
                (consumes_extend hP floor (callOf left (listItems .arguments t .start t rest))
                  (listItems .arguments t .start t rest).last
                  (listItems .arguments t .start t rest).rest) _
            · have hle := (listItems .components t .start t rest).le
              obtain ⟨us, hs, hlist⟩ := consumes_listItems hP .components t .start t rest
              exact consumes_extended hs hlist.last (fun ts hts => hP.access hts hlist)
                (consumes_extend hP floor
                  (accessOf left t.span (listItems .components t .start t rest))
                  (listItems .components t .start t rest).last
                  (listItems .components t .start t rest).rest) _
            · split
              · next right hr =>
                  have hshort := right.shorter
                  obtain ⟨rs, hs, hlast, hrs⟩ := consumes_expression hP hr
                  have hend : (t :: rs).getLast? = some right.last := by
                    rw [List.getLast?_cons, hlast]
                    rfl
                  exact consumes_extended hs hend
                    (fun ls hls => hP.binary hls hrs op.symbol t)
                    (consumes_extend hP floor (binaryOf left op.symbol t.span right.tree)
                      right.last right.rest) _
              · exact consumes_extended (List.nil_append rest).symm rfl
                  (fun ls hls => hP.half hls op.symbol t)
                  (consumes_extend hP floor (halfOf left op.symbol t.span) t rest) _
          · exact consumes_unextended left last (t :: rest)
  termination_by 4 * s.length

theorem consumes_listItems (hP : ClosedUnderRecovery P) (form : ListForm) (opening : Token)
    (p : ListProgress) (last : Token) (s : List Token) :
    (listItems form opening p last s).Consumes P last := by
  cases s with
  | nil =>
      rw [listItems]
      exact Listed.consumes_unclosed form opening last []
  | cons t rest =>
      rw [listItems]
      split
      · exact Listed.consumes_closed form p last t rest
      · split
        · exact (consumes_listItems hP form opening _ t rest).afterSeparator form p last
        · split
          · exact .afterItem (List.singleton_append).symm rfl nofun
              (consumes_listItems hP form opening _ t rest) p last _
          · split
            · exact Listed.consumes_unclosed form opening last (t :: rest)
            · next e he =>
                have hshort : e.rest.length ≤ rest.length := Nat.le_of_lt_succ e.shorter
                obtain ⟨ts, hs, hlast, hts⟩ := consumes_expression hP he
                exact .afterItem hs hlast (fun e' he' => Option.some.inj he' ▸ hts)
                  (consumes_listItems hP form opening _ e.last e.rest) p last _
  termination_by 4 * s.length + 2

end

end Tree

end LazyLang
