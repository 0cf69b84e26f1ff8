import LazyLang.Proofs.Grammar.Consumption

/-!
# Unrecognized tokens are reported

Wherever the parser puts tokens that no rule accepts into a tree, it puts an error on them. So a
tree without errors has no such tokens, however the text went on around them.
-/

namespace LazyLang

namespace Tree

open LazyLang.Expr

/-- A tree in which every unrecognized expression carries an error. -/
inductive Reported : Tree → Prop
  | identifier (node : Node Unit) (name : String) : Reported (.identifier node name)
  | integer (node : Node Unit) (value : Int64) : Reported (.integer node value)
  | float (node : Node Unit) (value : Float) : Reported (.float node value)
  | string (node : Node Unit) (value : String) : Reported (.string node value)
  | boolean (node : Node Unit) (value : Bool) : Reported (.boolean node value)
  | none (node : Node Unit) : Reported (.none node)
  | unrecognized {node : Node Unit} {tokens : List Token}
      (h : Message.hasErrors node.messages = true) : Reported (.unrecognized node tokens)
  | array (node : Node Unit) {elements : List Tree} (h : ∀ e ∈ elements, Reported e) :
      Reported (.array node elements)
  | call (node : Node Unit) {callee : Tree} {args : List (Option Tree)} (hcallee : Reported callee)
      (h : ∀ e, some e ∈ args → Reported e) : Reported (.call node callee args)

theorem Reported.addMessages {e : Tree} (h : Reported e) (messages : List Message) :
    Reported (e.addMessages messages) := by
  cases h with
  | identifier | integer | float | string | boolean | none => constructor
  | unrecognized h =>
      refine .unrecognized ?_
      change Message.hasErrors (_ ++ messages) = true
      rw [Message.hasErrors, List.any_append]
      exact Bool.or_eq_true_iff.2 (.inl h)
  | array node h => exact .array _ h
  | call node hcallee h => exact .call _ hcallee h

theorem reported_unrecognizedTokens (tokens : List Token) (span : Span) (text : String) :
    Reported (unrecognizedTokens tokens span text) :=
  .unrecognized rfl

theorem reported_ofToken? {t : Token} {e : Tree} (h : ofToken? t = some e) : Reported e := by
  unfold ofToken? at h
  split at h <;> cases h
  case h_3 =>
    unfold ofInteger
    dsimp only
    split <;> constructor
  all_goals constructor

/-- All items of a list that are there. -/
def ReportedItems (items : List (Option Tree)) : Prop := ∀ e, some e ∈ items → Reported e

theorem reportedItems_nil : ReportedItems [] := fun _ h => absurd h List.not_mem_nil

theorem ReportedItems.cons {item : Option Tree} {items : List (Option Tree)}
    (hitem : ∀ e, item = some e → Reported e) (h : ReportedItems items) :
    ReportedItems (item :: items) := by
  intro e he
  rcases List.mem_cons.1 he with heq | he
  · exact hitem e heq.symm
  · exact h e he

theorem ReportedItems.consSome {e : Tree} {items : List (Option Tree)} (he : Reported e)
    (h : ReportedItems items) : ReportedItems (some e :: items) :=
  h.cons fun _ heq => Option.some.inj heq ▸ he

theorem reported_operatorCall (symbol : String) (symbolSpan : Span) {args : List (Option Tree)}
    (span : Span) (h : ReportedItems args) : Reported (operatorCall symbol symbolSpan args span) :=
  .call _ (.identifier _ _) h

theorem reported_callOf {callee : Tree} {s : List Token} {list : Listed s} (hc : Reported callee)
    (h : ReportedItems list.items) : Reported (callOf callee list) :=
  .call _ hc h

theorem reported_binaryOf {left right : Tree} (symbol : String) (symbolSpan : Span)
    (hl : Reported left) (hr : Reported right) :
    Reported (binaryOf left symbol symbolSpan right) :=
  reported_operatorCall _ _ _ ((reportedItems_nil.consSome hr).consSome hl)

theorem reported_halfOf {left : Tree} (symbol : String) (symbolSpan : Span)
    (hl : Reported left) : Reported (halfOf left symbol symbolSpan) :=
  (reported_operatorCall _ _ _ (reportedItems_nil.consSome hl)).addMessages _

theorem reported_sliceComponents (bracket : Span) {items : List (Option Tree)}
    (h : ReportedItems items) : ReportedItems (sliceComponents bracket items) := by
  intro e he
  simp only [sliceComponents, List.mem_map, List.mem_append] at he
  obtain ⟨item, hitem, heq⟩ := he
  cases item with
  | none =>
      cases heq
      exact .none _
  | some item =>
      cases heq
      rcases hitem with hitem | hitem
      · exact h item (List.mem_of_mem_take hitem)
      · exact absurd (List.eq_of_mem_replicate hitem) (by simp)

theorem reported_accessOf {target : Tree} (bracket : Span) {s : List Token} {list : Listed s}
    (ht : Reported target) (h : ReportedItems list.items) :
    Reported (accessOf target bracket list) := by
  unfold accessOf
  dsimp only
  split
  · split
    · next index hindex =>
        obtain ⟨item, hitem, heq⟩ := List.exists_of_findSome?_eq_some hindex
        have hindexed : Reported index := h index (heq ▸ hitem)
        exact (reported_operatorCall _ _ _ (reportedItems_nil.consSome hindexed |>.consSome ht)
          ).addMessages _
    · exact (reported_operatorCall _ _ _ (reportedItems_nil.consSome ht)).addMessages _
  · exact (reported_operatorCall _ _ _ ((reported_sliceComponents bracket h).consSome ht)
      ).addMessages _

theorem reportedItems_of_covers {before : Token} {us s : List Token} {list : Listed s}
    (h : list.Covers (fun e _ => Reported e) before us) : ReportedItems list.items :=
  fun e he => (h.items e he).elim fun _ h => h.2

theorem closedUnderRecovery_reported : ClosedUnderRecovery fun e _ => Reported e where
  token := reported_ofToken?
  loneMinus _ _ := reported_unrecognizedTokens _ _ _
  emptyParentheses _ _ _ := reported_unrecognizedTokens _ _ _
  addMessages h := h.addMessages
  grouped h _ _ := h
  opened h _ := h
  negation h _ := reported_operatorCall _ _ _ (reportedItems_nil.consSome h)
  array h := by
    refine .array _ fun e he => ?_
    obtain ⟨item, hitem, heq⟩ := List.mem_filterMap.1 he
    exact reportedItems_of_covers h e (heq ▸ hitem)
  call hf h := reported_callOf hf (reportedItems_of_covers h)
  access he h := reported_accessOf _ he (reportedItems_of_covers h)
  binary hl hr symbol t := reported_binaryOf symbol t.span hl hr
  half hl symbol t := reported_halfOf symbol t.span hl

theorem reported_expression {floor : Nat} {s : List Token} {r : Taken s}
    (h : expression floor s = .ok r) : Reported r.tree :=
  (consumes_expression closedUnderRecovery_reported h).elim fun _ h => h.2.2

theorem reported_pieces (tokens : List Token) : ∀ e ∈ pieces tokens, Reported e := by
  induction tokens using pieces.induct with
  | case1 => simp [pieces]
  | case2 t rest r hr _ ih =>
      rw [pieces, hr]
      intro e he
      rcases List.mem_cons.1 he with rfl | he
      · exact reported_expression hr
      · exact ih e he
  | case3 t rest u hr ih =>
      rw [pieces, hr]
      intro e he
      rcases List.mem_cons.1 he with rfl | he
      · exact reported_unrecognizedTokens _ _ _
      · exact ih e he

/-- In the tree of a program all tokens that no rule accepts are reported. -/
theorem reported_ofTokens (tokens : List Token) : Reported (ofTokens tokens) := by
  have hpieces := reported_pieces tokens
  unfold ofTokens
  split
  · exact reported_unrecognizedTokens _ _ _
  · next root extras heq =>
      exact (hpieces root (heq ▸ List.mem_cons_self)).addMessages _

end Tree

end LazyLang
