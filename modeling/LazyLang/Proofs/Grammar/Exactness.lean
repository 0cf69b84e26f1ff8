import LazyLang.Proofs.Grammar.Completeness

/-!
# The parser reads exactly its grammar

A program is read without a message just when its tokens are a phrase, and then the tree spells all
of them. What follows the first expression of a program is never passed over in silence: another
expression is reported on the root, and tokens that no rule accepts bring a message of their own.
-/

namespace LazyLang

namespace Tree

open LazyLang.Expr

theorem unrecognizedRun_allMessages_ne_nil (t : Token) (rest : List Token) :
    (unrecognizedRun t rest).allMessages ≠ [] := by
  simp [unrecognizedRun, unrecognizedTokens, allMessages]

/-- Whatever follows the first expression is reported. -/
theorem surplusMessages_ne_nil {tokens : List Token} {e : Tree} (he : e ∈ pieces tokens) :
    surplusMessages e ≠ [] := by
  induction tokens using pieces.induct with
  | case1 => simp [pieces] at he
  | case2 t rest r hr _ ih =>
      rw [pieces, hr] at he
      rcases List.mem_cons.1 he with rfl | he
      · obtain ⟨ts, -, hts⟩ := expression_reads closedUnderRules_spells hr
        unfold surplusMessages
        split
        · next hun =>
            -- an unrecognized expression spells nothing, so it is not without a message
            intro hm
            rw [(hts hm).isUnrecognized] at hun
            cases hun
        · simp
      · exact ih he
  | case3 t rest u hr ih =>
      rw [pieces, hr] at he
      rcases List.mem_cons.1 he with rfl | he
      · exact unrecognizedRun_allMessages_ne_nil t rest
      · exact ih he

theorem pieces_cons_ne_nil (t : Token) (rest : List Token) : pieces (t :: rest) ≠ [] := by
  rw [pieces]
  split <;> simp

theorem eq_nil_of_pieces_eq_nil {tokens : List Token} (h : pieces tokens = []) : tokens = [] := by
  cases tokens with
  | nil => rfl
  | cons t rest => exact absurd h (pieces_cons_ne_nil t rest)

variable {S : Tree → List Token → Prop}

/-- A lone piece of a program, if it has no message, is built from the whole of it. -/
theorem of_pieces_eq_singleton (hS : ClosedUnderRules S) {tokens : List Token} {root : Tree}
    (h : pieces tokens = [root]) (hm : root.allMessages = []) : S root tokens := by
  cases tokens with
  | nil => simp [pieces] at h
  | cons t rest =>
      rw [pieces] at h
      split at h
      · next e he =>
          obtain ⟨rfl, hrest⟩ := List.cons_eq_cons.1 h
          obtain ⟨ts, hs, hts⟩ := expression_reads hS he
          rw [eq_nil_of_pieces_eq_nil hrest, List.append_nil] at hs
          exact hs ▸ hts hm
      · obtain ⟨rfl, -⟩ := List.cons_eq_cons.1 h
        exact absurd hm (unrecognizedRun_allMessages_ne_nil t rest)

/-- The tree of a program without messages is built from all its tokens. -/
theorem of_allMessages_ofTokens (hS : ClosedUnderRules S) {tokens : List Token}
    (hm : (ofTokens tokens).allMessages = []) : S (ofTokens tokens) tokens := by
  rw [ofTokens] at hm ⊢
  cases hp : pieces tokens with
  | nil => simp [hp, unrecognizedTokens, allMessages] at hm
  | cons root extras =>
      simp only [hp, allMessages_addMessages, List.append_eq_nil_iff,
        List.flatMap_eq_nil_iff] at hm ⊢
      cases extras with
      | nil =>
          rw [List.flatMap_nil, addMessages_nil]
          exact of_pieces_eq_singleton hS hp hm.1
      | cons extra more =>
          have hmem : extra ∈ pieces tokens := by simp [hp]
          exact absurd (hm.2 extra List.mem_cons_self) (surplusMessages_ne_nil hmem)

/-- A program without messages is spelled by its tree. -/
theorem spells_ofTokens {tokens : List Token} (hm : (ofTokens tokens).allMessages = []) :
    Spells (ofTokens tokens) tokens :=
  of_allMessages_ofTokens closedUnderRules_spells hm

/-- A phrase is read as a program without messages. -/
theorem allMessages_ofTokens_of_phrase {tokens : List Token} (h : Phrase tokens) :
    (ofTokens tokens).allMessages = [] := by
  obtain ⟨tail, hread, htail, hheld⟩ := complete (tokens.length + 1) tokens [] 0
    (Nat.lt_succ_self _) h trivial (Nat.zero_le _)
  cases htail.eq_nil_of_held hheld
  rw [List.append_nil] at hread
  obtain ⟨r, hr, hm, hrest⟩ := hread
  obtain ⟨t, us, rfl, -⟩ := h.exists_cons
  have hpieces : pieces (t :: us) = [r.tree] := by
    rw [pieces, hr]
    simp only [hrest, List.append_nil, pieces]
  simp only [ofTokens, hpieces, List.flatMap_nil, addMessages_nil, hm]

/-- The parser accepts exactly its grammar, and the tree it then gives accounts for every token. -/
theorem ofTokens_exact (tokens : List Token) :
    ((ofTokens tokens).allMessages = [] ↔ Phrase tokens) ∧
      ((ofTokens tokens).allMessages = [] → Spells (ofTokens tokens) tokens) :=
  ⟨⟨fun hm => (spells_ofTokens hm).phrase, allMessages_ofTokens_of_phrase⟩, spells_ofTokens⟩

end Tree

end LazyLang
