import LazyLang.Program
import LazyLang.Proofs.Evaluation.Simulation.Traversals

/-!
# Simulations of functions

What a built-in function does with its arguments is followed by the same function on alike
arguments. So are the application of functions, the running of deferred computations and, with the
plain results the same on both sides, the stripping of values. Runners that are tied together by
fuel follow each other as soon as their ways of forcing a cell do.
-/

namespace LazyLang.Simulation.Runs

open Filter Likeness

variable {S : Simulation} {R : Runner} {R' : ℕ → Runner} {w : S.World} {r s r' s' : Ref}
  (h : S.Runs R R')

include h

theorem equalValues_equalItems (n : ℕ) :
    (∀ {w : S.World} {k : ℕ → ℕ}, (∀ᶠ m in atTop, n ≤ k m) → ∀ {a a' b b'},
      a.Alike (S.related w) a' → b.Alike (S.related w) b' →
        S.FollowsEval w plain (R.equalValues n a b) fun m => (R' m).equalValues (k m) a' b') ∧
      ∀ {w : S.World} {k : ℕ → ℕ}, (∀ᶠ m in atTop, n ≤ k m) → ∀ {t t' u u'},
        t.Alike (S.related w) t' → u.Alike (S.related w) u' →
          S.FollowsEval w plain (R.equalItems n t u) fun m => (R' m).equalItems (k m) t' u' := by
  induction n with
  | zero => exact ⟨fun _ _ _ _ _ _ _ => .exhausted _, fun _ _ _ _ _ _ _ => .exhausted _⟩
  | succ n ih =>
      obtain ⟨hvalues, hitems⟩ := ih
      constructor
      · intro w k hk a a' b b' ha hb
        obtain ⟨k', hk', hpred⟩ := exists_pred hk
        suffices hfollows : S.FollowsEval w plain (R.equalValues (n + 1) a b) fun m =>
            (R' m).equalValues (k' m + 1) a' b' from
          hfollows.congr (hpred.mono fun m hm => by rw [hm])
        cases ha with
        | array hs => cases hb with
            | array ht =>
                simp only [Runner.equalValues]
                refine .seq (.lift (h.traverse hs)) fun _ hw _ _ hs => ?_
                have ht := later Sequence.Alike.lawful hw ht
                refine .seq (.lift (h.traverse ht)) fun _ hw' _ _ ht => ?_
                exact hitems hk' (later Traversal.Alike.lawful hw' hs) ht
            | _ =>
                simp only [Runner.equalValues]
                first | exact .ret rfl | exact .fail _
        | _ =>
            cases hb <;> simp only [Runner.equalValues] <;> first
              | exact .ret rfl
              | exact .fail _
      · intro w k hk t t' u u' ht hu
        obtain ⟨k', hk', hpred⟩ := exists_pred hk
        suffices hfollows : S.FollowsEval w plain (R.equalItems (n + 1) t u) fun m =>
            (R' m).equalItems (k' m + 1) t' u' from
          hfollows.congr (hpred.mono fun m hm => by rw [hm])
        simp only [Runner.equalItems]
        refine .seq (.lift (h.next ht)) fun _ hw (x, t) (y, t') ⟨hleft, ht⟩ => ?_
        refine .seq (.lift (h.next (later Traversal.Alike.lawful hw hu)))
          fun _ hw' (x', u) (y', u') ⟨hright, hu⟩ => ?_
        have ht := later Traversal.Alike.lawful hw' ht
        cases later lawful_item.option hw' hleft with
        | none => cases hright <;> exact .ret rfl
        | some hx => cases hright with
            | none => exact .ret rfl
            | some hx' =>
                refine .seq (.except hx) fun _ hw₁ _ _ hr => ?_
                refine .seq (h.force hr) fun _ hw₂ _ _ ha => ?_
                have hx' := later lawful_item (hw₁.trans hw₂) hx'
                refine .seq (.except hx') fun _ hw₃ _ _ hr' => ?_
                refine .seq (h.force hr') fun _ hw₄ _ _ hb => ?_
                have ha := later Value.Alike.lawful (hw₃.trans hw₄) ha
                refine .seq (hvalues hk' ha hb) fun _ hw₅ same _ hsame => ?_
                cases hsame
                cases same with
                | true =>
                    have hlast := (hw₁.trans hw₂).trans ((hw₃.trans hw₄).trans hw₅)
                    exact hitems hk' (later Traversal.Alike.lawful hlast ht)
                      (later Traversal.Alike.lawful hlast hu)
                | false => exact .ret rfl

theorem equal {a a' b b' : Value} (ha : a.Alike (S.related w) a') (hb : b.Alike (S.related w) b') :
    S.FollowsEval w plain (R.equal a b) fun m => (R' m).equal a' b' :=
  (h.equalValues_equalItems R.fuel).1 h.fuel ha hb

theorem renderValue {n : ℕ} {k : ℕ → ℕ} (hk : ∀ᶠ m in atTop, n ≤ k m) (nested : Bool)
    {v v' : Value} (hv : v.Alike (S.related w) v') :
    S.FollowsEval w plain (R.renderValue n nested v) fun m =>
      (R' m).renderValue (k m) nested v' := by
  induction n generalizing w k nested v v' with
  | zero => exact .exhausted _
  | succ n ih =>
      obtain ⟨k', hk', hpred⟩ := exists_pred hk
      suffices hfollows : S.FollowsEval w plain (R.renderValue (n + 1) nested v) fun m =>
          (R' m).renderValue (k' m + 1) nested v' from
        hfollows.congr (hpred.mono fun m hm => by rw [hm])
      cases hv with
      | array hs =>
          simp only [Runner.renderValue]
          refine .seq (h.fold (fun _ _ texts _ x y htexts hitem => ?_) lawful_plain hs rfl)
            fun _ _ texts _ htexts => ?_
          · refine .seq (.except hitem) fun _ _ _ _ hr => .seq (h.force hr) fun _ _ _ _ hv => ?_
            cases htexts
            exact .seq (ih hk' true hv) fun _ _ _ _ htext =>
              .ret (.yield (congrArg (· :: texts) htext))
          · cases htexts
            exact .ret rfl
      | function hf =>
          simp only [Runner.renderValue]
          exact .ret (by rw [hf.name_eq]; rfl)
      | _ =>
          simp only [Runner.renderValue]
          exact .ret rfl

theorem render {v v' : Value} (hv : v.Alike (S.related w) v') :
    S.FollowsEval w plain (R.render v) fun m => (R' m).render v' :=
  h.renderValue h.fuel false hv

theorem forceInteger (operation : String) (hr : S.related w r r') :
    S.FollowsEval w plain (R.forceInteger operation r) fun m =>
      (R' m).forceInteger operation r' :=
  .seq (h.force hr) fun _ _ _ _ hv => .seq (.same (hv.toInteger_eq operation)) fun _ _ _ _ hi =>
    .ret (congrArg _ hi)

theorem forceText (operation : String) (hr : S.related w r r') :
    S.FollowsEval w plain (R.forceText operation r) fun m => (R' m).forceText operation r' :=
  .seq (h.force hr) fun _ _ _ _ hv => .same (hv.toText_eq operation)

theorem forceSequence (operation : String) (hr : S.related w r r') :
    S.FollowsEval w Sequence.Alike (R.forceSequence operation r) fun m =>
      (R' m).forceSequence operation r' :=
  .seq (h.force hr) fun _ _ _ _ hv => .except (hv.toSequence operation)

theorem forceFunction (hr : S.related w r r') :
    S.FollowsEval w Function.Alike (R.forceFunction r) fun m => (R' m).forceFunction r' :=
  .seq (h.force hr) fun _ _ _ _ hv => .except hv.toFunction

theorem forceTruth (operation : String) (hr : S.related w r r') :
    S.FollowsEval w plain (R.forceTruth operation r) fun m => (R' m).forceTruth operation r' :=
  .seq (h.force hr) fun _ _ _ _ hv => .same (hv.truthy_eq operation)

theorem forceCount (operation : String) (hr : S.related w r r') :
    S.FollowsEval w plain (R.forceCount operation r) fun m => (R' m).forceCount operation r' :=
  .seq (h.forceInteger operation hr) fun _ _ _ _ hi => .ret (congrArg _ hi)

theorem forceBound (operation : String) (hr : S.related w r r') :
    S.FollowsEval w plain (R.forceBound operation r) fun m => (R' m).forceBound operation r' := by
  refine .seq (h.force hr) fun _ _ _ _ hv => ?_
  cases hv with
  | none => exact .ret rfl
  | _ =>
      refine .seq (.same rfl) fun _ _ _ _ hi => ?_
      cases hi
      exact .ret rfl

theorem unary {op : Value → Except RuntimeError Value} (hop : Value.Respectful op)
    (hr : S.related w r r') :
    S.FollowsEval w Value.Alike (R.unary op r) fun m => (R' m).unary op r' :=
  .seq (h.force hr) fun _ _ _ _ hv => .except (hop hv)

theorem binary {op : Value → Value → Except RuntimeError Value} (hop : Value.Respectful₂ op)
    (hr : S.related w r r') (hs : S.related w s s') :
    S.FollowsEval w Value.Alike (R.binary op r s) fun m => (R' m).binary op r' s' :=
  .seq (h.force hr) fun _ hw _ _ hx => .seq (h.force (S.related_mono hw hs)) fun _ hw' _ _ hy =>
    .except (hop (later Value.Alike.lawful hw' hx) hy)

theorem comparison (operation : String) (accept : Ordering → Bool) (hr : S.related w r r')
    (hs : S.related w s s') :
    S.FollowsEval w Value.Alike (R.comparison operation accept r s) fun m =>
      (R' m).comparison operation accept r' s' := by
  refine .seq (h.force hr) fun _ hw _ _ hx => ?_
  refine .seq (h.force (S.related_mono hw hs)) fun _ hw' _ _ hy => ?_
  refine .seq (.same ((later Value.Alike.lawful hw' hx).compareNumbers_eq hy operation))
    fun _ _ order _ horder => ?_
  cases horder
  exact .ret (.boolean _)

theorem elementOrNone {x y : Option Item} (hitem : item.option (S.related w) x y) :
    S.FollowsEval w Value.Alike (R.elementOrNone x) fun m => (R' m).elementOrNone y := by
  cases hitem with
  | none => exact .ret .none
  | some hitem => exact .seq (.except hitem) fun _ _ _ _ hr => h.force hr

theorem elementAt {t t' : Sequence} (ht : t.Alike (S.related w) t') (position : ℤ) :
    S.FollowsEval w Value.Alike (R.elementAt t position) fun m =>
      (R' m).elementAt t' position := by
  unfold Runner.elementAt
  split
  · exact .seq (.lift (h.traverse ht)) fun _ _ _ _ ht =>
      .seq (.lift (h.ahead _ ht)) fun _ _ _ _ hnext => h.elementOrNone hnext.1
  · refine .seq (h.toList ht) fun _ _ xs ys hxs => ?_
    dsimp only
    rw [List.size_toArray, List.size_toArray, hxs.length_eq]
    split
    · refine h.elementOrNone ?_
      have hitem := getElem?_alike hxs (ys.length - position.natAbs)
      rw [List.getElem?_toArray, List.getElem?_toArray]
      generalize xs[ys.length - position.natAbs]? = x, ys[ys.length - position.natAbs]? = y at hitem
      cases hitem with
      | none => exact .none
      | some hr => exact .some (.ok hr)
    · exact .ret .none

theorem slice {source source' start start' stop stop' step step' : Ref}
    (hsource : S.related w source source') (hstart : S.related w start start')
    (hstop : S.related w stop stop') (hstep : S.related w step step') :
    S.FollowsEval w Value.Alike (R.slice source start stop step) fun m =>
      (R' m).slice source' start' stop' step' := by
  refine .seq (h.forceSequence _ hsource) fun _ hw _ _ hs => ?_
  refine .seq (h.forceBound _ (S.related_mono hw hstart)) fun _ hw₁ start _ hstart => ?_
  refine .seq (h.forceBound _ (S.related_mono (hw.trans hw₁) hstop)) fun _ hw₂ stop _ hstop => ?_
  refine .seq (h.forceBound _ (S.related_mono ((hw.trans hw₁).trans hw₂) hstep))
    fun _ hw₃ step _ hstep => ?_
  cases hstart
  cases hstop
  cases hstep
  dsimp only
  split
  · exact .fail _
  · have hs := later Sequence.Alike.lawful ((hw₁.trans hw₂).trans hw₃) hs
    exact .ret (.array (hs.sliceOf start stop _))

theorem reduce (operation : String) {start : Value} (hstart : start.Alike (S.related w) start)
    {op : Value → Value → Except RuntimeError Value} (hop : Value.Respectful₂ op)
    (hr : S.related w r r') :
    S.FollowsEval w Value.Alike (R.reduce operation start op r) fun m =>
      (R' m).reduce operation start op r' := by
  refine .seq (h.forceSequence operation hr) fun _ hw _ _ hs => ?_
  refine h.fold (fun _ _ _ _ _ _ hacc hitem => ?_) Value.Alike.lawful hs
    (later Value.Alike.lawful hw hstart)
  refine .seq (.except hitem) fun _ hw₁ _ _ hr => .seq (h.force hr) fun _ hw₂ _ _ hv => ?_
  have hacc := later Value.Alike.lawful (hw₁.trans hw₂) hacc
  exact .seq (.except (hop hacc hv)) fun _ _ _ _ hv => .ret (.yield hv)

theorem extremum (operation : String) (wanted : Ordering) (hr : S.related w r r') :
    S.FollowsEval w Value.Alike (R.extremum operation wanted r) fun m =>
      (R' m).extremum operation wanted r' := by
  refine .seq (h.forceSequence operation hr) fun _ _ _ _ hs => ?_
  refine .seq (h.fold (fun _ _ _ _ _ _ hbest hitem => ?_) Value.Alike.lawful.option hs .none)
    fun _ _ _ _ hbest => ?_
  · refine .seq (.except hitem) fun _ hw₁ _ _ hr => .seq (h.force hr) fun _ hw₂ _ _ hv => ?_
    cases later Value.Alike.lawful.option (hw₁.trans hw₂) hbest with
    | none => exact .ret (.yield (.some hv))
    | some hcurrent =>
        refine .seq (.same (hv.compareNumbers_eq hcurrent operation)) fun _ hw₃ order _ horder => ?_
        cases horder
        split
        · exact .ret (.yield (.some (later Value.Alike.lawful hw₃ hv)))
        · exact .ret (.yield (.some (later Value.Alike.lawful hw₃ hcurrent)))
  · cases hbest with
    | none => exact .fail _
    | some hv => exact .ret hv

theorem length (hr : S.related w r r') :
    S.FollowsEval w Value.Alike (R.length r) fun m => (R' m).length r' := by
  refine .seq (h.forceSequence _ hr) fun _ _ _ _ hs => ?_
  refine .seq (h.fold (fun _ _ _ _ _ _ hcount hitem => ?_) lawful_plain hs rfl)
    fun _ _ _ _ hcount => ?_
  · exact .seq (.except hitem) fun _ _ _ _ _ => .ret (.yield (congrArg _ hcount))
  · cases hcount
    exact .ret (.integer _)

theorem contains (hr : S.related w r r') (hs : S.related w s s') :
    S.FollowsEval w Value.Alike (R.contains r s) fun m => (R' m).contains r' s' := by
  refine .seq (h.force hr) fun _ hw _ _ hv => ?_
  refine .seq (h.forceSequence _ (S.related_mono hw hs)) fun _ hw₁ _ _ hs => ?_
  refine .seq (h.fold (fun _ hw₂ _ _ _ _ _ hitem => ?_) lawful_plain hs rfl)
    fun _ _ _ _ hfound => ?_
  · refine .seq (.except hitem) fun _ hw₃ _ _ hr => .seq (h.force hr) fun _ hw₄ _ _ hu => ?_
    have hv := later Value.Alike.lawful ((hw₁.trans hw₂).trans (hw₃.trans hw₄)) hv
    refine .seq (h.equal hv hu) fun _ _ same _ hsame => ?_
    cases hsame
    cases same with
    | true => exact .ret (.done rfl)
    | false => exact .ret (.yield rfl)
  · cases hfound
    exact .ret (.boolean _)

theorem foldLeft {f f' : Ref} (hf : S.related w f f') (hr : S.related w r r')
    (hs : S.related w s s') :
    S.FollowsEval w Value.Alike (R.foldLeft f r s) fun m => (R' m).foldLeft f' r' s' := by
  refine .seq (h.forceFunction hf) fun _ hw _ _ hf => ?_
  refine .seq (h.forceSequence _ (S.related_mono hw hs)) fun _ hw₁ _ _ hs => ?_
  refine .seq (h.fold (fun _ hw₂ _ _ _ _ hacc hitem => ?_) lawful_ref hs
    (S.related_mono (hw.trans hw₁) hr)) fun _ _ _ _ hlast => h.force hlast
  refine .seq (.except hitem) fun _ hw₃ _ _ hr => ?_
  have hf := later Function.Alike.lawful ((hw₁.trans hw₂).trans hw₃) hf
  refine .seq (h.call hf (.cons (S.related_mono hw₃ hacc) (.cons hr .nil))) fun _ _ _ _ hv => ?_
  exact .seq (.lift (.add (.done (.ok hv)))) fun _ _ _ _ hnew => .ret (.yield hnew)

theorem joinTexts (hr : S.related w r r') (hs : S.related w s s') :
    S.FollowsEval w Value.Alike (R.joinTexts r s) fun m => (R' m).joinTexts r' s' := by
  refine .seq (h.forceText _ hr) fun _ hw separator _ hseparator => ?_
  refine .seq (h.forceSequence _ (S.related_mono hw hs)) fun _ _ _ _ hs => ?_
  refine .seq (h.fold (fun _ _ _ _ _ _ htexts hitem => ?_) lawful_plain hs rfl)
    fun _ _ _ _ htexts => ?_
  · cases htexts
    exact .seq (.except hitem) fun _ _ _ _ hr => .seq (h.forceText _ hr) fun _ _ _ _ htext =>
      .ret (.yield (congrArg (· :: _) htext))
  · cases hseparator
    cases htexts
    exact .ret (.string _)

theorem integersBetween (operation : String) (inclusive : Bool) (hr : S.related w r r')
    (hs : S.related w s s') :
    S.FollowsEval w Value.Alike (R.integersBetween operation inclusive r s) fun m =>
      (R' m).integersBetween operation inclusive r' s' := by
  refine .seq (h.forceInteger operation hr) fun _ hw _ _ hfirst => ?_
  refine .seq (h.forceInteger operation (S.related_mono hw hs)) fun _ _ _ _ hlast => ?_
  cases hfirst
  cases hlast
  exact .ret (.array (.integers _ _))

theorem pipeline (name : String) (swap : Bool) (hr : S.related w r r') (hs : S.related w s s') :
    S.FollowsEval w Value.Alike (R.pipeline name swap r s) fun m =>
      (R' m).pipeline name swap r' s' := by
  refine .seq (h.forceFunction hr) fun _ hw _ _ hf => ?_
  refine .seq (h.forceFunction (S.related_mono hw hs)) fun _ hw' _ _ hg => ?_
  have hf := later Function.Alike.lawful hw' hf
  cases swap with
  | true => exact .ret (.function (.pipeline name hg hf (.cons .none .nil)))
  | false => exact .ret (.function (.pipeline name hf hg (.cons .none .nil)))

theorem both (hr : S.related w r r') (hs : S.related w s s') :
    S.FollowsEval w Value.Alike (R.both r s) fun m => (R' m).both r' s' := by
  refine .seq (h.forceTruth _ hr) fun _ hw first _ hfirst => ?_
  cases hfirst
  cases first with
  | true =>
      refine .seq (h.forceTruth _ (S.related_mono hw hs)) fun _ _ _ _ hsecond => ?_
      cases hsecond
      exact .ret (.boolean _)
  | false => exact .ret (.boolean false)

theorem either (hr : S.related w r r') (hs : S.related w s s') :
    S.FollowsEval w Value.Alike (R.either r s) fun m => (R' m).either r' s' := by
  refine .seq (h.forceTruth _ hr) fun _ hw first _ hfirst => ?_
  cases hfirst
  cases first with
  | true => exact .ret (.boolean true)
  | false =>
      refine .seq (h.forceTruth _ (S.related_mono hw hs)) fun _ _ _ _ hsecond => ?_
      cases hsecond
      exact .ret (.boolean _)

omit h in
theorem on1 {f : Ref → Eval Value} {g : ℕ → Ref → Eval Value}
    (hf : ∀ {r r'}, S.related w r r' → S.FollowsEval w Value.Alike (f r) fun m => g m r')
    {xs ys : List Ref} (hargs : ref.list (S.related w) xs ys) :
    S.FollowsEval w Value.Alike (Runner.on1 f xs) fun m => Runner.on1 (g m) ys := by
  rcases hargs with _ | ⟨hr, _ | ⟨_, _⟩⟩ <;> first
    | exact .fail _
    | exact hf hr

omit h in
theorem on2 {f : Ref → Ref → Eval Value} {g : ℕ → Ref → Ref → Eval Value}
    (hf : ∀ {r r' s s'}, S.related w r r' → S.related w s s' →
      S.FollowsEval w Value.Alike (f r s) fun m => g m r' s')
    {xs ys : List Ref} (hargs : ref.list (S.related w) xs ys) :
    S.FollowsEval w Value.Alike (Runner.on2 f xs) fun m => Runner.on2 (g m) ys := by
  rcases hargs with _ | ⟨hr, _ | ⟨hs, _ | ⟨_, _⟩⟩⟩ <;> first
    | exact .fail _
    | exact hf hr hs

omit h in
theorem on3 {f : Ref → Ref → Ref → Eval Value} {g : ℕ → Ref → Ref → Ref → Eval Value}
    (hf : ∀ {r r' s s' t t'}, S.related w r r' → S.related w s s' → S.related w t t' →
      S.FollowsEval w Value.Alike (f r s t) fun m => g m r' s' t')
    {xs ys : List Ref} (hargs : ref.list (S.related w) xs ys) :
    S.FollowsEval w Value.Alike (Runner.on3 f xs) fun m => Runner.on3 (g m) ys := by
  rcases hargs with _ | ⟨hr, _ | ⟨hs, _ | ⟨ht, _ | ⟨_, _⟩⟩⟩⟩ <;> first
    | exact .fail _
    | exact hf hr hs ht

omit h in
theorem on4 {f : Ref → Ref → Ref → Ref → Eval Value} {g : ℕ → Ref → Ref → Ref → Ref → Eval Value}
    (hf : ∀ {r r' s s' t t' u u'}, S.related w r r' → S.related w s s' → S.related w t t' →
      S.related w u u' → S.FollowsEval w Value.Alike (f r s t u) fun m => g m r' s' t' u')
    {xs ys : List Ref} (hargs : ref.list (S.related w) xs ys) :
    S.FollowsEval w Value.Alike (Runner.on4 f xs) fun m => Runner.on4 (g m) ys := by
  rcases hargs with _ | ⟨hr, _ | ⟨hs, _ | ⟨ht, _ | ⟨hu, _ | ⟨_, _⟩⟩⟩⟩⟩ <;> first
    | exact .fail _
    | exact hf hr hs ht hu

/-- Running a built-in function. -/
theorem runBuiltin (b : Builtin) {xs ys : List Ref} (hargs : ref.list (S.related w) xs ys) :
    S.FollowsEval w Value.Alike (R.runBuiltin b xs) fun m => (R' m).runBuiltin b ys := by
  cases b with
  | add => exact on2 (h.binary Value.respectful_add) hargs
  | subtract => exact on2 (h.binary Value.respectful_subtract) hargs
  | multiply => exact on2 (h.binary Value.respectful_multiply) hargs
  | divide => exact on2 (h.binary Value.respectful_divide) hargs
  | remainder => exact on2 (h.binary Value.respectful_remainder) hargs
  | power => exact on2 (h.binary Value.respectful_power) hargs
  | negate => exact on1 (h.unary Value.respectful_negate) hargs
  | abs => exact on1 (h.unary Value.respectful_absolute) hargs
  | sin | cos | tan | sqrt | exp | ln =>
      exact on1 (h.unary (Value.respectful_onFloat _ _)) hargs
  | floor | ceil | round => exact on1 (h.unary (Value.respectful_roundedTo _ _)) hargs
  | less | lessOrEqual | greater | greaterOrEqual => exact on2 (h.comparison _ _) hargs
  | equal | notEqual =>
      refine on2 (fun hr hs => .seq (h.force hr) fun _ hw _ _ hx => ?_) hargs
      refine .seq (h.force (S.related_mono hw hs)) fun _ hw' _ _ hy => ?_
      refine .seq (h.equal (later Value.Alike.lawful hw' hx) hy) fun _ _ _ _ hsame => ?_
      cases hsame
      exact .ret (.boolean _)
  | choose =>
      refine on3 (fun hc hr hs => .seq (h.forceTruth _ hc) fun _ hw holds _ hholds => ?_) hargs
      cases hholds
      cases holds with
      | true => exact h.force (S.related_mono hw hr)
      | false => exact h.force (S.related_mono hw hs)
  | not =>
      refine on1 (fun hr => .seq (h.forceTruth _ hr) fun _ _ _ _ hholds => ?_) hargs
      cases hholds
      exact .ret (.boolean _)
  | and => exact on2 h.both hargs
  | or => exact on2 h.either hargs
  | inclusiveRange | range => exact on2 (h.integersBetween _ _) hargs
  | count =>
      refine on1 (fun hr => .seq (h.forceInteger _ hr) fun _ _ _ _ hfirst => ?_) hargs
      cases hfirst
      exact .ret (.array (.integers _ _))
  | repeated => exact on1 (fun hr => .ret (.array (.repeated hr))) hargs
  | iterate =>
      exact on2 (fun hf hr => .seq (h.forceFunction hf) fun _ hw _ _ hf =>
        .ret (.array (.iterate hf (S.related_mono hw hr)))) hargs
  | contains => exact on2 h.contains hargs
  | index =>
      refine on2 (fun hr hs => .seq (h.forceSequence _ hr) fun _ hw _ _ ht => ?_) hargs
      refine .seq (h.forceInteger _ (S.related_mono hw hs)) fun _ hw' _ _ hi => ?_
      cases hi
      exact h.elementAt (later Sequence.Alike.lawful hw' ht) _
  | slice => exact on4 h.slice hargs
  | length => exact on1 h.length hargs
  | head =>
      refine on1 (fun hr => .seq (h.forceSequence _ hr) fun _ _ _ _ ht => ?_) hargs
      refine .seq (.lift (.seq (h.traverse ht) fun _ _ _ _ ht => h.next ht)) fun _ _ _ _ hnext => ?_
      exact h.elementOrNone hnext.1
  | tail =>
      exact on1 (fun hr => .seq (h.forceSequence _ hr) fun _ _ _ _ ht =>
        .ret (.array (.drop 1 ht))) hargs
  | reverse =>
      exact on1 (fun hr => .seq (h.forceSequence _ hr) fun _ _ _ _ ht =>
        .ret (.array (.reverse ht))) hargs
  | take =>
      refine on2 (fun hr hs => .seq (h.forceCount _ hr) fun _ hw n _ hn => ?_) hargs
      cases hn
      exact .seq (h.forceSequence _ (S.related_mono hw hs)) fun _ _ _ _ ht =>
        .ret (.array (.take n ht))
  | drop =>
      refine on2 (fun hr hs => .seq (h.forceCount _ hr) fun _ hw n _ hn => ?_) hargs
      cases hn
      exact .seq (h.forceSequence _ (S.related_mono hw hs)) fun _ _ _ _ ht =>
        .ret (.array (.drop n ht))
  | concat =>
      refine on2 (fun hr hs => .seq (h.forceSequence _ hr) fun _ hw _ _ hfirst => ?_) hargs
      exact .seq (h.forceSequence _ (S.related_mono hw hs)) fun _ hw' _ _ hsecond =>
        .ret (.array (.concat (later Sequence.Alike.lawful hw' hfirst) hsecond))
  | map =>
      refine on2 (fun hr hs => .seq (h.forceFunction hr) fun _ hw _ _ hf => ?_) hargs
      exact .seq (h.forceSequence _ (S.related_mono hw hs)) fun _ hw' _ _ ht =>
        .ret (.array (.map (later Function.Alike.lawful hw' hf) ht))
  | filter =>
      refine on2 (fun hr hs => .seq (h.forceFunction hr) fun _ hw _ _ hf => ?_) hargs
      exact .seq (h.forceSequence _ (S.related_mono hw hs)) fun _ hw' _ _ ht =>
        .ret (.array (.filter (later Function.Alike.lawful hw' hf) ht))
  | fold => exact on3 h.foldLeft hargs
  | zipWith =>
      refine on3 (fun hr hs ht => .seq (h.forceFunction hr) fun _ hw _ _ hf => ?_) hargs
      refine .seq (h.forceSequence _ (S.related_mono hw hs)) fun _ hw₁ _ _ hleft => ?_
      refine .seq (h.forceSequence _ (S.related_mono (hw.trans hw₁) ht)) fun _ hw₂ _ _ hright => ?_
      exact .ret (.array (.zipWith (later Function.Alike.lawful (hw₁.trans hw₂) hf)
        (later Sequence.Alike.lawful hw₂ hleft) hright))
  | sum => exact on1 (h.reduce _ (.integer 0) Value.respectful_add) hargs
  | product => exact on1 (h.reduce _ (.integer 1) Value.respectful_multiply) hargs
  | min | max => exact on1 (h.extremum _ _) hargs
  | compose | pipe => exact on2 (h.pipeline _ _) hargs
  | identity => exact on1 h.force hargs
  | const => exact on2 (fun hr _ => h.force hr) hargs
  | flip =>
      exact on1 (fun hr => .seq (h.forceFunction hr) fun _ _ _ _ hf =>
        .ret (.function (.flipped hf (.cons .none (.cons .none .nil))))) hargs
  | join => exact on2 h.joinTexts hargs
  | upper | lower | lengthOf =>
      refine on1 (fun hr => .seq (h.forceText _ hr) fun _ _ _ _ htext => ?_) hargs
      cases htext
      exact .ret (by constructor)
  | string =>
      refine on1 (fun hr => .seq (h.force hr) fun _ _ _ _ hv => ?_) hargs
      refine .seq (h.render hv) fun _ _ _ _ htext => ?_
      cases htext
      exact .ret (.string _)

theorem sumIntegers (name : String) {xs ys : List Ref} (hargs : ref.list (S.related w) xs ys)
    (total : Int64) :
    S.FollowsEval w plain (R.sumIntegers name xs total) fun m =>
      (R' m).sumIntegers name ys total := by
  induction xs generalizing w ys total with
  | nil => cases hargs; exact .ret rfl
  | cons r rest ih =>
      cases hargs with
      | cons hr hrest =>
          refine .seq (h.force hr) fun _ hw _ _ hv => ?_
          refine .seq (.same (hv.toInteger_eq name)) fun _ hw' _ _ hi => ?_
          cases hi
          exact ih (later lawful_ref.list (hw.trans hw') hrest) _

theorem runHost (name : String) {action action' : HostAction}
    (haction : action.Alike (S.related w) action') {xs ys : List Ref}
    (hargs : ref.list (S.related w) xs ys) :
    S.FollowsEval w Value.Alike (R.runHost name action xs) fun m =>
      (R' m).runHost name action' ys := by
  refine .seq (.lift (.note _)) fun _ hw _ _ _ => ?_
  have hargs := later lawful_ref.list hw hargs
  cases haction with
  | list => exact .ret (.array (.values hargs))
  | sum =>
      refine .seq (h.sumIntegers name hargs 0) fun _ _ _ _ hi => ?_
      cases hi
      exact .ret (.integer _)
  | constant hr => exact h.force (S.related_mono hw hr)
  | fail => exact .fail _
  | first =>
      cases hargs with
      | nil => exact .fail _
      | cons hr _ => exact h.force hr
  | last =>
      cases hargs with
      | nil => exact .fail _
      | cons hr hrest => exact h.force (getLastD_alike (.cons hr hrest) hr)
  | truthy =>
      cases hargs with
      | nil => exact .fail _
      | cons hr _ =>
          refine .seq (h.forceTruth name hr) fun _ _ _ _ hholds => ?_
          cases hholds
          exact .ret (.boolean _)

theorem runBody {f g : Function} (hf : f.Alike (S.related w) g) {xs ys : List Ref}
    (hargs : ref.list (S.related w) xs ys) :
    S.FollowsEval w Value.Alike (R.runBody f xs) fun m => (R' m).runBody g ys := by
  cases hf with
  | builtin b _ => exact h.runBuiltin b hargs
  | pipeline _ hinner houter _ =>
      exact .seq (.lift (.defer (.call hinner hargs))) fun _ hw _ _ hbetween =>
        h.call (later Function.Alike.lawful hw houter) (.cons hbetween .nil)
  | flipped hinner _ => exact h.call hinner (List.rel_reverse hargs)
  | host name haction _ => exact h.runHost name haction hargs

/-- Applying a function. -/
theorem applyFunction {f g : Function} (hf : f.Alike (S.related w) g) {xs ys : List (Option Ref)}
    (hargs : slots (S.related w) xs ys) :
    S.FollowsEval w Value.Alike (R.applyFunction f xs) fun m => (R' m).applyFunction g ys := by
  have hsupplied := Function.supply_alike hf hargs
  unfold Runner.applyFunction
  generalize f.supply xs = x, g.supply ys = y at hsupplied
  cases hsupplied with
  | error e => exact .fail e
  | ok hsupplied =>
      cases hsupplied with
      | awaiting hf => exact .ret (.function hf)
      | complete hrefs => exact h.runBody hf hrefs

theorem applyValue {v v' : Value} (hv : v.Alike (S.related w) v') {xs ys : List (Option Ref)}
    (hargs : slots (S.related w) xs ys) :
    S.FollowsEval w Value.Alike (R.applyValue v xs) fun m => (R' m).applyValue v' ys :=
  .seq (.except hv.toFunction) fun _ hw _ _ hf => h.apply hf (later lawful_slots hw hargs)

/-- Running a deferred computation. -/
theorem runThunk {thunk thunk' : Thunk} (hthunk : thunk.Alike (S.related w) thunk') :
    S.FollowsEval w Value.Alike (thunk.run R) fun m => thunk'.run (R' m) := by
  cases hthunk with
  | apply hr hargs =>
      exact .seq (h.force hr) fun _ hw _ _ hv => h.applyValue hv (later lawful_slots hw hargs)
  | call hf hargs => exact h.call hf hargs
  | forward tag hr =>
      cases tag with
      | none =>
          exact .seq (.ret (L := plain) (a := ()) rfl) fun _ hw _ _ _ =>
            h.force (S.related_mono hw hr)
      | some tag => exact .seq (.lift (.note _)) fun _ hw _ _ _ => h.force (S.related_mono hw hr)

omit h in
theorem checkLimit (limit : Option ℕ) (count : ℕ) :
    S.FollowsEval w plain (Runner.checkLimit limit count) fun _ =>
      Runner.checkLimit limit count := by
  cases limit with
  | none => exact .ret rfl
  | some limit =>
      unfold Runner.checkLimit
      dsimp only
      split
      · exact .fail _
      · exact .ret rfl

/-- Stripping a value. -/
theorem stripValue (limit : Option ℕ) {n : ℕ} {k : ℕ → ℕ} (hk : ∀ᶠ m in atTop, n ≤ k m)
    {v v' : Value} (hv : v.Alike (S.related w) v') :
    S.FollowsEval w plain (R.stripValue limit n v) fun m =>
      (R' m).stripValue limit (k m) v' := by
  induction n generalizing w k v v' with
  | zero => exact .exhausted _
  | succ n ih =>
      obtain ⟨k', hk', hpred⟩ := exists_pred hk
      suffices hfollows : S.FollowsEval w plain (R.stripValue limit (n + 1) v) fun m =>
          (R' m).stripValue limit (k' m + 1) v' from
        hfollows.congr (hpred.mono fun m hm => by rw [hm])
      cases hv with
      | array hs =>
          simp only [Runner.stripValue]
          refine .seq (h.fold (fun _ _ acc _ _ _ hacc hitem => ?_) lawful_plain hs rfl)
            fun _ _ acc _ hacc => ?_
          · cases hacc
            obtain ⟨count, items⟩ := acc
            refine .seq (checkLimit limit count) fun _ hw _ _ _ => ?_
            refine .seq (.except (later lawful_item hw hitem)) fun _ _ _ _ hr => ?_
            refine .seq (h.force hr) fun _ _ _ _ hv => .seq (ih hk' hv) fun _ _ p _ hp => ?_
            cases hp
            cases p <;> exact .ret (.yield rfl)
          · cases hacc
            exact .ret rfl
      | _ =>
          simp only [Runner.stripValue]
          exact .ret rfl

/-- Forcing and stripping a lazy value. -/
theorem stripRef (limit : Option ℕ) (hr : S.related w r r') :
    S.FollowsEval w plain (R.stripRef limit r) fun m => (R' m).stripRef limit r' :=
  .seq (h.force hr) fun _ _ _ _ hv => h.stripValue limit h.fuel hv

end LazyLang.Simulation.Runs
