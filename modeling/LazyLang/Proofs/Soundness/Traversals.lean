import LazyLang.Proofs.Soundness.Kinds

/-!
# Traversals give what their sources give

One lemma for each kind of traversal: given traversals of the elements of some kind, and functions
between the kinds, moving the traversal on finds elements of its kind. Each says what one step
keeps, and `Gives.of_step` makes of it what all steps do.

Whatever goes through a whole array is looked at only as far as it ends.
-/

namespace LazyLang

variable {total : Bool} {w w' : World} {S T U : Kind}

theorem Elem.mono {item : Item} (h : Elem total S w item) (hle : w ≤ w') :
    Elem total S w' item :=
  match item, h with
  | .ok _, h => Lazy.mono h hle
  | .error _, h => h

/-- A property of traversals that each step keeps and that the passing of time does not touch. -/
theorem Gives.of_step {t : Traversal} (I : World → Traversal → Prop) (ht : I w t)
    (hmono : ∀ w w' t, w ≤ w' → I w t → I w' t)
    (hstep : ∀ w t, I w t → Yields total w (fun R => t.step R) (Finds total S I)) :
    Gives total S w t :=
  ⟨I, ht, fun w t ht w' hle => Yields.next (hstep w' t (hmono w w' t hle ht))⟩

theorem finds_none {more : World → Traversal → Prop} (t : Traversal) :
    Finds total S more w (none, t) :=
  fun _ h => nomatch h

theorem finds_some {more : World → Traversal → Prop} {item : Item} {t : Traversal}
    (hitem : Elem total S w item) (ht : more w t) : Finds total S more w (some item, t) := by
  intro item' h
  cases h
  exact ⟨hitem, ht⟩

theorem finds_ok {more : World → Traversal → Prop} {r : Ref} {t : Traversal}
    (hr : Lazy total S w r) (ht : more w t) : Finds total S more w (some (.ok r), t) :=
  finds_some hr ht

theorem Gives.items {rest : List Item} (h : ∀ item ∈ rest, Elem total S w item) :
    Gives total S w (.items rest) := by
  refine .of_step (fun w t => ∃ rest, t = .items rest ∧ ∀ item ∈ rest, Elem total S w item)
    ⟨rest, rfl, h⟩ ?_ ?_
  · rintro w w' t hle ⟨rest, rfl, h⟩
    exact ⟨rest, rfl, fun item hitem => (h item hitem).mono hle⟩
  · rintro w t ⟨rest, rfl, h⟩
    cases rest with
    | nil => exact Yields.pure (finds_none _)
    | cons item rest =>
        have hrest : ∀ other ∈ rest, Elem total S w other :=
          fun other hother => h other (List.mem_cons_of_mem _ hother)
        exact Yields.pure (finds_some (h item List.mem_cons_self) ⟨rest, rfl, hrest⟩)

theorem Gives.integers (hS : ∀ w i, S.holds w (.integer i)) (next stop : Int) :
    Gives total S w (.integers next stop) := by
  refine .of_step (fun _ t => ∃ next, t = .integers next stop) ⟨next, rfl⟩ (fun _ _ _ _ h => h) ?_
  rintro w t ⟨next, rfl⟩
  by_cases hlt : next < stop
  · have hfound : Yields total w
        (fun _ => Run.update (Store.addValue (.integer (Int64.ofInt next))))
        fun w r => Lazy total S w r :=
      Yields.update (fun st => (Store.Grown.refl st).add _ fun h => Cell.noConfusion h) fun _ =>
        Lazy.of_addValue w.store w.frames fun w' _ => hS w' _
    refine Yields.congr (Yields.bind hfound fun w' r _ hr => Yields.pure ?_) fun n => if_pos hlt
    exact finds_ok hr ⟨next + 1, rfl⟩
  · exact Yields.congr (Yields.pure (finds_none _)) fun n => if_neg hlt

theorem Gives.repeated {r : Ref} (h : Lazy total S w r) : Gives total S w (.repeated r) := by
  refine .of_step (fun w t => t = .repeated r ∧ Lazy total S w r) ⟨rfl, h⟩
    (fun _ _ _ hle h => ⟨h.1, h.2.mono hle⟩) ?_
  rintro w t ⟨rfl, h⟩
  exact Yields.pure (finds_some h ⟨rfl, h⟩)

theorem Maps.mono {params : List Kind} {f : Function} (h : Maps total params T w f)
    (hle : w ≤ w') : Maps total params T w' f :=
  ⟨h.1, fun w'' hle' => h.2 w'' (hle.trans hle')⟩

/-- The call of a function on arguments, put off until it is needed. -/
theorem yields_defer {params : List Kind} {f : Function} {args : List Ref}
    (hf : Maps total params T w f)
    (hargs : List.Forall₂ (fun S r => Lazy total S w r) params args) :
    Yields total w (fun _ => Run.defer (.call f args)) fun w' r => Lazy total T w' r := by
  have hgrown : ∀ st, Store.Grown st (st.add (.pending (.call f args))).2 :=
    fun st => (Store.Grown.refl st).add _ fun h => Cell.noConfusion h
  refine Yields.update hgrown fun _ => ?_
  exact Lazy.of_defer w.store w.frames fun w' hle =>
    hf.2 w' hle args (hargs.imp fun _ _ hr => hr.mono hle)

/-- The values that a function goes through when it is applied over and over. -/
theorem Gives.iterate {f : Function} {next : Option Item} (hf : Maps total [S] S w f)
    (hnext : ∀ item, next = some item → Elem total S w item) :
    Gives total S w (.iterate f next) := by
  refine .of_step (fun w t => ∃ next, t = .iterate f next ∧ Maps total [S] S w f ∧
    ∀ item, next = some item → Elem total S w item) ⟨next, rfl, hf, hnext⟩ ?_ ?_
  · rintro w w' t hle ⟨next, rfl, hf, hnext⟩
    exact ⟨next, rfl, hf.mono hle, fun item hitem => (hnext item hitem).mono hle⟩
  · rintro w t ⟨next, rfl, hf, hnext⟩
    cases next with
    | none => exact Yields.pure (finds_none _)
    | some item =>
        have hitem := hnext item rfl
        refine Yields.bind (P := fun w next => Maps total [S] S w f ∧
          ∀ item, next = some item → Elem total S w item) ?_ fun w' next hle h =>
            Yields.pure (finds_some (hitem.mono hle) ⟨next, rfl, h⟩)
        cases item with
        | error e => exact Yields.pure ⟨hf, fun _ h => nomatch h⟩
        | ok r =>
            have hr : Lazy total S w r := hitem
            refine Yields.bind (hr w (le_refl w)) fun w' o hle ho => ?_
            cases o with
            | error e =>
                refine Yields.pure ⟨hf.mono hle, fun item hitem => ?_⟩
                cases hitem
                exact ho
            | ok v =>
                refine Yields.bind (yields_defer (hf.mono hle) (.cons (hr.mono hle) .nil))
                  fun w'' r' hle' hr' => Yields.pure ?_
                refine ⟨hf.mono (hle.trans hle'), fun item hitem => ?_⟩
                cases hitem
                exact hr'

/-- Skipping some items. -/
theorem Gives.ahead {t : Traversal} (h : Gives total S w t) (n : Nat) :
    Yields total w (fun R => t.ahead R n) (Finds total S (Gives total S)) := by
  induction n generalizing w t with
  | zero => exact h.next
  | succ n ih =>
      refine Yields.bind h.next fun w' next _ hnext => ?_
      obtain ⟨item, rest⟩ := next
      cases item with
      | none => exact Yields.pure (finds_none _)
      | some item => exact ih (hnext item rfl).2

theorem Gives.drop {t : Traversal} (h : Gives total S w t) (n : Nat) :
    Gives total S w (.drop n t) := by
  refine .of_step (fun w t' => ∃ n t, t' = .drop n t ∧ Gives total S w t) ⟨n, t, rfl, h⟩ ?_ ?_
  · rintro w w' t' hle ⟨n, t, rfl, h⟩
    exact ⟨n, t, rfl, h.mono hle⟩
  · rintro w t' ⟨n, t, rfl, h⟩
    refine Yields.bind (h.ahead n) fun w' next _ hnext => Yields.pure fun item hitem => ?_
    exact ⟨(hnext item hitem).1, 0, next.2, rfl, (hnext item hitem).2⟩

theorem Gives.take {t : Traversal} (h : Gives total S w t) (n : Nat) :
    Gives total S w (.take n t) := by
  refine .of_step (fun w t' => ∃ n t, t' = .take n t ∧ Gives total S w t) ⟨n, t, rfl, h⟩ ?_ ?_
  · rintro w w' t' hle ⟨n, t, rfl, h⟩
    exact ⟨n, t, rfl, h.mono hle⟩
  · rintro w t' ⟨n, t, rfl, h⟩
    cases n with
    | zero => exact Yields.pure (finds_none _)
    | succ n =>
        refine Yields.bind h.next fun w' next _ hnext => Yields.pure fun item hitem => ?_
        exact ⟨(hnext item hitem).1, n, next.2, rfl, (hnext item hitem).2⟩

theorem Gives.stepped {t : Traversal} (h : Gives total S w t) (fresh : Bool) (n : Nat) :
    Gives total S w (.stepped fresh n t) := by
  refine .of_step (fun w t' => ∃ fresh t, t' = .stepped fresh n t ∧ Gives total S w t)
    ⟨fresh, t, rfl, h⟩ ?_ ?_
  · rintro w w' t' hle ⟨fresh, t, rfl, h⟩
    exact ⟨fresh, t, rfl, h.mono hle⟩
  · rintro w t' ⟨fresh, t, rfl, h⟩
    refine Yields.bind (h.ahead _) fun w' next _ hnext => Yields.pure fun item hitem => ?_
    exact ⟨(hnext item hitem).1, false, next.2, rfl, (hnext item hitem).2⟩

/-- The second traversal may have to wait for the end of the first. -/
theorem Gives.concat {s t : Traversal} (hs : Gives total S w s) (ht : Gives total S w t) :
    Gives total S w (.concat s t) := by
  refine ⟨fun w t' => Gives total S w t' ∨
    ∃ s t, t' = .concat s t ∧ Gives total S w s ∧ Gives total S w t, .inr ⟨s, t, rfl, hs, ht⟩, ?_⟩
  rintro w t' (h | ⟨s, t, rfl, hs, ht⟩) w' hle
  · refine (h.mono hle).next.imp fun w'' next _ hnext item hitem => ?_
    exact ⟨(hnext item hitem).1, .inl (hnext item hitem).2⟩
  · refine Yields.next (Yields.bind (hs.mono hle).next fun w'' next hle' hnext => ?_)
    have ht := ht.mono (hle.trans hle')
    obtain ⟨item, rest⟩ := next
    cases item with
    | none =>
        refine ht.next.imp fun w₃ next _ hnext item hitem => ?_
        exact ⟨(hnext item hitem).1, .inl (hnext item hitem).2⟩
    | some item =>
        obtain ⟨hitem, hrest⟩ := hnext item rfl
        exact Yields.pure (finds_some hitem (.inr ⟨rest, t, rfl, hrest, ht⟩))

theorem yields_mapItem {f : Function} {item : Item} (hf : Maps total [S] T w f)
    (hitem : Elem total S w item) :
    Yields total w (fun _ => Traversal.mapItem f item) (Elem total T) := by
  cases item with
  | error e => exact Yields.pure hitem
  | ok r =>
      have hr : Lazy total S w r := hitem
      exact Yields.bind (yields_defer hf (.cons hr .nil)) fun _ _ _ hr' => Yields.pure hr'

theorem Gives.map {f : Function} {t : Traversal} (hf : Maps total [S] T w f)
    (h : Gives total S w t) : Gives total T w (.map f t) := by
  refine .of_step (fun w t' => ∃ t, t' = .map f t ∧ Maps total [S] T w f ∧ Gives total S w t)
    ⟨t, rfl, hf, h⟩ ?_ ?_
  · rintro w w' t' hle ⟨t, rfl, hf, h⟩
    exact ⟨t, rfl, hf.mono hle, h.mono hle⟩
  · rintro w t' ⟨t, rfl, hf, h⟩
    refine Yields.bind h.next fun w' next hle hnext => ?_
    obtain ⟨item, rest⟩ := next
    cases item with
    | none => exact Yields.pure (finds_none _)
    | some item =>
        obtain ⟨hitem, hrest⟩ := hnext item rfl
        have hf := hf.mono hle
        refine Yields.bind (yields_mapItem hf hitem) fun w'' item' hle' hitem' => Yields.pure ?_
        exact finds_some hitem' ⟨rest, rfl, hf.mono hle', hrest.mono hle'⟩

theorem yields_zipItem {f : Function} {a b : Item} (hf : Maps total [S, T] U w f)
    (ha : Elem total S w a) (hb : Elem total T w b) :
    Yields total w (fun _ => Traversal.zipItem f a b) (Elem total U) := by
  cases a with
  | error e => exact Yields.pure ha
  | ok r =>
      cases b with
      | error e => exact Yields.pure hb
      | ok s =>
          have hr : Lazy total S w r := ha
          have hs : Lazy total T w s := hb
          exact Yields.bind (yields_defer hf (.cons hr (.cons hs .nil))) fun _ _ _ hr' =>
            Yields.pure hr'

theorem Gives.zipWith {f : Function} {s t : Traversal} (hf : Maps total [S, T] U w f)
    (hs : Gives total S w s) (ht : Gives total T w t) : Gives total U w (.zipWith f s t) := by
  refine .of_step (fun w t' => ∃ s t, t' = .zipWith f s t ∧ Maps total [S, T] U w f ∧
    Gives total S w s ∧ Gives total T w t) ⟨s, t, rfl, hf, hs, ht⟩ ?_ ?_
  · rintro w w' t' hle ⟨s, t, rfl, hf, hs, ht⟩
    exact ⟨s, t, rfl, hf.mono hle, hs.mono hle, ht.mono hle⟩
  · rintro w t' ⟨s, t, rfl, hf, hs, ht⟩
    refine Yields.bind hs.next fun w' next hle hnext => ?_
    obtain ⟨a, left⟩ := next
    cases a with
    | none => exact Yields.pure (finds_none _)
    | some a =>
        obtain ⟨ha, hleft⟩ := hnext a rfl
        refine Yields.bind (ht.mono hle).next fun w'' next hle' hnext => ?_
        obtain ⟨b, right⟩ := next
        cases b with
        | none => exact Yields.pure (finds_none _)
        | some b =>
            obtain ⟨hb, hright⟩ := hnext b rfl
            have hf := hf.mono (hle.trans hle')
            refine Yields.bind (yields_zipItem hf (ha.mono hle') hb) fun w₃ item hle₃ hitem =>
              Yields.pure ?_
            exact finds_some hitem
              ⟨left, right, rfl, hf.mono hle₃, (hleft.mono hle').mono hle₃, hright.mono hle₃⟩

section Loops

/-- A loop that is bounded by the fuel of its runner, of which only the end is of interest. -/
theorem Yields.of_fuel {α : Type} {x : Nat → Runner → Run α} {P : World → α → Prop}
    (h : ∀ n, Yields false w (x n) P) : Yields false w (fun R => x R.fuel R) P :=
  ⟨fun ht => Bool.noConfusion ht, fun n a st hx => (h n).holds n a st hx⟩

theorem Returns.of_fuel {α : Type} {x : Nat → Runner → Eval α} {P : World → α → Prop}
    (h : ∀ n, Returns false w (x n) P) : Returns false w (fun R => x R.fuel R) P :=
  Yields.of_fuel h

theorem yields_outOfFuel {α : Type} {P : World → α → Prop} :
    Yields false w (fun _ => Run.outOfFuel) P :=
  ⟨fun ht => Bool.noConfusion ht, fun _ _ _ hx => nomatch hx⟩

theorem returns_outOfFuel {α : Type} {P : World → α → Prop} :
    Returns false w (fun _ => ExceptT.lift Run.outOfFuel) P :=
  ⟨fun ht => Bool.noConfusion ht, fun _ _ _ hx => nomatch hx⟩

/-- The search for an element that a predicate holds of. -/
theorem Gives.nextMatch {f : Function} {t : Traversal} (hf : Maps false [S] T w f)
    (h : Gives false S w t) (n : Nat) :
    Yields false w (fun R => Traversal.nextMatch R f n t) (Finds false S (Gives false S)) := by
  induction n generalizing w t with
  | zero => exact yields_outOfFuel
  | succ n ih =>
      refine Yields.bind h.next fun w' next hle hnext => ?_
      obtain ⟨item, rest⟩ := next
      cases item with
      | none => exact Yields.pure (finds_none _)
      | some item =>
          obtain ⟨hitem, hrest⟩ := hnext item rfl
          cases item with
          | error e => exact Yields.pure (finds_some hitem hrest)
          | ok r =>
              have hr : Lazy false S w' r := hitem
              have hf := hf.mono hle
              refine Yields.bind (hf.2 w' (le_refl w') [r] (.cons hr .nil)) fun w'' o hle' ho => ?_
              have hr := hr.mono hle'
              have hrest := hrest.mono hle'
              cases o with
              | error e => exact Yields.pure (finds_some ho hrest)
              | ok v =>
                  dsimp only
                  cases htruth : v.truthy "filter" with
                  | error e =>
                      refine Yields.pure (finds_some ?_ hrest)
                      cases v <;> cases htruth
                      all_goals rfl
                  | ok holds =>
                      cases holds with
                      | true => exact Yields.pure (finds_ok hr hrest)
                      | false => exact ih (hf.mono hle') hrest

theorem Gives.filter {f : Function} {t : Traversal} (hf : Maps false [S] T w f)
    (h : Gives false S w t) : Gives false S w (.filter f t) := by
  refine .of_step (fun w t' => ∃ t, t' = .filter f t ∧ Maps false [S] T w f ∧ Gives false S w t)
    ⟨t, rfl, hf, h⟩ ?_ ?_
  · rintro w w' t' hle ⟨t, rfl, hf, h⟩
    exact ⟨t, rfl, hf.mono hle, h.mono hle⟩
  · rintro w t' ⟨t, rfl, hf, h⟩
    refine Yields.bind (Yields.of_fuel fun n => h.nextMatch hf n) fun w' next hle hnext => ?_
    refine Yields.pure fun item hitem => ?_
    exact ⟨(hnext item hitem).1, next.2, rfl, hf.mono hle, (hnext item hitem).2⟩

/-- Going through the items of a traversal keeps what each step keeps. -/
theorem Gives.foldItems {β : Type} {step : Runner → β → Item → Eval (ForInStep β)}
    (I : World → β → Prop) (hmono : ∀ w w' acc, w ≤ w' → I w acc → I w' acc)
    (hstep : ∀ w' acc item, w ≤ w' → I w' acc → Elem false S w' item →
      Returns false w' (fun R => step R acc item) fun w'' result =>
        match result with
        | .done acc | .yield acc => I w'' acc)
    (n : Nat) {t : Traversal} (ht : Gives false S w t) {acc : β} (hacc : I w acc) :
    Returns false w (fun R => R.foldItems (step R) n t acc) I := by
  induction n generalizing w t acc with
  | zero => exact returns_outOfFuel
  | succ n ih =>
      refine Returns.bind (Returns.lift ht.next) fun w' next hle hnext => ?_
      have hacc := hmono w w' acc hle hacc
      obtain ⟨item, rest⟩ := next
      cases item with
      | none => exact Returns.pure hacc
      | some item =>
          obtain ⟨hitem, hrest⟩ := hnext item rfl
          refine Returns.bind (hstep w' acc item hle hacc hitem) fun w'' result hle' hresult => ?_
          cases result with
          | done acc => exact Returns.pure hresult
          | yield acc =>
              exact ih (fun w₃ acc item hle₃ => hstep w₃ acc item ((hle.trans hle').trans hle₃))
                (hrest.mono hle') hresult

/-- Elements that a traversal has given. -/
theorem Gives.drainReversed {t : Traversal} (ht : Gives false S w t) :
    Returns false w (fun R => R.drainReversed t)
      fun w refs => ∀ r ∈ refs, Lazy false S w r := by
  refine Returns.of_fuel (x := fun n R => R.foldItems
    (fun acc item => do return .yield ((← item) :: acc)) n t []) fun n => ?_
  refine ht.foldItems (fun w refs => ∀ r ∈ refs, Lazy false S w r)
    (fun w w' refs hle h r hr => (h r hr).mono hle) (fun w' refs item hle hrefs hitem => ?_) n
    fun r hr => absurd hr List.not_mem_nil
  refine Returns.bind (Returns.except hitem) fun w'' r hle' hr => Returns.pure ?_
  intro r' hr'
  rcases List.mem_cons.1 hr' with rfl | hr'
  · exact hr
  · exact (hrefs r' hr').mono hle'

end Loops

end LazyLang
