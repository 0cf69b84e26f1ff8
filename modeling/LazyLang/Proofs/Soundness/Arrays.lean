import LazyLang.Proofs.Soundness.Traversals

/-!
# Arrays hold what their sources hold

One lemma for each recipe of an array, from the lemma about its traversals. Reversing an array and
selecting from its end go through all of it before they give anything.
-/

namespace LazyLang

variable {total : Bool} {w w' : World} {S T U : Kind}

namespace Holds

theorem mono {s : Sequence} (h : Holds total S w s) (hle : w ≤ w') : Holds total S w' s :=
  fun w'' hle' => h w'' (hle.trans hle')

theorem traverse {s : Sequence} (h : Holds total S w s) :
    Yields total w (fun R => s.traverse R) (Gives total S) :=
  h w (le_refl w)

theorem integers (hS : ∀ w i, S.holds w (.integer i)) (first stop : Int) :
    Holds total S w (.integers first stop) :=
  fun _ _ => Yields.pure (Gives.integers hS first stop)

theorem repeated {r : Ref} (h : Lazy total S w r) : Holds total S w (.repeated r) :=
  fun _ hle => Yields.pure (Gives.repeated (h.mono hle))

theorem iterate {f : Function} {seed : Ref} (hf : Maps total [S] S w f)
    (hseed : Lazy total S w seed) : Holds total S w (.iterate f seed) := by
  refine fun w' hle => Yields.pure (Gives.iterate (hf.mono hle) fun item hitem => ?_)
  cases hitem
  exact hseed.mono hle

theorem drop {s : Sequence} (h : Holds total S w s) (n : Nat) : Holds total S w (.drop n s) :=
  fun w' hle => Yields.bind (h w' hle) fun _ _ _ ht => Yields.pure (ht.drop n)

theorem take {s : Sequence} (h : Holds total S w s) (n : Nat) : Holds total S w (.take n s) :=
  fun w' hle => Yields.bind (h w' hle) fun _ _ _ ht => Yields.pure (ht.take n)

theorem stepped {s : Sequence} (h : Holds total S w s) (n : Nat) :
    Holds total S w (.stepped n s) :=
  fun w' hle => Yields.bind (h w' hle) fun _ _ _ ht => Yields.pure (ht.stepped true n)

theorem concat {s t : Sequence} (hs : Holds total S w s) (ht : Holds total S w t) :
    Holds total S w (.concat s t) :=
  fun w' hle => Yields.bind (hs w' hle) fun w'' _ hle' hs' =>
    Yields.bind (ht w'' (hle.trans hle')) fun _ _ hle'' ht' =>
      Yields.pure ((hs'.mono hle'').concat ht')

theorem map {f : Function} {s : Sequence} (hf : Maps total [S] T w f) (h : Holds total S w s) :
    Holds total T w (.map f s) :=
  fun w' hle => Yields.bind (h w' hle) fun _ _ hle' ht =>
    Yields.pure (Gives.map (hf.mono (hle.trans hle')) ht)

theorem filter {f : Function} {s : Sequence} (hf : Maps false [S] T w f) (h : Holds false S w s) :
    Holds false S w (.filter f s) :=
  fun w' hle => Yields.bind (h w' hle) fun _ _ hle' ht =>
    Yields.pure (Gives.filter (hf.mono (hle.trans hle')) ht)

theorem zipWith {f : Function} {s t : Sequence} (hf : Maps total [S, T] U w f)
    (hs : Holds total S w s) (ht : Holds total T w t) : Holds total U w (.zipWith f s t) :=
  fun w' hle => Yields.bind (hs w' hle) fun w'' _ hle' hs' =>
    Yields.bind (ht w'' (hle.trans hle')) fun _ _ hle'' ht' =>
      Yields.pure (Gives.zipWith (hf.mono ((hle.trans hle').trans hle'')) (hs'.mono hle'') ht')

theorem items_of_refs {refs : List Ref} (h : ∀ r ∈ refs, Lazy total S w r) :
    Gives total S w (.items (refs.map .ok)) := by
  refine Gives.items fun item hitem => ?_
  obtain ⟨r, hr, rfl⟩ := List.mem_map.1 hitem
  exact h r hr

theorem items_of_error {e : RuntimeError} (h : e.allowed = true) :
    Gives total S w (.items [.error e]) := by
  refine Gives.items fun item hitem => ?_
  cases List.mem_singleton.1 hitem
  exact h

theorem reverse {s : Sequence} (h : Holds false S w s) : Holds false S w (.reverse s) := by
  refine fun w' hle => Yields.bind (h w' hle) fun w'' t _ ht => ?_
  refine Yields.bind ht.drainReversed fun w₃ o _ ho => ?_
  cases o with
  | ok refs => exact Yields.pure (items_of_refs ho)
  | error e => exact Yields.pure (items_of_error ho)

theorem mem_select {elements : List Ref} {start stop : Option Int} {step : Int} {item : Item}
    (h : item ∈ Sequence.select elements start stop step) : ∃ r ∈ elements, item = .ok r := by
  obtain ⟨i, -, hi⟩ := List.mem_filterMap.1 h
  obtain ⟨r, hr, rfl⟩ := Option.map_eq_some_iff.1 hi
  exact ⟨r, List.mem_toArray.1 (Array.mem_of_getElem? hr), rfl⟩

theorem selection {s : Sequence} (h : Holds false S w s) (start stop : Option Int) (step : Int) :
    Holds false S w (.selection start stop step s) := by
  refine fun w' hle => Yields.bind (h w' hle) fun w'' t _ ht => ?_
  refine Yields.bind ht.drainReversed fun w₃ o _ ho => ?_
  cases o with
  | error e => exact Yields.pure (items_of_error ho)
  | ok refs =>
      refine Yields.pure (Gives.items fun item hitem => ?_)
      obtain ⟨r, hr, rfl⟩ := mem_select hitem
      exact ho r (List.mem_reverse.1 hr)

/-- The elements of a slice, picked or selected. -/
theorem sliceOf {s : Sequence} (h : Holds false S w s) (start stop : Option Int) (step : Int) :
    Holds false S w (Runner.sliceOf s start stop step) := by
  unfold Runner.sliceOf
  split
  · dsimp only
    split
    · exact ((h.drop _).take _).stepped _
    · exact (h.drop _).stepped _
  · exact h.selection start stop step

/-- Going through an array keeps what each step keeps. -/
theorem fold {β : Type} {step : Runner → β → Item → Eval (ForInStep β)} {s : Sequence}
    (hs : Holds false S w s) (I : World → β → Prop)
    (hmono : ∀ w w' acc, w ≤ w' → I w acc → I w' acc)
    (hstep : ∀ w' acc item, w ≤ w' → I w' acc → Elem false S w' item →
      Returns false w' (fun R => step R acc item) fun w'' result =>
        match result with
        | .done acc | .yield acc => I w'' acc)
    {acc : β} (hacc : I w acc) : Returns false w (fun R => R.fold s acc (step R)) I := by
  refine Returns.bind (Returns.lift hs.traverse) fun w' t hle ht => ?_
  refine Returns.of_fuel (x := fun n R => R.foldItems (step R) n t acc) fun n => ?_
  exact ht.foldItems I hmono (fun w'' acc item hle' => hstep w'' acc item (hle.trans hle')) n
    (hmono w w' acc hle hacc)

theorem toList {s : Sequence} (hs : Holds false S w s) :
    Returns false w (fun R => R.toList s) fun w refs => ∀ r ∈ refs, Lazy false S w r := by
  refine Returns.bind (Returns.lift hs.traverse) fun w' t _ ht => ?_
  refine Returns.bind ht.drainReversed fun w'' refs _ hrefs => Returns.pure fun r hr => ?_
  exact hrefs r (List.mem_reverse.1 hr)

end Holds

end LazyLang
