import LazyLang.Proofs.Evaluation.Simulation

/-!
# Simulations of traversals

Starting a traversal, moving it on and going through all of its items are followed by the same on an
alike traversal.
-/

namespace LazyLang.Simulation.Runs

open Filter Likeness

variable {S : Simulation} {R : Runner} {R' : ℕ → Runner} {w : S.World} {β : Type} {L : Likeness β}
  (h : S.Runs R R')

include h

theorem call {f g : Function} {xs ys : List Ref} (hf : f.Alike (S.related w) g)
    (hargs : ref.list (S.related w) xs ys) :
    S.FollowsEval w Value.Alike (R.call f xs) fun m => (R' m).call g ys := by
  refine h.apply hf ?_
  induction hargs with
  | nil => exact .nil
  | cons hr _ ih => exact .cons (.some hr) ih

theorem foldItems {step : β → Item → Eval (ForInStep β)} {step' : ℕ → β → Item → Eval (ForInStep β)}
    (hstep : ∀ ⦃w'⦄, w ≤ w' → ∀ ⦃acc acc' x y⦄, L (S.related w') acc acc' →
      item (S.related w') x y → S.FollowsEval w' L.stride (step acc x) fun m => step' m acc' y)
    (hL : L.Lawful) {n : ℕ} {k : ℕ → ℕ} (hk : ∀ᶠ m in atTop, n ≤ k m) {t t' : Traversal}
    (ht : t.Alike (S.related w) t') {acc acc' : β} (hacc : L (S.related w) acc acc') :
    S.FollowsEval w L (R.foldItems step n t acc) fun m =>
      (R' m).foldItems (step' m) (k m) t' acc' := by
  induction n generalizing w k t t' acc acc' with
  | zero => exact .exhausted _
  | succ n ih =>
      obtain ⟨k', hk', hpred⟩ := exists_pred hk
      suffices hfollows : S.FollowsEval w L (R.foldItems step (n + 1) t acc) fun m =>
          (R' m).foldItems (step' m) (k' m + 1) t' acc' from
        hfollows.congr (hpred.mono fun m hm => by rw [hm])
      simp only [Runner.foldItems]
      refine .seq (.lift (h.next ht)) fun w₁ hw₁ x y hxy => ?_
      obtain ⟨x, t⟩ := x
      obtain ⟨y, t'⟩ := y
      obtain ⟨hitem, ht⟩ := hxy
      cases hitem with
      | none => exact .ret (later hL hw₁ hacc)
      | some hitem =>
          refine .seq (hstep hw₁ (later hL hw₁ hacc) hitem) fun w₂ hw₂ o o' ho => ?_
          cases ho with
          | done hacc => exact .ret hacc
          | yield hacc =>
              refine ih (fun w₃ hw₃ => hstep ((hw₁.trans hw₂).trans hw₃)) hk' ?_ hacc
              exact later Traversal.Alike.lawful hw₂ ht

theorem drainReversed {t t' : Traversal} (ht : t.Alike (S.related w) t') :
    S.FollowsEval w ref.list (R.drainReversed t) fun m => (R' m).drainReversed t' := by
  refine h.foldItems (fun w₁ hw₁ acc acc' x y hacc hitem => ?_) lawful_ref.list h.fuel ht .nil
  refine .seq (.except hitem) fun w₂ hw₂ r s hr => .ret (.yield (.cons hr ?_))
  exact later lawful_ref.list hw₂ hacc

theorem traverse {s s' : Sequence} (hs : s.Alike (S.related w) s') :
    S.Follows w Traversal.Alike (s.traverse R) fun m => s'.traverse (R' m) := by
  induction s generalizing w s' with
  | values refs => cases hs with
      | values hrefs => exact .ret (.items (items_alike hrefs))
  | literal scope elements => cases hs with
      | literal hscope => exact .ret (.literal hscope elements)
  | integers first stop => cases hs; exact .ret (.integers first stop)
  | repeated r => cases hs with
      | repeated hr => exact .ret (.repeated hr)
  | iterate f r => cases hs with
      | iterate hf hr => exact .ret (.iterate hf (.some (.ok hr)))
  | drop count s ih => cases hs with
      | drop _ hs => exact .seq (ih hs) fun _ _ _ _ ht => .ret (.drop count ht)
  | take count s ih => cases hs with
      | take _ hs => exact .seq (ih hs) fun _ _ _ _ ht => .ret (.take count ht)
  | stepped step s ih => cases hs with
      | stepped _ hs => exact .seq (ih hs) fun _ _ _ _ ht => .ret (.stepped true step ht)
  | reverse s ih => cases hs with
      | reverse hs =>
          refine .seq (ih hs) fun _ _ _ _ ht => .seq (h.drainReversed ht) fun _ _ _ _ ho => ?_
          cases ho with
          | ok hrefs => exact .ret (.items (items_alike hrefs))
          | error e => exact .ret (.items (.cons (.error e) .nil))
  | selection start stop step s ih => cases hs with
      | selection _ _ _ hs =>
          refine .seq (ih hs) fun _ _ _ _ ht => .seq (h.drainReversed ht) fun _ _ _ _ ho => ?_
          cases ho with
          | ok hrefs =>
              have hitems := Sequence.Alike.select (List.rel_reverse hrefs) start stop step
              exact .ret (.items hitems)
          | error e => exact .ret (.items (.cons (.error e) .nil))
  | concat s t ihs iht => cases hs with
      | concat hs ht =>
          refine .seq (ihs hs) fun _ hw _ _ hfirst => ?_
          refine .seq (iht (later Sequence.Alike.lawful hw ht)) fun _ hw' _ _ hsecond => ?_
          exact .ret (.concat (later Traversal.Alike.lawful hw' hfirst) hsecond)
  | map f s ih => cases hs with
      | map hf hs =>
          exact .seq (ih hs) fun _ hw _ _ ht =>
            .ret (.map (later Function.Alike.lawful hw hf) ht)
  | filter f s ih => cases hs with
      | filter hf hs =>
          exact .seq (ih hs) fun _ hw _ _ ht =>
            .ret (.filter (later Function.Alike.lawful hw hf) ht)
  | zipWith f s t ihs iht => cases hs with
      | zipWith hf hs ht =>
          refine .seq (ihs hs) fun _ hw _ _ hleft => ?_
          refine .seq (iht (later Sequence.Alike.lawful hw ht)) fun _ hw' _ _ hright => ?_
          exact .ret (.zipWith (later Function.Alike.lawful (hw.trans hw') hf)
            (later Traversal.Alike.lawful hw' hleft) hright)
  | watched tag items => cases hs with
      | watched _ hitems =>
          exact .seq (.note _) fun _ hw _ _ _ =>
            .ret (.watched tag 0 (later lawful_item.list hw hitems))

theorem fold {step : β → Item → Eval (ForInStep β)} {step' : ℕ → β → Item → Eval (ForInStep β)}
    (hstep : ∀ ⦃w'⦄, w ≤ w' → ∀ ⦃acc acc' x y⦄, L (S.related w') acc acc' →
      item (S.related w') x y → S.FollowsEval w' L.stride (step acc x) fun m => step' m acc' y)
    (hL : L.Lawful) {s s' : Sequence} (hs : s.Alike (S.related w) s') {start start' : β}
    (hstart : L (S.related w) start start') :
    S.FollowsEval w L (R.fold s start step) fun m => (R' m).fold s' start' (step' m) := by
  refine .seq (.lift (h.traverse hs)) fun _ hw _ _ ht => ?_
  exact h.foldItems (fun _ hw' => hstep (hw.trans hw')) hL h.fuel ht (later hL hw hstart)

theorem toList {s s' : Sequence} (hs : s.Alike (S.related w) s') :
    S.FollowsEval w ref.list (R.toList s) fun m => (R' m).toList s' :=
  .seq (.lift (h.traverse hs)) fun _ _ _ _ ht =>
    .seq (h.drainReversed ht) fun _ _ _ _ hrefs => .ret (List.rel_reverse hrefs)

theorem ahead (n : ℕ) {t t' : Traversal} (ht : t.Alike (S.related w) t') :
    S.Follows w Likeness.next (t.ahead R n) fun m => t'.ahead (R' m) n := by
  induction n generalizing w t t' with
  | zero => exact h.next ht
  | succ n ih =>
      refine .seq (h.next ht) fun _ _ (x, t) (y, t') ⟨hitem, ht⟩ => ?_
      cases hitem with
      | none => exact .ret ⟨.none, ht⟩
      | some hitem => exact ih ht

theorem nextMatch {f g : Function} (hf : f.Alike (S.related w) g) {n : ℕ} {k : ℕ → ℕ}
    (hk : ∀ᶠ m in atTop, n ≤ k m) {t t' : Traversal} (ht : t.Alike (S.related w) t') :
    S.Follows w Likeness.next (Traversal.nextMatch R f n t) fun m =>
      Traversal.nextMatch (R' m) g (k m) t' := by
  induction n generalizing w k t t' with
  | zero => exact .exhausted _
  | succ n ih =>
      obtain ⟨k', hk', hpred⟩ := exists_pred hk
      suffices hfollows : S.Follows w Likeness.next (Traversal.nextMatch R f (n + 1) t) fun m =>
          Traversal.nextMatch (R' m) g (k' m + 1) t' from
        hfollows.congr (hpred.mono fun m hm => by rw [hm])
      simp only [Traversal.nextMatch]
      refine .seq (h.next ht) fun _ hw (x, t) (y, t') ⟨hitem, ht⟩ => ?_
      have hf := later Function.Alike.lawful hw hf
      cases hitem with
      | none => exact .ret ⟨.none, ht⟩
      | some hitem =>
          cases hitem with
          | error e => exact .ret ⟨.some (.error e), ht⟩
          | ok hr =>
              refine .seq (h.call hf (.cons hr .nil)) fun _ hw' _ _ ho => ?_
              have ht := later Traversal.Alike.lawful hw' ht
              cases ho with
              | error e => exact .ret ⟨.some (.error e), ht⟩
              | @ok v v' hv =>
                  dsimp only
                  rw [hv.truthy_eq]
                  cases v'.truthy "filter" with
                  | error e => exact .ret ⟨.some (.error e), ht⟩
                  | ok holds =>
                      cases holds with
                      | true => exact .ret ⟨.some (.ok (S.related_mono hw' hr)), ht⟩
                      | false => exact ih (later Function.Alike.lawful hw' hf) hk' ht

theorem successor {f g : Function} (hf : f.Alike (S.related w) g) {x y : Item}
    (hitem : item (S.related w) x y) :
    S.Follows w item.option (Traversal.successor R f x) fun m =>
      Traversal.successor (R' m) g y := by
  cases hitem with
  | error e => exact .ret .none
  | ok hr =>
      refine .seq (h.force hr) fun _ hw _ _ ho => ?_
      cases ho with
      | error e => exact .ret (.some (.error e))
      | ok _ =>
          have hthunk : Thunk.Alike _ (.call f [_]) (.call g [_]) :=
            .call (later Function.Alike.lawful hw hf) (.cons (S.related_mono hw hr) .nil)
          exact .seq (.defer hthunk) fun _ _ _ _ hs => .ret (.some (.ok hs))

omit h in
theorem mapItem {f g : Function} (hf : f.Alike (S.related w) g) {x y : Item}
    (hitem : item (S.related w) x y) :
    S.Follows w item (Traversal.mapItem f x) fun _ => Traversal.mapItem g y := by
  cases hitem with
  | error e => exact .ret (.error e)
  | ok hr => exact .seq (.defer (.call hf (.cons hr .nil))) fun _ _ _ _ hs => .ret (.ok hs)

omit h in
theorem zipItem {f g : Function} (hf : f.Alike (S.related w) g) {x y x' y' : Item}
    (hitem : item (S.related w) x y) (hitem' : item (S.related w) x' y') :
    S.Follows w item (Traversal.zipItem f x x') fun _ => Traversal.zipItem g y y' := by
  cases hitem with
  | error e => exact .ret (.error e)
  | ok hr =>
      cases hitem' with
      | error e => exact .ret (.error e)
      | ok hs =>
          exact .seq (.defer (.call hf (.cons hr (.cons hs .nil)))) fun _ _ _ _ hnew =>
            .ret (.ok hnew)

/-- Moving a traversal on. -/
theorem step {t t' : Traversal} (ht : t.Alike (S.related w) t') :
    S.Follows w Likeness.next (t.step R) fun m => t'.step (R' m) := by
  cases ht with
  | items hitems =>
      cases hitems with
      | nil => exact .ret ⟨.none, .items .nil⟩
      | cons hitem hrest => exact .ret ⟨.some hitem, .items hrest⟩
  | literal hscope rest =>
      cases rest with
      | nil => exact .ret ⟨.none, .literal hscope []⟩
      | cons e rest =>
          exact .seq (.suspend e hscope) fun _ hw _ _ hr =>
            .ret ⟨.some (.ok hr), .literal (later lawful_scope hw hscope) rest⟩
  | integers next stop =>
      simp only [Traversal.step]
      split
      · exact .seq (.add (.done (.ok (.integer _)))) fun _ _ _ _ hr =>
          .ret ⟨.some (.ok hr), .integers (next + 1) stop⟩
      · exact .ret ⟨.none, .integers next stop⟩
  | repeated hr => exact .ret ⟨.some (.ok hr), .repeated hr⟩
  | iterate hf hnext =>
      cases hnext with
      | none => exact .ret ⟨.none, .iterate hf .none⟩
      | some hitem =>
          exact .seq (h.successor hf hitem) fun _ hw _ _ hnext =>
            .ret ⟨.some (later lawful_item hw hitem),
              .iterate (later Function.Alike.lawful hw hf) hnext⟩
  | drop count ht =>
      exact .seq (h.ahead count ht) fun _ _ _ _ hnext => .ret ⟨hnext.1, .drop 0 hnext.2⟩
  | take count ht =>
      cases count with
      | zero => exact .ret ⟨.none, .take 0 ht⟩
      | succ count =>
          exact .seq (h.next ht) fun _ _ _ _ hnext => .ret ⟨hnext.1, .take count hnext.2⟩
  | stepped fresh step ht =>
      exact .seq (h.ahead _ ht) fun _ _ _ _ hnext => .ret ⟨hnext.1, .stepped false step hnext.2⟩
  | concat hfirst hsecond =>
      refine .seq (h.next hfirst) fun _ hw (x, t) (y, t') ⟨hitem, ht⟩ => ?_
      have hsecond := later Traversal.Alike.lawful hw hsecond
      cases hitem with
      | none => exact h.next hsecond
      | some hitem => exact .ret ⟨.some hitem, .concat ht hsecond⟩
  | map hf ht =>
      refine .seq (h.next ht) fun _ hw (x, t) (y, t') ⟨hitem, ht⟩ => ?_
      have hf := later Function.Alike.lawful hw hf
      cases hitem with
      | none => exact .ret ⟨.none, .map hf ht⟩
      | some hitem =>
          exact .seq (mapItem hf hitem) fun _ hw' _ _ hnew =>
            .ret ⟨.some hnew, .map (later Function.Alike.lawful hw' hf)
              (later Traversal.Alike.lawful hw' ht)⟩
  | filter hf ht =>
      exact .seq (h.nextMatch hf h.fuel ht) fun _ hw _ _ hnext =>
        .ret ⟨hnext.1, .filter (later Function.Alike.lawful hw hf) hnext.2⟩
  | zipWith hf hleft hright =>
      refine .seq (h.next hleft) fun _ hw (x, t) (y, t') ⟨hitem, hleft⟩ => ?_
      have hf := later Function.Alike.lawful hw hf
      have hright := later Traversal.Alike.lawful hw hright
      cases hitem with
      | none => exact .ret ⟨.none, .zipWith hf hleft hright⟩
      | some hitem =>
          refine .seq (h.next hright) fun _ hw' (x', u) (y', u') ⟨hitem', hright⟩ => ?_
          have hf := later Function.Alike.lawful hw' hf
          have hleft := later Traversal.Alike.lawful hw' hleft
          cases hitem' with
          | none => exact .ret ⟨.none, .zipWith hf hleft hright⟩
          | some hitem' =>
              refine .seq (zipItem hf (later lawful_item hw' hitem) hitem') fun _ hw₂ _ _ hnew => ?_
              exact .ret ⟨.some hnew, .zipWith (later Function.Alike.lawful hw₂ hf)
                (later Traversal.Alike.lawful hw₂ hleft) (later Traversal.Alike.lawful hw₂ hright)⟩
  | watched tag index hitems =>
      cases hitems with
      | nil => exact .ret ⟨.none, .watched tag index .nil⟩
      | cons hitem hrest =>
          exact .seq (.note _) fun _ hw _ _ _ =>
            .ret ⟨.some (later lawful_item hw hitem),
              .watched tag (index + 1) (later lawful_item.list hw hrest)⟩

end LazyLang.Simulation.Runs
