import Mathlib.Algebra.Order.Field.Basic
import Mathlib.Data.Rat.Lemmas
import Mathlib.Tactic.Linarith
import LazyLang.Proofs.Memoization.ByName

/-!
# The history of a store

A store with memoization is explained by what its cells held when they were added, by an order in
which each cell comes after everything its outcome may refer to, and by the store of a run by name.
A cell that is pending still holds what it held at first, and the outcome in a cell that is done is
one that a run by name also gives. What a running program can refer to comes before every cell that
is being forced, so that no value is found to depend on itself.

The ranks of cells are rational numbers, since new cells have to be put between old ones: while a
cell is being forced they come after what its computation refers to and before the cell itself.
-/

namespace LazyLang

open Filter Likeness

/-- What the cells of a store held when they were added, and where they come in order. The cells
that a cell refers to come before its floor, and those that its computation adds after it. -/
structure Past where
  origin : Store
  rank : Ref → ℚ
  floor : Ref → ℚ
  floor_lt_rank : ∀ r, floor r < rank r

namespace Past

variable {P P' : Past} {r s : Ref}

/-- Whether a reference comes before the floor of another. -/
def below (P : Past) (a r : Ref) : Prop := P.rank a < P.floor r

/-- Whether there is such a cell. -/
def Has (P : Past) (r : Ref) : Prop := r.index < P.origin.cells.size

/-- A later past has further cells. -/
structure Grows (P P' : Past) : Prop where
  origin : P.origin.Extends P'.origin
  rank : ∀ r, P.Has r → P'.rank r = P.rank r
  floor : ∀ r, P.Has r → P'.floor r = P.floor r

theorem Grows.refl (P : Past) : P.Grows P := ⟨.refl _, fun _ _ => rfl, fun _ _ => rfl⟩

theorem Grows.has (h : P.Grows P') (hr : P.Has r) : P'.Has r := h.origin.lt_size hr

theorem Grows.trans {P'' : Past} (h : P.Grows P') (h' : P'.Grows P'') : P.Grows P'' where
  origin := h.origin.trans h'.origin
  rank r hr := (h'.rank r (h.has hr)).trans (h.rank r hr)
  floor r hr := (h'.floor r (h.has hr)).trans (h.floor r hr)

theorem Grows.below (h : P.Grows P') (hr : P.Has r) (hs : P.Has s) (hrs : P.below r s) :
    P'.below r s := by
  rw [Past.below, h.rank r hr, h.floor s hs]
  exact hrs

/-- The past with a further cell of the given rank and floor. -/
def add (P : Past) (c : Cell) {floor rank : ℚ} (h : floor < rank) : Past where
  origin := (P.origin.add c).2
  rank := Function.update P.rank (P.origin.add c).1 rank
  floor := Function.update P.floor (P.origin.add c).1 floor
  floor_lt_rank r := by
    by_cases hr : r = (P.origin.add c).1
    · subst hr
      rw [Function.update_self, Function.update_self]
      exact h
    · rw [Function.update_of_ne hr, Function.update_of_ne hr]
      exact P.floor_lt_rank r

theorem ne_add_of_has (h : P.Has r) (c : Cell) : r ≠ (P.origin.add c).1 := by
  rintro rfl
  exact lt_irrefl _ h

theorem has_of_add {c : Cell} {floor rank : ℚ} {h : floor < rank} (hr : (P.add c h).Has r)
    (hne : r ≠ (P.origin.add c).1) : P.Has r := by
  have hlt : r.index < P.origin.cells.size + 1 := by
    rw [← Array.size_push]
    exact hr
  exact (Nat.lt_succ_iff_lt_or_eq.1 hlt).resolve_right fun heq => hne (congrArg Ref.mk heq)

theorem grows_add (P : Past) (c : Cell) {floor rank : ℚ} (h : floor < rank) :
    P.Grows (P.add c h) where
  origin := .add P.origin c
  rank _ hr := Function.update_of_ne (ne_add_of_has hr c) _ _
  floor _ hr := Function.update_of_ne (ne_add_of_has hr c) _ _

/-- The cell and a cell of another store hold alike data at first, and so do the cells that they
refer to. -/
def Named (P : Past) (names : Store) (r s : Ref) : Prop :=
  Bisimilar P.below P.origin names r s

theorem Named.mono {names names' : Store} (h : P.Named names r s) (hP : P.Grows P')
    (hnames : names.Extends names') : P'.Named names' r s :=
  Bisimilar.mono h hP.origin hnames fun _ _ => hP.below

/-- A run by name gives the outcome, and what the outcome refers to comes before the cell. -/
def Computes (P : Past) (r : Ref) (o : Except RuntimeError Value) : Prop :=
  ∃ names s fuel o' names', P.Named names r s ∧
    ((Runner.byName fuel).force s).run names = some (o', names') ∧
      outcome Value.Alike (fun a b => P.Named names' a b ∧ P.rank a < P.rank r) o o'

theorem Computes.mono {o : Except RuntimeError Value} (h : P.Computes r o) (hP : P.Grows P') :
    P'.Computes r o := by
  obtain ⟨names, s, fuel, o', names', hr, hrun, ho⟩ := h
  refine ⟨names, s, fuel, o', names', hr.mono hP (.refl _), hrun, ?_⟩
  refine Value.Alike.lawful.outcome.mono (fun a b hab => ?_) ho
  rw [hP.rank a hab.1.lt_left, hP.rank r hr.lt_left]
  exact ⟨hab.1.mono hP (.refl _), hab.2⟩

/-- The outcome of a cell is also given by every run by name from a cell that is like it. -/
theorem Computes.rerun {o : Except RuntimeError Value} (h : P.Computes r o) {names : Store}
    (hr : P.Named names r s) :
    ∃ o' names', (∀ᶠ m in atTop, ((Runner.byName m).force s).run names = some (o', names')) ∧
      names.Extends names' ∧
        outcome Value.Alike (fun a b => P.Named names' a b ∧ P.rank a < P.rank r) o o' := by
  obtain ⟨names₀, s₀, fuel, o₀, names₁, hr₀, hrun, ho₀⟩ := h
  have hbisimilar : Bisimilar Ref.Unordered names₀ names s₀ s := hr₀.flip.trans hr
  have hruns := Simulation.runs_byName_bisimilar (n := fuel) (k := id) (eventually_ge_atTop fuel)
  obtain ⟨w, hw, o', _, hall, ⟨rfl, rfl⟩, ho'⟩ :=
    hruns.force (w := (names₀, names)) hbisimilar ⟨rfl, rfl⟩ hrun
  refine ⟨o', w.2, hall, hw.2, ?_⟩
  exact Value.Alike.lawful.outcome.trans (fun a b c hab hbc => ⟨hab.1.trans hbc, hab.2⟩) ho₀ ho'

end Past

/-- The past of a store together with the store of a run by name, the cells that are being forced,
and where the running program is: it refers to cells that come before `low`, while those that are
being forced do not come before `high`. -/
structure History extends Past where
  names : Store
  forced : Ref → Prop
  low : ℚ
  high : ℚ
  low_lt_high : low < high

namespace History

variable {H H' : History} {st names : Store} {r s : Ref}

/-- A reference of the running program and its counterpart in the run by name. -/
def Related (H : History) (r s : Ref) : Prop := H.Named H.names r s ∧ H.rank r < H.low

/-- A later history with the same cells being forced. Cells that were added come before where the
program is now. -/
structure Later (H H' : History) : Prop where
  past : H.Grows H'.toPast
  names : H.names.Extends H'.names
  forced : H'.forced = H.forced
  low : H.low ≤ H'.low
  high : H'.high = H.high
  added : ∀ r, H'.Has r → ¬ H.Has r → H'.rank r < H'.low

instance : Preorder History where
  le := Later
  le_refl H := ⟨.refl _, .refl _, rfl, le_refl _, rfl, fun _ h h' => absurd h h'⟩
  le_trans H₁ H₂ H₃ h h' :=
    { past := h.past.trans h'.past
      names := h.names.trans h'.names
      forced := h'.forced.trans h.forced
      low := h.low.trans h'.low
      high := h'.high.trans h.high
      added := fun r hr hr₁ => by
        by_cases hr₂ : H₂.Has r
        · rw [h'.past.rank r hr₂]
          exact (h.added r hr₂ hr₁).trans_le h'.low
        · exact h'.added r hr hr₂ }

theorem Related.mono (h : H.Related r s) (hH : H ≤ H') : H'.Related r s := by
  refine ⟨h.1.mono hH.past hH.names, ?_⟩
  rw [hH.past.rank r h.1.lt_left]
  exact h.2.trans_le hH.low

/-- What a cell may hold now. -/
def Allows (H : History) (r : Ref) : Cell → Prop
  | .pending thunk => H.origin.cell r = .pending thunk
  | .forcing => H.forced r
  | .done o => H.Computes r o

/-- The history explains what a store holds now, next to the store of a run by name. Every cell has
a counterpart there. -/
structure Explains (H : History) (st names : Store) : Prop where
  names : names = H.names
  size : st.cells.size = H.origin.cells.size
  forced : ∀ r, H.forced r → H.Has r ∧ H.high ≤ H.rank r
  cells : ∀ r, H.Has r → H.Allows r (st.cell r)
  named : ∀ r, H.Has r → ∃ s, H.Named H.names r s

theorem Allows.mono {c : Cell} (h : H.Allows r c) (hr : H.Has r) (hP : H.Grows H'.toPast)
    (hforced : H.forced r → H'.forced r) : H'.Allows r c := by
  cases c with
  | pending thunk => exact (hP.origin.2 r hr).trans h
  | forcing => exact hforced h
  | done o => exact Past.Computes.mono h hP

theorem low_lt_third (H : History) : H.low < (2 * H.low + H.high) / 3 := by
  have hlow := H.low_lt_high
  linarith

theorem third_lt_third (H : History) : (2 * H.low + H.high) / 3 < (H.low + 2 * H.high) / 3 := by
  have hlow := H.low_lt_high
  linarith

/-- The history with new cells on both sides. They come between what the program refers to and what
is being forced. -/
def add (H : History) (c c' : Cell) : History :=
  { H.toPast.add c H.low_lt_third with
    names := (H.names.add c').2
    forced := H.forced
    low := (H.low + 2 * H.high) / 3
    high := H.high
    low_lt_high := by
      have hlow := H.low_lt_high
      linarith }

theorem grows_add (H : History) (c c' : Cell) : H.Grows (H.add c c').toPast :=
  H.toPast.grows_add c H.low_lt_third

theorem rank_add_self (H : History) (c c' : Cell) :
    (H.add c c').rank (H.origin.add c).1 = (2 * H.low + H.high) / 3 := Function.update_self ..

theorem floor_add_self (H : History) (c c' : Cell) :
    (H.add c c').floor (H.origin.add c).1 = H.low := Function.update_self ..

theorem has_of_add {c c' : Cell} (hr : (H.add c c').Has r) : r = (H.origin.add c).1 ∨ H.Has r :=
  or_iff_not_imp_left.2 (Past.has_of_add (h := H.low_lt_third) hr)

theorem rank_lt_low_of_add (H : History) (c c' : Cell) :
    (H.add c c').rank (H.origin.add c).1 < (H.add c c').low := by
  rw [rank_add_self]
  exact H.third_lt_third

theorem le_add (H : History) (c c' : Cell) : H ≤ H.add c c' where
  past := H.grows_add c c'
  names := .add H.names c'
  forced := rfl
  low := (H.low_lt_third.trans H.third_lt_third).le
  high := rfl
  added r hr hold := by
    obtain rfl := (has_of_add hr).resolve_right hold
    exact H.rank_lt_low_of_add c c'

theorem Related.rank_add {c c' : Cell} (h : H.Related r s) : (H.add c c').rank r < H.low := by
  rw [(H.grows_add c c').rank r h.1.lt_left]
  exact h.2

/-- New cells with alike contents are counterparts. -/
theorem named_add {c c' : Cell} (hc : c.Alike H.Related c') :
    (H.add c c').Named (H.add c c').names (H.origin.add c).1 (H.names.add c').1 := by
  refine .add (hc.mono fun a b hab => ⟨hab.1.mono (H.grows_add c c') (.add H.names c'), ?_⟩)
  change (H.add c c').rank a < (H.add c c').floor (H.origin.add c).1
  rw [floor_add_self]
  exact hab.rank_add

/-- A new cell may hold what it holds at first. -/
theorem allows_add {c c' : Cell} (hc : c.Alike H.Related c') :
    (H.add c c').Allows (H.origin.add c).1 c := by
  have hnamed := named_add hc
  cases hc with
  | pending _ => exact Store.cell_add_self _ _
  | @done o o' ho =>
      have hrun := Runner.rerun_of_done (.byName 0) (Store.cell_add_self (.done o') H.names)
      refine ⟨_, _, 1, _, _, hnamed, hrun, ?_⟩
      refine Value.Alike.lawful.outcome.mono (fun a b hab => ⟨?_, ?_⟩) ho
      · exact hab.1.mono (H.grows_add _ _) (.add H.names _)
      · rw [rank_add_self]
        exact hab.rank_add.trans H.low_lt_third

/-- Adding alike cells on both sides is explained by a later history, in which they are
counterparts. -/
theorem Explains.add (h : H.Explains st names) {c c' : Cell} (hc : c.Alike H.Related c') :
    (H.add c c').Explains (st.add c).2 (names.add c').2 ∧
      (H.add c c').Related (st.add c).1 (names.add c').1 := by
  obtain rfl := h.names
  have hnew : (st.add c).1 = (H.origin.add c).1 := congrArg Ref.mk h.size
  have hgrows := H.grows_add c c'
  have hnamed := named_add hc
  refine ⟨⟨rfl, ?_, fun r hr => ?_, fun r hr => ?_, fun r hr => ?_⟩, ?_, ?_⟩
  · change (st.cells.push c).size = (H.origin.cells.push c).size
    rw [Array.size_push, Array.size_push, h.size]
  · obtain ⟨hhas, hhigh⟩ := h.forced r hr
    exact ⟨hgrows.has hhas, hhigh.trans_eq (hgrows.rank r hhas).symm⟩
  · rcases has_of_add hr with rfl | hr
    · rw [← hnew, Store.cell_add_self, hnew]
      exact allows_add hc
    · rw [Store.cell_add_of_lt (hr.trans_eq h.size.symm)]
      exact (h.cells r hr).mono hr hgrows id
  · rcases has_of_add hr with rfl | hr
    · exact ⟨_, hnamed⟩
    · obtain ⟨s, hs⟩ := h.named r hr
      exact ⟨s, hs.mono hgrows (.add H.names c')⟩
  · rw [hnew]
    exact hnamed
  · rw [hnew]
    exact H.rank_lt_low_of_add c c'

/-- The history next to another store of the run by name. -/
def rename (H : History) (names : Store) : History := { H with names := names }

theorem le_rename (h : H.names.Extends names) : H ≤ H.rename names where
  past := .refl _
  names := h
  forced := rfl
  low := le_refl _
  high := rfl
  added _ hr hr' := absurd hr hr'

/-- The run by name may go on by itself, and events do not matter. -/
theorem Explains.rename {st' names' : Store} (h : H.Explains st names)
    (hst : st'.cells = st.cells) (hnames : names.Extends names') :
    (H.rename names').Explains st' names' where
  names := rfl
  size := (congrArg Array.size hst).trans h.size
  forced := h.forced
  cells r hr := by
    have hcell : st'.cell r = st.cell r := by rw [Store.cell, hst, Store.cell]
    rw [hcell]
    exact (h.cells r hr).mono hr (.refl _) id
  named r hr := by
    obtain rfl := h.names
    obtain ⟨s, hs⟩ := h.named r hr
    exact ⟨s, hs.mono (.refl _) hnames⟩

/-- The history when the forcing of a cell begins: the program that computes its outcome refers to
what comes before the floor of the cell. -/
def enter (H : History) (r : Ref) : History :=
  { H with
    forced := fun s => H.forced s ∨ s = r
    low := H.floor r
    high := H.rank r
    low_lt_high := H.floor_lt_rank r }

/-- Marking a cell of the running program as being forced. -/
theorem Explains.enter (h : H.Explains st names) (hr : H.Related r s) :
    (H.enter r).Explains (st.set r .forcing) names where
  names := h.names
  size := by
    change (st.cells.setIfInBounds r.index .forcing).size = _
    rw [Array.size_setIfInBounds]
    exact h.size
  forced x hx := by
    rcases hx with hx | rfl
    · obtain ⟨hhas, hhigh⟩ := h.forced x hx
      exact ⟨hhas, ((hr.2.trans H.low_lt_high).trans_le hhigh).le⟩
    · exact ⟨hr.1.lt_left, le_refl _⟩
  cells x hx := by
    -- only the cell that is marked holds something else than before
    by_cases hxr : x = r
    · subst hxr
      rw [Store.cell_set_self (hr.1.lt_left.trans_eq h.size.symm)]
      exact .inr rfl
    · rw [Store.cell_set_of_ne (Ne.symm hxr)]
      exact (h.cells x hx).mono hx (.refl _) .inl
  named := h.named

/-- The program does not refer to a cell that is being forced. -/
theorem Explains.ne_forcing (h : H.Explains st names) (hr : H.Related r s) :
    st.cell r ≠ .forcing := by
  intro hcell
  have hallows := h.cells r hr.1.lt_left
  rw [hcell] at hallows
  exact absurd (hr.2.trans H.low_lt_high) (h.forced r hallows).2.not_gt

/-- The outcome of a cell that is done is computed anew by the run by name. -/
theorem Explains.done (h : H.Explains st names) (hr : H.Related r s)
    {o : Except RuntimeError Value} (hcell : st.cell r = .done o) :
    ∃ o' names', (∀ᶠ m in atTop, ((Runner.byName m).rerun s).run names = some (o', names')) ∧
      H ≤ H.rename names' ∧ (H.rename names').Explains st names' ∧
        outcome Value.Alike (H.rename names').Related o o' := by
  obtain rfl := h.names
  have hcomputes : H.Computes r o := by
    have hallows := h.cells r hr.1.lt_left
    rwa [hcell] at hallows
  obtain ⟨o', names', hforce, hnames, ho⟩ := hcomputes.rerun hr.1
  have hrerun := (tendsto_add_atTop_nat 1).eventually hforce
  refine ⟨o', names', hrerun, H.le_rename hnames, h.rename rfl hnames, ?_⟩
  exact Value.Alike.lawful.outcome.mono (fun a b hab => ⟨hab.1, hab.2.trans hr.2⟩) ho

/-- What a pending cell of the running program computes is alike in the run by name. -/
theorem Explains.thunk (h : H.Explains st names) (hr : H.Related r s) {thunk : Thunk}
    (hcell : st.cell r = .pending thunk) :
    ∃ thunk', names.cell s = .pending thunk' ∧ thunk.Alike (H.enter r).Related thunk' := by
  obtain rfl := h.names
  have horigin : H.origin.cell r = .pending thunk := by
    have hallows := h.cells r hr.1.lt_left
    rwa [hcell] at hallows
  have halike := hr.1.cell
  rw [horigin] at halike
  generalize hs : H.names.cell s = c at halike
  cases halike with
  | pending hthunk => exact ⟨_, rfl, hthunk⟩

/-- The history when the forcing of a cell has ended, in which the program goes on from where it was
before. -/
def leave (H' H : History) : History :=
  { H' with
    forced := H.forced
    low := H.low
    high := H.high
    low_lt_high := H.low_lt_high }

section Leave

variable (hr : H.Related r s) (hle : H.enter r ≤ H')

include hr hle

theorem low_lt_rank_of_enter : H'.low < H'.rank r := by
  rw [hle.past.rank r hr.1.lt_left]
  exact H'.low_lt_high.trans_eq hle.high

theorem rank_lt_low_of_enter : H'.rank r < H.low := by
  rw [hle.past.rank r hr.1.lt_left]
  exact hr.2

theorem le_leave : H ≤ H'.leave H where
  past := hle.past
  names := hle.names
  forced := rfl
  low := le_refl _
  high := rfl
  added x hx hold := by
    have hbefore : H'.low < H'.rank r := low_lt_rank_of_enter hr hle
    have hafter : H'.rank r < H.low := rank_lt_low_of_enter hr hle
    exact (hle.added x hx hold).trans (hbefore.trans hafter)

/-- Keeping the outcome of a cell that a run by name also gives. -/
theorem Explains.leave {st' names' : Store} (h : H.Explains st names)
    (h' : H'.Explains st' names') {o o' : Except RuntimeError Value}
    (ho : outcome Value.Alike H'.Related o o') {n : ℕ}
    (hrun : ((Runner.byName n).force s).run names = some (o', names')) :
    (H'.leave H).Explains (st'.set r (.done o)) names' ∧
      outcome Value.Alike (H'.leave H).Related o o' := by
  obtain rfl := h.names
  obtain rfl := h'.names
  have hhas : H'.Has r := hle.past.has hr.1.lt_left
  have hbefore : H'.low < H'.rank r := low_lt_rank_of_enter hr hle
  have hafter : H'.rank r < H.low := rank_lt_low_of_enter hr hle
  refine ⟨⟨rfl, ?_, fun x hx => ?_, fun x hx => ?_, h'.named⟩, ?_⟩
  · change (st'.cells.setIfInBounds r.index (.done o)).size = _
    rw [Array.size_setIfInBounds]
    exact h'.size
  · obtain ⟨hhas, hhigh⟩ := h.forced x hx
    exact ⟨hle.past.has hhas, hhigh.trans_eq (hle.past.rank x hhas).symm⟩
  · by_cases hxr : x = r
    · subst hxr
      rw [Store.cell_set_self (hhas.trans_eq h'.size.symm)]
      refine ⟨_, s, n, o', _, hr.1.mono hle.past (.refl _), hrun, ?_⟩
      exact Value.Alike.lawful.outcome.mono (fun a b hab => ⟨hab.1, hab.2.trans hbefore⟩) ho
    · rw [Store.cell_set_of_ne (Ne.symm hxr)]
      -- what is still being forced was so before the cell was entered
      refine (h'.cells x hx).mono hx (.refl _) fun hforced => ?_
      rw [hle.forced] at hforced
      exact hforced.resolve_right hxr
  · refine Value.Alike.lawful.outcome.mono (fun a b hab => ⟨hab.1, ?_⟩) ho
    exact (hab.2.trans hbefore).trans hafter

end Leave

end History

end LazyLang
