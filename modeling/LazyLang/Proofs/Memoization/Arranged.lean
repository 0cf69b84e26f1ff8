import LazyLang.Proofs.Acyclicity.Arrangement
import LazyLang.Proofs.Memoization.History

/-!
# The history of values in a row

Where the lazy values of a store stand in a row, each after those that it refers to, a history may
begin at any time: it takes what the cells hold now for what they held when they were added, and the
places in the row for their ranks. So evaluation from such a store agrees with evaluation by name
from the same store, whatever has happened before.
-/

namespace LazyLang

open Likeness

/-- What a run by name finds in place of a value that is being forced does not matter. -/
def Cell.settled : Cell → Cell
  | .forcing => .done (.error .unrecognized)
  | c => c

theorem Cell.settled_of_ne {c : Cell} (h : c ≠ .forcing) : c.settled = c := by
  cases c with
  | forcing => exact absurd rfl h
  | _ => rfl

/-- The store of a run by name that begins with these values. -/
def Store.settled (st : Store) : Store := { st with cells := st.cells.map Cell.settled }

theorem Store.cell_settled (st : Store) (r : Ref) : st.settled.cell r = (st.cell r).settled := by
  simp only [cell, settled, Array.getD_eq_getD_getElem?, Array.getElem?_map]
  cases st.cells[r.index]? <;> rfl

namespace Arrangement

variable {A : Arrangement} {st : Store} {a r : Ref}

theorem Fits.idxOf_lt (h : A.Fits st) (hbefore : [a, r].Sublist A.row) :
    A.row.idxOf a < A.row.idxOf r := by
  obtain ⟨s, t, hrow⟩ := List.append_of_mem (hbefore.subset (List.mem_cons_of_mem _ (.head _)))
  have ha : a ∈ s := (h.sublist_iff hrow).1 hbefore
  have hnodup := h.nodup
  rw [hrow] at hnodup ⊢
  have hr : r ∉ s := fun hr => List.disjoint_of_nodup_append hnodup hr List.mem_cons_self
  rw [List.idxOf_append_of_mem ha, List.idxOf_append_of_notMem hr, List.idxOf_cons_self]
  exact List.idxOf_lt_length_of_mem ha

/-- The history that begins with what a store holds now. -/
def history (A : Arrangement) (st : Store) : History where
  origin := st.settled
  rank r := A.row.idxOf r
  floor r := A.row.idxOf r - 1 / 2
  floor_lt_rank r := by linarith
  names := st.settled
  forced r := r ∈ A.forced
  low := A.inner.length - 1 / 2
  high := A.inner.length
  low_lt_high := by linarith

theorem Fits.below (h : A.Fits st) (hbefore : [a, r].Sublist A.row) :
    (A.history st).below a r := by
  have hlt : (A.row.idxOf a : ℚ) + 1 ≤ A.row.idxOf r := by exact_mod_cast h.idxOf_lt hbefore
  change (A.row.idxOf a : ℚ) < A.row.idxOf r - 1 / 2
  linarith

theorem Fits.rank_lt_low (hr : r ∈ A.inner) : (A.history st).rank r < (A.history st).low := by
  have hlt : A.row.idxOf r < A.inner.length := by
    rw [row, List.idxOf_append_of_mem hr]
    exact List.idxOf_lt_length_of_mem hr
  have hle : (A.row.idxOf r : ℚ) + 1 ≤ A.inner.length := by exact_mod_cast hlt
  change (A.row.idxOf r : ℚ) < A.inner.length - 1 / 2
  linarith

theorem Fits.high_le_rank (h : A.Fits st) (hr : r ∈ A.outer) :
    (A.history st).high ≤ (A.history st).rank r := by
  have hinner : r ∉ A.inner := fun hmem => List.disjoint_of_nodup_append h.nodup hmem hr
  change (A.inner.length : ℚ) ≤ A.row.idxOf r
  rw [row, List.idxOf_append_of_notMem hinner, Nat.cast_add]
  exact le_add_of_nonneg_right (Nat.cast_nonneg _)

/-- What a value that is not being forced holds is what the run by name begins with. -/
theorem Fits.cell_settled (h : A.Fits st) (hr : r ∈ A.row) (hforced : r ∉ A.forced) :
    st.settled.cell r = st.cell r := by
  rw [Store.cell_settled, Cell.settled_of_ne (h.ordered r hr hforced).ne_forcing]

/-- Every value is its own counterpart. -/
theorem Fits.named (h : A.Fits st) (hforced : ∀ r ∈ A.forced, st.cell r = .forcing)
    (hr : r ∈ A.row) : (A.history st).Named st.settled r r := by
  have hlt {s : Ref} (hs : s ∈ A.row) : s.index < st.settled.cells.size := by
    rw [Store.settled, Array.size_map]
    exact (h.mem s).1 hs
  refine ⟨fun a b => a = b ∧ a ∈ A.row, ⟨?_, ?_, ?_⟩, rfl, hr⟩
  · exact fun _ _ hab => hlt hab.2
  · rintro a _ ⟨rfl, ha⟩
    exact hlt ha
  · rintro s _ ⟨rfl, hs⟩
    change (st.settled.cell s).Alike _ (st.settled.cell s)
    by_cases hmem : s ∈ A.forced
    · rw [Store.cell_settled, hforced s hmem]
      exact .done (.error _)
    · rw [h.cell_settled hs hmem]
      refine (h.ordered s hs hmem).mono fun a b hab => ?_
      exact ⟨⟨hab.1, hab.2.subset (.head _)⟩, h.below hab.2⟩

theorem Fits.related_history (h : A.Fits st) (hforced : ∀ r ∈ A.forced, st.cell r = .forcing)
    {b : Ref} (hab : A.Related a b) : (A.history st).Related a b := by
  obtain ⟨rfl, ha⟩ := hab
  exact ⟨h.named hforced (List.mem_append_left _ ha), Fits.rank_lt_low ha⟩

/-- A history explains the values in a row, from what they hold now. -/
theorem Fits.explains (h : A.Fits st) (hforced : ∀ r ∈ A.forced, st.cell r = .forcing) :
    (A.history st).Explains st st.settled := by
  have hsize : st.settled.cells.size = st.cells.size := Array.size_map ..
  have hrow {r : Ref} (hr : (A.history st).Has r) : r ∈ A.row := by
    refine (h.mem r).2 (hr.trans_eq hsize)
  refine ⟨rfl, hsize.symm, fun r hr => ?_, fun r hr => ?_, fun r hr => ?_⟩
  · have houter := h.forced hr
    refine ⟨?_, h.high_le_rank houter⟩
    exact ((h.mem r).1 (List.mem_append_right _ houter)).trans_eq hsize.symm
  · by_cases hmem : r ∈ A.forced
    · rw [hforced r hmem]
      exact hmem
    · have hordered := h.ordered r (hrow hr) hmem
      have hcell := h.cell_settled (hrow hr) hmem
      generalize hc : st.cell r = c at hordered hcell
      cases hordered with
      | pending _ => exact hcell
      | @done o _ ho =>
          have hrun := Runner.rerun_of_done (.byName 0) hcell
          refine ⟨_, r, 1, o, _, h.named hforced (hrow hr), hrun, ?_⟩
          refine Value.Alike.lawful.outcome.mono (fun a b hab => ?_) ho
          obtain rfl := hab.1
          refine ⟨h.named hforced (hab.2.subset (.head _)), ?_⟩
          exact (h.below hab.2).trans ((A.history st).floor_lt_rank r)
  · exact ⟨r, h.named hforced (hrow hr)⟩

end Arrangement

end LazyLang
