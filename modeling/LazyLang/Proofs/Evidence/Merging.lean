import LazyLang.Proofs.Subtyping.Evidence
import LazyLang.Proofs.Subtyping.Normal

/-!
# Merging evidence

Evidence is put together type by type, and each time the union that is known of a variable is
normalized anew. For types in normal form this adds up to the union of all the types listed for the
variable (`SumsUp`), whatever their order, and whether the entries are noted one by one or two
collections are merged (`ofList_canonical`).

The union without members stands apart. It has no text, so two different types that have it inside
may have one text, and then the order in which they come decides which of them a union names first
(`not_ofList_perm`).
-/

namespace LazyLang.Evidence

open Ty

section Merge

variable {e other : Evidence}

theorem merge_cons (entry : String × Ty) (rest : Evidence) :
    e.merge (entry :: rest) = (e.insert entry.1 entry.2).merge rest := rfl

/-- What a variable means after all was added that another collection knows. -/
theorem get?_merge (he : e.WellFormed) (ho : other.WellFormed) (x : String) :
    (e.merge other).get? x =
      match other.get? x with
      | some a => (e.insert x a).get? x
      | Option.none => e.get? x := by
  induction other generalizing e with
  | nil => rfl
  | cons entry rest ih =>
      obtain ⟨name, a⟩ := entry
      obtain ⟨hsorted, hground⟩ := ho
      rw [List.pairwise_cons] at hsorted
      rw [List.forall_mem_cons] at hground
      rw [merge_cons, ih (he.insert name hground.1) ⟨hsorted.2, hground.2⟩, get?_cons]
      by_cases hx : x = name
      · rw [hx, get?_eq_none_of_lt hsorted.1, if_pos rfl]
      · rw [if_neg hx]
        have hother := (get?_insert he name a x).trans (if_neg hx)
        cases get? rest x with
        | none => exact hother
        | some b =>
            dsimp only
            rw [get?_insert (he.insert name hground.1), get?_insert he x, hother]

theorem get?_merge_congr {e' other' : Evidence} (he : e.WellFormed) (he' : e'.WellFormed)
    (ho : other.WellFormed) (ho' : other'.WellFormed) {x : String} (h : e.get? x = e'.get? x)
    (hother : other.get? x = other'.get? x) :
    (e.merge other).get? x = (e'.merge other').get? x := by
  rw [get?_merge he ho, get?_merge he' ho', hother]
  cases other'.get? x with
  | none => exact h
  | some a =>
      dsimp only
      rw [get?_insert he, get?_insert he', h]

end Merge

section Throughout

variable {p : Ty → Prop} {e other : Evidence}

theorem inherited_everywhere (p : Ty → Prop) : Inherited (Everywhere p) where
  element h := h.2
  param h := everywhereEach_iff.1 h.2.1
  result h := h.2.2
  member h := everywhereEach_iff.1 h.2
  field h := everywhereFields_iff.1 h.2

/-- What is known is without variables, and `p` holds of it at any depth. -/
structure Throughout (p : Ty → Prop) (e : Evidence) : Prop where
  wellFormed : e.WellFormed
  everywhere : ∀ entry ∈ e, entry.2.Everywhere p

namespace Throughout

theorem nil : Throughout p [] := ⟨wellFormed_nil, fun _ h => absurd h List.not_mem_nil⟩

theorem of_get? (h : e.Throughout p) {x : String} {a : Ty} (ha : e.get? x = some a) :
    a.Everywhere p :=
  h.everywhere _ (mem_of_lookup ha)

variable (hp : ∀ types members, unionOf types = .union members → p (.union members))

include hp

theorem insert (h : e.Throughout p) (name : String) {a : Ty} (ha : a.hasGenerics = false)
    (hr : a.Everywhere p) : (e.insert name a).Throughout p := by
  refine ⟨h.wellFormed.insert name ha, fun entry hentry => ?_⟩
  rcases mem_insert hentry with hentry | rfl | ⟨known, hknown, rfl⟩
  · exact h.everywhere entry hentry
  · exact hr
  · refine .unionOf (hp _) ?_
    rw [List.forall_mem_cons, List.forall_mem_singleton]
    exact ⟨h.everywhere _ hknown, hr⟩

theorem merge (h : e.Throughout p) (hother : other.Throughout p) : (e.merge other).Throughout p :=
  merge_preserves (fun _ name _ ha hr he => he.insert hp name ha hr) hother.wellFormed.ground
    hother.everywhere e h

/-- What an argument tells of the variables is made of the types inside it. -/
theorem ofArgument (generic : Ty) {u : Ty} (hu : u.Everywhere p) :
    (Evidence.ofArgument generic u).Throughout p :=
  collect_preserves (inherited_everywhere p) (fun _ name _ ha hr he => he.insert hp name ha hr)
    generic hu [] .nil

theorem learn (h : e.Throughout p) (param : Ty) {found : Ty} (hfound : found.Everywhere p) :
    (Fitted.learn param found e).Throughout p := by
  unfold Fitted.learn
  split
  · exact h.merge hp (ofArgument hp param hfound)
  · exact h

end Throughout

end Throughout

theorem WellFormed.merge {e other : Evidence} (h : e.WellFormed) (ho : other.WellFormed) :
    (e.merge other).WellFormed :=
  merge_preserves (R := fun _ => True) (fun _ name _ ha _ he => he.insert name ha) ho.ground
    (fun _ _ => trivial) e h

/-- Evidence is determined by what it knows of each variable. -/
theorem WellFormed.ext {e e' : Evidence} (h : e.WellFormed) (h' : e'.WellFormed)
    (heq : ∀ x, e.get? x = e'.get? x) : e = e' := by
  have hmem {d d' : Evidence} (hd : d.WellFormed) (heq : ∀ x, d.get? x = d'.get? x)
      {entry : String × Ty} (hentry : entry ∈ d) : entry ∈ d' := by
    have hget : d.get? entry.1 = some entry.2 := lookup_of_mem (nodup_of_sorted hd.sorted) hentry
    exact mem_of_lookup ((heq entry.1).symm.trans hget)
  refine List.Perm.eq_of_pairwise (fun a b _ _ hlt hgt => absurd hgt (String.lt_asymm hlt))
    h.sorted h'.sorted ((List.perm_ext_iff_of_nodup ?_ ?_).2 fun entry => ⟨hmem h heq, ?_⟩)
  · exact (nodup_of_sorted h.sorted).of_map
  · exact (nodup_of_sorted h'.sorted).of_map
  · exact hmem h' fun x => (heq x).symm

section SumsUp

/-- The types listed for the name, in order. -/
def listed (name : String) (entries : List (String × Ty)) : List Ty :=
  (entries.filter (·.1 = name)).map (·.2)

/-- The union of the types, if there are any. -/
def unionOf? : List Ty → Option Ty
  | [] => Option.none
  | a :: rest => some (unionOf (a :: rest))

variable {name : String} {entries others : List (String × Ty)} {e e' : Evidence} {a : Ty}
  {types more : List Ty}

theorem listed_append (name : String) (entries others : List (String × Ty)) :
    listed name (entries ++ others) = listed name entries ++ listed name others := by
  rw [listed, List.filter_append, List.map_append]
  rfl

theorem listed_singleton_self (name : String) (a : Ty) : listed name [(name, a)] = [a] := by
  simp [listed]

theorem listed_singleton_of_ne {x : String} (h : x ≠ name) (a : Ty) :
    listed x [(name, a)] = [] := by
  simp [listed, h.symm]

theorem of_mem_listed {P : Ty → Prop} (h : ∀ entry ∈ entries, P entry.2)
    (ha : a ∈ listed name entries) : P a := by
  obtain ⟨entry, hentry, rfl⟩ := List.mem_map.1 ha
  exact h entry (List.mem_of_mem_filter hentry)

theorem unionOf?_perm (h : ∀ a ∈ types, IsCanonical a) (hperm : types.Perm more) :
    unionOf? more = unionOf? types := by
  cases types with
  | nil => rw [hperm.nil_eq]
  | cons a rest =>
      cases more with
      | nil => exact absurd hperm.symm.nil_eq.symm (List.cons_ne_nil _ _)
      | cons b others =>
          exact congrArg some (Regroups.unionOf_eq h (.single (.reorder hperm)))

/-- The union of all types is put together from the unions of two parts of them. -/
theorem unionOf?_append (h : ∀ a ∈ types, IsCanonical a) (hmore : ∀ a ∈ more, IsCanonical a) :
    unionOf? (types ++ more) =
      match unionOf? more with
      | some b => some (match unionOf? types with
          | some known => unionOf [known, b]
          | Option.none => b)
      | Option.none => unionOf? types := by
  cases more with
  | nil => rw [List.append_nil]; rfl
  | cons b rest =>
      cases types with
      | nil => rfl
      | cons a others =>
          have hfirst := Regroups.group [] (a :: others) (b :: rest)
          have hsecond := Regroups.group [unionOf (a :: others)] (b :: rest) []
          rw [List.append_nil] at hsecond
          exact congrArg some (Regroups.unionOf_eq (List.forall_mem_append.2 ⟨h, hmore⟩)
            ((Relation.ReflTransGen.single hfirst).tail hsecond)).symm

/-- For each variable, the union of all the types listed for it is known. -/
structure SumsUp (e : Evidence) (entries : List (String × Ty)) : Prop where
  wellFormed : e.WellFormed
  get? : ∀ name, e.get? name = unionOf? (listed name entries)

namespace SumsUp

theorem nil : SumsUp [] [] := ⟨wellFormed_nil, fun _ => rfl⟩

theorem singleton (name : String) (ha : IsCanonical a) : SumsUp [(name, a)] [(name, a)] := by
  refine ⟨wellFormed_nil.insert name ha.ground, fun x => ?_⟩
  rw [get?_cons]
  split
  · next hx =>
      rw [hx, listed_singleton_self, unionOf?, unionOf_singleton ha.canonical.here.normal]
  · next hx =>
      rw [listed_singleton_of_ne hx]
      rfl

/-- What sums up two lists of entries sums up both of them, once merged. -/
theorem merge (h : e.SumsUp entries) (h' : e'.SumsUp others)
    (hentries : ∀ entry ∈ entries, IsCanonical entry.2)
    (hothers : ∀ entry ∈ others, IsCanonical entry.2) :
    (e.merge e').SumsUp (entries ++ others) := by
  refine ⟨h.wellFormed.merge h'.wellFormed, fun x => ?_⟩
  rw [get?_merge h.wellFormed h'.wellFormed, listed_append,
    unionOf?_append (fun a => of_mem_listed hentries) (fun a => of_mem_listed hothers),
    ← h.get?, ← h'.get?]
  cases e'.get? x with
  | none => rfl
  | some b => exact (get?_insert h.wellFormed x b x).trans (if_pos rfl)

theorem ofList (h : ∀ entry ∈ entries, IsCanonical entry.2) : (ofList entries).SumsUp entries := by
  have hrun : ∀ (before : List (String × Ty)) (e : Evidence), e.SumsUp before →
      (∀ entry ∈ before, IsCanonical entry.2) → (e.merge entries).SumsUp (before ++ entries) := by
    induction entries with
    | nil =>
        intro before e he _
        rw [List.append_nil]
        exact he
    | cons entry rest ih =>
        obtain ⟨name, a⟩ := entry
        rw [List.forall_mem_cons] at h
        intro before e he hbefore
        have hone : ∀ entry ∈ [(name, a)], IsCanonical entry.2 := List.forall_mem_singleton.2 h.1
        rw [List.append_cons]
        exact ih h.2 _ _ (he.merge (singleton name h.1) hbefore hone)
          (List.forall_mem_append.2 ⟨hbefore, hone⟩)
  exact hrun [] [] nil fun _ h => absurd h List.not_mem_nil

/-- Entries in another order sum up to the same. -/
theorem eq_of_perm (h : e.SumsUp entries) (h' : e'.SumsUp others)
    (hentries : ∀ entry ∈ entries, IsCanonical entry.2) (hperm : entries.Perm others) : e' = e :=
  h'.wellFormed.ext h.wellFormed fun x => by
    rw [h.get?, h'.get?]
    exact unionOf?_perm (fun a => of_mem_listed hentries) ((hperm.filter _).map _)

end SumsUp

end SumsUp

/-- Evidence from types in normal form is the union, for each variable, of all the types listed for
it. So neither the order of the entries matters, nor whether evidence from a part of them is put
together first. -/
theorem ofList_canonical {entries : List (String × Ty)}
    (h : ∀ entry ∈ entries, IsCanonical entry.2) :
    (∀ name, (ofList entries).get? name = unionOf? (listed name entries)) ∧
      (∀ others, entries.Perm others → ofList others = ofList entries) ∧
      ∀ first second, first ++ second = entries →
        (ofList first).merge (ofList second) = ofList entries ∧
        (ofList second).merge (ofList first) = ofList entries := by
  have hsum := SumsUp.ofList h
  refine ⟨hsum.get?, fun others hperm => ?_, fun first second heq => ?_⟩
  · exact hsum.eq_of_perm (.ofList fun entry hentry => h entry (hperm.mem_iff.2 hentry)) h hperm
  · subst heq
    obtain ⟨hfirst, hsecond⟩ := List.forall_mem_append.1 h
    have hinorder := (SumsUp.ofList hfirst).merge (.ofList hsecond) hfirst hsecond
    have hswapped := (SumsUp.ofList hsecond).merge (.ofList hfirst) hsecond hfirst
    exact ⟨hsum.eq_of_perm hinorder h (.refl _), hsum.eq_of_perm hswapped h List.perm_append_comm⟩

/-- The integer noted for a variable goes with the float noted later, in whichever order. -/
theorem ofList_canonical_sample :
    let first := [("T", integer), ("U", string)]
    let second := [("T", float)]
    (∀ entry ∈ first ++ second, IsCanonical entry.2) ∧
      (ofList (first ++ second)).get? "T" = some float ∧
      ofList (second ++ first) = ofList (first ++ second) ∧
      (ofList second).merge (ofList first) = ofList (first ++ second) := by
  intro first second
  have h : ∀ entry ∈ first ++ second, IsCanonical entry.2 := by
    have hplain (a : Ty) (ha : a = integer ∨ a = string ∨ a = float) : IsCanonical a := by
      rcases ha with rfl | rfl | rfl <;> exact ⟨rfl, trivial⟩
    intro entry hentry
    refine hplain entry.2 ?_
    revert entry
    decide
  obtain ⟨hsum, hperm, hmerge⟩ := ofList_canonical h
  have hfloat : unionOf? (listed "T" (first ++ second)) = some float := by decide +kernel
  exact ⟨h, (hsum "T").trans hfloat, hperm _ List.perm_append_comm, (hmerge first second rfl).2⟩

/-- Whether the type itself is in normal form as far as unions without members are. -/
def Tidy : Ty → Prop
  | union members => Normal (union members)
  | a => Canonical a

/-- The function without parameters and the one whose parameter has the type without values have the
same text, so the order in which they come is the order in which their union has them. -/
theorem not_ofList_perm :
    ¬ ∀ entries others : List (String × Ty),
        (∀ entry ∈ entries, entry.2.hasGenerics = false ∧ entry.2.Everywhere Tidy) →
          entries.Perm others → ofList others = ofList entries := by
  intro hall
  let a := function [] integer
  let b := function [union []] integer
  have hunion : unionOf [a, b] = union [a, b] :=
    unionOf_eq_ofRow_of_apart (by decide +kernel) (by decide +kernel) (by decide +kernel)
  have hunion' : unionOf [b, a] = union [b, a] :=
    unionOf_eq_ofRow_of_apart (by decide +kernel) (by decide +kernel) (by decide +kernel)
  have hempty : unionOf [] = union [] := by
    simp [unionOf, retained, flattenAll, sortMembers]
  have htidy : ∀ entry ∈ [("T", a), ("T", b)],
      entry.2.hasGenerics = false ∧ entry.2.Everywhere Tidy := by
    rw [List.forall_mem_cons, List.forall_mem_singleton]
    exact ⟨⟨rfl, trivial, trivial, trivial⟩, rfl, trivial, ⟨⟨hempty, trivial⟩, trivial⟩, trivial⟩
  have heq := hall [("T", a), ("T", b)] [("T", b), ("T", a)] htidy (.swap _ _ _)
  have hnoted (c d : Ty) : ofList [("T", c), ("T", d)] = [("T", unionOf [c, d])] := by
    simp [ofList, merge, insert]
  rw [hnoted, hnoted, hunion, hunion'] at heq
  have hne : [("T", union [b, a])] ≠ [("T", union [a, b])] := by decide
  exact hne heq

end LazyLang.Evidence
