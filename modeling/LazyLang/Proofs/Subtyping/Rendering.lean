import LazyLang.Proofs.Subtyping
import LazyLang.Token.Lexer

/-!
# Types by their texts

The text of a type says which type it is, as long as the type has no variables, its unions have at
least two members, none of them a union, and its records name their fields by identifiers
(`Legible`). The first character tells the kinds of type apart, but for a union, which begins like
its first member, and a function type in a union stands in parentheses, as do the parameters of a
function type: what follows the parentheses decides between the two.

So two texts are never taken for one another, not even when other text follows them, such as a
comma or a closing bracket (`chars_append_inj`), and different types have different texts
(`pretty_eq_iff`).
-/

namespace LazyLang.Ty

section Everywhere

variable (p : Ty → Prop)

mutual

/-- Whether `p` holds of the type and of every type inside it. -/
def Everywhere : Ty → Prop
  | array element => p (array element) ∧ Everywhere element
  | function params result =>
    p (function params result) ∧ EverywhereEach params ∧ Everywhere result
  | union members => p (union members) ∧ EverywhereEach members
  | constrained name bound => p (constrained name bound) ∧ Everywhere bound
  | record fields => p (record fields) ∧ EverywhereFields fields
  | integer => p integer
  | float => p float
  | string => p string
  | boolean => p boolean
  | none => p none
  | emptyArray => p emptyArray
  | generic name => p (generic name)

/-- Whether this is so for each of the types. -/
def EverywhereEach : List Ty → Prop
  | [] => True
  | a :: rest => Everywhere a ∧ EverywhereEach rest

/-- Whether this is so for each of the fields. -/
def EverywhereFields : List (String × Ty) → Prop
  | [] => True
  | (_, a) :: rest => Everywhere a ∧ EverywhereFields rest

end

end Everywhere

theorem everywhereEach_iff {p : Ty → Prop} {types : List Ty} :
    EverywhereEach p types ↔ ∀ a ∈ types, a.Everywhere p := by
  induction types with
  | nil => simp [EverywhereEach]
  | cons head rest ih => simp [EverywhereEach, ih]

theorem everywhereFields_iff {p : Ty → Prop} {fields : List (String × Ty)} :
    EverywhereFields p fields ↔ ∀ field ∈ fields, field.2.Everywhere p := by
  induction fields with
  | nil => simp [EverywhereFields]
  | cons head rest ih => simp [EverywhereFields, ih]

theorem Everywhere.here {p : Ty → Prop} {a : Ty} (h : a.Everywhere p) : p a := by
  cases a <;> first | exact h | exact h.1

/-- Whether the type is a union. -/
def isUnion : Ty → Bool
  | union _ => true
  | _ => false

/-- Whether the name has the form of an identifier. -/
def isIdentifier (name : String) : Bool :=
  match name.toList with
  | [] => false
  | c :: cs => TokenKind.isIdentifierStart c && cs.all TokenKind.isIdentifierRest

/-- A type that, together with the types inside it, can be told by its text. -/
def Legible : Ty → Prop
  | union members => 2 ≤ members.length ∧ ∀ m ∈ members, m.isUnion = false
  | generic _ | constrained _ _ => False
  | record fields => ∀ field ∈ fields, isIdentifier field.1 = true
  | _ => True

section Text

/-- The text of a type. -/
def chars (a : Ty) : List Char := a.pretty.toList

/-- The text of a type as a member of a union. -/
def memberChars (a : Ty) : List Char := (memberText a a.pretty).toList

/-- The text of a field. -/
def fieldChars (field : String × Ty) : List Char := field.1.toList ++ ':' :: ' ' :: chars field.2

theorem prettyParams_eq_map (types : List Ty) : prettyParams types = types.map pretty := by
  induction types with
  | nil => rfl
  | cons head rest ih => exact congrArg (pretty head :: ·) ih

theorem prettyMembers_eq_map (types : List Ty) :
    prettyMembers types = types.map fun a => memberText a a.pretty := by
  induction types with
  | nil => rfl
  | cons head rest ih => exact congrArg (memberText head head.pretty :: ·) ih

theorem prettyFields_eq_map (fields : List (String × Ty)) :
    prettyFields fields = fields.map fun field => field.1 ++ ": " ++ field.2.pretty := by
  induction fields with
  | nil => rfl
  | cons head rest ih => exact congrArg ((head.1 ++ ": " ++ head.2.pretty) :: ·) ih

theorem pretty_array (element : Ty) : (array element).pretty = "[" ++ element.pretty ++ "]" := rfl

theorem pretty_function (params : List Ty) (result : Ty) :
    (function params result).pretty =
      "(" ++ ", ".intercalate (params.map pretty) ++ ") -> " ++ result.pretty := by
  rw [← prettyParams_eq_map]
  rfl

theorem pretty_union (members : List Ty) :
    (union members).pretty = " | ".intercalate (members.map fun a => memberText a a.pretty) := by
  rw [← prettyMembers_eq_map]
  rfl

theorem pretty_record (fields : List (String × Ty)) :
    (record fields).pretty =
      "\x7b" ++ ", ".intercalate (fields.map fun field => field.1 ++ ": " ++ field.2.pretty) ++
        "\x7d" := by
  rw [← prettyFields_eq_map]
  rfl

theorem chars_array (element : Ty) : chars (array element) = '[' :: (chars element ++ [']']) := by
  simp [chars, pretty_array, String.toList_append]

theorem chars_function (params : List Ty) (result : Ty) :
    chars (function params result) =
      '(' :: ([',', ' '].intercalate (params.map chars) ++
        ')' :: ' ' :: '-' :: '>' :: ' ' :: chars result) := by
  simp [chars, pretty_function, String.toList_append, String.toList_intercalate, Function.comp_def]
  rfl

theorem chars_union (members : List Ty) :
    chars (union members) = [' ', '|', ' '].intercalate (members.map memberChars) := by
  simp [chars, pretty_union, String.toList_intercalate, Function.comp_def]
  rfl

theorem chars_record (fields : List (String × Ty)) :
    chars (record fields) =
      '\x7b' :: ([',', ' '].intercalate (fields.map fieldChars) ++ ['\x7d']) := by
  simp [chars, pretty_record, String.toList_append, String.toList_intercalate, Function.comp_def]
  rfl

theorem memberChars_function (params : List Ty) (result : Ty) :
    memberChars (function params result) = '(' :: (chars (function params result) ++ [')']) := by
  simp [memberChars, memberText, isFunction, chars, String.toList_append]

theorem memberChars_of_not_isFunction {a : Ty} (h : a.isFunction = false) :
    memberChars a = chars a := by
  simp [memberChars, memberText, h, chars]

theorem chars_union_cons_cons (m n : Ty) (rest : List Ty) :
    chars (union (m :: n :: rest)) =
      memberChars m ++ ' ' :: '|' :: ' ' :: chars (union (n :: rest)) := by
  simp [chars_union, List.intercalate_cons_cons]

end Text

/-- A text that ends a type before it: nothing, or a mark that stands after types. -/
def Ends : List Char → Prop
  | [] => True
  | c :: _ => c = ')' ∨ c = ']' ∨ c = '\x7d' ∨ c = ','

@[simp] theorem ends_nil : Ends [] := trivial

@[simp] theorem ends_cons (c : Char) (u : List Char) :
    Ends (c :: u) ↔ c = ')' ∨ c = ']' ∨ c = '\x7d' ∨ c = ',' := Iff.rfl

/-- The character that the text of a type begins with, in a union that of the first member. -/
def initial : Ty → Char
  | integer => 'I'
  | float => 'F'
  | string => 'S'
  | boolean => 'B'
  | none => 'N'
  | emptyArray | array _ => '['
  | function _ _ => '('
  | record _ => '\x7b'
  | union (m :: _) => initial m
  | _ => ' '

/-- The simple type whose name begins with the letter. -/
def ofInitial? : Char → Option Ty
  | 'I' => some integer
  | 'F' => some float
  | 'S' => some string
  | 'B' => some boolean
  | 'N' => some none
  | _ => Option.none

/-- A bracket begins the texts of arrays, a parenthesis those of functions, a brace those of records,
and each letter the name of one simple type. -/
theorem initial_cases {a : Ty} (ha : Legible a) (hu : a.isUnion = false) :
    (a.initial = '[' ∧ (a = emptyArray ∨ ∃ element, a = array element)) ∨
      (a.initial = '(' ∧ ∃ params result, a = function params result) ∨
        (a.initial = '\x7b' ∧ ∃ fields, a = record fields) ∨ ofInitial? a.initial = some a := by
  cases a with
  | integer | float | string | boolean | none => exact .inr (.inr (.inr rfl))
  | emptyArray => exact .inl ⟨rfl, .inl rfl⟩
  | array element => exact .inl ⟨rfl, .inr ⟨element, rfl⟩⟩
  | function params result => exact .inr (.inl ⟨rfl, params, result, rfl⟩)
  | record fields => exact .inr (.inr (.inl ⟨rfl, fields, rfl⟩))
  | union members => cases hu
  | generic name => cases ha
  | constrained name bound => cases ha

theorem exists_memberChars {a : Ty} (ha : Legible a) (hu : a.isUnion = false) :
    ∃ cs, memberChars a = a.initial :: cs := by
  cases a with
  | integer => exact ⟨"nteger".toList, rfl⟩
  | float => exact ⟨"loat".toList, rfl⟩
  | string => exact ⟨"tring".toList, rfl⟩
  | boolean => exact ⟨"oolean".toList, rfl⟩
  | none => exact ⟨"one".toList, rfl⟩
  | emptyArray => exact ⟨"]".toList, rfl⟩
  | array element =>
      rw [memberChars_of_not_isFunction rfl, chars_array]
      exact ⟨_, rfl⟩
  | function params result =>
      rw [memberChars_function]
      exact ⟨_, rfl⟩
  | record fields =>
      rw [memberChars_of_not_isFunction rfl, chars_record]
      exact ⟨_, rfl⟩
  | union members => cases hu
  | generic name => cases ha
  | constrained name bound => cases ha

theorem exists_chars {a : Ty} (ha : a.Everywhere Legible) : ∃ cs, chars a = a.initial :: cs := by
  cases a with
  | function params result =>
      rw [chars_function]
      exact ⟨_, rfl⟩
  | union members =>
      obtain ⟨hlength, hplain⟩ := ha.here
      match members, hlength with
      | m :: n :: rest, _ =>
          have hm := (everywhereEach_iff.1 ha.2 m List.mem_cons_self).here
          obtain ⟨cs, hcs⟩ := exists_memberChars hm (hplain m List.mem_cons_self)
          rw [chars_union_cons_cons, hcs]
          exact ⟨_, rfl⟩
  | _ =>
      rw [← memberChars_of_not_isFunction rfl]
      exact exists_memberChars ha.here rfl

theorem initial_ne_parenthesis {a : Ty} (ha : Legible a) (hu : a.isUnion = false)
    (hf : a.isFunction = false) : a.initial ≠ '(' := by
  intro h
  rcases initial_cases ha hu with ⟨hi, -⟩ | ⟨-, params, result, rfl⟩ | ⟨hi, -⟩ | hword
  · exact absurd (hi.symm.trans h) (by decide)
  · cases hf
  · exact absurd (hi.symm.trans h) (by decide)
  · rw [h] at hword
    cases hword

theorem not_ends_initial_of_not_isUnion {a : Ty} (ha : Legible a) (hu : a.isUnion = false)
    (cs : List Char) : ¬Ends (a.initial :: cs) := by
  rw [ends_cons]
  rcases initial_cases ha hu with ⟨h, -⟩ | ⟨h, -⟩ | ⟨h, -⟩ | hword
  · rw [h]
    decide
  · rw [h]
    decide
  · rw [h]
    decide
  · rintro (h | h | h | h)
    all_goals
      rw [h] at hword
      cases hword

theorem not_ends_initial {a : Ty} (ha : a.Everywhere Legible) (cs : List Char) :
    ¬Ends (a.initial :: cs) := by
  induction a with
  | union members ih =>
      obtain ⟨hlength, -⟩ := ha.here
      match members, hlength with
      | m :: n :: rest, _ =>
          exact ih m List.mem_cons_self (everywhereEach_iff.1 ha.2 m List.mem_cons_self)
  | _ => exact not_ends_initial_of_not_isUnion ha.here rfl cs

/-- No text of a type can be taken for the end of another one. -/
theorem not_ends_chars {a : Ty} (ha : a.Everywhere Legible) (u : List Char) :
    ¬Ends (chars a ++ u) := by
  obtain ⟨cs, hcs⟩ := exists_chars ha
  rw [hcs]
  exact not_ends_initial ha _

/-- Items with a separator between them are told apart one by one, if each can be told from what
follows it and a separator from the end. -/
theorem intercalate_append_inj {α : Type*} {sep : List Char} {item : α → List Char}
    {R : List Char → Prop} (hsep : ∀ w, R (sep ++ w)) {as bs : List α}
    (hitem : ∀ a ∈ as, ∀ b ∈ bs, ∀ u v, R u → R v → item a ++ u = item b ++ v → a = b ∧ u = v)
    (has : as ≠ []) (hbs : bs ≠ []) {u v : List Char} (hu : R u) (hv : R v)
    (hu' : ∀ w, u ≠ sep ++ w) (hv' : ∀ w, v ≠ sep ++ w)
    (h : sep.intercalate (as.map item) ++ u = sep.intercalate (bs.map item) ++ v) :
    as = bs ∧ u = v := by
  induction as generalizing bs with
  | nil => exact absurd rfl has
  | cons a as ih =>
      cases bs with
      | nil => exact absurd rfl hbs
      | cons b bs =>
          have hfirst := hitem a List.mem_cons_self b List.mem_cons_self
          have hlater : ∀ a ∈ as, ∀ b ∈ bs, ∀ u v, R u → R v → item a ++ u = item b ++ v →
              a = b ∧ u = v :=
            fun a ha b hb => hitem a (List.mem_cons_of_mem _ ha) b (List.mem_cons_of_mem _ hb)
          match as, bs with
          | [], [] =>
              simp only [List.map_cons, List.map_nil, List.intercalate_singleton] at h
              obtain ⟨rfl, rfl⟩ := hfirst u v hu hv h
              exact ⟨rfl, rfl⟩
          | [], b' :: bs =>
              simp only [List.map_cons, List.map_nil, List.intercalate_singleton,
                List.intercalate_cons_cons, List.append_assoc] at h
              exact absurd (hfirst _ _ hu (hsep _) h).2 (hu' _)
          | a' :: as, [] =>
              simp only [List.map_cons, List.map_nil, List.intercalate_singleton,
                List.intercalate_cons_cons, List.append_assoc] at h
              exact absurd (hfirst _ _ (hsep _) hv h).2.symm (hv' _)
          | a' :: as, b' :: bs =>
              simp only [List.map_cons, List.intercalate_cons_cons, List.append_assoc] at h
              obtain ⟨rfl, hrest⟩ := hfirst _ _ (hsep _) (hsep _) h
              have hrest := List.append_cancel_left hrest
              obtain ⟨heq, rfl⟩ := ih hlater (by simp) (by simp) hrest
              exact ⟨congrArg _ heq, rfl⟩

theorem exists_intercalate_cons {α : Type*} (sep : List Char) (item : α → List Char) (a : α)
    (as : List α) : ∃ w, sep.intercalate ((a :: as).map item) = item a ++ w := by
  cases as with
  | nil => exact ⟨[], by simp⟩
  | cons b bs =>
      rw [List.map_cons, List.map_cons, List.intercalate_cons_cons, List.append_assoc]
      exact ⟨_, rfl⟩

/-- Items with commas between them are told apart up to the bracket that closes them, if no item can
be taken for an end. -/
theorem enclosed_append_inj {α : Type*} {item : α → List Char} {close : Char}
    (hclose : close = ')' ∨ close = '\x7d') {as bs : List α}
    (has : ∀ a ∈ as, ∀ u, ¬Ends (item a ++ u)) (hbs : ∀ b ∈ bs, ∀ u, ¬Ends (item b ++ u))
    (hitem : ∀ a ∈ as, ∀ b ∈ bs, ∀ u v, Ends u → Ends v → item a ++ u = item b ++ v →
      a = b ∧ u = v) {u v : List Char}
    (h : [',', ' '].intercalate (as.map item) ++ close :: u =
      [',', ' '].intercalate (bs.map item) ++ close :: v) : as = bs ∧ u = v := by
  have hends (w : List Char) : Ends (close :: w) := by
    rcases hclose with rfl | rfl <;> simp
  have hcomma (w w' : List Char) : close :: w ≠ [',', ' '] ++ w' := by
    rcases hclose with rfl | rfl <;> simp
  match as, bs with
  | [], [] => exact ⟨rfl, (List.cons.inj h).2⟩
  | [], b :: bs =>
      obtain ⟨w, hw⟩ := exists_intercalate_cons [',', ' '] item b bs
      rw [hw, List.append_assoc] at h
      have hbegins : close :: u = item b ++ (w ++ close :: v) := h
      exact absurd (hbegins ▸ hends u) (hbs b List.mem_cons_self _)
  | a :: as, [] =>
      obtain ⟨w, hw⟩ := exists_intercalate_cons [',', ' '] item a as
      rw [hw, List.append_assoc] at h
      have hbegins : close :: v = item a ++ (w ++ close :: u) := h.symm
      exact absurd (hbegins ▸ hends v) (has a List.mem_cons_self _)
  | a :: as, b :: bs =>
      obtain ⟨heq, hrest⟩ := intercalate_append_inj (R := Ends) (by simp) hitem (by simp) (by simp)
        (hends u) (hends v) (hcomma u) (hcomma v) h
      exact ⟨heq, (List.cons.inj hrest).2⟩

/-- Texts without a colon are told apart by the colon after them. -/
theorem append_colon_inj {xs ys u v : List Char} (hxs : ':' ∉ xs) (hys : ':' ∉ ys)
    (h : xs ++ ':' :: u = ys ++ ':' :: v) : xs = ys ∧ u = v := by
  induction xs generalizing ys with
  | nil =>
      cases ys with
      | nil => exact ⟨rfl, (List.cons.inj h).2⟩
      | cons y ys => exact absurd ((List.cons.inj h).1 ▸ List.mem_cons_self) hys
  | cons x xs ih =>
      cases ys with
      | nil => exact absurd ((List.cons.inj h).1 ▸ List.mem_cons_self) hxs
      | cons y ys =>
          obtain ⟨rfl, hrest⟩ := List.cons.inj h
          rw [List.mem_cons, not_or] at hxs hys
          obtain ⟨rfl, rfl⟩ := ih hxs.2 hys.2 hrest
          exact ⟨rfl, rfl⟩

theorem colon_notMem_of_isIdentifier {name : String} (h : isIdentifier name = true) :
    ':' ∉ name.toList := by
  unfold isIdentifier at h
  intro hmem
  cases hname : name.toList with
  | nil => simp [hname] at hmem
  | cons c cs =>
      rw [hname] at h hmem
      rw [Bool.and_eq_true, List.all_eq_true] at h
      rcases List.mem_cons.1 hmem with rfl | hmem
      · exact absurd h.1 (by decide)
      · exact absurd (h.2 _ hmem) (by decide)

theorem not_ends_of_isIdentifier {name : String} (h : isIdentifier name = true) (u : List Char) :
    ¬Ends (name.toList ++ u) := by
  unfold isIdentifier at h
  cases hname : name.toList with
  | nil => simp [hname] at h
  | cons c cs =>
      rw [hname, Bool.and_eq_true] at h
      rintro (rfl | rfl | rfl | rfl) <;> exact absurd h.1 (by decide)

/-- The type can be told by its text, whatever type and whatever end the text may have. -/
def Separable (a : Ty) : Prop :=
  ∀ b : Ty, b.Everywhere Legible → ∀ u v, Ends u → Ends v → chars a ++ u = chars b ++ v →
    a = b ∧ u = v

/-- The type can be told by its text as a member of a union, whatever follows. -/
def SeparableMember (a : Ty) : Prop :=
  ∀ b : Ty, b.Everywhere Legible → b.isUnion = false → ∀ u v,
    memberChars a ++ u = memberChars b ++ v → a = b ∧ u = v

theorem initial_eq_of_memberChars {a b : Ty} (ha : Legible a) (hb : Legible b)
    (hau : a.isUnion = false) (hbu : b.isUnion = false) {u v : List Char}
    (h : memberChars a ++ u = memberChars b ++ v) : a.initial = b.initial := by
  obtain ⟨cs, hcs⟩ := exists_memberChars ha hau
  obtain ⟨ds, hds⟩ := exists_memberChars hb hbu
  rw [hcs, hds] at h
  exact (List.cons.inj h).1

section Initial

variable {b : Ty}

theorem eq_array_of_initial (hb : Legible b) (hu : b.isUnion = false) (h : '[' = b.initial) :
    b = emptyArray ∨ ∃ element, b = array element := by
  rcases initial_cases hb hu with ⟨-, harray⟩ | ⟨hi, -⟩ | ⟨hi, -⟩ | hword
  · exact harray
  · exact absurd (h.trans hi) (by decide)
  · exact absurd (h.trans hi) (by decide)
  · rw [← h] at hword
    cases hword

theorem eq_function_of_initial (hb : Legible b) (hu : b.isUnion = false) (h : '(' = b.initial) :
    ∃ params result, b = function params result := by
  rcases initial_cases hb hu with ⟨hi, -⟩ | ⟨-, hfunction⟩ | ⟨hi, -⟩ | hword
  · exact absurd (h.trans hi) (by decide)
  · exact hfunction
  · exact absurd (h.trans hi) (by decide)
  · rw [← h] at hword
    cases hword

theorem eq_record_of_initial (hb : Legible b) (hu : b.isUnion = false)
    (h : '\x7b' = b.initial) : ∃ fields, b = record fields := by
  rcases initial_cases hb hu with ⟨hi, -⟩ | ⟨hi, -⟩ | ⟨-, hrecord⟩ | hword
  · exact absurd (h.trans hi) (by decide)
  · exact absurd (h.trans hi) (by decide)
  · exact hrecord
  · rw [← h] at hword
    cases hword

theorem eq_of_initial_word {a : Ty} (hb : Legible b) (hu : b.isUnion = false)
    (h : ofInitial? b.initial = some a) : b = a := by
  rcases initial_cases hb hu with ⟨hi, -⟩ | ⟨hi, -⟩ | ⟨hi, -⟩ | hword
  · rw [hi] at h
    cases h
  · rw [hi] at h
    cases h
  · rw [hi] at h
    cases h
  · exact Option.some.inj (hword.symm.trans h)

end Initial

/-- The names of the simple types begin with different letters. -/
theorem separableMember_word {a : Ty} (ha : Legible a) (hu : a.isUnion = false)
    (hword : ofInitial? a.initial = some a) : SeparableMember a := by
  intro b hb hbu u v h
  rw [initial_eq_of_memberChars ha hb.here hu hbu h] at hword
  obtain rfl := eq_of_initial_word hb.here hbu hword
  exact ⟨rfl, List.append_cancel_left h⟩

theorem memberChars_array (element : Ty) :
    memberChars (array element) = '[' :: (chars element ++ [']']) := by
  rw [memberChars_of_not_isFunction rfl, chars_array]

theorem memberChars_record (fields : List (String × Ty)) :
    memberChars (record fields) =
      '\x7b' :: ([',', ' '].intercalate (fields.map fieldChars) ++ ['\x7d']) := by
  rw [memberChars_of_not_isFunction rfl, chars_record]

theorem memberChars_emptyArray : memberChars emptyArray = ['[', ']'] := rfl

theorem separableMember_emptyArray : SeparableMember emptyArray := by
  intro b hb hbu u v h
  have hinitial := initial_eq_of_memberChars (a := emptyArray) trivial hb.here rfl hbu h
  rcases eq_array_of_initial hb.here hbu hinitial with rfl | ⟨own, rfl⟩
  · exact ⟨rfl, List.append_cancel_left h⟩
  · rw [memberChars_array, memberChars_emptyArray] at h
    have hrest : ']' :: u = chars own ++ (']' :: v) := by simpa using h
    have hends : Ends (']' :: u) := by simp
    exact absurd (hrest ▸ hends) (not_ends_chars hb.2 _)

theorem separableMember_array {element : Ty} (he : element.Everywhere Legible)
    (ih : Separable element) : SeparableMember (array element) := by
  intro b hb hbu u v h
  have hinitial := initial_eq_of_memberChars (a := array element) trivial hb.here rfl hbu h
  rcases eq_array_of_initial hb.here hbu hinitial with rfl | ⟨own, rfl⟩
  · rw [memberChars_array, memberChars_emptyArray] at h
    have hrest : chars element ++ (']' :: u) = ']' :: v := by simpa using h
    have hends : Ends (']' :: v) := by simp
    exact absurd (hrest ▸ hends) (not_ends_chars he _)
  · rw [memberChars_array, memberChars_array] at h
    have hrest : chars element ++ (']' :: u) = chars own ++ (']' :: v) := by simpa using h
    obtain ⟨rfl, hend⟩ := ih own hb.2 _ _ (by simp) (by simp) hrest
    exact ⟨rfl, (List.cons.inj hend).2⟩

theorem not_ends_fieldChars {f : String × Ty} (h : isIdentifier f.1 = true) (u : List Char) :
    ¬Ends (fieldChars f ++ u) := by
  rw [fieldChars, List.append_assoc]
  exact not_ends_of_isIdentifier h _

/-- A field is told by its name and its type. -/
theorem fieldChars_append_inj {f g : String × Ty} (hf : isIdentifier f.1 = true)
    (hg : isIdentifier g.1 = true) (ih : Separable f.2) (hleg : g.2.Everywhere Legible)
    {u v : List Char} (hu : Ends u) (hv : Ends v) (h : fieldChars f ++ u = fieldChars g ++ v) :
    f = g ∧ u = v := by
  have hcolon : f.1.toList ++ ':' :: (' ' :: chars f.2 ++ u) =
      g.1.toList ++ ':' :: (' ' :: chars g.2 ++ v) := by simpa [fieldChars] using h
  obtain ⟨hname, hrest⟩ := append_colon_inj (colon_notMem_of_isIdentifier hf)
    (colon_notMem_of_isIdentifier hg) hcolon
  obtain ⟨htype, hend⟩ := ih g.2 hleg u v hu hv (List.cons.inj hrest).2
  exact ⟨Prod.ext (String.toList_inj.1 hname) htype, hend⟩

theorem separableMember_record {fields : List (String × Ty)}
    (hnames : ∀ f ∈ fields, isIdentifier f.1 = true) (ih : ∀ f ∈ fields, Separable f.2) :
    SeparableMember (record fields) := by
  intro b hb hbu u v h
  have hinitial := initial_eq_of_memberChars (a := record fields) hnames hb.here rfl hbu h
  obtain ⟨own, rfl⟩ := eq_record_of_initial hb.here hbu hinitial
  have hown : ∀ f ∈ own, isIdentifier f.1 = true := hb.here
  rw [memberChars_record, memberChars_record] at h
  have hrest : [',', ' '].intercalate (fields.map fieldChars) ++ ('\x7d' :: u) =
      [',', ' '].intercalate (own.map fieldChars) ++ ('\x7d' :: v) := by simpa using h
  obtain ⟨rfl, rfl⟩ := enclosed_append_inj (.inr rfl)
    (fun f hf => not_ends_fieldChars (hnames f hf)) (fun g hg => not_ends_fieldChars (hown g hg))
    (fun f hf g hg _ _ => fieldChars_append_inj (hnames f hf) (hown g hg) (ih f hf)
      (everywhereFields_iff.1 hb.2 g hg)) hrest
  exact ⟨rfl, rfl⟩

/-- In parentheses, a function type in a union is not taken for the parameters of a function type:
an arrow follows those, and a bar the member. -/
theorem chars_function_ne_member {params : List Ty} {result m : Ty}
    (hm : m.Everywhere Legible)
    (h : ∀ p ∈ params, ∀ u v, Ends u → Ends v → chars p ++ u = chars m ++ v → p = m ∧ u = v)
    (u v : List Char) :
    chars (function params result) ++ u ≠ '(' :: (chars m ++ ')' :: ' ' :: '|' :: v) := by
  intro heq
  rw [chars_function] at heq
  have hend (w : List Char) : Ends (')' :: w) := by simp
  have hcomma (w : List Char) : Ends (',' :: w) := by simp
  match params with
  | [] =>
      have hrest : ')' :: ' ' :: '-' :: '>' :: ' ' :: (chars result ++ u) =
          chars m ++ ')' :: ' ' :: '|' :: v := by simpa using heq
      exact absurd (hrest ▸ hend _) (not_ends_chars hm _)
  | [p] =>
      have hrest : chars p ++ ')' :: ' ' :: '-' :: '>' :: ' ' :: (chars result ++ u) =
          chars m ++ ')' :: ' ' :: '|' :: v := by simpa using heq
      simpa using (h p List.mem_cons_self _ _ (hend _) (hend _) hrest).2
  | p :: q :: rest =>
      rw [List.map_cons, List.map_cons, List.intercalate_cons_cons] at heq
      have hrest : chars p ++ ',' :: ' ' :: ([',', ' '].intercalate (chars q :: rest.map chars) ++
          ')' :: ' ' :: '-' :: '>' :: ' ' :: (chars result ++ u)) =
          chars m ++ ')' :: ' ' :: '|' :: v := by simpa using heq
      simpa using (h p List.mem_cons_self _ _ (hcomma _) (hend _) hrest).2

/-- A type that is neither a function type nor a union is told by its text as it is as a member. -/
theorem SeparableMember.separable {a : Ty} (h : SeparableMember a) (ha : Legible a)
    (hfunction : a.isFunction = false) (hunion : a.isUnion = false) : Separable a := by
  intro b hb u v hu hv heq
  rw [← memberChars_of_not_isFunction hfunction] at heq
  cases b with
  | function params result =>
      obtain ⟨cs, hcs⟩ := exists_memberChars ha hunion
      rw [hcs, chars_function] at heq
      exact absurd (List.cons.inj heq).1 (initial_ne_parenthesis ha hunion hfunction)
  | union members =>
      obtain ⟨hlength, hplain⟩ := hb.here
      match members, hlength with
      | m :: n :: rest, _ =>
          rw [chars_union_cons_cons, List.append_assoc] at heq
          have hm := everywhereEach_iff.1 hb.2 m List.mem_cons_self
          have hbar := (h m hm (hplain m List.mem_cons_self) _ _ heq).2
          rw [hbar] at hu
          simp at hu
  | _ => exact h _ hb rfl _ _ heq

theorem separable_function {params : List Ty} {result : Ty}
    (hp : ∀ p ∈ params, p.Everywhere Legible) (ihp : ∀ p ∈ params, Separable p)
    (ihr : Separable result) : Separable (function params result) := by
  intro b hb u v hu hv h
  cases b with
  | function own ownResult =>
      obtain ⟨-, hown, hownResult⟩ := hb
      rw [everywhereEach_iff] at hown
      rw [chars_function, chars_function] at h
      have hrest : [',', ' '].intercalate (params.map chars) ++
            ')' :: ' ' :: '-' :: '>' :: ' ' :: (chars result ++ u) =
          [',', ' '].intercalate (own.map chars) ++
            ')' :: ' ' :: '-' :: '>' :: ' ' :: (chars ownResult ++ v) := by simpa using h
      obtain ⟨rfl, hresult⟩ := enclosed_append_inj (.inl rfl)
        (fun p hp' => not_ends_chars (hp p hp')) (fun q hq => not_ends_chars (hown q hq))
        (fun p hp' q hq => ihp p hp' q (hown q hq)) hrest
      obtain ⟨rfl, rfl⟩ := ihr _ hownResult _ _ hu hv (by simpa using hresult)
      exact ⟨rfl, rfl⟩
  | union members =>
      obtain ⟨hlength, hplain⟩ := hb.here
      match members, hlength with
      | m :: n :: rest, _ =>
          have hm := everywhereEach_iff.1 hb.2 m List.mem_cons_self
          have hmu := hplain m List.mem_cons_self
          rw [chars_union_cons_cons, List.append_assoc] at h
          obtain ⟨cs, hcs⟩ := exists_memberChars hm.here hmu
          rw [hcs, chars_function] at h
          have hparen : '(' = m.initial := (List.cons.inj h).1
          rw [← chars_function, ← hcs] at h
          obtain ⟨ps, r, rfl⟩ := eq_function_of_initial hm.here hmu hparen
          rw [memberChars_function] at h
          exact absurd (by simpa using h)
            (chars_function_ne_member hm (fun p hp' => ihp p hp' _ hm) u _)
  | _ =>
      obtain ⟨cs, hcs⟩ := exists_chars hb
      rw [chars_function, hcs] at h
      exact absurd (List.cons.inj h).1.symm (initial_ne_parenthesis hb.here rfl rfl)

theorem Separable.function_member {params : List Ty} {result : Ty}
    (h : Separable (function params result)) : SeparableMember (function params result) := by
  intro b hb hbu u v heq
  have hinitial :=
    initial_eq_of_memberChars (a := function params result) trivial hb.here rfl hbu heq
  obtain ⟨own, ownResult, rfl⟩ := eq_function_of_initial hb.here hbu hinitial
  rw [memberChars_function, memberChars_function] at heq
  have hrest : chars (function params result) ++ ')' :: u =
      chars (function own ownResult) ++ ')' :: v := by simpa using heq
  obtain ⟨hfunction, hend⟩ := h _ hb _ _ (by simp) (by simp) hrest
  exact ⟨hfunction, (List.cons.inj hend).2⟩

theorem separable_union {members : List Ty} (hm : (union members).Everywhere Legible)
    (ih : ∀ m ∈ members, Separable m) (ihmember : ∀ m ∈ members, SeparableMember m) :
    Separable (union members) := by
  intro b hb u v hu hv h
  obtain ⟨hlength, hplain⟩ := hm.here
  have hnobar {w w' : List Char} (hw : Ends w) : w ≠ [' ', '|', ' '] ++ w' := by
    rintro rfl
    simp at hw
  match members, hlength with
  | m :: n :: rest, _ =>
      have hleg := everywhereEach_iff.1 hm.2 m List.mem_cons_self
      have hmu := hplain m List.mem_cons_self
      cases b with
      | union others =>
          obtain ⟨hlength', hplain'⟩ := hb.here
          have hothers := everywhereEach_iff.1 hb.2
          rw [chars_union, chars_union] at h
          have hne : others ≠ [] := by
            rintro rfl
            simp at hlength'
          obtain ⟨heq, hend⟩ := intercalate_append_inj (R := fun _ => True) (fun _ => trivial)
            (fun m hm n hn u v _ _ => ihmember m hm n (hothers n hn) (hplain' n hn) u v)
            (by simp) hne trivial trivial (fun _ => hnobar hu) (fun _ => hnobar hv) h
          exact ⟨congrArg union heq, hend⟩
      | function params result =>
          rw [chars_union_cons_cons, List.append_assoc] at h
          obtain ⟨cs, hcs⟩ := exists_memberChars hleg.here hmu
          rw [hcs, chars_function] at h
          have hparen : '(' = m.initial := (List.cons.inj h).1.symm
          rw [← chars_function, ← hcs] at h
          obtain ⟨ps, r, rfl⟩ := eq_function_of_initial hleg.here hmu hparen
          rw [memberChars_function] at h
          have hsep (p : Ty) (hp : p ∈ params) (u v : List Char) (hu : Ends u) (hv : Ends v)
              (heq : chars p ++ u = chars (function ps r) ++ v) : p = function ps r ∧ u = v := by
            have hp' := everywhereEach_iff.1 hb.2.1 p hp
            obtain ⟨hm, hend⟩ := ih _ List.mem_cons_self p hp' v u hv hu heq.symm
            exact ⟨hm.symm, hend.symm⟩
          exact absurd (by simpa using h.symm) (chars_function_ne_member hleg hsep v _)
      | _ =>
          rw [chars_union_cons_cons, List.append_assoc,
            ← memberChars_of_not_isFunction (a := _) rfl] at h
          have hend := (ihmember m List.mem_cons_self _ hb rfl _ _ h).2
          exact absurd hend.symm (hnobar hv)

/-- A type that can be told by its text: as it is when the text ends with it, and in a union
whatever follows. -/
theorem separable {a : Ty} (ha : a.Everywhere Legible) :
    Separable a ∧ (a.isUnion = false → SeparableMember a) := by
  have hatom {a : Ty} (h : SeparableMember a) (ha : Legible a) (hf : a.isFunction = false)
      (hu : a.isUnion = false) : Separable a ∧ (a.isUnion = false → SeparableMember a) :=
    ⟨h.separable ha hf hu, fun _ => h⟩
  induction a with
  | array element ih =>
      exact hatom (separableMember_array ha.2 (ih ha.2).1) trivial rfl rfl
  | record fields ih =>
      have hfields := everywhereFields_iff.1 ha.2
      exact hatom (separableMember_record ha.here fun f hf => (ih f hf (hfields f hf)).1) ha.here
        rfl rfl
  | function params result ihparams ihresult =>
      obtain ⟨-, hparams, hresult⟩ := ha
      rw [everywhereEach_iff] at hparams
      have h := separable_function hparams (fun p hp => (ihparams p hp (hparams p hp)).1)
        (ihresult hresult).1
      exact ⟨h, fun _ => h.function_member⟩
  | union members ih =>
      have hmembers := everywhereEach_iff.1 ha.2
      refine ⟨separable_union ha (fun m hm => (ih m hm (hmembers m hm)).1) fun m hm => ?_, ?_⟩
      · exact (ih m hm (hmembers m hm)).2 (ha.here.2 m hm)
      · exact fun h => nomatch h
  | generic name => exact absurd ha.here id
  | constrained name bound => exact absurd ha.here id
  | emptyArray => exact hatom separableMember_emptyArray trivial rfl rfl
  | _ =>
      exact hatom (separableMember_word trivial rfl rfl) trivial rfl rfl

/-- Two types with the same text are the same, also when more text follows that ends a type. -/
theorem chars_append_inj {a b : Ty} (ha : a.Everywhere Legible) (hb : b.Everywhere Legible)
    {u v : List Char} (hu : Ends u) (hv : Ends v) (h : chars a ++ u = chars b ++ v) :
    a = b ∧ u = v :=
  (separable ha).1 b hb u v hu hv h

/-- Types are the same if their texts are: types without variables whose unions, at any depth, have
at least two members, none of which is a union, and whose records name their fields by
identifiers. -/
theorem pretty_eq_iff {a b : Ty} (ha : a.Everywhere Legible) (hb : b.Everywhere Legible) :
    a.pretty = b.pretty ↔ a = b := by
  constructor
  · intro h
    have htext : chars a ++ [] = chars b ++ [] := by rw [chars, chars, h]
    exact (chars_append_inj ha hb ends_nil ends_nil htext).1
  · rintro rfl
    rfl

/-- A function that may give nothing is told from a function that may be missing, though only the
parentheses differ. -/
theorem pretty_ne_function_union :
    (function [integer] (union [integer, none])).pretty ≠
      (union [function [integer] integer, none]).pretty := by
  have hleft : (function [integer] (union [integer, none])).Everywhere Legible := by
    simp [Everywhere, EverywhereEach, Legible, isUnion]
  have hright : (union [function [integer] integer, none]).Everywhere Legible := by
    simp [Everywhere, EverywhereEach, Legible, isUnion]
  exact (pretty_eq_iff hleft hright).not.2 (by decide)

end LazyLang.Ty
