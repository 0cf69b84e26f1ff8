import LazyLang.Proofs.Calls
import LazyLang.Proofs.Currying
import LazyLang.Proofs.Soundness.Derivations

/-!
# Checker and evaluator in step over partial calls

The checker takes the parameters of a function type and the arguments of a call side by side; a
running program puts the arguments into the open slots of a function. A type and a function are
matched when the parameters are the types of the open slots in their order. One call later they are
matched again (`openTypes_fillSlots`), with the types as the evidence of the call specializes them,
unless the checker and the running program both refuse the call or both have all the arguments.

So they stay in step over any chain of calls (`exists_inStep`).
-/

namespace LazyLang

namespace Function

/-- The positions of the open slots, where the first slot is at `start`. -/
def openPositions : List (Option Ref) → ℕ → List ℕ
  | [], _ => []
  | some _ :: slots, start => openPositions slots (start + 1)
  | none :: slots, start => start :: openPositions slots (start + 1)

/-- The types of the open slots of a function, where `slotType` tells the type of each slot. -/
def openTypes (f : Function) (slotType : ℕ → Ty) : List Ty :=
  (openPositions f.slots 0).map slotType

theorem length_openPositions (slots : List (Option Ref)) (start : ℕ) :
    (openPositions slots start).length = openCount slots := by
  induction slots generalizing start with
  | nil => rfl
  | cons slot slots ih =>
      cases slot with
      | some x => rw [openPositions, openCount_some, ih]
      | none => rw [openPositions, openCount_none, List.length_cons, ih]

theorem length_openTypes (f : Function) (slotType : ℕ → Ty) :
    (f.openTypes slotType).length = f.openSlots := by
  rw [openTypes, List.length_map, length_openPositions]
  rfl

theorem le_of_mem_openPositions {slots : List (Option Ref)} {start i : ℕ}
    (h : i ∈ openPositions slots start) : start ≤ i := by
  induction slots generalizing start with
  | nil => cases h
  | cons slot slots ih =>
      cases slot with
      | some x => exact Nat.le_of_succ_le (ih h)
      | none =>
          rcases List.mem_cons.1 h with rfl | h
          · exact le_refl i
          · exact Nat.le_of_succ_le (ih h)

/-- As many types as there are open slots are the types of these slots. -/
theorem exists_map_openPositions (slots : List (Option Ref)) (start : ℕ) {types : List Ty}
    (h : types.length = openCount slots) :
    ∃ slotType : ℕ → Ty, (openPositions slots start).map slotType = types := by
  induction slots generalizing start types with
  | nil =>
      rw [List.eq_nil_of_length_eq_zero h]
      exact ⟨fun _ => .none, rfl⟩
  | cons slot slots ih =>
      cases slot with
      | some x => exact ih (start + 1) (by simpa using h)
      | none =>
          cases types with
          | nil => simp at h
          | cons a types =>
              have hlength : types.length = openCount slots := by simpa using h
              obtain ⟨slotType, hrest⟩ := ih (start + 1) hlength
              refine ⟨fun i => if i = start then a else slotType i, ?_⟩
              rw [openPositions, List.map_cons, if_pos rfl, ← hrest]
              refine congrArg _ (List.map_congr_left fun i hi => ?_)
              -- the slots further on are not the one that was added
              have hlt : start < i := le_of_mem_openPositions hi
              rw [if_neg hlt.ne']

/-- The slots that arguments leave open are those of the parameters that they leave open. -/
theorem map_openPositions_fillSlots {α : Type} (slotType : ℕ → Ty) (slots : List (Option Ref))
    (start : ℕ) {args : List (Option α)} {refs : List (Option Ref)}
    (h : args.map Option.isSome = refs.map Option.isSome) :
    (openPositions (fillSlots slots refs) start).map slotType =
      Ty.leftOpen ((openPositions slots start).map slotType) args := by
  induction slots generalizing start args refs with
  | nil =>
      rw [fillSlots_of_nil, openPositions, List.map_nil]
      cases args <;> rfl
  | cons slot slots ih =>
      cases slot with
      | some x =>
          rw [fillSlots_some, openPositions, openPositions]
          exact ih (start + 1) h
      | none =>
          cases refs with
          | nil =>
              rw [List.map_eq_nil_iff.1 h, fillSlots_nil, Ty.leftOpen.eq_def]
          | cons ref refs =>
              cases args with
              | nil => cases h
              | cons arg args =>
                  obtain ⟨hhead, htail⟩ := List.cons_eq_cons.1 h
                  rw [fillSlots_none, openPositions, List.map_cons]
                  cases arg with
                  | none =>
                      cases ref with
                      | none =>
                          rw [openPositions, List.map_cons, ih (start + 1) htail, Ty.leftOpen]
                      | some r => cases hhead
                  | some arg =>
                      cases ref with
                      | none => cases hhead
                      | some r => rw [openPositions, ih (start + 1) htail, Ty.leftOpen]

/-- What stays open of a function are the parameters that its arguments leave open. -/
theorem openTypes_fillSlots {α : Type} (f : Function) (slotType : ℕ → Ty)
    {args : List (Option α)} {refs : List (Option Ref)}
    (h : args.map Option.isSome = refs.map Option.isSome) :
    (f.withSlots (fillSlots f.slots refs)).openTypes slotType =
      Ty.leftOpen (f.openTypes slotType) args := by
  rw [openTypes, slots_withSlots, openTypes, map_openPositions_fillSlots slotType f.slots 0 h]

theorem openTypes_comp (f : Function) (slotType : ℕ → Ty) (e : Evidence) :
    f.openTypes (fun i => e.substitute (slotType i)) =
      e.substituteEach (f.openTypes slotType) := by
  rw [Evidence.substituteEach_eq_map, openTypes, openTypes, List.map_map]
  rfl

/-- Slots of which none is open hold all the arguments. -/
theorem exists_allFilled {slots : List (Option Ref)} (h : openCount slots = 0) :
    ∃ refs, allFilled slots = some refs := by
  induction slots with
  | nil => exact ⟨[], rfl⟩
  | cons slot slots ih =>
      cases slot with
      | none => simp at h
      | some x =>
          obtain ⟨refs, hrefs⟩ := ih (by simpa using h)
          refine ⟨x :: refs, ?_⟩
          rw [allFilled, hrefs]
          rfl

end Function

namespace Fitted

/-- The parameters that remain are those that no argument is given for. -/
theorem fit_remaining (params : List Ty) (args : List (Option TypedExpr)) (e : Evidence) :
    (fit params args e).remaining = Ty.leftOpen params args := by
  induction args generalizing params e with
  | nil => cases params <;> rfl
  | cons arg args ih =>
      cases params with
      | nil => rfl
      | cons param params =>
          cases arg with
          | none =>
              rw [fit, Ty.leftOpen]
              exact congrArg _ (ih params e)
          | some arg =>
              rw [fit, Ty.leftOpen]
              split
              · exact ih params e
              · exact ih params _

end Fitted

/-- The arguments of one call as the checker sees them, and the lazy values that a running program
has for them, with placeholders at the same places. -/
structure Portion where
  node : Node Unit
  args : List (Option TypedExpr)
  refs : List (Option Ref)
  alike : args.map Option.isSome = refs.map Option.isSome

namespace Portion

variable (p : Portion) (callee : TypedExpr) (params : List Ty) (result : Ty) (f : Function)

theorem length_eq : p.args.length = p.refs.length := by
  have h := congrArg List.length p.alike
  rwa [List.length_map, List.length_map] at h

/-- The call with its type. -/
def call : TypedExpr := Expr.typedCall p.node callee p.args

/-- The checker reports that there are too many arguments for the parameters. -/
def Reported : Prop :=
  (p.call callee).messages = p.node.messages ++
    [TypeError.message (.tooManyArguments params.length p.args.length) p.node.span]

/-- The running program refuses the arguments as too many, before it runs anything. -/
def Refused : Prop :=
  f.supply p.refs = .error (.tooManyArguments f.name f.openSlots p.refs.length)

/-- The function has all its arguments now, so that its body is run. -/
def Complete : Prop := ∃ refs, f.supply p.refs = .ok (.complete refs)

/-- What the arguments tell about the generic variables. -/
def evidence : Evidence := (Fitted.fit params p.args []).evidence

end Portion

/-- The checker and a running program agree over a chain of calls, each of what the call before has
left: both refuse a call or none does; where none does, the call is of the result type if and only
if the body runs; and otherwise it is of a function type, whose parameters are the specialized types
of the slots that are open now. -/
def InStep : (ℕ → Ty) → TypedExpr → Function → List Portion → Prop
  | _, _, _, [] => True
  | slotType, callee, f, p :: rest =>
    ∃ params result, callee.info = some (.function params result) ∧
      (p.Reported callee params ↔ p.Refused f) ∧
      (¬p.Refused f →
        (p.call callee).messages = p.node.messages ∧
          ((p.call callee).info = some ((p.evidence params).substitute result) ↔ p.Complete f) ∧
          (¬p.Complete f → ∃ g, f.supply p.refs = .ok (.awaiting g) ∧
            (p.call callee).info = some (.function
              (g.openTypes fun i => (p.evidence params).substitute (slotType i))
              ((p.evidence params).substitute result)) ∧
            InStep (fun i => (p.evidence params).substitute (slotType i)) (p.call callee) g rest))

namespace Portion

variable {p : Portion} {callee : TypedExpr} {params : List Ty} {result : Ty} {f : Function}
  {slotType : ℕ → Ty}

theorem call_messages (hcallee : callee.info = some (.function params result)) :
    (p.call callee).messages = p.node.messages ++
      if p.args.length > params.length then
        [TypeError.message (.tooManyArguments params.length p.args.length) p.node.span]
      else [] := by
  rw [call, Expr.typedCall, hcallee]
  rfl

theorem call_info (hcallee : callee.info = some (.function params result)) :
    (p.call callee).info = some ((Fitted.fit params p.args []).resultType result) := by
  rw [call, Expr.typedCall, hcallee]
  rfl

/-- There are too many arguments for the checker if and only if there are for the program. -/
theorem reported_iff_refused (hcallee : callee.info = some (.function params result))
    (hslots : f.openTypes slotType = params) : p.Reported callee params ↔ p.Refused f := by
  have hparams : params.length = f.openSlots := hslots ▸ f.length_openTypes slotType
  rw [Reported, call_messages hcallee, p.length_eq, hparams, Refused]
  by_cases hmany : p.refs.length > f.openSlots
  · rw [if_pos hmany]
    exact iff_of_true rfl (Function.supply_tooMany hmany)
  · rw [if_neg hmany]
    refine iff_of_false (by simp) fun h => ?_
    rw [Function.supply, if_neg hmany] at h
    dsimp only at h
    split at h <;> cases h

theorem length_le_of_not_refused (h : ¬p.Refused f) :
    p.refs.length ≤ Function.openCount f.slots :=
  Nat.le_of_not_lt fun hmany => h (Function.supply_tooMany hmany)

/-- The type of the call is that of the function that is left, or the result where none is. -/
theorem resultType_eq_awaiting (hslots : f.openTypes slotType = params) :
    (Fitted.fit params p.args []).resultType result =
      Ty.awaiting ((f.withSlots (Function.fillSlots f.slots p.refs)).openTypes
        fun i => (p.evidence params).substitute (slotType i))
        ((p.evidence params).substitute result) := by
  rw [Function.openTypes_comp, Function.openTypes_fillSlots f slotType p.alike, hslots,
    Fitted.resultType, Fitted.fit_remaining]
  rfl

/-- After a call that is not refused the body runs with the result type, or the type of the call is
matched by the function that is left. -/
theorem step (hcallee : callee.info = some (.function params result))
    (hslots : f.openTypes slotType = params) (hp : ¬p.Refused f) :
    (p.Complete f ∧ (p.call callee).info = some ((p.evidence params).substitute result)) ∨
      ∃ g, f.supply p.refs = .ok (.awaiting g) ∧
        (p.call callee).info = some (.function
          (g.openTypes fun i => (p.evidence params).substitute (slotType i))
          ((p.evidence params).substitute result)) := by
  have hfew := length_le_of_not_refused hp
  rw [call_info hcallee, resultType_eq_awaiting hslots]
  have hlength := (f.withSlots (Function.fillSlots f.slots p.refs)).length_openTypes
    fun i => (p.evidence params).substitute (slotType i)
  rw [Function.openSlots, Function.slots_withSlots] at hlength
  rcases Nat.eq_zero_or_pos (Function.openCount (Function.fillSlots f.slots p.refs)) with h | h
  · left
    obtain ⟨refs, hrefs⟩ := Function.exists_allFilled h
    refine ⟨⟨refs, Function.supply_complete hfew hrefs⟩, ?_⟩
    rw [List.eq_nil_of_length_eq_zero (hlength.trans h), Ty.awaiting]
  · right
    refine ⟨_, Function.supply_awaiting hfew h, ?_⟩
    cases htypes : (f.withSlots (Function.fillSlots f.slots p.refs)).openTypes
        fun i => (p.evidence params).substitute (slotType i) with
    | nil =>
        rw [htypes] at hlength
        exact absurd hlength.symm h.ne'
    | cons a types => rfl

end Portion

theorem Ty.ne_function (params : List Ty) (result : Ty) : result ≠ .function params result := by
  intro h
  have hsize := congrArg sizeOf h
  simp at hsize

/-- Once they are matched, the checker and a running program stay in step. -/
theorem inStep_of_matched {slotType : ℕ → Ty} {callee : TypedExpr} {params : List Ty} {result : Ty}
    {f : Function} (hcallee : callee.info = some (.function params result))
    (hslots : f.openTypes slotType = params) (portions : List Portion) :
    InStep slotType callee f portions := by
  induction portions generalizing slotType callee params result f with
  | nil => trivial
  | cons p rest ih =>
      refine ⟨params, result, hcallee, p.reported_iff_refused hcallee hslots, fun hp => ?_⟩
      have hmessages : (p.call callee).messages = p.node.messages := by
        have hparams : params.length = f.openSlots := hslots ▸ f.length_openTypes slotType
        have hfew : ¬p.args.length > params.length := by
          rw [p.length_eq, hparams]
          exact Nat.not_lt.2 (p.length_le_of_not_refused hp)
        rw [p.call_messages hcallee, if_neg hfew, List.append_nil]
      refine ⟨hmessages, ?_⟩
      rcases p.step hcallee hslots hp with ⟨hcomplete, hinfo⟩ | ⟨g, hg, hinfo⟩
      · exact ⟨iff_of_true hinfo hcomplete, fun h => absurd hcomplete h⟩
      · refine ⟨iff_of_false (fun h => ?_) ?_, fun _ => ⟨g, hg, hinfo, ih hinfo rfl⟩⟩
        · exact Ty.ne_function _ _ (Option.some.inj (h.symm.trans hinfo))
        · rintro ⟨refs, hrefs⟩
          cases hrefs.symm.trans hg

/-- A function type and a function with as many open slots as it has parameters: the parameters are
the types of these slots, and the checker and a running program are in step over every chain of
calls. -/
theorem exists_inStep {callee : TypedExpr} {params : List Ty} {result : Ty} {f : Function}
    (hcallee : callee.info = some (.function params result))
    (hopen : params.length = f.openSlots) :
    ∃ slotType : ℕ → Ty, f.openTypes slotType = params ∧
      ∀ portions, InStep slotType callee f portions := by
  obtain ⟨slotType, hslots⟩ := Function.exists_map_openPositions f.slots 0 hopen
  exact ⟨slotType, hslots, fun portions => inStep_of_matched hcallee hslots portions⟩

/-- Of four slots one is held from before. A call fills the second of the three open ones, past a
placeholder, with a number: the call is of a function of an integer and an array of numbers. -/
theorem exists_inStep_sample :
    let params := [.integer, .generic "T", .array (.generic "T")]
    let callee := Fitted.named "f" (.function params (.generic "T"))
    let f := Function.host "f" .list [none, some ⟨0⟩, none, none]
    let p : Portion :=
      ⟨.plain .origin, [none, some (Fitted.named "x" .float)], [none, some ⟨1⟩], rfl⟩
    callee.info = some (.function params (.generic "T")) ∧ params.length = f.openSlots ∧
      ∃ slotType : ℕ → Ty, f.openTypes slotType = params ∧ InStep slotType callee f [p, p] ∧
        ∃ g, f.supply p.refs = .ok (.awaiting g) ∧ g.openSlots = 2 ∧
          (p.call callee).info = some (.function [.integer, .array .float] .float) := by
  intro params callee f p
  have hcallee : callee.info = some (.function params (.generic "T")) := rfl
  have hopen : params.length = f.openSlots := by decide
  obtain ⟨slotType, hslots, hstep⟩ := exists_inStep hcallee hopen
  refine ⟨hcallee, hopen, slotType, hslots, hstep [p, p], _, rfl, by decide, by decide +kernel⟩

end LazyLang
