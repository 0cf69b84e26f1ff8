import LazyLang.Program
import LazyLang.Proofs.Evaluation.Places

/-!
# Functions do not look at places

What a built-in function comes to in a store without places is what it comes to in the store as it
is, without places. So it is with the application of functions, with evaluation as a whole, and with
plain results, which hold no places: two expressions that differ only in what their nodes carry are
stripped to the same.
-/

namespace LazyLang

namespace Value

variable {operation : String}

theorem placeless_fitInteger (n : Int) : Placeless (fitInteger operation n) := by
  rw [fitInteger]
  split <;> rfl

theorem placeless_integerPower (x : Int) (n : Nat) : Placeless (integerPower x n) := by
  rw [integerPower]
  split
  · exact placeless_fitInteger _
  · split
    · exact placeless_fitInteger _
    · rfl

/-- An operation on a value that does not look at places, and gives none. -/
def Blind (op : Value → Except RuntimeError Value) : Prop :=
  ∀ v, (op v).map unplaced = op v.unplaced

/-- An operation on two values that does not look at places. -/
def Blind₂ (op : Value → Value → Except RuntimeError Value) : Prop :=
  ∀ v w, (op v w).map unplaced = op v.unplaced w.unplaced

theorem blind_numeric {onIntegers : Int → Int → Except RuntimeError Value}
    (h : ∀ x y, Placeless (onIntegers x y)) (onFloats : Float → Float → Float) :
    Blind₂ (numeric operation onIntegers onFloats) := by
  intro v w
  cases v <;> cases w <;> first | exact h _ _ | rfl

theorem blind_add : Blind₂ add := blind_numeric (fun _ _ => placeless_fitInteger _) _

theorem blind_subtract : Blind₂ subtract := blind_numeric (fun _ _ => placeless_fitInteger _) _

theorem blind_multiply : Blind₂ multiply := blind_numeric (fun _ _ => placeless_fitInteger _) _

theorem blind_divide : Blind₂ divide := by
  refine blind_numeric (fun x y => ?_) _
  split
  · rfl
  · exact placeless_fitInteger _

theorem blind_remainder : Blind₂ remainder := by
  refine blind_numeric (fun x y => ?_) _
  split
  · rfl
  · split
    · rfl
    · exact placeless_fitInteger _

theorem blind_power : Blind₂ power := by
  refine blind_numeric (fun x y => ?_) _
  split
  · exact placeless_integerPower _ _
  · rfl

theorem blind_negate : Blind negate := by
  intro v
  cases v with
  | integer i => exact placeless_fitInteger _
  | _ => rfl

theorem blind_absolute : Blind absolute := by
  intro v
  cases v with
  | integer i => exact placeless_fitInteger _
  | _ => rfl

theorem blind_roundedTo (round : Float → Float) : Blind (roundedTo operation round) := by
  intro v
  rw [roundedTo, roundedTo, v.toFloat_unplaced]
  split
  · rfl
  · dsimp only
    split
    · rfl
    · split <;> rfl

theorem blind_onFloat (f : Float → Float) : Blind (onFloat operation f) := by
  intro v
  rw [onFloat, onFloat, v.toFloat_unplaced]
  cases v.toFloat operation <;> rfl

end Value

theorem Sequence.unplaced_sliceOf (s : Sequence) (start stop : Option Int) (step : Int) :
    (Runner.sliceOf s start stop step).unplaced = Runner.sliceOf s.unplaced start stop step := by
  rw [Runner.sliceOf, Runner.sliceOf]
  split
  · cases stop <;> rfl
  · rfl

namespace Runner.Blind

variable {R : Runner} (h : R.Blind)

include h

theorem equalValues_equalItems (n : ℕ) :
    (∀ a b : Value, Eval.Blind id (R.equalValues n a b) (R.equalValues n a.unplaced b.unplaced)) ∧
      ∀ t u : Traversal,
        Eval.Blind id (R.equalItems n t u) (R.equalItems n t.unplaced u.unplaced) := by
  induction n with
  | zero => exact ⟨fun _ _ => .exhausted, fun _ _ => .exhausted⟩
  | succ n ih =>
      obtain ⟨hvalues, hitems⟩ := ih
      constructor
      · intro a b
        cases a with
        | array xs =>
            cases b with
            | array ys =>
                exact .seq (.lift (h.traverse xs)) fun t => .seq (.lift (h.traverse ys)) fun u =>
                  hitems t u
            | function => exact .fail _
            | _ => exact .ret rfl
        | _ => cases b <;> first | exact .ret rfl | exact .fail _
      · intro t u
        simp only [Runner.equalItems]
        refine .seq (.lift (h.next t)) ?_
        rintro ⟨x, t⟩
        refine .seq (.lift (h.next u)) ?_
        rintro ⟨y, u⟩
        cases x with
        | none => cases y <;> exact .ret rfl
        | some x =>
            cases y with
            | none => exact .ret rfl
            | some y =>
                refine .seq (.same x) fun r => .seq (h.force r) fun a => ?_
                refine .seq (.same y) fun s => .seq (h.force s) fun b => ?_
                refine .seq (hvalues a b) fun same => ?_
                cases same with
                | true => exact hitems t u
                | false => exact .ret rfl

theorem equal (a b : Value) : Eval.Blind id (R.equal a b) (R.equal a.unplaced b.unplaced) :=
  (h.equalValues_equalItems R.fuel).1 a b

theorem renderValue (n : ℕ) (nested : Bool) (v : Value) :
    Eval.Blind id (R.renderValue n nested v) (R.renderValue n nested v.unplaced) := by
  induction n generalizing nested v with
  | zero => exact .exhausted
  | succ n ih =>
      cases v with
      | array s =>
          refine .seq (h.fold (φ := id) (fun texts item => ?_) s []) fun _ => .ret rfl
          exact .seq (.same item) fun r => .seq (h.force r) fun v => .seq (ih true v) fun _ =>
            .ret rfl
      | _ => exact .ret rfl

theorem render (v : Value) : Eval.Blind id (R.render v) (R.render v.unplaced) :=
  h.renderValue R.fuel false v

section

variable (operation : String) (r s : Ref)

theorem forceInteger :
    Eval.Blind id (R.forceInteger operation r) (R.forceInteger operation r) := by
  refine .seq (h.force r) fun v => ?_
  rw [v.toInteger_unplaced]
  exact .seq (.same _) fun _ => .ret rfl

theorem forceText : Eval.Blind id (R.forceText operation r) (R.forceText operation r) := by
  refine .seq (h.force r) fun v => ?_
  rw [v.toText_unplaced]
  exact .same _

theorem forceSequence :
    Eval.Blind Sequence.unplaced (R.forceSequence operation r) (R.forceSequence operation r) :=
  .seq (h.force r) fun v => .except (v.toSequence_unplaced operation).symm

theorem forceFunction : Eval.Blind id (R.forceFunction r) (R.forceFunction r) := by
  refine .seq (h.force r) fun v => ?_
  rw [v.toFunction_unplaced]
  exact .same _

theorem forceTruth : Eval.Blind id (R.forceTruth operation r) (R.forceTruth operation r) := by
  refine .seq (h.force r) fun v => ?_
  rw [v.truthy_unplaced]
  exact .same _

theorem forceCount : Eval.Blind id (R.forceCount operation r) (R.forceCount operation r) :=
  .seq (h.forceInteger operation r) fun _ => .ret rfl

theorem forceBound : Eval.Blind id (R.forceBound operation r) (R.forceBound operation r) := by
  refine .seq (h.force r) fun v => ?_
  cases v with
  | none => exact .ret rfl
  | _ => exact .seq (.same _) fun _ => .ret rfl

theorem unary {op : Value → Except RuntimeError Value} (hop : Value.Blind op) :
    Eval.Blind Value.unplaced (R.unary op r) (R.unary op r) :=
  .seq (h.force r) fun v => .except (hop v)

theorem binary {op : Value → Value → Except RuntimeError Value} (hop : Value.Blind₂ op) :
    Eval.Blind Value.unplaced (R.binary op r s) (R.binary op r s) :=
  .seq (h.force r) fun v => .seq (h.force s) fun w => .except (hop v w)

theorem comparison (accept : Ordering → Bool) :
    Eval.Blind Value.unplaced (R.comparison operation accept r s)
      (R.comparison operation accept r s) := by
  refine .seq (h.force r) fun v => .seq (h.force s) fun w => ?_
  rw [v.compareNumbers_unplaced]
  exact .seq (.same _) fun _ => .ret rfl

theorem elementOrNone (item : Option Item) :
    Eval.Blind Value.unplaced (R.elementOrNone item) (R.elementOrNone item) := by
  cases item with
  | none => exact .ret rfl
  | some item => exact .seq (.same item) fun r => h.force r

theorem elementAt (t : Sequence) (position : ℤ) :
    Eval.Blind Value.unplaced (R.elementAt t position) (R.elementAt t.unplaced position) := by
  unfold Runner.elementAt
  split
  · exact .seq (.lift (h.traverse t)) fun t => .seq (.lift (h.ahead _ t)) fun p =>
      h.elementOrNone p.1
  · refine .seq (h.toList t) fun elements => ?_
    dsimp only [id]
    split
    · exact h.elementOrNone _
    · exact .ret rfl

end

theorem slice (source start stop step : Ref) :
    Eval.Blind Value.unplaced (R.slice source start stop step)
      (R.slice source start stop step) := by
  refine .seq (h.forceSequence _ source) fun s => .seq (h.forceBound _ start) fun start => ?_
  refine .seq (h.forceBound _ stop) fun stop => .seq (h.forceBound _ step) fun step => ?_
  dsimp only [id]
  split
  · exact .fail _
  · exact .ret (congrArg Value.array (s.unplaced_sliceOf start stop _))

theorem reduce (operation : String) {start : Value} (hstart : start.unplaced = start)
    {op : Value → Value → Except RuntimeError Value} (hop : Value.Blind₂ op) (r : Ref) :
    Eval.Blind Value.unplaced (R.reduce operation start op r) (R.reduce operation start op r) := by
  refine .seq (h.forceSequence operation r) fun s => ?_
  let step : Value → Item → Eval (ForInStep Value) := fun acc item => do
    let v ← R.force (← item)
    return .yield (← op acc v)
  have hstep : ∀ acc item,
      Eval.Blind (strideMap Value.unplaced) (step acc item) (step acc.unplaced item) :=
    fun acc item => .seq (.same item) fun r => .seq (h.force r) fun v =>
      .seq (.except (hop acc v)) fun _ => .ret rfl
  have hfold := h.fold hstep s start
  rw [hstart] at hfold
  exact hfold

theorem extremum (operation : String) (wanted : Ordering) (r : Ref) :
    Eval.Blind Value.unplaced (R.extremum operation wanted r) (R.extremum operation wanted r) := by
  refine .seq (h.forceSequence operation r) fun s => ?_
  refine .seq (h.fold (φ := Option.map Value.unplaced) (fun best item => ?_) s none) fun best => ?_
  · refine .seq (.same item) fun r => .seq (h.force r) fun v => ?_
    cases best with
    | none => exact .ret rfl
    | some current =>
        dsimp only [Option.map]
        rw [v.compareNumbers_unplaced]
        refine .seq (.same _) fun order => ?_
        dsimp only [id]
        split <;> exact .ret rfl
  · cases best with
    | none => exact .fail _
    | some v => exact .ret rfl

theorem length (r : Ref) : Eval.Blind Value.unplaced (R.length r) (R.length r) := by
  refine .seq (h.forceSequence _ r) fun s => ?_
  refine .seq (h.fold (φ := id) (fun count item => ?_) s 0) fun _ => .ret rfl
  exact .seq (.same item) fun _ => .ret rfl

theorem contains (r s : Ref) : Eval.Blind Value.unplaced (R.contains r s) (R.contains r s) := by
  refine .seq (h.force r) fun v => .seq (h.forceSequence _ s) fun t => ?_
  refine .seq (h.fold (φ := id) (fun _ item => ?_) t false) fun _ => .ret rfl
  refine .seq (.same item) fun r => .seq (h.force r) fun w => .seq (h.equal v w) fun same => ?_
  cases same <;> exact .ret rfl

theorem foldLeft (f start r : Ref) :
    Eval.Blind Value.unplaced (R.foldLeft f start r) (R.foldLeft f start r) := by
  refine .seq (h.forceFunction f) fun f => .seq (h.forceSequence _ r) fun s => ?_
  refine .seq (h.fold (φ := id) (fun acc item => ?_) s start) fun last => h.force last
  refine .seq (.same item) fun r => .seq (h.apply f _) fun v => ?_
  exact .seq (.lift (.add rfl)) fun _ => .ret rfl

theorem joinTexts (r s : Ref) : Eval.Blind Value.unplaced (R.joinTexts r s) (R.joinTexts r s) := by
  refine .seq (h.forceText _ r) fun separator => .seq (h.forceSequence _ s) fun t => ?_
  refine .seq (h.fold (φ := id) (fun _ item => ?_) t []) fun _ => .ret rfl
  exact .seq (.same item) fun r => .seq (h.forceText _ r) fun _ => .ret rfl

theorem integersBetween (operation : String) (inclusive : Bool) (r s : Ref) :
    Eval.Blind Value.unplaced (R.integersBetween operation inclusive r s)
      (R.integersBetween operation inclusive r s) :=
  .seq (h.forceInteger operation r) fun _ => .seq (h.forceInteger operation s) fun _ => .ret rfl

theorem pipeline (name : String) (swap : Bool) (r s : Ref) :
    Eval.Blind Value.unplaced (R.pipeline name swap r s) (R.pipeline name swap r s) :=
  .seq (h.forceFunction r) fun _ => .seq (h.forceFunction s) fun _ => .ret rfl

theorem both (r s : Ref) : Eval.Blind Value.unplaced (R.both r s) (R.both r s) := by
  refine .seq (h.forceTruth _ r) fun holds => ?_
  cases holds with
  | true => exact .seq (h.forceTruth _ s) fun _ => .ret rfl
  | false => exact .ret rfl

theorem either (r s : Ref) : Eval.Blind Value.unplaced (R.either r s) (R.either r s) := by
  refine .seq (h.forceTruth _ r) fun holds => ?_
  cases holds with
  | true => exact .ret rfl
  | false => exact .seq (h.forceTruth _ s) fun _ => .ret rfl

section

omit h

variable {xs : List Ref}

theorem on1 {f : Ref → Eval Value} (hf : ∀ r, Eval.Blind Value.unplaced (f r) (f r)) :
    Eval.Blind Value.unplaced (Runner.on1 f xs) (Runner.on1 f xs) := by
  rcases xs with _ | ⟨r, _ | ⟨_, _⟩⟩ <;> first | exact .fail _ | exact hf r

theorem on2 {f : Ref → Ref → Eval Value} (hf : ∀ r s, Eval.Blind Value.unplaced (f r s) (f r s)) :
    Eval.Blind Value.unplaced (Runner.on2 f xs) (Runner.on2 f xs) := by
  rcases xs with _ | ⟨r, _ | ⟨s, _ | ⟨_, _⟩⟩⟩ <;> first | exact .fail _ | exact hf r s

theorem on3 {f : Ref → Ref → Ref → Eval Value}
    (hf : ∀ r s t, Eval.Blind Value.unplaced (f r s t) (f r s t)) :
    Eval.Blind Value.unplaced (Runner.on3 f xs) (Runner.on3 f xs) := by
  rcases xs with _ | ⟨r, _ | ⟨s, _ | ⟨t, _ | ⟨_, _⟩⟩⟩⟩ <;> first | exact .fail _ | exact hf r s t

theorem on4 {f : Ref → Ref → Ref → Ref → Eval Value}
    (hf : ∀ r s t u, Eval.Blind Value.unplaced (f r s t u) (f r s t u)) :
    Eval.Blind Value.unplaced (Runner.on4 f xs) (Runner.on4 f xs) := by
  rcases xs with _ | ⟨r, _ | ⟨s, _ | ⟨t, _ | ⟨u, _ | ⟨_, _⟩⟩⟩⟩⟩ <;> first
    | exact .fail _
    | exact hf r s t u

end

/-- Running a built-in function. -/
theorem runBuiltin (b : Builtin) (xs : List Ref) :
    Eval.Blind Value.unplaced (R.runBuiltin b xs) (R.runBuiltin b xs) := by
  cases b with
  | add => exact on2 fun r s => h.binary r s Value.blind_add
  | subtract => exact on2 fun r s => h.binary r s Value.blind_subtract
  | multiply => exact on2 fun r s => h.binary r s Value.blind_multiply
  | divide => exact on2 fun r s => h.binary r s Value.blind_divide
  | remainder => exact on2 fun r s => h.binary r s Value.blind_remainder
  | power => exact on2 fun r s => h.binary r s Value.blind_power
  | negate => exact on1 fun r => h.unary r Value.blind_negate
  | abs => exact on1 fun r => h.unary r Value.blind_absolute
  | sin | cos | tan | sqrt | exp | ln => exact on1 fun r => h.unary r (Value.blind_onFloat _)
  | floor | ceil | round => exact on1 fun r => h.unary r (Value.blind_roundedTo _)
  | less | lessOrEqual | greater | greaterOrEqual => exact on2 fun r s => h.comparison _ r s _
  | equal | notEqual =>
      exact on2 fun r s => .seq (h.force r) fun v => .seq (h.force s) fun w =>
        .seq (h.equal v w) fun _ => .ret rfl
  | choose =>
      refine on3 fun c r s => .seq (h.forceTruth _ c) fun holds => ?_
      cases holds with
      | true => exact h.force r
      | false => exact h.force s
  | not => exact on1 fun r => .seq (h.forceTruth _ r) fun _ => .ret rfl
  | and => exact on2 h.both
  | or => exact on2 h.either
  | inclusiveRange | range => exact on2 (h.integersBetween _ _)
  | count => exact on1 fun r => .seq (h.forceInteger _ r) fun _ => .ret rfl
  | repeated => exact on1 fun r => .ret rfl
  | iterate => exact on2 fun f r => .seq (h.forceFunction f) fun _ => .ret rfl
  | contains => exact on2 h.contains
  | index =>
      exact on2 fun r s => .seq (h.forceSequence _ r) fun t => .seq (h.forceInteger _ s) fun i =>
        h.elementAt t i
  | slice => exact on4 h.slice
  | length => exact on1 h.length
  | head =>
      refine on1 fun r => .seq (h.forceSequence _ r) fun s => ?_
      exact .seq (.lift (.seq (h.traverse s) h.next)) fun p => h.elementOrNone p.1
  | tail | reverse => exact on1 fun r => .seq (h.forceSequence _ r) fun _ => .ret rfl
  | take | drop =>
      exact on2 fun r s => .seq (h.forceCount _ r) fun _ => .seq (h.forceSequence _ s) fun _ =>
        .ret rfl
  | concat =>
      exact on2 fun r s => .seq (h.forceSequence _ r) fun _ => .seq (h.forceSequence _ s) fun _ =>
        .ret rfl
  | map | filter =>
      exact on2 fun r s => .seq (h.forceFunction r) fun _ => .seq (h.forceSequence _ s) fun _ =>
        .ret rfl
  | fold => exact on3 h.foldLeft
  | zipWith =>
      exact on3 fun r s t => .seq (h.forceFunction r) fun _ => .seq (h.forceSequence _ s) fun _ =>
        .seq (h.forceSequence _ t) fun _ => .ret rfl
  | sum => exact on1 (h.reduce _ rfl Value.blind_add)
  | product => exact on1 (h.reduce _ rfl Value.blind_multiply)
  | min | max => exact on1 (h.extremum _ _)
  | compose | pipe => exact on2 (h.pipeline _ _)
  | identity => exact on1 h.force
  | const => exact on2 fun r _ => h.force r
  | flip => exact on1 fun r => .seq (h.forceFunction r) fun _ => .ret rfl
  | join => exact on2 h.joinTexts
  | upper | lower | lengthOf => exact on1 fun r => .seq (h.forceText _ r) fun _ => .ret rfl
  | string => exact on1 fun r => .seq (h.force r) fun v => .seq (h.render v) fun _ => .ret rfl

theorem sumIntegers (name : String) (xs : List Ref) (total : Int64) :
    Eval.Blind id (R.sumIntegers name xs total) (R.sumIntegers name xs total) := by
  induction xs generalizing total with
  | nil => exact .ret rfl
  | cons r rest ih =>
      refine .seq (h.force r) fun v => ?_
      rw [v.toInteger_unplaced]
      exact .seq (.same _) fun i => ih _

theorem runHost (name : String) (action : HostAction) (xs : List Ref) :
    Eval.Blind Value.unplaced (R.runHost name action xs) (R.runHost name action xs) := by
  refine .seq (.lift (.note _)) fun _ => ?_
  cases action with
  | list => exact .ret rfl
  | sum => exact .seq (h.sumIntegers name xs 0) fun _ => .ret rfl
  | constant r => exact h.force r
  | fail => exact .fail _
  | first =>
      cases xs with
      | nil => exact .fail _
      | cons r _ => exact h.force r
  | last =>
      cases xs with
      | nil => exact .fail _
      | cons r rest => exact h.force _
  | truthy =>
      cases xs with
      | nil => exact .fail _
      | cons r _ => exact .seq (h.forceTruth name r) fun _ => .ret rfl

theorem runBody (f : Function) (xs : List Ref) :
    Eval.Blind Value.unplaced (R.runBody f xs) (R.runBody f xs) := by
  cases f with
  | builtin b _ => exact h.runBuiltin b xs
  | pipeline _ inner outer _ => exact .seq (.lift (.defer _)) fun _ => h.apply outer _
  | flipped inner _ => exact h.apply inner _
  | host name action _ => exact h.runHost name action xs

/-- Applying a function. -/
theorem applyFunction (f : Function) (args : List (Option Ref)) :
    Eval.Blind Value.unplaced (R.applyFunction f args) (R.applyFunction f args) := by
  unfold Runner.applyFunction
  cases f.supply args with
  | error e => exact .fail e
  | ok supplied =>
      cases supplied with
      | awaiting g => exact .ret rfl
      | complete refs => exact h.runBody f refs

/-- Running a deferred computation. -/
theorem runThunk (thunk : Thunk) : Eval.Blind Value.unplaced (thunk.run R) (thunk.run R) := by
  cases thunk with
  | apply callee args =>
      refine .seq (h.force callee) fun v => ?_
      unfold Runner.applyValue
      rw [v.toFunction_unplaced]
      exact .seq (.same _) fun f => h.apply f args
  | call f args => exact h.apply f _
  | forward tag target =>
      cases tag with
      | none =>
          exact Eval.Blind.seq (f := fun _ => R.force target) (g := fun _ => R.force target)
            (.ret (φ := id) (a := ()) rfl) fun _ => h.force target
      | some tag => exact .seq (.lift (.note _)) fun _ => h.force target

/-- Forcing a lazy value. -/
theorem forceCell (r : Ref) : Eval.Blind Value.unplaced (R.forceCell r) (R.forceCell r) := by
  intro st
  rw [Runner.forceCell_run, Runner.forceCell_run, Store.cell_unplaced]
  cases st.cell r with
  | done outcome => rfl
  | forcing => rfl
  | pending thunk =>
      have hthunk := h.runThunk thunk (st.set r .forcing)
      rw [← Store.set_unplaced] at hthunk
      change ((thunk.run R).run (st.unplaced.set r Cell.forcing.unplaced)).map _ =
        (((thunk.run R).run (st.set r .forcing)).map _).map _
      rw [hthunk, Option.map_map, Option.map_map]
      refine congrArg (Option.map · _) (funext fun (o, st') => ?_)
      exact congrArg (Prod.mk _) (st'.set_unplaced r (.done o))

theorem stripValue (limit : Option ℕ) (n : ℕ) (v : Value) :
    Eval.Blind id (R.stripValue limit n v) (R.stripValue limit n v.unplaced) := by
  induction n generalizing v with
  | zero => exact .exhausted
  | succ n ih =>
      cases v with
      | array s =>
          refine .seq (h.fold (φ := id) (fun (count, items) item => ?_) s (0, [])) fun _ => .ret rfl
          refine .seq (φ := id) ?_ fun _ => .seq (.same item) fun r => ?_
          · cases limit with
            | none => exact .ret rfl
            | some limit =>
                unfold Runner.checkLimit
                dsimp only
                split
                · exact .fail _
                · exact .ret rfl
          · refine .seq (h.force r) fun v => .seq (ih v) fun p => ?_
            cases p <;> exact .ret rfl
      | _ => exact .ret rfl

theorem stripRef (limit : Option ℕ) (r : Ref) :
    Eval.Blind id (R.stripRef limit r) (R.stripRef limit r) :=
  .seq (h.force r) fun v => h.stripValue limit R.fuel v

end Runner.Blind

/-- Evaluation does not look at places. -/
theorem Runner.blind_ofFuel (n : ℕ) : (ofFuel n).Blind := by
  induction n with
  | zero => exact ⟨fun _ => .exhausted, fun _ => .exhausted, fun _ _ => .exhausted⟩
  | succ n ih => exact ⟨ih.forceCell, ih.step, ih.applyFunction⟩

end LazyLang
