import LazyLang.Proofs.Acyclicity.Arrangement
import LazyLang.Proofs.Acyclicity.Failures

/-!
# Operations give no failure of a cycle

On top of a runner that never gives the failure of a value that depends on itself, neither does a
built-in function or a function of the host, the application of functions, a deferred computation or
the stripping of values. So no runner gives it in which forcing a value that is being forced answers
with something else.
-/

namespace LazyLang

namespace Value

variable {operation : String}

theorem untangled_toFloat (v : Value) : LazyLang.Untangled Unknown (v.toFloat operation) := by
  cases v <;> first | exact trivial | exact RuntimeError.noConfusion

theorem untangled_toInteger (v : Value) : LazyLang.Untangled Unknown (v.toInteger operation) := by
  cases v <;> first | exact trivial | exact RuntimeError.noConfusion

theorem untangled_toText (v : Value) : LazyLang.Untangled Unknown (v.toText operation) := by
  cases v <;> first | exact trivial | exact RuntimeError.noConfusion

theorem untangled_toFunction (v : Value) : LazyLang.Untangled Unknown v.toFunction := by
  cases v <;> first | exact trivial | exact RuntimeError.noConfusion

theorem Untangled.toSequence {v : Value} (hv : v.Untangled) :
    LazyLang.Untangled Sequence.Untangled (v.toSequence operation) := by
  cases v <;> first | exact hv | exact RuntimeError.noConfusion

theorem untangled_fitInteger (n : ℤ) :
    LazyLang.Untangled Value.Untangled (fitInteger operation n) := by
  rw [fitInteger]
  split
  · exact trivial
  · exact RuntimeError.noConfusion

theorem untangled_map_float {o : Except RuntimeError Float} (ho : LazyLang.Untangled Unknown o)
    (f : Float → Float) : LazyLang.Untangled Value.Untangled (o.map fun x => .float (f x)) := by
  cases o with
  | error e => exact ho
  | ok x => exact trivial

theorem untangled_numeric {onIntegers : ℤ → ℤ → Except RuntimeError Value}
    (h : ∀ x y, LazyLang.Untangled Value.Untangled (onIntegers x y))
    (onFloats : Float → Float → Float) (a b : Value) :
    LazyLang.Untangled Value.Untangled (numeric operation onIntegers onFloats a b) := by
  have ha : LazyLang.Untangled Unknown (a.toFloat operation) := untangled_toFloat a
  have hb : LazyLang.Untangled Unknown (b.toFloat operation) := untangled_toFloat b
  unfold numeric
  split
  · exact h _ _
  · split
    · next heq => rwa [heq] at ha
    · split
      · next heq => rwa [heq] at hb
      · exact trivial

theorem untangled_add (a b : Value) : LazyLang.Untangled Value.Untangled (add a b) :=
  untangled_numeric (fun _ _ => untangled_fitInteger _) _ a b

theorem untangled_subtract (a b : Value) : LazyLang.Untangled Value.Untangled (subtract a b) :=
  untangled_numeric (fun _ _ => untangled_fitInteger _) _ a b

theorem untangled_multiply (a b : Value) : LazyLang.Untangled Value.Untangled (multiply a b) :=
  untangled_numeric (fun _ _ => untangled_fitInteger _) _ a b

theorem untangled_divide (a b : Value) : LazyLang.Untangled Value.Untangled (divide a b) := by
  refine untangled_numeric (fun x y => ?_) _ a b
  split
  · exact RuntimeError.noConfusion
  · exact untangled_fitInteger _

theorem untangled_remainder (a b : Value) :
    LazyLang.Untangled Value.Untangled (remainder a b) := by
  refine untangled_numeric (fun x y => ?_) _ a b
  split
  · exact RuntimeError.noConfusion
  · split
    · exact RuntimeError.noConfusion
    · exact untangled_fitInteger _

theorem untangled_power (a b : Value) : LazyLang.Untangled Value.Untangled (power a b) := by
  refine untangled_numeric (fun x y => ?_) _ a b
  split
  · unfold integerPower
    split
    · exact untangled_fitInteger _
    · split
      · exact untangled_fitInteger _
      · exact RuntimeError.noConfusion
  · exact RuntimeError.noConfusion

theorem untangled_negate (v : Value) : LazyLang.Untangled Value.Untangled (negate v) := by
  unfold negate
  split
  · exact untangled_fitInteger _
  · exact untangled_map_float (untangled_toFloat _) _

theorem untangled_absolute (v : Value) : LazyLang.Untangled Value.Untangled (absolute v) := by
  unfold absolute
  split
  · next i =>
      -- left as it is, unification would unfold the coercion down to the bound
      generalize (i.toInt.natAbs : ℤ) = n
      exact untangled_fitInteger n
  · exact untangled_map_float (untangled_toFloat _) _

theorem untangled_onFloat (f : Float → Float) (v : Value) :
    LazyLang.Untangled Value.Untangled (onFloat operation f v) :=
  untangled_map_float v.untangled_toFloat f

theorem untangled_roundedTo (round : Float → Float) (v : Value) :
    LazyLang.Untangled Value.Untangled (roundedTo operation round v) := by
  have hv : LazyLang.Untangled Unknown (v.toFloat operation) := untangled_toFloat v
  unfold roundedTo
  split
  · next heq => rwa [heq] at hv
  · dsimp only
    split
    · exact RuntimeError.noConfusion
    · split
      · exact RuntimeError.noConfusion
      · exact trivial

theorem untangled_compareNumbers (a b : Value) :
    LazyLang.Untangled Unknown (compareNumbers operation a b) := by
  have ha : LazyLang.Untangled Unknown (a.toFloat operation) := untangled_toFloat a
  have hb : LazyLang.Untangled Unknown (b.toFloat operation) := untangled_toFloat b
  unfold compareNumbers
  split
  · exact trivial
  · split
    · next heq => rwa [heq] at ha
    · cases hy : b.toFloat operation with
      | error e => rwa [hy] at hb
      | ok y => exact trivial

end Value

namespace Runner.Untangled

variable {R : Runner} (h : R.Untangled)

include h

theorem equalValues_equalItems (n : ℕ) :
    (∀ {a b : Value}, a.Untangled → b.Untangled → (R.equalValues n a b).Keeps Unknown) ∧
      ∀ {t u : Traversal}, t.Untangled → u.Untangled → (R.equalItems n t u).Keeps Unknown := by
  induction n with
  | zero => exact ⟨fun _ _ => .exhausted, fun _ _ => .exhausted⟩
  | succ n ih =>
      obtain ⟨hvalues, hitems⟩ := ih
      constructor
      · intro a b ha hb
        cases a <;> cases b <;> simp only [Runner.equalValues] <;> first
          | exact .ret trivial
          | exact .fail RuntimeError.noConfusion
          | exact .seq (.lift (h.traverse _ ha)) fun t ht =>
              .seq (.lift (h.traverse _ hb)) fun u hu => hitems ht hu
      · intro t u ht hu
        simp only [Runner.equalItems]
        refine .seq (.lift (h.next t ht)) ?_
        rintro ⟨x, t⟩ ⟨hx, ht⟩
        refine .seq (.lift (h.next u hu)) ?_
        rintro ⟨y, u⟩ ⟨hy, hu⟩
        rcases x with _ | x <;> rcases y with _ | y
        · exact .ret trivial
        · exact .ret trivial
        · exact .ret trivial
        · refine .seq (.except (hx x rfl)) fun r _ => .seq (h.force r) fun a ha => ?_
          refine .seq (.except (hy y rfl)) fun s _ => .seq (h.force s) fun b hb => ?_
          refine .seq (hvalues ha hb) fun same _ => ?_
          cases same with
          | true => exact hitems ht hu
          | false => exact .ret trivial

theorem equal {a b : Value} (ha : a.Untangled) (hb : b.Untangled) :
    (R.equal a b).Keeps Unknown :=
  (h.equalValues_equalItems _).1 ha hb

theorem renderValue (n : ℕ) (nested : Bool) {v : Value} (hv : v.Untangled) :
    (R.renderValue n nested v).Keeps Unknown := by
  induction n generalizing nested v with
  | zero => exact .exhausted
  | succ n ih =>
      cases v with
      | array s =>
          simp only [Runner.renderValue]
          refine .seq (P := Unknown) (h.fold (fun texts x _ hx => ?_) hv trivial) fun _ _ =>
            .ret trivial
          exact .seq (.except hx) fun r _ => .seq (h.force r) fun v hv =>
            .seq (ih true hv) fun text _ => .ret (P := Gathers Unknown) trivial
      | _ =>
          simp only [Runner.renderValue]
          exact .ret trivial

theorem render {v : Value} (hv : v.Untangled) : (R.render v).Keeps Unknown :=
  h.renderValue _ false hv

variable (operation : String) (r s : Ref)

theorem forceInteger : (R.forceInteger operation r).Keeps Unknown :=
  .seq (h.force r) fun v _ => .seq (.except v.untangled_toInteger) fun _ _ => .ret trivial

theorem forceText : (R.forceText operation r).Keeps Unknown :=
  .seq (h.force r) fun v _ => .except v.untangled_toText

theorem forceSequence : (R.forceSequence operation r).Keeps Sequence.Untangled :=
  .seq (h.force r) fun _ hv => .except hv.toSequence

theorem forceFunction : (R.forceFunction r).Keeps Unknown :=
  .seq (h.force r) fun v _ => .except v.untangled_toFunction

theorem forceTruth : (R.forceTruth operation r).Keeps Unknown :=
  .seq (h.force r) fun v _ => .except (v.untangled_truthy operation)

theorem forceCount : (R.forceCount operation r).Keeps Unknown :=
  .seq (h.forceInteger operation r) fun _ _ => .ret trivial

theorem forceBound : (R.forceBound operation r).Keeps Unknown := by
  refine .seq (h.force r) fun v _ => ?_
  cases v with
  | none => exact .ret trivial
  | _ => exact .seq (.except (Value.untangled_toInteger _)) fun _ _ => .ret trivial

theorem unary {op : Value → Except RuntimeError Value}
    (hop : ∀ v, LazyLang.Untangled Value.Untangled (op v)) :
    (R.unary op r).Keeps Value.Untangled :=
  .seq (h.force r) fun v _ => .except (hop v)

theorem binary {op : Value → Value → Except RuntimeError Value}
    (hop : ∀ v w, LazyLang.Untangled Value.Untangled (op v w)) :
    (R.binary op r s).Keeps Value.Untangled :=
  .seq (h.force r) fun v _ => .seq (h.force s) fun w _ => .except (hop v w)

theorem comparison (accept : Ordering → Bool) :
    (R.comparison operation accept r s).Keeps Value.Untangled :=
  .seq (h.force r) fun v _ => .seq (h.force s) fun w _ =>
    .seq (.except (v.untangled_compareNumbers w)) fun _ _ => .ret trivial

theorem elementOrNone {x : Option Item} (hx : ∀ y ∈ x, y.Untangled) :
    (R.elementOrNone x).Keeps Value.Untangled := by
  cases x with
  | none => exact .ret trivial
  | some x => exact .seq (.except (hx x rfl)) fun r _ => h.force r

theorem elementAt {s : Sequence} (hs : s.Untangled) (position : ℤ) :
    (R.elementAt s position).Keeps Value.Untangled := by
  unfold Runner.elementAt
  split
  · exact .seq (.lift (h.traverse s hs)) fun t ht => .seq (.lift (h.ahead _ ht)) fun next hnext =>
      h.elementOrNone hnext.1
  · refine .seq (h.toList hs) fun refs _ => ?_
    dsimp only
    split
    · refine h.elementOrNone fun x hx => ?_
      obtain ⟨r, -, rfl⟩ := Option.map_eq_some_iff.1 hx
      exact trivial
    · exact .ret trivial

omit h in
theorem sliceOf {s : Sequence} (hs : s.Untangled) (start stop : Option ℤ) (step : ℤ) :
    (Runner.sliceOf s start stop step).Untangled := by
  unfold Runner.sliceOf
  split
  · cases stop <;> exact hs
  · exact hs

theorem slice (source start stop step : Ref) :
    (R.slice source start stop step).Keeps Value.Untangled := by
  refine .seq (h.forceSequence _ source) fun s hs => .seq (h.forceBound _ start) fun start _ => ?_
  refine .seq (h.forceBound _ stop) fun stop _ => .seq (h.forceBound _ step) fun step _ => ?_
  dsimp only
  split
  · exact .fail RuntimeError.noConfusion
  · exact .ret (sliceOf hs start stop _)

theorem reduce (start : Value) (hstart : start.Untangled)
    {op : Value → Value → Except RuntimeError Value}
    (hop : ∀ v w, LazyLang.Untangled Value.Untangled (op v w)) :
    (R.reduce operation start op r).Keeps Value.Untangled := by
  refine .seq (h.forceSequence operation r) fun s hs => h.fold (fun acc x _ hx => ?_) hs hstart
  exact .seq (.except hx) fun r _ => .seq (h.force r) fun v _ =>
    .seq (.except (hop acc v)) fun w hw => .ret (P := Gathers Value.Untangled) hw

theorem extremum (wanted : Ordering) : (R.extremum operation wanted r).Keeps Value.Untangled := by
  refine .seq (h.forceSequence operation r) fun s hs => ?_
  let P (best : Option Value) : Prop := ∀ v ∈ best, v.Untangled
  have hsome {v : Value} (hv : v.Untangled) : P (some v) := fun w hw => Option.mem_some.1 hw ▸ hv
  refine .seq (P := P) (h.fold (fun best x hbest hx => ?_) hs nofun) fun best hbest => ?_
  · refine .seq (.except hx) fun r _ => .seq (h.force r) fun v hv => ?_
    cases best with
    | none => exact .ret (P := Gathers P) (hsome hv)
    | some current =>
        refine .seq (.except (v.untangled_compareNumbers current)) fun order _ => ?_
        split
        · exact .ret (P := Gathers P) (hsome hv)
        · exact .ret (P := Gathers P) hbest
  · cases best with
    | none => exact .fail RuntimeError.noConfusion
    | some v => exact .ret (hbest v rfl)

theorem length : (R.length r).Keeps Value.Untangled := by
  refine .seq (h.forceSequence _ r) fun s hs => ?_
  refine .seq (P := Unknown) (h.fold (fun count x _ hx => ?_) hs trivial) fun _ _ => .ret trivial
  exact .seq (.except hx) fun _ _ => .ret (P := Gathers Unknown) trivial

theorem contains : (R.contains r s).Keeps Value.Untangled := by
  refine .seq (h.force r) fun v hv => .seq (h.forceSequence _ s) fun s hs => ?_
  refine .seq (P := Unknown) (h.fold (fun found x _ hx => ?_) hs trivial) fun _ _ => .ret trivial
  refine .seq (.except hx) fun r _ => .seq (h.force r) fun w hw => ?_
  refine .seq (h.equal hv hw) fun same _ => ?_
  cases same <;> exact .ret (P := Gathers Unknown) trivial

theorem foldLeft (f start r : Ref) : (R.foldLeft f start r).Keeps Value.Untangled := by
  refine .seq (h.forceFunction f) fun f _ => .seq (h.forceSequence _ r) fun s hs => ?_
  refine .seq (P := Unknown) (h.fold (fun acc x _ hx => ?_) hs trivial) fun last _ => h.force last
  refine .seq (.except hx) fun r _ => .seq (h.call f _) fun v hv => ?_
  exact .seq (.lift (.add hv)) fun _ _ => .ret (P := Gathers Unknown) trivial

theorem joinTexts : (R.joinTexts r s).Keeps Value.Untangled := by
  refine .seq (h.forceText _ r) fun separator _ => .seq (h.forceSequence _ s) fun s hs => ?_
  refine .seq (P := Unknown) (h.fold (fun texts x _ hx => ?_) hs trivial) fun _ _ => .ret trivial
  exact .seq (.except hx) fun r _ => .seq (h.forceText _ r) fun _ _ =>
    .ret (P := Gathers Unknown) trivial

theorem integersBetween (inclusive : Bool) :
    (R.integersBetween operation inclusive r s).Keeps Value.Untangled :=
  .seq (h.forceInteger _ r) fun _ _ => .seq (h.forceInteger _ s) fun _ _ => .ret trivial

theorem pipeline (name : String) (swap : Bool) :
    (R.pipeline name swap r s).Keeps Value.Untangled :=
  .seq (h.forceFunction r) fun _ _ => .seq (h.forceFunction s) fun _ _ => .ret trivial

theorem both : (R.both r s).Keeps Value.Untangled := by
  refine .seq (h.forceTruth _ r) fun first _ => ?_
  cases first with
  | true => exact .seq (h.forceTruth _ s) fun _ _ => .ret trivial
  | false => exact .ret trivial

theorem either : (R.either r s).Keeps Value.Untangled := by
  refine .seq (h.forceTruth _ r) fun first _ => ?_
  cases first with
  | true => exact .ret trivial
  | false => exact .seq (h.forceTruth _ s) fun _ _ => .ret trivial

omit h in
theorem on1 {body : Ref → Eval Value} (hbody : ∀ r, (body r).Keeps Value.Untangled)
    {args : List Ref} : (Runner.on1 body args).Keeps Value.Untangled := by
  unfold Runner.on1
  split
  · exact hbody _
  · exact .fail RuntimeError.noConfusion

omit h in
theorem on2 {body : Ref → Ref → Eval Value} (hbody : ∀ r s, (body r s).Keeps Value.Untangled)
    {args : List Ref} : (Runner.on2 body args).Keeps Value.Untangled := by
  unfold Runner.on2
  split
  · exact hbody _ _
  · exact .fail RuntimeError.noConfusion

omit h in
theorem on3 {body : Ref → Ref → Ref → Eval Value}
    (hbody : ∀ r s t, (body r s t).Keeps Value.Untangled) {args : List Ref} :
    (Runner.on3 body args).Keeps Value.Untangled := by
  unfold Runner.on3
  split
  · exact hbody _ _ _
  · exact .fail RuntimeError.noConfusion

omit h in
theorem on4 {body : Ref → Ref → Ref → Ref → Eval Value}
    (hbody : ∀ r s t u, (body r s t u).Keeps Value.Untangled) {args : List Ref} :
    (Runner.on4 body args).Keeps Value.Untangled := by
  unfold Runner.on4
  split
  · exact hbody _ _ _ _
  · exact .fail RuntimeError.noConfusion

/-- Running a built-in function. -/
theorem runBuiltin (b : Builtin) (args : List Ref) :
    (R.runBuiltin b args).Keeps Value.Untangled := by
  cases b with
  | add => exact on2 fun r s => h.binary r s Value.untangled_add
  | subtract => exact on2 fun r s => h.binary r s Value.untangled_subtract
  | multiply => exact on2 fun r s => h.binary r s Value.untangled_multiply
  | divide => exact on2 fun r s => h.binary r s Value.untangled_divide
  | remainder => exact on2 fun r s => h.binary r s Value.untangled_remainder
  | power => exact on2 fun r s => h.binary r s Value.untangled_power
  | negate => exact on1 fun r => h.unary r Value.untangled_negate
  | abs => exact on1 fun r => h.unary r Value.untangled_absolute
  | sin | cos | tan | sqrt | exp | ln =>
      exact on1 fun r => h.unary r (Value.untangled_onFloat _)
  | floor | ceil | round => exact on1 fun r => h.unary r (Value.untangled_roundedTo _)
  | less | lessOrEqual | greater | greaterOrEqual => exact on2 fun r s => h.comparison _ r s _
  | equal | notEqual =>
      refine on2 fun r s => .seq (h.force r) fun v hv => .seq (h.force s) fun w hw => ?_
      exact .seq (h.equal hv hw) fun _ _ => .ret trivial
  | choose =>
      refine on3 fun c r s => .seq (h.forceTruth _ c) fun holds _ => ?_
      cases holds with
      | true => exact h.force r
      | false => exact h.force s
  | not =>
      refine on1 fun r => .seq (h.forceTruth _ r) fun _ _ => ?_
      exact .ret trivial
  | and => exact on2 h.both
  | or => exact on2 h.either
  | inclusiveRange | range => exact on2 fun r s => h.integersBetween _ r s _
  | count =>
      refine on1 fun r => .seq (h.forceInteger _ r) fun _ _ => ?_
      exact .ret trivial
  | repeated =>
      refine on1 fun r => ?_
      exact .ret trivial
  | iterate =>
      refine on2 fun f r => .seq (h.forceFunction f) fun _ _ => ?_
      exact .ret trivial
  | contains => exact on2 h.contains
  | index =>
      exact on2 fun r s => .seq (h.forceSequence _ r) fun _ ht =>
        .seq (h.forceInteger _ s) fun i _ => h.elementAt ht i
  | slice => exact on4 h.slice
  | length => exact on1 h.length
  | head =>
      refine on1 fun r => .seq (h.forceSequence _ r) fun s hs => ?_
      exact .seq (.lift (.seq (h.traverse s hs) fun t ht => h.next t ht)) fun next hnext =>
        h.elementOrNone hnext.1
  | tail | reverse =>
      refine on1 fun r => .seq (h.forceSequence _ r) fun s hs => ?_
      exact .ret hs
  | take | drop =>
      refine on2 fun n r => .seq (h.forceCount _ n) fun _ _ => ?_
      exact .seq (h.forceSequence _ r) fun s hs => .ret hs
  | concat =>
      refine on2 fun q r => .seq (h.forceSequence _ q) fun s hs => ?_
      exact .seq (h.forceSequence _ r) fun t ht => .ret ⟨hs, ht⟩
  | map | filter =>
      refine on2 fun f r => .seq (h.forceFunction f) fun _ _ => ?_
      exact .seq (h.forceSequence _ r) fun s hs => .ret hs
  | fold => exact on3 h.foldLeft
  | zipWith =>
      refine on3 fun f q r => .seq (h.forceFunction f) fun _ _ => ?_
      refine .seq (h.forceSequence _ q) fun s hs => ?_
      exact .seq (h.forceSequence _ r) fun t ht => .ret ⟨hs, ht⟩
  | sum => exact on1 fun r => h.reduce _ r (.integer 0) trivial Value.untangled_add
  | product => exact on1 fun r => h.reduce _ r (.integer 1) trivial Value.untangled_multiply
  | min | max => exact on1 fun r => h.extremum _ r _
  | compose | pipe => exact on2 fun r s => h.pipeline r s _ _
  | identity => exact on1 h.force
  | const => exact on2 fun r _ => h.force r
  | flip =>
      refine on1 fun f => .seq (h.forceFunction f) fun _ _ => ?_
      exact .ret trivial
  | join => exact on2 h.joinTexts
  | upper | lower | lengthOf =>
      refine on1 fun r => .seq (h.forceText _ r) fun _ _ => ?_
      exact .ret trivial
  | string =>
      refine on1 fun r => .seq (h.force r) fun v hv => .seq (h.render hv) fun _ _ => ?_
      exact .ret trivial

theorem sumIntegers (name : String) (args : List Ref) (total : Int64) :
    (R.sumIntegers name args total).Keeps Unknown := by
  induction args generalizing total with
  | nil => exact .ret trivial
  | cons r rest ih =>
      exact .seq (h.force r) fun v _ => .seq (.except v.untangled_toInteger) fun i _ => ih _

theorem runHost (name : String) (action : HostAction) (args : List Ref) :
    (R.runHost name action args).Keeps Value.Untangled := by
  refine .seq (.lift (.note _)) fun _ _ => ?_
  split
  · exact h.force _
  · exact h.force _
  · exact .ret trivial
  · exact .seq (h.sumIntegers name _ 0) fun _ _ => .ret trivial
  · exact .seq (h.forceTruth name _) fun _ _ => .ret trivial
  · exact h.force _
  · exact .fail RuntimeError.noConfusion
  · exact .fail RuntimeError.noConfusion

theorem runBody (f : Function) (args : List Ref) : (R.runBody f args).Keeps Value.Untangled := by
  cases f with
  | builtin b _ => exact h.runBuiltin b args
  | pipeline _ inner outer _ =>
      exact .seq (.lift (.defer (.call inner args))) fun between _ => h.call outer [between]
  | flipped inner _ => exact h.call inner args.reverse
  | host name action _ => exact h.runHost name action args

/-- Applying a function. -/
theorem applyFunction (f : Function) (args : List (Option Ref)) :
    (R.applyFunction f args).Keeps Value.Untangled := by
  have hsupply : LazyLang.Untangled Unknown (f.supply args) := by
    unfold Function.supply
    split
    · exact RuntimeError.noConfusion
    · dsimp only
      split <;> exact trivial
  unfold Runner.applyFunction
  generalize f.supply args = supplied at hsupply
  rcases supplied with e | g | refs
  · exact .fail hsupply
  · exact .ret trivial
  · exact h.runBody f refs

/-- Running a deferred computation. -/
theorem runThunk (thunk : Thunk) : (thunk.run R).Keeps Value.Untangled := by
  cases thunk with
  | apply r args =>
      exact .seq (h.force r) fun v _ => .seq (.except v.untangled_toFunction) fun f _ =>
        h.apply f args
  | call f args => exact h.call f args
  | forward tag r =>
      cases tag with
      | none => exact .seq (P := Unknown) (.ret (a := ()) trivial) fun _ _ => h.force r
      | some tag => exact .seq (.lift (.note _)) fun _ _ => h.force r

omit h in
theorem checkLimit (limit : Option ℕ) (count : ℕ) :
    (Runner.checkLimit limit count).Keeps Unknown := by
  unfold Runner.checkLimit
  split
  · exact .ret trivial
  · split
    · exact .fail RuntimeError.noConfusion
    · exact .ret trivial

/-- Stripping a value. -/
theorem stripValue (limit : Option ℕ) (n : ℕ) {v : Value} (hv : v.Untangled) :
    (R.stripValue limit n v).Keeps Unknown := by
  induction n generalizing v with
  | zero => exact .exhausted
  | succ n ih =>
      cases v with
      | array s =>
          simp only [Runner.stripValue]
          refine .seq (P := Unknown) (h.fold (fun acc x _ hx => ?_) hv trivial) fun _ _ =>
            .ret trivial
          obtain ⟨count, items⟩ := acc
          refine .seq (checkLimit limit count) fun _ _ => .seq (.except hx) fun r _ => ?_
          refine .seq (h.force r) fun v hv => .seq (ih hv) fun p _ => ?_
          cases p <;> exact .ret (P := Gathers Unknown) trivial
      | _ =>
          simp only [Runner.stripValue]
          exact .ret trivial

/-- Forcing and stripping a lazy value. -/
theorem stripRef (limit : Option ℕ) (r : Ref) : (R.stripRef limit r).Keeps Unknown :=
  .seq (h.force r) fun _ hv => h.stripValue limit _ hv

/-- Forcing a cell, unless it is being forced. -/
theorem forceAnswering {answer : Eval Value} (hanswer : answer.Keeps Value.Untangled) (r : Ref) :
    (R.forceAnswering answer r).Keeps Value.Untangled := by
  intro st o st' hst hrun
  cases hcell : st.cell r with
  | forcing =>
      rw [Runner.forceAnswering_of_forcing hcell] at hrun
      exact hanswer hst hrun
  | done outcome =>
      have houtcome := hst.cell r
      rw [Runner.forceAnswering_of_ne (by simp [hcell]), Runner.forceCell_run] at hrun
      rw [hcell] at hrun houtcome
      cases hrun
      exact ⟨hst, houtcome⟩
  | pending thunk =>
      rw [Runner.forceAnswering_of_ne (by simp [hcell]), Runner.forceCell_run, hcell] at hrun
      obtain ⟨⟨o, st'⟩, hthunk, heq⟩ := Option.map_eq_some_iff.1 hrun
      cases heq
      obtain ⟨hst', ho⟩ := h.runThunk thunk (hst.set r (c := .forcing) trivial) hthunk
      exact ⟨hst'.set r (c := .done o) ho, ho⟩

end Runner.Untangled

/-- Where forcing a value that is being forced answers with something else, nothing else gives the
failure of a value that depends on itself. -/
theorem Runner.untangled_tied {answer : Eval Value} (hanswer : answer.Keeps Value.Untangled)
    (n : ℕ) : (Runner.tied (Runner.forceAnswering answer) n).Untangled := by
  induction n with
  | zero => exact ⟨fun _ => .exhausted, fun _ _ => .exhausted, fun _ _ => .exhausted⟩
  | succ n ih => exact ⟨ih.forceAnswering hanswer, ih.step, ih.applyFunction⟩

end LazyLang
