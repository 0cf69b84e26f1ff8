import LazyLang.Evaluation.Comparison
import LazyLang.Text.Casing

/-!
# What the built-in functions do

A built-in function gets its arguments unforced and forces those it needs, in the order in which it
needs them. Functions on arrays only build the recipe of the new array; those that give a single
value go through the array at once.
-/

namespace LazyLang.Runner

variable (R : Runner)

/-- Forces an argument and takes it for an integer. -/
def forceInteger (operation : String) (r : Ref) : Eval Int := do
  return (← (← R.force r).toInteger operation).toInt

/-- Forces an argument and takes it for a string. -/
def forceText (operation : String) (r : Ref) : Eval String := do
  (← R.force r).toText operation

/-- Forces an argument and takes it for an array. -/
def forceSequence (operation : String) (r : Ref) : Eval Sequence := do
  (← R.force r).toSequence operation

/-- Forces an argument and takes it for a function. -/
def forceFunction (r : Ref) : Eval Function := do
  (← R.force r).toFunction

/-- Forces an argument and takes it for a truth value. -/
def forceTruth (operation : String) (r : Ref) : Eval Bool := do
  (← R.force r).truthy operation

/-- Forces an argument and takes it for a number of elements: none if it is negative. -/
def forceCount (operation : String) (r : Ref) : Eval Nat := do
  return (← R.forceInteger operation r).toNat

/-- Forces a bound of a slice, which may be absent. -/
def forceBound (operation : String) (r : Ref) : Eval (Option Int) := do
  match ← R.force r with
  | .none => pure none
  | v => return some (← v.toInteger operation).toInt

/-- An operation on one value. -/
def unary (op : Value → Except RuntimeError Value) (a : Ref) : Eval Value := do
  op (← R.force a)

/-- An operation on two values, the left forced first. -/
def binary (op : Value → Value → Except RuntimeError Value) (a b : Ref) : Eval Value := do
  let x ← R.force a
  let y ← R.force b
  op x y

/-- A comparison of two numbers; false when there is no order between them. -/
def comparison (operation : String) (accept : Ordering → Bool) (a b : Ref) : Eval Value := do
  let x ← R.force a
  let y ← R.force b
  return .boolean ((← Value.compareNumbers operation x y).any accept)

/-- The element that an item is; `none` where the array has ended. -/
def elementOrNone (item : Option Item) : Eval Value :=
  match item with
  | none => pure .none
  | some item => do R.force (← item)

/-- The element at a position, counted from the end if it is negative; `none` outside the array. -/
def elementAt (s : Sequence) (position : Int) : Eval Value := do
  if 0 ≤ position then
    let t ← ExceptT.lift (s.traverse R)
    let (item, _) ← ExceptT.lift (t.ahead R position.toNat)
    R.elementOrNone item
  else
    let elements := (← R.toList s).toArray
    if position.natAbs ≤ elements.size then
      R.elementOrNone ((elements[elements.size - position.natAbs]?).map .ok)
    else pure .none

/-- The elements of a slice. With a positive step and no bound below zero they are picked on the way
through the array, otherwise the array has to be drained. -/
def sliceOf (source : Sequence) (start stop : Option Int) (step : Int) : Sequence :=
  if 0 < step && start.all (0 ≤ ·) && stop.all (0 ≤ ·) then
    let first := (start.getD 0).toNat
    match stop with
    | some stop => .stepped step.toNat (.take (stop.toNat - first) (.drop first source))
    | none => .stepped step.toNat (.drop first source)
  else .selection start stop step source

/-- The slice that the arguments ask for; the step may not be zero. -/
def slice (source start stop step : Ref) : Eval Value := do
  let source ← R.forceSequence "[:]" source
  let start ← R.forceBound "[:]" start
  let stop ← R.forceBound "[:]" stop
  let step := (← R.forceBound "[:]" step).getD 1
  if step = 0 then throw (.invalidArgument "[:]" "slice step cannot be zero")
  else return .array (sliceOf source start stop step)

/-- Combines all elements with an operation, from left to right. -/
def reduce (operation : String) (start : Value) (op : Value → Value → Except RuntimeError Value)
    (r : Ref) : Eval Value := do
  let s ← R.forceSequence operation r
  R.fold s start fun acc item => do
    let v ← R.force (← item)
    return .yield (← op acc v)

/-- The first of the elements that no other precedes in the wanted order. -/
def extremum (operation : String) (wanted : Ordering) (r : Ref) : Eval Value := do
  let s ← R.forceSequence operation r
  let best ← R.fold s (none : Option Value) fun best item => do
    let v ← R.force (← item)
    match best with
    | none => return .yield (some v)
    | some current =>
      if (← Value.compareNumbers operation v current) = some wanted then return .yield (some v)
      else return .yield (some current)
  match best with
  | some v => pure v
  | none => throw (.emptyArray operation)

/-- The number of elements, none of which is forced. -/
def length (r : Ref) : Eval Value := do
  let s ← R.forceSequence "length" r
  let count ← R.fold s (0 : Nat) fun count item => do
    let _ ← item
    return .yield (count + 1)
  return .integer (Int64.ofNat count)

/-- Whether some element equals the value. -/
def contains (needle r : Ref) : Eval Value := do
  let v ← R.force needle
  let s ← R.forceSequence "in" r
  let found ← R.fold s false fun _ item => do
    if ← R.equal v (← R.force (← item)) then return .done true else return .yield false
  return .boolean found

/-- Feeds the elements to a function, from left to right, together with what it gave before. -/
def foldLeft (f start r : Ref) : Eval Value := do
  let f ← R.forceFunction f
  let s ← R.forceSequence "fold" r
  let last ← R.fold s start fun acc item => do
    let v ← R.call f [acc, ← item]
    return .yield (← ExceptT.lift (Run.add (.done (.ok v))))
  R.force last

/-- The elements, which must be strings, with the separator between them. -/
def joinTexts (separator r : Ref) : Eval Value := do
  let separator ← R.forceText "join" separator
  let s ← R.forceSequence "join" r
  let texts ← R.fold s [] fun texts item => do
    let text ← R.forceText "join" (← item)
    return .yield (text :: texts)
  return .string (separator.intercalate texts.reverse)

/-- Integers from one bound to another. -/
def integersBetween (operation : String) (inclusive : Bool) (a b : Ref) : Eval Value := do
  let first ← R.forceInteger operation a
  let last ← R.forceInteger operation b
  return .array (.integers first (if inclusive then last + 1 else last))

/-- Forces two functions and makes them a pipeline. -/
def pipeline (name : String) (swap : Bool) (f g : Ref) : Eval Value := do
  let f ← R.forceFunction f
  let g ← R.forceFunction g
  return .function (.pipeline name (if swap then g else f) (if swap then f else g) [none])

/-- Whether both truth values hold; the second is forced only if the first does. -/
def both (a b : Ref) : Eval Value := do
  if ← R.forceTruth "and" a then return .boolean (← R.forceTruth "and" b) else return .boolean false

/-- Whether one of the truth values holds; the second is forced only if the first does not. -/
def either (a b : Ref) : Eval Value := do
  if ← R.forceTruth "or" a then return .boolean true else return .boolean (← R.forceTruth "or" b)

/-- A body of one parameter. -/
def on1 (body : Ref → Eval Value) : List Ref → Eval Value
  | [a] => body a
  | _ => throw .unrecognized

/-- A body of two parameters. -/
def on2 (body : Ref → Ref → Eval Value) : List Ref → Eval Value
  | [a, b] => body a b
  | _ => throw .unrecognized

/-- A body of three parameters. -/
def on3 (body : Ref → Ref → Ref → Eval Value) : List Ref → Eval Value
  | [a, b, c] => body a b c
  | _ => throw .unrecognized

/-- A body of four parameters. -/
def on4 (body : Ref → Ref → Ref → Ref → Eval Value) : List Ref → Eval Value
  | [a, b, c, d] => body a b c d
  | _ => throw .unrecognized

/-- Runs a built-in function on all its arguments. -/
def runBuiltin (b : Builtin) : List Ref → Eval Value :=
  match b with
  | .add => on2 (R.binary Value.add)
  | .subtract => on2 (R.binary Value.subtract)
  | .multiply => on2 (R.binary Value.multiply)
  | .divide => on2 (R.binary Value.divide)
  | .remainder => on2 (R.binary Value.remainder)
  | .power => on2 (R.binary Value.power)
  | .negate => on1 (R.unary Value.negate)
  | .less => on2 (R.comparison "<" Ordering.isLT)
  | .lessOrEqual => on2 (R.comparison "<=" Ordering.isLE)
  | .greater => on2 (R.comparison ">" Ordering.isGT)
  | .greaterOrEqual => on2 (R.comparison ">=" Ordering.isGE)
  | .equal => on2 fun a b => do return .boolean (← R.equal (← R.force a) (← R.force b))
  | .notEqual => on2 fun a b => do return .boolean (!(← R.equal (← R.force a) (← R.force b)))
  | .choose => on3 fun c a b => do if ← R.forceTruth "if" c then R.force a else R.force b
  | .not => on1 fun a => do return .boolean (!(← R.forceTruth "not" a))
  | .and => on2 R.both
  | .or => on2 R.either
  | .inclusiveRange => on2 (R.integersBetween ".." true)
  | .range => on2 (R.integersBetween "range" false)
  | .count => on1 fun a => do return .array (.integers (← R.forceInteger "count" a) (Nat.pow 2 63))
  | .repeated => on1 fun a => pure (.array (.repeated a))
  | .iterate => on2 fun f seed => do return .array (.iterate (← R.forceFunction f) seed)
  | .contains => on2 R.contains
  | .index => on2 fun xs i => do
    let s ← R.forceSequence "[]" xs
    R.elementAt s (← R.forceInteger "[]" i)
  | .slice => on4 R.slice
  | .length => on1 R.length
  | .head => on1 fun xs => do
    let s ← R.forceSequence "head" xs
    let (item, _) ← ExceptT.lift (do R.next (← s.traverse R))
    R.elementOrNone item
  | .tail => on1 fun xs => do return .array (.drop 1 (← R.forceSequence "tail" xs))
  | .take => on2 fun n xs => do
    let n ← R.forceCount "take" n
    return .array (.take n (← R.forceSequence "take" xs))
  | .drop => on2 fun n xs => do
    let n ← R.forceCount "drop" n
    return .array (.drop n (← R.forceSequence "drop" xs))
  | .reverse => on1 fun xs => do return .array (.reverse (← R.forceSequence "reverse" xs))
  | .concat => on2 fun xs ys => do
    let first ← R.forceSequence "concat" xs
    return .array (.concat first (← R.forceSequence "concat" ys))
  | .map => on2 fun f xs => do
    let f ← R.forceFunction f
    return .array (.map f (← R.forceSequence "map" xs))
  | .filter => on2 fun f xs => do
    let f ← R.forceFunction f
    return .array (.filter f (← R.forceSequence "filter" xs))
  | .fold => on3 R.foldLeft
  | .zipWith => on3 fun f xs ys => do
    let f ← R.forceFunction f
    let left ← R.forceSequence "zip_with" xs
    return .array (.zipWith f left (← R.forceSequence "zip_with" ys))
  | .sum => on1 (R.reduce "sum" (.integer 0) Value.add)
  | .product => on1 (R.reduce "product" (.integer 1) Value.multiply)
  | .min => on1 (R.extremum "min" .lt)
  | .max => on1 (R.extremum "max" .gt)
  | .compose => on2 (R.pipeline "." true)
  | .pipe => on2 (R.pipeline "&" false)
  | .identity => on1 R.force
  | .const => on2 fun a _ => R.force a
  | .flip => on1 fun f => do return .function (.flipped (← R.forceFunction f) [none, none])
  | .sin => on1 (R.unary (Value.onFloat "sin" Float.sin))
  | .cos => on1 (R.unary (Value.onFloat "cos" Float.cos))
  | .tan => on1 (R.unary (Value.onFloat "tan" Float.tan))
  | .sqrt => on1 (R.unary (Value.onFloat "sqrt" Float.sqrt))
  | .exp => on1 (R.unary (Value.onFloat "exp" Float.exp))
  | .ln => on1 (R.unary (Value.onFloat "ln" Float.log))
  | .abs => on1 (R.unary Value.absolute)
  | .floor => on1 (R.unary (Value.roundedTo "floor" Float.floor))
  | .ceil => on1 (R.unary (Value.roundedTo "ceil" Float.ceil))
  | .round => on1 (R.unary (Value.roundedTo "round" Float.round))
  | .join => on2 R.joinTexts
  | .upper => on1 fun a => do return .string (Text.upper (← R.forceText "upper" a))
  | .lower => on1 fun a => do return .string (Text.lower (← R.forceText "lower" a))
  | .string => on1 fun a => do return .string (← R.render (← R.force a))
  | .lengthOf => on1 fun a => do
    return .integer (Int64.ofNat (← R.forceText "length_of" a).length)

/-- The wrapping sum of arguments that must be integers. -/
def sumIntegers (name : String) : List Ref → Int64 → Eval Int64
  | [], total => pure total
  | r :: rest, total => do
    let i ← (← R.force r).toInteger name
    sumIntegers name rest (total + i)

/-- Runs a function of the host on all its arguments, after noting the call. -/
def runHost (name : String) (action : HostAction) (args : List Ref) : Eval Value := do
  ExceptT.lift (Run.note (.called name))
  match action, args with
  | .first, r :: _ => R.force r
  | .last, r :: rest => R.force ((r :: rest).getLastD r)
  | .list, refs => pure (.array (.values refs))
  | .sum, refs => return .integer (← R.sumIntegers name refs 0)
  | .truthy, r :: _ => return .boolean (← R.forceTruth name r)
  | .constant r, _ => R.force r
  | .fail, _ => throw (.invalidArgument name "host failure")
  | _, [] => throw .unrecognized

/-- Runs the body of a function on all its arguments. -/
def runBody (f : Function) (args : List Ref) : Eval Value :=
  match f with
  | .builtin b _ => R.runBuiltin b args
  | .pipeline _ inner outer _ => do
    let between ← ExceptT.lift (Run.defer (.call inner args))
    R.call outer [between]
  | .flipped inner _ => R.call inner args.reverse
  | .host name action _ => R.runHost name action args

/-- Applies a function: with all slots filled it runs, otherwise it waits for the rest. -/
def applyFunction (f : Function) (args : List (Option Ref)) : Eval Value :=
  match f.supply args with
  | .error e => throw e
  | .ok (.awaiting g) => pure (.function g)
  | .ok (.complete refs) => R.runBody f refs

end LazyLang.Runner
