import LazyLang.Store

/-!
# Traversing arrays

A traversal is started from the recipe of an array and then gives item after item. Everything that
runs part of a program does so through a `Runner`: it forces lazy values, moves traversals on and
applies functions, each with less fuel than it had itself.

Starting a traversal runs nothing, except that reversing an array and selecting from its end first
drain it.
-/

namespace LazyLang

/-- A traversal on its way through an array. A stepped one is fresh until its first item. -/
inductive Traversal where
  | items (rest : List Item)
  | literal (scope : ValueScope) (rest : List TypedExpr)
  | integers (next stop : Int)
  | repeated (item : Ref)
  | iterate (step : Function) (next : Option Item)
  | drop (count : Nat) (source : Traversal)
  | take (count : Nat) (source : Traversal)
  | stepped (fresh : Bool) (step : Nat) (source : Traversal)
  | concat (first second : Traversal)
  | map (f : Function) (source : Traversal)
  | filter (predicate : Function) (source : Traversal)
  | zipWith (f : Function) (left right : Traversal)
  | watched (tag : String) (index : Nat) (rest : List Item)

/-- What a running program can call on, and the fuel that bounds its loops. `next` gives the next
item, `none` at the end, and the traversal after it. -/
structure Runner where
  fuel : Nat
  force : Ref → Eval Value
  next : Traversal → Run (Option Item × Traversal)
  apply : Function → List (Option Ref) → Eval Value

namespace Runner

/-- Applies a function to arguments that are all there. -/
def call (R : Runner) (f : Function) (args : List Ref) : Eval Value :=
  R.apply f (args.map some)

/-- Goes through the items of a traversal with an accumulator, until the step says that it is
done. -/
def foldItems {β : Type} (R : Runner) (step : β → Item → Eval (ForInStep β)) :
    Nat → Traversal → β → Eval β
  | 0, _, _ => ExceptT.lift Run.outOfFuel
  | fuel + 1, t, acc => do
    match ← ExceptT.lift (R.next t) with
    | (none, _) => pure acc
    | (some item, t) =>
      match ← step acc item with
      | .done acc => pure acc
      | .yield acc => foldItems R step fuel t acc

/-- All the elements that are left, in reverse order; a failing item fails the whole. -/
def drainReversed (R : Runner) (t : Traversal) : Eval (List Ref) :=
  R.foldItems (fun acc item => do return .yield ((← item) :: acc)) R.fuel t []

end Runner

/-- Where a slice starts and where it stops. -/
structure SliceBounds where
  start : Int
  stop : Int

namespace SliceBounds

/-- An integer, if it fits 64 bits. -/
def fit? (n : Int) : Option Int :=
  if -Int.pow 2 63 ≤ n && n < Int.pow 2 63 then some n else none

/-- A bound counted from the end if it is negative, kept within `low` and `high`. There is none if
the sum does not fit or if nothing lies within. -/
def resolve? (length low high bound : Int) : Option Int := do
  let bound ← if bound < 0 then fit? (bound + length) else some bound
  if low ≤ high then some (max low (min bound high)) else none

/-- The bounds of a slice with the given step. They are kept within `0 … length`, or within
`-1 … length - 1` when the step goes backward, and an absent bound is the respective end. -/
def of? (length : Int) (start stop : Option Int) (step : Int) : Option SliceBounds :=
  if 0 < step then do
    let start ← start.elim (some 0) (resolve? length 0 length)
    let stop ← stop.elim (some length) (resolve? length 0 length)
    return ⟨start, stop⟩
  else do
    let last ← fit? (length - 1)
    let start ← start.elim (some last) (resolve? length (-1) last)
    let stop ← stop.elim (some (-1)) (resolve? length (-1) last)
    return ⟨start, stop⟩

/-- Whether a position lies on this side of `stop`, in the direction of the step. -/
def isBefore (step position stop : Int) : Bool :=
  if 0 < step then position < stop else stop < position

/-- The positions `start`, `start + step`, … on this side of `stop`. They end where the next one
would not fit 64 bits. There is no result if they do not end within `fuel` steps. -/
def walk? (step stop : Int) : Nat → Int → Option (List Nat)
  | 0, _ => none
  | fuel + 1, start =>
    if isBefore step start stop then
      match fit? (start + step) with
      | some next => (walk? step stop fuel next).map (start.toNat :: ·)
      | none => some [start.toNat]
    else some []

end SliceBounds

/-- The positions that a slice selects from an array of `length` elements, in order. There is no
result if a number on the way does not fit 64 bits, which no array brings about. -/
def slicePositions (length : Nat) (start stop : Option Int) (step : Int) : Option (List Nat) := do
  let size ← SliceBounds.fit? length
  let bounds ← SliceBounds.of? size start stop step
  SliceBounds.walk? step bounds.stop (length + 1) bounds.start

namespace Sequence

/-- The elements that a slice selects. -/
def select (elements : List Ref) (start stop : Option Int) (step : Int) : List Item :=
  let elements := elements.toArray
  let positions := (slicePositions elements.size start stop step).getD []
  positions.filterMap fun i => (elements[i]?).map .ok

/-- Starts a traversal of the array. -/
def traverse (R : Runner) : Sequence → Run Traversal
  | values refs => pure (.items (refs.map .ok))
  | literal scope elements => pure (.literal scope elements)
  | integers first stop => pure (.integers first stop)
  | repeated item => pure (.repeated item)
  | iterate step seed => pure (.iterate step (some (.ok seed)))
  | drop count source => return .drop count (← traverse R source)
  | take count source => return .take count (← traverse R source)
  | stepped step source => return .stepped true step (← traverse R source)
  | reverse source => do
    match ← (R.drainReversed (← traverse R source)).run with
    | .ok refs => pure (.items (refs.map .ok))
    | .error e => pure (.items [.error e])
  | selection start stop step source => do
    match ← (R.drainReversed (← traverse R source)).run with
    | .ok refs => pure (.items (select refs.reverse start stop step))
    | .error e => pure (.items [.error e])
  | concat first second => return .concat (← traverse R first) (← traverse R second)
  | map f source => return .map f (← traverse R source)
  | filter predicate source => return .filter predicate (← traverse R source)
  | zipWith f left right => return .zipWith f (← traverse R left) (← traverse R right)
  | watched tag items => do
    Run.note (.traversed tag)
    pure (.watched tag 0 items)

end Sequence

namespace Runner

/-- Goes through all the items of an array with an accumulator. -/
def fold {β : Type} (R : Runner) (s : Sequence) (start : β)
    (step : β → Item → Eval (ForInStep β)) : Eval β := do
  R.foldItems step R.fuel (← ExceptT.lift (s.traverse R)) start

/-- All the elements of an array. -/
def toList (R : Runner) (s : Sequence) : Eval (List Ref) := do
  return (← R.drainReversed (← ExceptT.lift (s.traverse R))).reverse

end Runner

namespace Traversal

/-- Skips `count` items and gives the one after them. The end of the array ends the skipping too. -/
def ahead (R : Runner) : Nat → Traversal → Run (Option Item × Traversal)
  | 0, t => R.next t
  | count + 1, t => do
    match ← R.next t with
    | (some _, rest) => ahead R count rest
    | (none, rest) => pure (none, rest)

/-- The next element that the predicate holds of. A failing item or predicate is given as it is. -/
def nextMatch (R : Runner) (predicate : Function) :
    Nat → Traversal → Run (Option Item × Traversal)
  | 0, _ => Run.outOfFuel
  | fuel + 1, t => do
    match ← R.next t with
    | (none, rest) => pure (none, rest)
    | (some (.error e), rest) => pure (some (.error e), rest)
    | (some (.ok r), rest) =>
      match ← (R.call predicate [r]).run with
      | .error e => pure (some (.error e), rest)
      | .ok v =>
        match v.truthy "filter" with
        | .error e => pure (some (.error e), rest)
        | .ok true => pure (some (.ok r), rest)
        | .ok false => nextMatch R predicate fuel rest

/-- What comes after an item of an iteration: nothing after a failure, else the next value, which is
deferred. The item itself is forced first, and its failure becomes the next item. -/
def successor (R : Runner) (step : Function) : Item → Run (Option Item)
  | .error _ => pure none
  | .ok r => do
    match ← (R.force r).run with
    | .error e => pure (some (.error e))
    | .ok _ => return some (.ok (← Run.defer (.call step [r])))

/-- Defers the call of a function on an element. -/
def mapItem (f : Function) : Item → Run Item
  | .error e => pure (.error e)
  | .ok r => return .ok (← Run.defer (.call f [r]))

/-- Defers the call of a function on two elements. Of two failures the left one counts. -/
def zipItem (f : Function) : Item → Item → Run Item
  | .error e, _ | .ok _, .error e => pure (.error e)
  | .ok a, .ok b => return .ok (← Run.defer (.call f [a, b]))

/-- The next item and the traversal after it. -/
def step (R : Runner) : Traversal → Run (Option Item × Traversal)
  | items [] => pure (none, items [])
  | items (item :: rest) => pure (some item, items rest)
  | literal scope [] => pure (none, literal scope [])
  | literal scope (e :: rest) => do
    let r ← Run.update (e.suspend scope)
    pure (some (.ok r), literal scope rest)
  | integers next stop =>
    if next < stop then do
      let r ← Run.update (Store.addValue (.integer (Int64.ofInt next)))
      pure (some (.ok r), integers (next + 1) stop)
    else pure (none, integers next stop)
  | repeated item => pure (some (.ok item), repeated item)
  | iterate f none => pure (none, iterate f none)
  | iterate f (some item) => do
    let next ← successor R f item
    pure (some item, iterate f next)
  | drop count source => do
    let (item, rest) ← ahead R count source
    pure (item, drop 0 rest)
  | take 0 source => pure (none, take 0 source)
  | take (count + 1) source => do
    let (item, rest) ← R.next source
    pure (item, take count rest)
  | stepped fresh step source => do
    let (item, rest) ← ahead R (if fresh then 0 else step - 1) source
    pure (item, stepped false step rest)
  | concat first second => do
    match ← R.next first with
    | (some item, rest) => pure (some item, concat rest second)
    | (none, _) => R.next second
  | map f source => do
    match ← R.next source with
    | (none, rest) => pure (none, map f rest)
    | (some item, rest) => return (some (← mapItem f item), map f rest)
  | filter predicate source => do
    let (item, rest) ← nextMatch R predicate R.fuel source
    pure (item, filter predicate rest)
  | zipWith f left right => do
    match ← R.next left with
    | (none, left) => pure (none, zipWith f left right)
    | (some a, left) =>
      match ← R.next right with
      | (none, right) => pure (none, zipWith f left right)
      | (some b, right) => return (some (← zipItem f a b), zipWith f left right)
  | watched tag index [] => pure (none, watched tag index [])
  | watched tag index (item :: rest) => do
    Run.note (.pulled tag index)
    pure (some item, watched tag (index + 1) rest)

end Traversal

end LazyLang
