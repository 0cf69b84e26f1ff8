import LazyLang.Evaluation

/-!
# Plain results

What a program hands out is free of lazy values: `strip` forces a value and all the elements of its
arrays. Functions have no plain form. They are left out of arrays, and so is nothing else; a float
that is not finite becomes `null`. A limit bounds the elements that are taken from any one array.

`preview` shows a value without ending on infinite arrays: of each array at most the first elements
are shown, and failures stand in their places.
-/

namespace LazyLang

/-- A plain result. -/
inductive Plain where
  | null
  | boolean (value : Bool)
  | integer (value : Int64)
  | float (value : Float)
  | string (value : String)
  | array (items : List Plain)

/-- A value on view. `failed` is an element that fails when forced and `missing` a failure in place
of an element; an array that goes on says so. -/
inductive Preview where
  | none
  | boolean (value : Bool)
  | integer (value : Int64)
  | float (value : Float)
  | string (value : String)
  | function (name : String) (openSlots : Nat)
  | failed (error : RuntimeError)
  | missing (error : RuntimeError)
  | array (items : List Preview) (more : Bool)

namespace Runner

variable (R : Runner)

/-- Fails when `count` items have been taken already and the limit allows no more. -/
def checkLimit (limit : Option Nat) (count : Nat) : Eval Unit :=
  match limit with
  | none => pure ()
  | some limit => if limit ≤ count then throw (.limitExceeded limit) else pure ()

/-- The plain form of a value, if it has one. -/
def stripValue (limit : Option Nat) : Nat → Value → Eval (Option Plain)
  | 0, _ => ExceptT.lift Run.outOfFuel
  | fuel + 1, v =>
    match v with
    | .integer i => pure (some (.integer i))
    | .float x => pure (some (if x.isFinite then .float x else .null))
    | .string s => pure (some (.string s))
    | .boolean b => pure (some (.boolean b))
    | .none => pure (some .null)
    | .function _ => pure none
    | .array s => do
      let (_, items) ← R.fold s ((0, []) : Nat × List Plain) fun (count, items) item => do
        checkLimit limit count
        match ← stripValue limit fuel (← R.force (← item)) with
        | some plain => return .yield (count + 1, plain :: items)
        | none => return .yield (count + 1, items)
      return some (.array items.reverse)

/-- The plain form of a value, if it has one. -/
def strip (limit : Option Nat) (v : Value) : Eval (Option Plain) := R.stripValue limit R.fuel v

/-- The number of elements of an array that a preview shows. -/
def previewLength : Nat := 16

mutual

/-- A value on view. -/
def previewValue : Nat → Value → Run Preview
  | 0, _ => Run.outOfFuel
  | fuel + 1, v =>
    match v with
    | .integer i => pure (.integer i)
    | .float x => pure (.float x)
    | .string s => pure (.string s)
    | .boolean b => pure (.boolean b)
    | .none => pure .none
    | .function f => pure (.function f.name f.openSlots)
    | .array s => do previewItems fuel previewLength (← s.traverse R) []

/-- The next `count` items on view, after those shown already. -/
def previewItems : Nat → Nat → Traversal → List Preview → Run Preview
  | 0, _, _, _ => Run.outOfFuel
  | fuel + 1, count, t, shown => do
    match ← R.next t with
    | (none, _) => pure (.array shown.reverse false)
    | (some item, t) =>
      match count with
      | 0 => pure (.array shown.reverse true)
      | count + 1 =>
        match item with
        | .error e => previewItems fuel count t (.missing e :: shown)
        | .ok r =>
          match ← (R.force r).run with
          | .error e => previewItems fuel count t (.failed e :: shown)
          | .ok v => previewItems fuel count t ((← previewValue fuel v) :: shown)

end

/-- A value on view. -/
def preview (v : Value) : Run Preview := R.previewValue R.fuel v

/-- A lazy value on view: its failure, or its value. -/
def previewRef (r : Ref) : Run Preview := do
  match ← (R.force r).run with
  | .error e => pure (.failed e)
  | .ok v => R.preview v

/-- The next items of a traversal, at most `count`, none of which is forced. -/
def pull : Nat → Traversal → Run (List Item)
  | 0, _ => pure []
  | count + 1, t => do
    match ← R.next t with
    | (none, _) => pure []
    | (some item, t) => return item :: (← pull count t)

end Runner

end LazyLang
