import SnapshotDiff.Binary64
import SnapshotDiff.Table

/-!
# JSON values

The values that snapshots hold.  An integer and a floating-point number are different values
even where they stand for one number, and an object is a table: its keys ascend, so a value has
one representation.

## Main definitions

* `Json` — the values.
* `Json.Canonical` — every object in the value has ascending keys.
* `Json.same` — equality of values, which holds the two floating-point zeros equal.
* `Json.kindName` — the name of a value's kind, as error texts use it.
-/

namespace SnapshotDiff

/-- A JSON value. -/
inductive Json
  | null
  | bool (b : Bool)
  | int (n : Int)
  | float (x : Binary64)
  | str (s : String)
  | arr (items : List Json)
  | obj (members : List (String × Json))
  deriving Repr, Inhabited

namespace Json

/-! ### Kinds -/

/-- The kind of a value in words. -/
def kindName : Json → String
  | null => "null"
  | bool _ => "a boolean"
  | int _ | float _ => "a number"
  | str _ => "a string"
  | arr _ => "an array"
  | obj _ => "an object"

/-- The value is `null`. -/
def isNull : Json → Bool
  | null => true
  | _ => false

/-- The members of an object. -/
def members? : Json → Option (Table Json)
  | obj ms => some ms
  | _ => none

/-- The text of a string. -/
def text? : Json → Option String
  | str s => some s
  | _ => none

/-- The member under `key`, if the value is an object that has one. -/
def member? (v : Json) (key : String) : Option Json := v.members?.bind (Table.get? · key)

/-- The number as a floating-point number: the nearest one to an integer. -/
def toBinary64? : Json → Option Binary64
  | int n => Binary64.ofInt? n
  | float x => some x
  | _ => none

@[simp] theorem isNull_eq_true_iff (v : Json) : v.isNull = true ↔ v = null := by
  cases v <;> simp [isNull]

@[simp] theorem members?_obj (ms : Table Json) : (obj ms).members? = some ms := rfl

@[simp] theorem text?_str (s : String) : (str s).text? = some s := rfl

/-! ### Representation -/

mutual

/-- Every object inside the value has strictly ascending keys. -/
def Canonical : Json → Prop
  | arr items => CanonicalItems items
  | obj ms => Table.Ascending ms ∧ CanonicalMembers ms
  | _ => True

/-- Every item is canonical. -/
def CanonicalItems : List Json → Prop
  | [] => True
  | v :: vs => Canonical v ∧ CanonicalItems vs

/-- Every member is canonical. -/
def CanonicalMembers : List (String × Json) → Prop
  | [] => True
  | (_, v) :: ms => Canonical v ∧ CanonicalMembers ms

end

/-! ### Equality of values -/

mutual

/-- The values are equal.  Integers equal integers and floating-point numbers equal
floating-point numbers of the same value; an integer equals no floating-point number. -/
def same : Json → Json → Bool
  | null, null => true
  | bool a, bool b => a == b
  | int m, int n => m == n
  | float x, float y => x.sameValue y
  | str s, str t => s == t
  | arr vs, arr ws => sameItems vs ws
  | obj ms, obj ns => sameMembers ms ns
  | _, _ => false

/-- The items are equal in turn. -/
def sameItems : List Json → List Json → Bool
  | [], [] => true
  | v :: vs, w :: ws => same v w && sameItems vs ws
  | _, _ => false

/-- The members have the same keys and equal values. -/
def sameMembers : List (String × Json) → List (String × Json) → Bool
  | [], [] => true
  | (k, v) :: ms, (l, w) :: ns => k == l && same v w && sameMembers ms ns
  | _, _ => false

end

/-- Equality where a value may be absent: absent equals absent only. -/
def same? : Option Json → Option Json → Bool
  | none, none => true
  | some v, some w => same v w
  | _, _ => false

@[simp] theorem same?_none_none : same? none none = true := rfl

@[simp] theorem same?_some_some (v w : Json) : same? (some v) (some w) = same v w := rfl

@[simp] theorem same?_none_some (w : Json) : same? none (some w) = false := rfl

@[simp] theorem same?_some_none (v : Json) : same? (some v) none = false := rfl

mutual

/-- A value is equal to itself. -/
theorem same_refl : ∀ v : Json, same v v = true
  | null => rfl
  | bool _ => by simp [same]
  | int _ => by simp [same]
  | float _ => by simp [same, Binary64.sameValue]
  | str _ => by simp [same]
  | arr vs => by simp [same, sameItems_refl vs]
  | obj ms => by simp [same, sameMembers_refl ms]

theorem sameItems_refl : ∀ vs : List Json, sameItems vs vs = true
  | [] => rfl
  | v :: vs => by simp [sameItems, same_refl v, sameItems_refl vs]

theorem sameMembers_refl : ∀ ms : List (String × Json), sameMembers ms ms = true
  | [] => rfl
  | (_, v) :: ms => by simp [sameMembers, same_refl v, sameMembers_refl ms]

end

end Json

end SnapshotDiff
