import SnapshotDiff.Finding
import SnapshotDiff.Proofs.Shape.Names

/-!
# What a comparison overlooks

A walk over two nodes and the keys of the nodes take different views.  Members of a collection that
share an identity are compared by the first of them only, and the others stand in the key as well.
What holds nothing is written in the key, but the walk takes it for absent.  And among the members
of free objects the walk takes `null` for absent, and one zero for the other.

## Main definitions

* `Node.Consistent` — members that share an identity have one key.
* `Node.Discerned` — a walk over two nodes overlooks nothing in which they differ.
* `Json.Discerned` — the same of values in free objects.
-/

namespace SnapshotDiff

open Finding (identityKey present?)

/-- Of two values in free objects nothing is overlooked: neither has a member that is `null` where
the other has none, and what counts as equal in them is one value. -/
inductive Json.Discerned : Json → Json → Prop
  | objects {ms ns : Table Json}
    (presence : ∀ key, present? (ms.get? key) = none → present? (ns.get? key) = none →
      ms.get? key = ns.get? key)
    (members : ∀ key v w, ms.get? key = some v → ns.get? key = some w → Json.Discerned v w) :
    Json.Discerned (.obj ms) (.obj ns)
  | others {v w : Json} (other : v.members? = none ∨ w.members? = none)
    (equal : Json.same v w → v = w) : Json.Discerned v w

namespace Node

/-- The node is an empty object or collection, or a free object with no member but `null`. -/
def holdsNothing : Node → Bool
  | leaf _ _ => false
  | object fs => fs.isEmpty
  | collection ms => ms.isEmpty
  | free ms => ms.all fun m => m.2.isNull

/-- In every collection that a walk over the node enters, members that share an identity have one
key.  A collection without an identity is not entered. -/
inductive Consistent : FieldShape → Node → Prop
  | leaf {kind : Leaf} {n : Node} : Consistent (.leaf kind) n
  | object {typeName : String} {fields : List (String × FieldShape)} {fs : Table Node}
    (fits : ∀ name s n, (name, s) ∈ fields → fs.get? name = some n → Consistent s n) :
    Consistent (.object typeName fields) (.object fs)
  | leaves {kind : Leaf} {n : Node} : Consistent (.leaves kind) n
  | sets {typeName : String} {fields : List (String × FieldShape)} {n : Node} :
    Consistent (.objects typeName fields none) n
  | identified {typeName identity : String} {fields : List (String × FieldShape)} {ns : List Node}
    (members : ∀ n ∈ ns, Consistent (.object typeName fields) n)
    (alike : ∀ fs gs, object fs ∈ ns → object gs ∈ ns →
      identityKey identity fs = identityKey identity gs → (object fs).key = (object gs).key) :
    Consistent (.objects typeName fields (some identity)) (.collection ns)
  | free {n : Node} : Consistent .free n

/-- Nothing in which the nodes differ is overlooked: where a walk over both of them finds nothing
held on either side, there is a node on both sides or on neither, and the free objects that it meets
are discerned. -/
inductive Discerned : FieldShape → Node → Node → Prop
  | leaf {kind : Leaf} {n m : Node} : Discerned (.leaf kind) n m
  | object {typeName : String} {fields : List (String × FieldShape)} {fs gs : Table Node}
    (presence : ∀ name ∈ fields.map Prod.fst, (∀ n ∈ fs.get? name, n.holdsNothing) →
      (∀ m ∈ gs.get? name, m.holdsNothing) → (fs.get? name).isSome = (gs.get? name).isSome)
    (fits : ∀ name s n m, (name, s) ∈ fields → fs.get? name = some n → gs.get? name = some m →
      Discerned s n m) : Discerned (.object typeName fields) (.object fs) (.object gs)
  | leaves {kind : Leaf} {n m : Node} : Discerned (.leaves kind) n m
  | sets {typeName : String} {fields : List (String × FieldShape)} {n m : Node} :
    Discerned (.objects typeName fields none) n m
  | identified {typeName identity : String} {fields : List (String × FieldShape)}
    {ns ms : List Node}
    (members : ∀ fs gs, object fs ∈ ns → object gs ∈ ms →
      identityKey identity fs = identityKey identity gs →
      Discerned (.object typeName fields) (.object fs) (.object gs)) :
    Discerned (.objects typeName fields (some identity)) (.collection ns) (.collection ms)
  | free {ms ns : Table Json} (values : Json.Discerned (.obj ms) (.obj ns)) :
    Discerned .free (.free ms) (.free ns)

variable {typeName identity : String} {fields : List (String × FieldShape)} {fs gs : Table Node}
  {ns ms : List Node}

theorem Consistent.field {name : String} {s : FieldShape} {n : Node}
    (h : Consistent (.object typeName fields) (.object fs)) (hs : (name, s) ∈ fields)
    (hn : fs.get? name = some n) : Consistent s n := by
  cases h with
  | object fits => exact fits name s n hs hn

theorem Consistent.of_mem {n : Node}
    (h : Consistent (.objects typeName fields (some identity)) (.collection ns)) (hn : n ∈ ns) :
    Consistent (.object typeName fields) n := by
  cases h with
  | identified members _ => exact members n hn

theorem Consistent.key_eq
    (h : Consistent (.objects typeName fields (some identity)) (.collection ns))
    (hfs : Node.object fs ∈ ns) (hgs : Node.object gs ∈ ns)
    (hidentity : identityKey identity fs = identityKey identity gs) :
    (Node.object fs).key = (Node.object gs).key := by
  cases h with
  | identified _ alike => exact alike fs gs hfs hgs hidentity

theorem Discerned.presence {name : String}
    (h : Discerned (.object typeName fields) (.object fs) (.object gs))
    (hname : name ∈ fields.map Prod.fst) (hfs : ∀ n ∈ fs.get? name, n.holdsNothing)
    (hgs : ∀ m ∈ gs.get? name, m.holdsNothing) :
    (fs.get? name).isSome = (gs.get? name).isSome := by
  cases h with
  | object presence _ => exact presence name hname hfs hgs

theorem Discerned.field {name : String} {s : FieldShape} {n m : Node}
    (h : Discerned (.object typeName fields) (.object fs) (.object gs)) (hs : (name, s) ∈ fields)
    (hn : fs.get? name = some n) (hm : gs.get? name = some m) : Discerned s n m := by
  cases h with
  | object _ fits => exact fits name s n m hs hn hm

theorem Discerned.of_mem
    (h : Discerned (.objects typeName fields (some identity)) (.collection ns) (.collection ms))
    (hfs : Node.object fs ∈ ns) (hgs : Node.object gs ∈ ms)
    (hidentity : identityKey identity fs = identityKey identity gs) :
    Discerned (.object typeName fields) (.object fs) (.object gs) := by
  cases h with
  | identified members => exact members fs gs hfs hgs hidentity

end Node

end SnapshotDiff
