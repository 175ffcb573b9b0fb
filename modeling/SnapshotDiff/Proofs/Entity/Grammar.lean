import SnapshotDiff.Entity
import SnapshotDiff.Proofs.Json.Bounded
import SnapshotDiff.Proofs.Shape.Names

/-!
# The values that a shape declares

Which values conform to a declaration, and where a value that does not is at fault.  Places in a
value are compared as a walk comes to them that goes into each value before it goes on: fields
in their declared order, items in the order of the array.

## Main definitions

* `Conforms` — every field and item in a value that is not `null` is of its declared kind.
* `Fault` — the place where a value is not of the kind that is declared there.
* `Fault.Earliest` — no other fault comes before the one at this place.

## Main results

* `conforms_iff_forall_not_fault` — a value conforms if it is nowhere at fault.
* `Fault.Earliest.unique` — there is one first fault.
-/

namespace SnapshotDiff

/-! ### Kinds -/

/-- The value is of the kind. -/
def Leaf.admits : Leaf → Json → Bool
  | string, .str _ => true
  | integer, .int n => Json.isWord n
  | number, .int _ => true
  | number, .float _ => true
  | boolean, .bool _ => true
  | dateTime, .str s => (Instant.ofText? s).isSome
  | any, _ => true
  | _, _ => false

/-- The value itself, whatever is inside it, is of the kind that the declaration asks for. -/
def FieldShape.admits : FieldShape → Json → Bool
  | leaf kind, v => kind.admits v
  | object .., .obj _ => true
  | leaves _, .arr _ => true
  | objects .., .arr _ => true
  | free, .obj _ => true
  | _, _ => false

/-- The value is what is declared: it is of the declared kind, and so is every declared field and
every item inside it, unless it is `null`. -/
inductive Conforms : FieldShape → Json → Prop
  | leaf {kind : Leaf} {v : Json} (admitted : kind.admits v) : Conforms (.leaf kind) v
  | object {typeName : String} {fields : List (String × FieldShape)} {ms : Table Json}
    (fits : ∀ name s v, (name, s) ∈ fields → ms.get? name = some v → v ≠ .null → Conforms s v) :
    Conforms (.object typeName fields) (.obj ms)
  | collection {s element : FieldShape} {vs : List Json} (declared : s.element? = some element)
    (fits : ∀ v ∈ vs, v ≠ .null → Conforms element v) : Conforms s (.arr vs)
  | free {ms : Table Json} : Conforms .free (.obj ms)

/-! ### Places -/

/-- A step from a value into what it holds. -/
inductive Step
  /-- To the field that is declared at this position under this name. -/
  | field (position : Nat) (name : String)
  /-- To the item at this position. -/
  | item (position : Nat)
  deriving DecidableEq, Repr

namespace Step

/-- The position among the steps that a walk tries in turn. -/
def position : Step → Nat
  | field i _ => i
  | item i => i

/-- The path that the step leads to. -/
def path (base : String) : Step → String
  | field _ name => Path.child base name
  | item i => Path.item base i

/-- The path of a place, which is given by the steps that lead to it. -/
def pathOf (base : String) : List Step → String
  | [] => base
  | step :: steps => pathOf (step.path base) steps

/-- A place comes before another one in a walk that goes into each value before it goes on. -/
def Before (p q : List Step) : Prop := p.map position < q.map position

theorem not_before_nil (p : List Step) : ¬ Before p [] := by simp [Before]

theorem before_cons_iff {a b : Step} {p q : List Step} :
    Before (a :: p) (b :: q) ↔ a.position < b.position ∨ a.position = b.position ∧ Before p q := by
  simp only [Before, List.map_cons]
  exact List.cons_lt_cons_iff

end Step

/-! ### Faults -/

/-- The value is at fault at the place: it is not of the kind that is declared there. -/
inductive Fault : FieldShape → Json → List Step → Prop
  | here {s : FieldShape} {v : Json} (refused : s.admits v = false) : Fault s v []
  | field {typeName name : String} {fields : List (String × FieldShape)} {ms : Table Json}
    {i : Nat} {s : FieldShape} {v : Json} {p : List Step} (declared : fields[i]? = some (name, s))
    (present : ms.get? name = some v) (some : v ≠ .null) (inner : Fault s v p) :
    Fault (.object typeName fields) (.obj ms) (.field i name :: p)
  | item {s element : FieldShape} {vs : List Json} {i : Nat} {v : Json} {p : List Step}
    (declared : s.element? = some element) (present : vs[i]? = some v) (some : v ≠ .null)
    (inner : Fault element v p) : Fault s (.arr vs) (.item i :: p)

namespace Fault

variable {s : FieldShape} {v : Json} {p q : List Step}

/-- The place is among the given ones, and none of them comes before it. -/
def Earliest (faults : List Step → Prop) (p : List Step) : Prop :=
  faults p ∧ ∀ q, faults q → ¬ Step.Before q p

/-- A value that is of its own kind is at fault inside. -/
theorem exists_cons (h : Fault s v p) (hv : s.admits v) : ∃ a q, p = a :: q := by
  cases h with
  | here refused =>
    rw [hv] at refused
    exact absurd refused (by decide)
  | field => exact ⟨_, _, rfl⟩
  | item => exact ⟨_, _, rfl⟩

/-- A value that is not of its own kind is not looked into. -/
theorem eq_nil (h : Fault s v p) (hv : s.admits v = false) : p = [] := by
  cases h with
  | here => rfl
  | field => exact absurd hv (by simp [FieldShape.admits])
  | @item s element _ _ _ _ declared =>
    cases s <;> simp [FieldShape.element?, FieldShape.admits] at declared hv

/-- **There is one first fault**: of two faults one comes before the other. -/
theorem eq_of_not_before (hp : Fault s v p) : ∀ {q}, Fault s v q → ¬ Step.Before p q →
    ¬ Step.Before q p → p = q := by
  induction hp with
  | here refused =>
    intro q hq _ _
    exact (hq.eq_nil refused).symm
  | @field _ name _ ms i _ _ _ declared present _ _ ih =>
    intro q hq hpq hqp
    cases hq with
    | here refused => simp [FieldShape.admits] at refused
    | @field _ name' _ _ j _ _ _ declared' present' _ inner' =>
      rw [Step.before_cons_iff] at hpq hqp
      dsimp only [Step.position] at hpq hqp
      obtain rfl : i = j := by omega
      obtain ⟨rfl, rfl⟩ := Prod.mk.inj (Option.some.inj (declared.symm.trans declared'))
      obtain rfl := Option.some.inj (present.symm.trans present')
      rw [ih inner' (fun h => hpq (Or.inr ⟨rfl, h⟩)) fun h => hqp (Or.inr ⟨rfl, h⟩)]
  | @item s _ vs i _ _ declared present _ _ ih =>
    intro q hq hpq hqp
    cases hq with
    | here refused => cases s <;> simp [FieldShape.element?, FieldShape.admits] at declared refused
    | @item _ _ _ j _ _ declared' present' _ inner' =>
      rw [Step.before_cons_iff] at hpq hqp
      dsimp only [Step.position] at hpq hqp
      obtain rfl : i = j := by omega
      obtain rfl := Option.some.inj (declared.symm.trans declared')
      obtain rfl := Option.some.inj (present.symm.trans present')
      rw [ih inner' (fun h => hpq (Or.inr ⟨rfl, h⟩)) fun h => hqp (Or.inr ⟨rfl, h⟩)]

theorem Earliest.unique (hp : Earliest (Fault s v) p) (hq : Earliest (Fault s v) q) : p = q :=
  hp.1.eq_of_not_before hq.1 (hq.2 p hp.1) (hp.2 q hq.1)

end Fault

/-- What conforms is of its own kind. -/
theorem Conforms.admits {s : FieldShape} {v : Json} (h : Conforms s v) : s.admits v := by
  cases h with
  | leaf admitted => exact admitted
  | object => rfl
  | @collection s _ _ declared => cases s <;> simp [FieldShape.element?] at declared <;> rfl
  | free => rfl

/-- What conforms is nowhere at fault. -/
theorem Conforms.not_fault {s : FieldShape} {v : Json} (h : Conforms s v) :
    ∀ p, ¬ Fault s v p := by
  intro p hp
  induction hp with
  | here refused => exact absurd h.admits (by simp [refused])
  | field declared present some _ ih =>
    cases h with
    | object fits => exact ih (fits _ _ _ (List.mem_of_getElem? declared) present some)
  | @item s _ _ _ _ _ declared present some _ ih =>
    cases h with
    | leaf => simp [FieldShape.element?] at declared
    | collection declared' fits =>
      obtain rfl := Option.some.inj (declared.symm.trans declared')
      exact ih (fits _ (List.mem_of_getElem? present) some)

theorem FieldShape.admits_of_forall_not_fault {s : FieldShape} {v : Json}
    (h : ∀ p, ¬ Fault s v p) : s.admits v := by
  by_contra hv
  exact h [] (.here (Bool.eq_false_iff.mpr hv))

/-- Values with nothing at fault under an item's declaration make a collection that conforms. -/
theorem Conforms.collection_of_not_fault {s element : FieldShape} {v : Json}
    (declared : s.element? = some element)
    (ih : ∀ w, (∀ p, ¬ Fault element w p) → Conforms element w) (h : ∀ p, ¬ Fault s v p) :
    Conforms s v := by
  have hv := FieldShape.admits_of_forall_not_fault h
  obtain ⟨vs, rfl⟩ : ∃ vs, v = .arr vs := by
    cases s <;> cases v <;> simp [FieldShape.element?, FieldShape.admits] at declared hv ⊢
  refine .collection declared fun w hw hnull => ih w fun p hp => ?_
  obtain ⟨i, hi⟩ := List.mem_iff_getElem?.mp hw
  exact h _ (.item declared hi hnull hp)

/-- What is nowhere at fault conforms. -/
theorem Conforms.of_forall_not_fault {s : FieldShape} :
    ∀ {v : Json}, (∀ p, ¬ Fault s v p) → Conforms s v := by
  have hobject : ∀ typeName (fields : List (String × FieldShape)),
      (∀ f ∈ fields, ∀ {v}, (∀ p, ¬ Fault f.2 v p) → Conforms f.2 v) →
      ∀ {v}, (∀ p, ¬ Fault (.object typeName fields) v p) →
        Conforms (.object typeName fields) v := by
    intro typeName fields ih v h
    have hv := FieldShape.admits_of_forall_not_fault h
    cases v <;> simp only [FieldShape.admits, Bool.false_eq_true] at hv
    refine .object fun name s w hs hget hnull => ih _ hs fun p hp => ?_
    obtain ⟨i, hi⟩ := List.mem_iff_getElem?.mp hs
    exact h _ (.field hi hget hnull hp)
  induction s using FieldShape.fieldInduction with
  | leaf kind => exact fun h => .leaf (FieldShape.admits_of_forall_not_fault h)
  | object typeName fields ih => exact hobject typeName fields ih
  | leaves kind =>
    exact .collection_of_not_fault rfl fun w hw =>
      .leaf (FieldShape.admits_of_forall_not_fault hw)
  | objects typeName fields identity ih =>
    exact .collection_of_not_fault rfl fun w hw => hobject typeName fields ih hw
  | free =>
    intro v h
    have hv := FieldShape.admits_of_forall_not_fault h
    cases v <;> simp only [FieldShape.admits, Bool.false_eq_true] at hv
    exact .free

/-- **A value conforms if it is nowhere at fault.** -/
theorem conforms_iff_forall_not_fault {s : FieldShape} {v : Json} :
    Conforms s v ↔ ∀ p, ¬ Fault s v p :=
  ⟨Conforms.not_fault, Conforms.of_forall_not_fault⟩

end SnapshotDiff
