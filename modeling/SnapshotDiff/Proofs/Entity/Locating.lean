import SnapshotDiff.Proofs.Entity.Grammar
import SnapshotDiff.Proofs.Entity.Reading

/-!
# Reading locates faults

Reading stops at the first value that is not of its kind.  A computation that walks over a value is
compared with the faults of the value: it succeeds if there are none, and otherwise its error is at
the first of them.  Fields and items are passed in turn, so the first fault of the ones from a
position on is the first fault of the one at that position, if it has any.

## Main definitions

* `Locates` — a computation fails exactly if there are faults, and then at the first one.
* `Node.FieldFaults`, `Node.ItemFaults` — the faults from a position on.

## Main results

* `Locates.bind` — a step into a value comes before the later ones.
* `Node.locates_readField` — **reading a value locates its faults.**
-/

namespace SnapshotDiff

open FieldShape

/-! ### Computations that locate faults -/

/-- The computation succeeds if there are no faults, and otherwise fails at the first of them. -/
structure Locates {α : Type} (family : Family) (base : String) (faults : List Step → Prop)
    (x : Except DiffError α) : Prop where
  none_of_ok : ∀ a, x = .ok a → ∀ p, ¬ faults p
  first_of_error : ∀ e, x = .error e → ∃ p cause,
    e = .mismatch family (Step.pathOf base p) cause ∧ Fault.Earliest faults p

namespace Locates

variable {α β : Type} {family : Family} {base : String} {faults later : List Step → Prop}
  {x : Except DiffError α}

theorem congr {faults' : List Step → Prop} (h : ∀ p, faults p ↔ faults' p)
    (hx : Locates family base faults x) : Locates family base faults' x := by
  obtain rfl : faults = faults' := funext fun p => propext (h p)
  exact hx

/-- What comes after a computation without failing does not matter. -/
theorem bind_pure (hx : Locates family base faults x) (f : α → β) :
    Locates family base faults (x >>= fun a => pure (f a)) := by
  cases x with
  | error e =>
    exact ⟨fun b hb => by simp [bind, Except.bind] at hb, fun e' he' => hx.first_of_error e' (by
      obtain rfl := Except.error.inj he'
      rfl)⟩
  | ok a =>
    refine ⟨fun b _ => hx.none_of_ok a rfl, fun e he => ?_⟩
    simp [bind, Except.bind, pure, Except.pure] at he

/-- A value that is not of its own kind is at fault itself. -/
theorem of_refused {s : FieldShape} {v : Json} (hv : s.admits v = false) (cause : Mismatch) :
    Locates family base (Fault s v)
      (.error (.mismatch family base cause) : Except DiffError α) := by
  refine ⟨fun a ha => by simp at ha, fun e he => ⟨[], cause, ?_, .here hv, fun q _ => ?_⟩⟩
  · exact (Except.error.inj he).symm
  · exact Step.not_before_nil q

/-- Where there is nothing to be at fault, nothing fails. -/
theorem ok_of_forall_not (h : ∀ p, ¬ faults p) (a : α) : Locates family base faults (.ok a) :=
  ⟨fun _ _ => h, fun e he => by simp at he⟩

/-- A step into a value is taken before the later ones, and its faults are the first. -/
theorem bind (step : Step) {inner : List Step → Prop} {f : α → Except DiffError β}
    (hx : Locates family (step.path base) inner x) (hf : ∀ a, Locates family base later (f a))
    (hlater : ∀ p, later p → ∃ b q, p = b :: q ∧ step.position < b.position) :
    Locates family base (fun p => (∃ q, p = step :: q ∧ inner q) ∨ later p) (x >>= f) := by
  cases x with
  | error e =>
    refine ⟨fun b hb => by simp [Bind.bind, Except.bind] at hb, fun e' he' => ?_⟩
    obtain rfl := Except.error.inj he'
    obtain ⟨p, cause, he, hp, hfirst⟩ := hx.first_of_error e rfl
    refine ⟨step :: p, cause, he, Or.inl ⟨p, rfl, hp⟩, fun q hq hbefore => ?_⟩
    rcases hq with ⟨q, rfl, hq⟩ | hq
    · rw [Step.before_cons_iff] at hbefore
      exact hfirst q hq (hbefore.resolve_left (Nat.lt_irrefl _)).2
    · obtain ⟨b, r, rfl, hlt⟩ := hlater q hq
      rw [Step.before_cons_iff] at hbefore
      omega
  | ok a =>
    have hinner := hx.none_of_ok a rfl
    refine (hf a).congr fun p => ⟨Or.inr, fun h => h.resolve_left ?_⟩
    rintro ⟨q, -, hq⟩
    exact hinner q hq

end Locates

/-! ### Values -/

/-- A value of 64-bit integers is read as a leaf if it is of the leaf's kind. -/
theorem Leaf.exists_key_iff {kind : Leaf} {v : Json} (hv : v.Bounded) :
    (∃ k, kind.key v = .ok k) ↔ kind.admits v := by
  cases kind with
  | string | boolean => cases v <;> simp [key, admits]
  | any => simp [key, admits]
  | integer =>
    cases v with
    | int n => exact iff_of_true ⟨_, rfl⟩ hv
    | _ => simp [key, admits]
  | number =>
    have hkey : (∃ k, number.key v = .ok k) ↔ v.toBinary64?.isSome := by
      rw [key]
      cases v.toBinary64? <;> simp
    rw [hkey]
    cases v with
    | int n =>
      obtain ⟨x, hx⟩ := Binary64.exists_ofInt? hv
      exact iff_of_true (Option.isSome_iff_exists.mpr ⟨x, hx⟩) rfl
    | _ => simp [admits, Json.toBinary64?]
  | dateTime =>
    cases v with
    | str s => cases h : Instant.ofText? s <;> simp [key, admits, h]
    | _ => simp [key, admits]

namespace Node

variable {family : Family} {path : String}

theorem locates_ofLeaf {kind : Leaf} {v : Json} (hv : v.Bounded) :
    Locates family path (Fault (.leaf kind) v) (ofLeaf family kind v path) := by
  have hiff : (∃ k, kind.key v = .ok k) ↔ kind.admits v := Leaf.exists_key_iff hv
  rw [ofLeaf]
  cases hkey : kind.key v with
  | ok k =>
    have hadmits := hiff.mp ⟨k, hkey⟩
    exact .ok_of_forall_not (Conforms.leaf hadmits).not_fault _
  | error cause =>
    refine .of_refused (Bool.eq_false_iff.mpr fun hadmits => ?_) cause
    obtain ⟨k, hk⟩ := hiff.mpr hadmits
    rw [hkey] at hk
    exact absurd hk (by simp)

/-! ### Objects -/

/-- The faults of the members of an object in the fields from a position on. -/
def FieldFaults (ms : Table Json) (i : Nat) (fields : List (String × FieldShape)) (p : List Step) :
    Prop :=
  ∃ j name s v q, fields[j]? = some (name, s) ∧ ms.get? name = some v ∧ v ≠ .null
    ∧ p = .field (i + j) name :: q ∧ Fault s v q

theorem fieldFaults_cons_iff {ms : Table Json} {i : Nat} {name : String} {s : FieldShape}
    {rest : List (String × FieldShape)} {p : List Step} :
    FieldFaults ms i ((name, s) :: rest) p
      ↔ (∃ v q, ms.get? name = some v ∧ v ≠ .null ∧ p = .field i name :: q ∧ Fault s v q)
        ∨ FieldFaults ms (i + 1) rest p := by
  constructor
  · rintro ⟨j, name', s', v, q, hj, hv, hnull, rfl, hq⟩
    cases j with
    | zero =>
      obtain ⟨rfl, rfl⟩ := Prod.mk.inj (Option.some.inj hj)
      exact Or.inl ⟨v, q, hv, hnull, rfl, hq⟩
    | succ j =>
      exact Or.inr ⟨j, name', s', v, q, hj, hv, hnull, by rw [Nat.add_right_comm]; rfl, hq⟩
  · rintro (⟨v, q, hv, hnull, rfl, hq⟩ | ⟨j, name', s', v, q, hj, hv, hnull, rfl, hq⟩)
    · exact ⟨0, name, s, v, q, rfl, hv, hnull, rfl, hq⟩
    · exact ⟨j + 1, name', s', v, q, hj, hv, hnull, by rw [Nat.add_right_comm]; rfl, hq⟩

theorem fault_object_iff {typeName : String} {fields : List (String × FieldShape)}
    {ms : Table Json} {p : List Step} :
    Fault (.object typeName fields) (.obj ms) p ↔ FieldFaults ms 0 fields p := by
  constructor
  · intro h
    cases h with
    | here refused => simp [FieldShape.admits] at refused
    | @field _ name _ _ i s v q declared present some inner =>
      exact ⟨i, name, s, v, q, declared, present, some, by rw [Nat.zero_add], inner⟩
  · rintro ⟨j, name, s, v, q, hj, hv, hnull, rfl, hq⟩
    rw [Nat.zero_add]
    exact .field hj hv hnull hq

/-- Reading the fields of an object from a position on locates their faults. -/
theorem locates_readFields {ms : Table Json} {fields : List (String × FieldShape)}
    (hread : ∀ f ∈ fields, ∀ v, ms.get? f.1 = some v →
      Locates family (Path.child path f.1) (Fault f.2 v)
        (readField family (Path.child path f.1) v f.2)) :
    ∀ i done, Locates family path (FieldFaults ms i fields)
      (readFields family path ms done fields) := by
  induction fields with
  | nil =>
    intro i done
    rw [readFields]
    exact .ok_of_forall_not (by simp [FieldFaults]) done
  | cons f rest ih =>
    obtain ⟨name, s⟩ := f
    intro i done
    obtain ⟨hthis, hrest⟩ := List.forall_mem_cons.mp hread
    -- a member that is absent or `null` is not at fault
    have hskip : (∀ v, ms.get? name = some v → v = .null) → ∀ p,
        FieldFaults ms (i + 1) rest p ↔ FieldFaults ms i ((name, s) :: rest) p := by
      intro h p
      rw [fieldFaults_cons_iff]
      refine ⟨Or.inr, fun hp => hp.resolve_left ?_⟩
      rintro ⟨v, -, hv, hnull, -⟩
      exact hnull (h v hv)
    rw [readFields]
    split
    · next hget => exact (ih hrest _ _).congr (hskip (by simp [hget]))
    · next hget => exact (ih hrest _ _).congr (hskip (by simp [hget]))
    · next v hnull hget =>
      have hstep := Locates.bind (.field i name) (hthis v hget)
        (fun n => ih hrest (i + 1) (done.insert name n)) (by
          rintro p ⟨j, name', _, _, q, -, -, -, rfl, -⟩
          exact ⟨_, _, rfl, by simp only [Step.position]; omega⟩)
      refine hstep.congr fun p => ?_
      rw [fieldFaults_cons_iff]
      have hnull' : v ≠ .null := hnull
      simp [hget, hnull']

/-! ### Collections -/

/-- The faults of the items of an array from a position on, each of them declared as `element`. -/
def ItemFaults (element : FieldShape) (i : Nat) (vs : List Json) (p : List Step) : Prop :=
  ∃ j v q, vs[j]? = some v ∧ v ≠ .null ∧ p = .item (i + j) :: q ∧ Fault element v q

theorem itemFaults_cons_iff {element : FieldShape} {i : Nat} {v : Json} {vs : List Json}
    {p : List Step} :
    ItemFaults element i (v :: vs) p
      ↔ (v ≠ .null ∧ ∃ q, p = .item i :: q ∧ Fault element v q)
        ∨ ItemFaults element (i + 1) vs p := by
  constructor
  · rintro ⟨j, w, q, hj, hnull, rfl, hq⟩
    cases j with
    | zero =>
      obtain rfl := Option.some.inj hj
      exact Or.inl ⟨hnull, q, rfl, hq⟩
    | succ j => exact Or.inr ⟨j, w, q, hj, hnull, by rw [Nat.add_right_comm]; rfl, hq⟩
  · rintro (⟨hnull, q, rfl, hq⟩ | ⟨j, w, q, hj, hnull, rfl, hq⟩)
    · exact ⟨0, v, q, rfl, hnull, rfl, hq⟩
    · exact ⟨j + 1, w, q, hj, hnull, by rw [Nat.add_right_comm]; rfl, hq⟩

theorem fault_array_iff {s element : FieldShape} (hs : s.element? = some element) {vs : List Json}
    {p : List Step} : Fault s (.arr vs) p ↔ ItemFaults element 0 vs p := by
  constructor
  · intro h
    cases h with
    | here refused => cases s <;> simp [FieldShape.element?, FieldShape.admits] at hs refused
    | @item _ _ _ i v q declared present some inner =>
      obtain rfl := Option.some.inj (hs.symm.trans declared)
      exact ⟨i, v, q, present, some, by rw [Nat.zero_add], inner⟩
  · rintro ⟨j, v, q, hj, hnull, rfl, hq⟩
    rw [Nat.zero_add]
    exact .item hs hj hnull hq

/-- Reading the items of an array from a position on locates their faults. -/
theorem locates_ofItems {element : FieldShape} {read : Json → String → Except DiffError Node}
    {vs : List Json} (hread : ∀ v ∈ vs, ∀ p, Locates family p (Fault element v) (read v p)) :
    ∀ i, Locates family path (ItemFaults element i vs) (ofItems read path i vs) := by
  induction vs with
  | nil =>
    intro i
    rw [ofItems]
    exact .ok_of_forall_not (by simp [ItemFaults]) _
  | cons v vs ih =>
    intro i
    obtain ⟨hthis, hrest⟩ := List.forall_mem_cons.mp hread
    by_cases hnull : v = .null
    · subst hnull
      rw [ofItems]
      refine (ih hrest (i + 1)).congr fun p => ?_
      rw [itemFaults_cons_iff]
      simp
    · rw [ofItems]
      · have hstep := Locates.bind (.item i) (hthis (Path.item path i))
          (fun n => (ih hrest (i + 1)).bind_pure fun ns => n :: ns) (by
            rintro p ⟨j, _, q, -, -, rfl, -⟩
            exact ⟨_, _, rfl, by simp only [Step.position]; omega⟩)
        refine hstep.congr fun p => ?_
        rw [itemFaults_cons_iff]
        simp [hnull]
      · exact hnull

/-! ### Fields -/

/-- Reading an array as a collection locates the faults of the collection. -/
theorem locates_collection {s element : FieldShape} (hs : s.element? = some element)
    {read : Json → String → Except DiffError Node} {v : Json} (hv : v.Bounded)
    (hread : ∀ w : Json, w.Bounded → ∀ p, Locates family p (Fault element w) (read w p)) :
    Locates family path (Fault s v) (do
      return collection (← ofItems read path 0 (← arrayItems family v path))) := by
  cases v with
  | arr vs =>
    have hitems : Locates family path (ItemFaults element 0 vs) (ofItems read path 0 vs) :=
      locates_ofItems (fun w hw => hread w (Json.hereditary_bounded.item hv hw)) 0
    exact (hitems.bind_pure collection).congr fun p => (fault_array_iff hs).symm
  | _ => cases s <;> simp only [FieldShape.element?, reduceCtorEq] at hs <;> exact .of_refused rfl _

/-- Reading members as an object locates the faults of the object. -/
theorem locates_object {typeName : String} {fields : List (String × FieldShape)}
    (hread : ∀ f ∈ fields, ∀ (v : Json), v.Bounded → ∀ p,
      Locates family p (Fault f.2 v) (readField family p v f.2)) {v : Json} (hv : v.Bounded)
    (path : String) :
    Locates family path (Fault (.object typeName fields) v) (do
      return object (← readFields family path (← objectMembers family v path) [] fields)) := by
  cases v with
  | obj ms =>
    have hfields : Locates family path (FieldFaults ms 0 fields)
        (readFields family path ms [] fields) :=
      locates_readFields
        (fun f hf w hw => hread f hf w (Json.hereditary_bounded.member hv hw) _) 0 []
    exact (hfields.bind_pure object).congr fun p => fault_object_iff.symm
  | _ => exact .of_refused rfl _

/-- **Reading a value locates its faults.** -/
theorem locates_readField {s : FieldShape} : ∀ {v : Json}, v.Bounded → ∀ path,
    Locates family path (Fault s v) (readField family path v s) := by
  induction s using fieldInduction with
  | leaf kind =>
    intro v hv path
    rw [readField]
    exact locates_ofLeaf hv
  | object typeName fields ih =>
    intro v hv path
    rw [readField]
    exact locates_object (fun f hf w => ih f hf) hv path
  | leaves kind =>
    intro v hv path
    rw [readField]
    exact locates_collection rfl hv fun w hw p => locates_ofLeaf hw
  | objects typeName fields identity ih =>
    intro v hv path
    rw [readField]
    exact locates_collection rfl hv fun w hw p => locates_object (fun f hf w => ih f hf) hw p
  | free =>
    intro v _ path
    rw [readField]
    cases v with
    | obj ms => exact .ok_of_forall_not Conforms.free.not_fault _
    | _ => exact .of_refused rfl _

end Node

end SnapshotDiff
