import SnapshotDiff.Proofs.Comparison
import SnapshotDiff.Proofs.Entity.Acceptance
import SnapshotDiff.Proofs.Entity.Rearranged
import SnapshotDiff.Proofs.Json.Pruned

/-!
# Undeclared data

What a shape does not declare is never looked at, neither where a snapshot fits its shape nor where
it does not.  A value and what pruning leaves of it come to the same: the same node, or an error at
the same path and in the same words.

## Main definitions

* `DiffError.worded` — an error with nothing but the wording of its cause.
* `DiffError.outcome` — what a computation comes to, with its error as it is worded.

## Main results

* `Node.blind` — a value and what pruning leaves of it are read alike.
* `Rules.outcome_congr_of_pruned_eq` — **snapshots that differ in undeclared data only come to the
  same**, when they are read and when they are compared with any other.
-/

namespace SnapshotDiff

open FieldShape Json

namespace DiffError

/-- The error with nothing but the wording of its cause.  A cause keeps the value that was found,
but only its kind is told. -/
def worded : DiffError → DiffError
  | mapping family path cause => mapping family path (.stated cause.reason)
  | e => e

@[simp] theorem message_worded (e : DiffError) : e.worded.message = e.message := by
  cases e <;> rfl

variable {α β : Type} {x y : Except DiffError α} {f g : α → Except DiffError β}

/-- What a computation comes to: its result, or its error as it is worded. -/
def outcome (x : Except DiffError α) : Except DiffError α := x.mapError worded

/-- Computations in two steps come to the same if their steps do. -/
theorem outcome_bind_congr (h : outcome x = outcome y) (hf : ∀ a, outcome (f a) = outcome (g a)) :
    outcome (x >>= f) = outcome (y >>= g) := by
  have hbind : ∀ (x : Except DiffError α) (f : α → Except DiffError β),
      outcome (x >>= f) = outcome x >>= fun a => outcome (f a) := by
    intro x f
    cases x <;> rfl
  rw [hbind, hbind, h]
  exact congrArg _ (funext hf)

/-- A mismatch comes to its path and the wording of its cause. -/
theorem outcome_mismatch_congr {family : Family} {path : String} {cause cause' : Mismatch}
    (h : cause.reason = cause'.reason) :
    outcome (.error (mismatch family path cause) : Except DiffError α)
      = outcome (.error (mismatch family path cause')) := by
  simp only [outcome, Except.mapError, mismatch, worded, h]

end DiffError

namespace Node

open DiffError (outcome outcome_bind_congr outcome_mismatch_congr)

variable {family : Family} {s element : FieldShape} {ss : List FieldShape}

/-- A value and what pruning leaves of it are read alike, wherever they stand. -/
def Blind (family : Family) (s : FieldShape) : Prop :=
  ∀ ⦃ss⦄, s ∈ ss → ∀ v path,
    outcome (readField family path (pruned ss v) s) = outcome (readField family path v s)

theorem blind_leaf (kind : Leaf) : Blind family (.leaf kind) := by
  intro ss hs v path
  cases kind with
  | any => rw [pruned_eq_self hs rfl]
  | string | integer | number | boolean | dateTime =>
    rw [readField, readField]
    rcases pruned_cases ss v with h | ⟨ms, ns, rfl, h⟩ | ⟨vs, ws, rfl, h⟩
    · rw [h]
    · rw [h]
      exact outcome_mismatch_congr rfl
    · rw [h]
      exact outcome_mismatch_congr rfl

/-- Fields are read alike from members and from what pruning leaves of them. -/
theorem outcome_readFields_prunedMembers {all rest : List (String × FieldShape)}
    (hrest : ∀ f ∈ rest, f ∈ all) (hblind : ∀ f ∈ rest, Blind family f.2) (members : Table Json)
    (path : String) : ∀ done,
      outcome (readFields family path (prunedMembers all members) done rest)
        = outcome (readFields family path members done rest) := by
  induction rest with
  | nil => exact fun done => by rw [readFields, readFields]
  | cons f rest ih =>
    obtain ⟨name, s⟩ := f
    obtain ⟨hf, hrest⟩ := List.forall_mem_cons.mp hrest
    obtain ⟨hs, hblind⟩ := List.forall_mem_cons.mp hblind
    intro done
    have hmem := mem_declarations hf
    have hget : Table.get? (prunedMembers all members) name
        = (members.get? name).map (pruned (declarations all name)) := by
      rw [get?_prunedMembers, if_neg]
      rw [List.isEmpty_iff]
      exact List.ne_nil_of_mem hmem
    by_cases hheld : ∃ v, Holds members name v
    · obtain ⟨v, hv⟩ := hheld
      have hpruned : Holds (prunedMembers all members) name (pruned (declarations all name) v) :=
        ⟨by rw [hget, hv.1, Option.map_some], fun h => hv.2 (pruned_eq_null_iff.mp h)⟩
      rw [readFields_cons_of_holds hv, readFields_cons_of_holds hpruned]
      exact outcome_bind_congr (hs hmem v _) fun n => ih hrest hblind _
    · rw [not_exists] at hheld
      have hpruned : ∀ w, ¬ Holds (prunedMembers all members) name w := by
        rintro w ⟨hw, hnull⟩
        rw [hget, Option.map_eq_some_iff] at hw
        obtain ⟨v, hv, rfl⟩ := hw
        exact hheld v ⟨hv, fun h => hnull (pruned_eq_null_iff.mpr h)⟩
      rw [readFields_cons_of_not_holds hheld, readFields_cons_of_not_holds hpruned]
      exact ih hrest hblind done

theorem blind_object {typeName : String} {fields : List (String × FieldShape)}
    (hblind : ∀ f ∈ fields, Blind family f.2) : Blind family (.object typeName fields) := by
  intro ss hs v path
  rw [readField, readField]
  rcases pruned_cases ss v with h | ⟨ms, ns, rfl, h⟩ | ⟨vs, ws, rfl, h⟩
  · rw [h]
  · rcases pruned_obj_cases hs ms with h | ⟨all, hall, h⟩
    · rw [h]
    · have hfields := outcome_readFields_prunedMembers hall hblind ms path []
      rw [h]
      show outcome (readFields family path (prunedMembers all ms) [] fields >>= fun fs =>
        pure (object fs)) = outcome (readFields family path ms [] fields >>= fun fs =>
        pure (object fs))
      exact outcome_bind_congr hfields fun _ => rfl
  · rw [h]
    exact outcome_mismatch_congr rfl

/-- Items are read alike if each of them is. -/
theorem outcome_ofItems_map {read : Json → String → Except DiffError Node} {f : Json → Json}
    (hnull : ∀ v, f v = .null ↔ v = .null)
    (h : ∀ v path, outcome (read (f v) path) = outcome (read v path)) (path : String)
    (vs : List Json) : ∀ i,
      outcome (ofItems read path i (vs.map f)) = outcome (ofItems read path i vs) := by
  induction vs with
  | nil => exact fun i => rfl
  | cons v vs ih =>
    intro i
    rw [List.map_cons]
    by_cases hv : v = .null
    · rw [(hnull v).mpr hv, hv, ofItems, ofItems]
      exact ih (i + 1)
    · rw [ofItems_cons hv, ofItems_cons fun h => hv ((hnull v).mp h)]
      exact outcome_bind_congr (h v _) fun n => outcome_bind_congr (ih (i + 1)) fun _ => rfl

theorem blind_collection (helement : s.element? = some element) (hblind : Blind family element) :
    Blind family s := by
  intro ss hs v path
  rw [readField_collection helement, readField_collection helement]
  rcases pruned_cases ss v with h | ⟨ms, ns, rfl, h⟩ | ⟨vs, ws, rfl, h⟩
  · rw [h]
  · rw [h]
    exact outcome_mismatch_congr rfl
  · rcases pruned_arr_cases hs helement vs with h | ⟨es, hes, h⟩
    · rw [h]
    · let read (w : Json) (p : String) := readField family p w element
      have hitems : outcome (ofItems read path 0 (vs.map (pruned es)))
          = outcome (ofItems read path 0 vs) :=
        outcome_ofItems_map (fun _ => pruned_eq_null_iff) (hblind hes) path vs 0
      rw [h]
      show outcome (ofItems read path 0 (vs.map (pruned es)) >>= fun ns => pure (collection ns))
        = outcome (ofItems read path 0 vs >>= fun ns => pure (collection ns))
      exact outcome_bind_congr hitems fun _ => rfl

/-- **A value and what pruning leaves of it are read alike.** -/
theorem blind (s : FieldShape) : Blind family s := by
  induction s using fieldInduction with
  | leaf kind => exact blind_leaf kind
  | object typeName fields ih => exact blind_object ih
  | leaves kind => exact blind_collection rfl (blind_leaf kind)
  | objects typeName fields identity ih => exact blind_collection rfl (blind_object ih)
  | free =>
    intro ss hs v path
    rw [pruned_eq_self hs rfl]

end Node

/-! ### Snapshots -/

namespace Rules

open DiffError (outcome outcome_bind_congr)

variable {rules : Rules} {ms ns : Table Json}

/-- What is read from the members of a snapshot depends on what pruning leaves of it. -/
theorem outcome_readFields_congr
    (h : pruned [rules.root] (.obj ms) = pruned [rules.root] (.obj ns)) :
    outcome (Node.readFields rules.family "" ms [] rules.shape.fields)
      = outcome (Node.readFields rules.family "" ns [] rules.shape.fields) := by
  have hpruned : ∀ ms : Table Json,
      pruned [rules.root] (.obj ms) = .obj (prunedMembers rules.shape.fields ms) := by
    intro ms
    rw [pruned, root, if_neg (by simp [takesAll, fields?])]
    simp [fields?]
  rw [hpruned, hpruned] at h
  have hread : ∀ ms : Table Json,
      outcome (Node.readFields rules.family "" (prunedMembers rules.shape.fields ms) []
          rules.shape.fields)
        = outcome (Node.readFields rules.family "" ms [] rules.shape.fields) := fun ms =>
    Node.outcome_readFields_prunedMembers (fun _ hf => hf) (fun f _ => Node.blind f.2) ms "" []
  rw [← hread ms, ← hread ns, Json.obj.inj h]

/-- **Undeclared data never influences a comparison.**  Two snapshots of the family, under rules
that take snapshots as they are, have the same declared data if pruning leaves the same of them:
members that are not declared are dropped from the root, from the nested objects and from the
members of collections, at every depth.  Then they are read as the same entity, or refused with the
same error; and compared with any snapshot, on either side, they have the same record or error. -/
theorem outcome_congr_of_pruned_eq (hreshape : rules.reshape? = none)
    (hms : rules.Recognizes ms) (hmsown : ∀ key ∈ ms.keys, rules.isForeign key = false)
    (hns : rules.Recognizes ns) (hnsown : ∀ key ∈ ns.keys, rules.isForeign key = false)
    (h : pruned [rules.root] (.obj ms) = pruned [rules.root] (.obj ns)) :
    outcome (Entity.ofSnapshot rules (some (.obj ms)))
        = outcome (Entity.ofSnapshot rules (some (.obj ns)))
      ∧ ∀ other : Option Json,
        outcome (rules.diff (some (.obj ms)) other) = outcome (rules.diff (some (.obj ns)) other)
          ∧ outcome (rules.diff other (some (.obj ms)))
            = outcome (rules.diff other (some (.obj ns))) := by
  have hroot : outcome (Entity.readRoot rules (some (.obj ms)))
      = outcome (Entity.readRoot rules (some (.obj ns))) := by
    rw [readRoot_eq_bind hreshape, readRoot_eq_bind hreshape,
      checkFamily_eq_ok_iff.mpr ⟨hms, hmsown⟩, checkFamily_eq_ok_iff.mpr ⟨hns, hnsown⟩]
    exact outcome_readFields_congr h
  have hentity : outcome (Entity.ofSnapshot rules (some (.obj ms)))
      = outcome (Entity.ofSnapshot rules (some (.obj ns))) :=
    outcome_bind_congr hroot fun _ => rfl
  refine ⟨hentity, fun other => ⟨?_, ?_⟩⟩
  · exact outcome_bind_congr hentity fun _ => rfl
  · exact outcome_bind_congr rfl fun _ => outcome_bind_congr hentity fun _ => rfl

/-- An item with the same undeclared data in the root, in a nested object and in a note. -/
def strewn (staffOnly data : Json) : Table Json :=
  [("barcode", .str "1"),
    ("notes", .arr [.null, .obj [("staffOnly", staffOnly), ("trace", data)]]),
    ("status", .obj [("name", .str "Available"), ("trace", data)]), ("trace", data)]

/-- Items that differ in undeclared data, one of them read and the other one refused. -/
theorem outcome_congr_strewn :
    (∃ e, Entity.ofSnapshot (builtIn .item) (some (.obj (strewn (.bool true) .null))) = .ok e)
      ∧ outcome ((builtIn .item).diff none (some (.obj (strewn (.bool true) .null))))
        = outcome ((builtIn .item).diff none (some (.obj (strewn (.bool true) (.arr [.null])))))
      ∧ Entity.ofSnapshot (builtIn .item) (some (.obj (strewn (.str "yes") .null)))
        = .error (.mapping .item "notes[1].staffOnly" (.unexpected .boolean (.str "yes")))
      ∧ outcome (Entity.ofSnapshot (builtIn .item) (some (.obj (strewn (.str "yes") .null))))
        = outcome (Entity.ofSnapshot (builtIn .item)
          (some (.obj (strewn (.str "yes") (.arr [.null]))))) := by
  have hrecognized : ∀ staffOnly data, (builtIn .item).Recognizes (strewn staffOnly data) :=
    fun _ _ => Or.inr ⟨"barcode", List.mem_cons_self, by decide⟩
  have hown : ∀ staffOnly data, ∀ key ∈ (strewn staffOnly data).keys,
      (builtIn .item).isForeign key = false := by
    intro staffOnly data
    show ∀ key ∈ ["barcode", "notes", "status", "trace"], (builtIn .item).isForeign key = false
    decide
  have hsame := fun staffOnly => outcome_congr_of_pruned_eq rfl
    (hrecognized staffOnly .null) (hown staffOnly .null)
    (hrecognized staffOnly (.arr [.null])) (hown staffOnly (.arr [.null]))
  exact ⟨⟨_, rfl⟩, ((hsame (.bool true) rfl).2 none).2, rfl, (hsame (.str "yes") rfl).1⟩

end Rules

end SnapshotDiff
