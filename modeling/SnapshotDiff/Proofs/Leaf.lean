import SnapshotDiff.Proofs.Lookup

/-!
# Leaves

A leaf is read as its value together with the key of the value.  What is told of a leaf that is on
both sides depends on the keys alone.

## Main results

* `Entity.get?_of_leaf` — a leaf of the root has the key of its value.
* `Rules.mem_fields_leaf_iff` — **a record tells of a leaf of the root if and only if the keys of
  its values differ.**
-/

namespace SnapshotDiff

/-! ### Reading -/

/-- Creating the objects on a path leaves every leaf as it was. -/
theorem Node.get?_openObjects_of_leaf {fs : Table Node} {key : String} {n : Node}
    (hn : n.object? = none) (h : fs.get? key = some n) (names : List String) :
    (openObjects fs names).1.get? key = some n := by
  cases names with
  | nil => exact h
  | cons name names =>
    by_cases hname : name = key
    · subst hname
      rw [openObjects, h]
      cases n <;> first | exact h | simp [object?] at hn
    · rw [get?_openObjects_of_ne hname, h]

theorem Node.ofLeaf_eq_ok {family : Family} {kind : Leaf} {v : Json} {path : String} {n : Node}
    (h : ofLeaf family kind v path = .ok n) : ∃ k, kind.key v = .ok k ∧ n = leaf v k := by
  rw [ofLeaf] at h
  cases hk : kind.key v with
  | error cause => simp [hk] at h
  | ok k =>
    rw [hk] at h
    exact ⟨k, rfl, (Except.ok.inj h).symm⟩

variable {rules : Rules} {name k l : String} {kind : Leaf} {s t : Option Json} {v w : Json}

/-- A leaf of the root is read with the key of its value. -/
theorem Entity.get?_of_leaf {e : Entity} (hs : rules.shape.isAddressable)
    (hreshape : rules.reshape? = none) (hname : (name, .leaf kind) ∈ rules.shape.fields)
    (h : ofSnapshot rules s = .ok e) (hv : s.bind (·.member? name) = some v) (hne : v ≠ .null) :
    ∃ k, kind.key v = .ok k ∧ e.root.get? name = some (.leaf v k) := by
  obtain ⟨root, hroot, rfl⟩ := ofSnapshot_eq_ok.mp h
  have halpha := Shape.isAlphanumeric_of_isAddressable hs
  obtain ⟨k, hk, hread⟩ : ∃ k, kind.key v = .ok k ∧ root.get? name = some (.leaf v k) := by
    rcases get?_of_readRoot hreshape
      (nodup_of_alphanumeric (FieldShape.everyObject_object.mp halpha).1) hname hroot with
      ⟨u, n, hu, -, hn, hget⟩ | ⟨hnull, -⟩
    · obtain rfl := Option.some.inj (hu.symm.trans hv)
      rw [Node.readField] at hn
      obtain ⟨k, hk, rfl⟩ := Node.ofLeaf_eq_ok hn
      exact ⟨k, hk, hget⟩
    · exact absurd (hnull v hv) hne
  refine ⟨k, hk, ?_⟩
  clear hroot h
  dsimp only
  induction rules.defaultObjects generalizing root with
  | nil => exact hread
  | cons path paths ih =>
    refine ih _ ?_
    unfold openDefault
    split
    · exact Node.get?_openObjects_of_leaf rfl hread _
    · exact hread

/-! ### Comparing -/

theorem FieldChange.ofLeaves_some (name path : String) (v w : Json) (k l : String) :
    ofLeaves name path (some (v, k)) (some (w, l))
      = if k = l then [] else [⟨.modified, name, path, some v, some w⟩] := by
  rw [ofLeaves, ofValues]
  simp only [beq_iff_eq]

/-- The change of a leaf that is on both sides. -/
theorem Change.ofField_leaf (rules : Rules) (name path : String) (kind : Leaf) (v w : Json)
    (k l : String) :
    ofField rules name path (some (.leaf v k)) (some (.leaf w l)) (.leaf kind)
      = if k = l then [] else [.field ⟨.modified, name, path, some v, some w⟩] := by
  rw [ofField, Option.bind_some, Option.bind_some, Node.leaf?, Node.leaf?,
    FieldChange.ofLeaves_some]
  split <;> rfl

/-- What the walk finds on a leaf that is on both sides. -/
theorem Finding.ofField_leaf (rules : Rules) (o : Owner) (name path : String) (kind : Leaf)
    (v w : Json) (k l : String) :
    ofField rules o name path (some (.leaf v k)) (some (.leaf w l)) (.leaf kind)
      = if k = l then [] else [field o ⟨.modified, name, path, some v, some w⟩] := by
  rw [ofField, Option.bind_some, Option.bind_some, Node.leaf?, Node.leaf?, ofLeaves_eq_map,
    FieldChange.ofLeaves_some]
  split <;> rfl

/-- **A leaf of the root** is told of if and only if the keys of its values differ. -/
theorem Rules.mem_fields_leaf_iff {r : Option ChangeRecord} (hs : rules.shape.isAddressable)
    (hreshape : rules.reshape? = none) (hname : (name, .leaf kind) ∈ rules.shape.fields)
    (hreport : rules.reportable name) (hv : s.bind (·.member? name) = some v)
    (hw : t.bind (·.member? name) = some w) (hvnull : v ≠ .null) (hwnull : w ≠ .null)
    (h : rules.diff s t = .ok r) :
    ∃ k l, kind.key v = .ok k ∧ kind.key w = .ok l
      ∧ ∀ c, c ∈ (r.getD .nothing).fields ∧ Path.within c.path name
        ↔ k ≠ l ∧ c = ⟨.modified, name, name, some v, some w⟩ := by
  obtain ⟨old, new, hold, hnew, -⟩ := (diff_eq_ok_iff hs).mp h
  obtain ⟨k, hk, hgetOld⟩ := Entity.get?_of_leaf hs hreshape hname hold hv hvnull
  obtain ⟨l, hl, hgetNew⟩ := Entity.get?_of_leaf hs hreshape hname hnew hw hwnull
  refine ⟨k, l, hk, hl, fun c => ?_⟩
  rw [mem_fields_within_iff hs hname hreport hold hnew h, hgetOld, hgetNew, Change.ofField_leaf]
  split <;> simp_all

end SnapshotDiff
