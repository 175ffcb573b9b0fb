import Mathlib.Data.Option.Basic
import SnapshotDiff.Proofs.BuiltIn.Layout
import SnapshotDiff.Proofs.BuiltIn.Rearranged
import SnapshotDiff.Proofs.Comparison
import SnapshotDiff.Proofs.Finding.Quiet

/-!
# Collections are sets

A snapshot does not differ from itself with the members of its collections in another order, or
repeated, or with `null` items between them.

## Main definitions

* `Rules.Rearranges` — the relation of snapshots, in the layout in which they come.

## Main results

* `Rules.diff_rearranged` — **rearranged snapshots do not differ.**
-/

namespace SnapshotDiff

namespace Rules

variable {rules : Rules}

/-- The second snapshot is the first one with its collections rearranged: as the shape declares
them, or as a MARC record has them. -/
inductive Rearranges (rules : Rules) : Json → Json → Prop
  | plain {v w : Json} (layout : rules.reshape? = none) (h : Rearranged rules.root v w) :
    Rearranges rules v w
  | marc {family : Family} {ms ns : Table Json}
    (layout : rules.reshape? = some (Marc.reshape family)) (shape : rules.shape = Marc.shape)
    (h : Marc.RecordRearranged ms ns) : Rearranges rules (.obj ms) (.obj ns)

/-- In the built-in shapes the names of fields are distinct. -/
theorem hasDistinctNames_builtIn (f : Family) : (builtIn f).shape.hasDistinctNames :=
  FieldShape.everyObject_mono
    (fun _ h => decide_eq_true (nodup_of_alphanumeric (alphanumeric_of_plainNames h)))
    (isPlain_builtIn f)

/-- Entities that agree do not differ. -/
theorem record?_eq_none_of_agree {e e' : Entity}
    (h : Node.Agree rules.root (.object e.root) (.object e'.root)) :
    (Correlation.ofFindings (rules.findings e e')).record? = none := by
  obtain ⟨fs, gs, hfs, hgs, hkeys⟩ := h.exists_objects
  obtain rfl := Node.object.inj hfs
  obtain rfl := Node.object.inj hgs
  exact Correlation.record?_eq_none
    (Finding.onlyMatches_ofFields_of_objects hkeys (Finding.onlyMatches_ofField h))

/-- What a snapshot of objects is read as, a rearranged one is read as too. -/
theorem exists_agree_of_rearranges (hs : rules.shape.hasDistinctNames) {v w : Json} {e : Entity}
    (hv : v.Canonical) (he : Entity.ofSnapshot rules (some v) = .ok e)
    (hdistinct : Node.Distinct rules.root (.object e.root)) (h : rules.Rearranges v w) :
    ∃ e', Entity.ofSnapshot rules (some w) = .ok e'
      ∧ Node.Agree rules.root (.object e.root) (.object e'.root) := by
  cases h with
  | plain layout h =>
    have hreshaped : ∀ ms, rules.reshaped ms = .ok ms := by
      intro ms
      rw [reshaped, layout]
    cases v with
    | null =>
      obtain rfl := h.null_iff.mp rfl
      obtain ⟨root, hroot, rfl⟩ := Entity.ofSnapshot_eq_ok.mp he
      obtain rfl := Except.ok.inj hroot
      exact ⟨_, he, Entity.agree_defaults hs .nil⟩
    | obj ms =>
      obtain ⟨ns, rfl⟩ : ∃ ns, w = .obj ns := by
        cases h with
        | refl => exact ⟨ms, rfl⟩
        | object => exact ⟨_, rfl⟩
      exact Entity.agree_of_rearranged hs (hreshaped ms) (hreshaped ns) hv h he hdistinct
    | _ =>
      obtain ⟨root, hroot, -⟩ := Entity.ofSnapshot_eq_ok.mp he
      simp [Entity.readRoot] at hroot
  | @marc family ms ns layout hshape h =>
    have hreshaped : ∀ ms, rules.reshaped ms = Marc.reshape family ms := by
      intro ms
      rw [reshaped, layout]
    obtain ⟨root, hroot, -⟩ := Entity.ofSnapshot_eq_ok.mp he
    obtain ⟨out, hout, -⟩ := Except.bind_eq_ok.mp hroot
    rw [hreshaped] at hout
    obtain ⟨out', hout', hrearranged⟩ := Marc.rearranged_reshape h hout
    refine Entity.agree_of_rearranged hs ((hreshaped ms).trans hout) ((hreshaped ns).trans hout')
      (Marc.canonical_reshape hv hout) ?_ he hdistinct
    rw [Rules.root, hshape]
    exact hrearranged

/-- **Rearranged snapshots do not differ.**  The names in every object of the shape are distinct,
and so are the identities in every collection of the snapshot that has them.  Then a snapshot with
its collections rearranged is read as well, and comparing the two finds nothing, either way. -/
theorem diff_rearranged {x y : Option Json} {e : Entity} (hs : rules.shape.hasDistinctNames)
    (hcanonical : ∀ v ∈ x, v.Canonical) (he : Entity.ofSnapshot rules x = .ok e)
    (hdistinct : Node.Distinct rules.root (.object e.root)) (h : Option.Rel rules.Rearranges x y) :
    (∃ e', Entity.ofSnapshot rules y = .ok e') ∧ rules.diff x y = .ok none
      ∧ rules.diff y x = .ok none := by
  have hagree : ∃ e', Entity.ofSnapshot rules y = .ok e'
      ∧ Node.Agree rules.root (.object e.root) (.object e'.root) := by
    cases h with
    | some h => exact exists_agree_of_rearranges hs (hcanonical _ rfl) he hdistinct h
    | none =>
      obtain ⟨root, hroot, rfl⟩ := Entity.ofSnapshot_eq_ok.mp he
      obtain rfl := Except.ok.inj hroot
      exact ⟨_, he, Entity.agree_defaults hs .nil⟩
  obtain ⟨e', he', hagree⟩ := hagree
  refine ⟨⟨e', he'⟩, diff_eq_ok.mpr ⟨e, e', he, he', ?_⟩, diff_eq_ok.mpr ⟨e', e, he', he, ?_⟩⟩
  · exact (record?_eq_none_of_agree hagree).symm
  · exact (record?_eq_none_of_agree hagree.symm).symm

end Rules

/-! ### A library -/

namespace Library

/-- Books, which are told apart by their signatures, have authors. -/
def book : List (String × FieldShape) := [("authors", .leaves .string), ("sign", .leaf .string)]

/-- A library with its books. -/
def rules : Rules where
  family := .item
  shape := ⟨"Library", [("books", .objects "Book" book (some "sign"))]⟩

/-- The book with a signature and some authors. -/
def bookOf (sign : String) (authors : List Json) : Json :=
  .obj [("authors", .arr authors), ("sign", .str sign)]

/-- A library with two books, one of which has two authors. -/
def snapshot : Json :=
  .obj [("books", .arr [bookOf "1" [.str "Kim", .str "Lee"], bookOf "2" [.str "Kim"]])]

/-- The same library: the books and the authors are in another order, one author is repeated, and
`null` stands among the books. -/
def rearranged : Json :=
  .obj [("books", .arr [bookOf "2" [.str "Kim"], .null,
    bookOf "1" [.str "Lee", .str "Kim", .str "Lee"]])]

theorem canonical_snapshot : snapshot.Canonical := by
  simp only [snapshot, bookOf, Json.Canonical, Json.CanonicalMembers, Json.CanonicalItems,
    Table.ascending_iff]
  decide

/-- A book with its authors rearranged is rearranged. -/
theorem rearranged_bookOf {sign : String} {authors authors' : List Json}
    (h : ∀ v, v ∈ authors ↔ v ∈ authors') :
    Rearranged (.object "Book" book) (bookOf sign authors) (bookOf sign authors') := by
  refine .object rfl fun name s v w hs hv hw => ?_
  simp only [book, List.mem_cons, Prod.mk.injEq, List.not_mem_nil, or_false] at hs
  rcases hs with ⟨rfl, rfl⟩ | ⟨rfl, rfl⟩
  · obtain rfl := Option.some.inj hv
    obtain rfl := Option.some.inj hw
    exact .of_same_items rfl h
  · obtain rfl := Option.some.inj (hv.symm.trans hw)
    exact .refl

theorem rearranged_snapshot : Rearranged rules.root snapshot rearranged := by
  refine .object rfl fun name s v w hs hv hw => ?_
  obtain ⟨rfl, rfl⟩ : name = "books" ∧ s = .objects "Book" book (some "sign") := by
    simpa [rules] using hs
  obtain rfl := Option.some.inj hv
  obtain rfl := Option.some.inj hw
  refine .collection [(bookOf "1" [.str "Kim", .str "Lee"],
      bookOf "1" [.str "Lee", .str "Kim", .str "Lee"]), (bookOf "2" [.str "Kim"],
      bookOf "2" [.str "Kim"])] rfl (fun v => ?_) (fun w => ?_) fun p hp => ?_
  · simp only [List.map_cons, List.map_nil, List.mem_cons, List.not_mem_nil, or_false]
    refine ⟨fun hv => ⟨hv, ?_⟩, And.left⟩
    rcases hv with rfl | rfl <;> simp [bookOf]
  · simp only [List.map_cons, List.map_nil, List.mem_cons, List.not_mem_nil, or_false]
    constructor
    · rintro (rfl | rfl) <;> simp [bookOf]
    · tauto
  · simp only [List.mem_cons, List.not_mem_nil, or_false] at hp
    rcases hp with rfl | rfl
    · exact rearranged_bookOf fun v => by simp only [List.mem_cons, List.not_mem_nil]; tauto
    · exact .refl

/-- A book has no members that are told apart. -/
theorem distinct_bookOf (authors : List Node) (sign : Node) :
    Node.Distinct (.object "Book" book)
      (.object [("authors", .collection authors), ("sign", sign)]) := by
  refine .object fun name s n hs hn => ?_
  simp only [book, List.mem_cons, Prod.mk.injEq, List.not_mem_nil, or_false] at hs
  rcases hs with ⟨rfl, rfl⟩ | ⟨rfl, rfl⟩
  · obtain rfl := Option.some.inj hn
    exact .collection rfl (fun _ _ => .leaf) fun _ h => by simp [FieldShape.identity?] at h
  · exact .leaf

/-- The two books have different signatures. -/
theorem distinct_snapshot {e : Entity} (he : Entity.ofSnapshot rules (some snapshot) = .ok e) :
    Node.Distinct rules.root (.object e.root) := by
  obtain rfl := Except.ok.inj he
  refine .object fun name s n hs hn => ?_
  obtain ⟨rfl, rfl⟩ : name = "books" ∧ s = .objects "Book" book (some "sign") := by
    simpa [rules] using hs
  obtain rfl := Option.some.inj hn
  refine .collection rfl (fun n hn => ?_) fun identity hidentity => ?_
  · rcases List.mem_cons.mp hn with rfl | hn
    · exact distinct_bookOf _ _
    · obtain rfl := List.mem_singleton.mp hn
      exact distinct_bookOf _ _
  · obtain rfl := Option.some.inj hidentity
    decide

theorem diff_snapshot : rules.diff (some snapshot) (some rearranged) = .ok none
    ∧ rules.diff (some rearranged) (some snapshot) = .ok none := by
  have hread : Entity.ofSnapshot rules (some snapshot) = .ok _ := rfl
  exact (Rules.diff_rearranged (by decide) (fun v hv => Option.some.inj hv ▸ canonical_snapshot)
    hread (distinct_snapshot hread) (.some (.plain rfl rearranged_snapshot))).2

end Library

end SnapshotDiff
