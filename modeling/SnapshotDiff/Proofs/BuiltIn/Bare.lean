import SnapshotDiff.Proofs.BuiltIn.Wrapped
import SnapshotDiff.Proofs.Congruence

/-!
# Wrapped and bare records

A record comes bare or as the content of a source record, which states the type of the record in its
place.  The content with this type among its members is the record bare.  Both are read alike, so
that it makes no difference in which of the two a snapshot is kept.

## Main definitions

* `Marc.bare` — the content of a wrapping, with the type that the wrapping states.

## Main results

* `Marc.reshape_bare` — both have the same flat layout, or the same fault.
* `Rules.layouts_interchangeable` — **a wrapped record and the same record bare are
  interchangeable.**
-/

namespace SnapshotDiff

namespace Marc

variable {family : Family} {raw parsed content : Table Json}

/-- The content of a wrapping with the type that the wrapping states, if there is one. -/
def bare (type? : Option Json) (content : Table Json) : Table Json :=
  match type? with
  | some v => content.insert "recordType" v
  | none => content

/-- Besides the type nothing is added to the content. -/
theorem get?_bare_of_ne {type? : Option Json} {key : String} (hkey : key ≠ "recordType") :
    (bare type? content).get? key = content.get? key := by
  cases type? with
  | none => rfl
  | some v => rw [bare, Table.get?_insert, if_neg (Ne.symm hkey)]

theorem get?_recordType_bare {type? : Option Json} (h : content.get? "recordType" = none) :
    (bare type? content).get? "recordType" = type? := by
  cases type? with
  | none => exact h
  | some v => rw [bare, Table.get?_insert, if_pos rfl]

/-- The type is put under its name once more, which changes nothing. -/
theorem insert_recordType_bare (h : content.Ascending) (v : Json) :
    Table.insert ((bare (some v) content).erase "fields") "recordType" v
      = Table.insert (content.erase "fields") "recordType" v := by
  have hbare : (bare (some v) content).Ascending := Table.ascending_insert h _ _
  refine Table.eq_of_get? (Table.ascending_insert (Table.ascending_erase hbare _) _ _)
    (Table.ascending_insert (Table.ascending_erase h _) _ _) fun key => ?_
  rw [Table.get?_insert, Table.get?_insert]
  split
  · rfl
  · next hkey =>
    rw [Table.get?_erase, Table.get?_erase, get?_bare_of_ne (Ne.symm hkey)]

/-- **A wrapped record and the same record bare have the same flat layout, or the same fault.** -/
theorem reshape_bare (hasc : content.Ascending)
    (hparsed : raw.get? "parsedRecord" = some (.obj parsed))
    (hcontent : parsed.get? "content" = some (.obj content))
    (hnested : content.get? "parsedRecord" = none)
    (huntyped : content.get? "recordType" = none) :
    reshape family (bare (raw.get? "recordType") content) = reshape family raw := by
  have htype : (bare (raw.get? "recordType") content).get? "recordType" = raw.get? "recordType" :=
    get?_recordType_bare huntyped
  have hcheck : checkRecordType family (bare (raw.get? "recordType") content)
      = checkRecordType family raw := by
    rw [checkRecordType, checkRecordType, htype]
  have hbare : Marc.content family (bare (raw.get? "recordType") content)
      = .ok (bare (raw.get? "recordType") content) := by
    refine content_of_unwrapped fun parsed' hparsed' => ?_
    rw [get?_bare_of_ne (by decide), hnested] at hparsed'
    exact absurd hparsed' (by simp)
  have hfields : (bare (raw.get? "recordType") content).get? "fields" = content.get? "fields" :=
    get?_bare_of_ne (by decide)
  rw [reshape, reshape, hcheck, hbare, content_of_wrapped hparsed hcontent, htype]
  simp only [bind, Except.bind, hfields]
  cases raw.get? "recordType" with
  | none => rfl
  | some v =>
    dsimp only
    rw [insert_recordType_bare hasc v]

end Marc

namespace Rules

variable {f : Family} {raw parsed content : Table Json}

/-- **A wrapped record and the same record bare are interchangeable.**  Let the content of a
wrapping have neither a wrapping nor a type of its own, and let the bare record be this content with
the type that the wrapping states, whatever value that is, if it states one.  Then both are read as
the same entity, or both are refused for the same reason at the same path.  Each can stand for the
other on either side of a comparison, and between the two there is no change. -/
theorem layouts_interchangeable (hmarc : f.isMarc) (hraw : (Json.obj raw).Canonical)
    (hparsed : raw.get? "parsedRecord" = some (.obj parsed))
    (hcontent : parsed.get? "content" = some (.obj content))
    (hnested : content.get? "parsedRecord" = none)
    (huntyped : content.get? "recordType" = none) :
    let wrapped := some (Json.obj raw)
    let bare := some (Json.obj (Marc.bare (raw.get? "recordType") content))
    Entity.ofSnapshot (builtIn f) wrapped = Entity.ofSnapshot (builtIn f) bare
      ∧ (∀ s, (builtIn f).diff wrapped s = (builtIn f).diff bare s
        ∧ (builtIn f).diff s wrapped = (builtIn f).diff s bare)
      ∧ ∀ e, Entity.ofSnapshot (builtIn f) wrapped = .ok e →
        (builtIn f).diff wrapped bare = .ok none ∧ (builtIn f).diff bare wrapped = .ok none := by
  intro wrapped bare
  have hasc : content.Ascending := by
    have hinner := Json.hereditary_canonical.member hraw hparsed
    exact (Json.canonical_obj_iff.mp (Json.hereditary_canonical.member hinner hcontent)).1
  have hreshaped : (builtIn f).reshaped raw
      = (builtIn f).reshaped (Marc.bare (raw.get? "recordType") content) := by
    rw [reshaped_builtIn, reshaped_builtIn, if_pos hmarc, if_pos hmarc,
      Marc.reshape_bare hasc hparsed hcontent hnested huntyped]
  have hread : Entity.ofSnapshot (builtIn f) wrapped = Entity.ofSnapshot (builtIn f) bare := by
    rw [Entity.ofSnapshot, Entity.ofSnapshot, Entity.readRoot, Entity.readRoot, hreshaped]
  have hdiff : ∀ s, (builtIn f).diff wrapped s = (builtIn f).diff bare s
      ∧ (builtIn f).diff s wrapped = (builtIn f).diff s bare := by
    intro s
    constructor
    · rw [diff, diff, hread]
    · rw [diff, diff, hread]
  refine ⟨hread, hdiff, fun e he => ?_⟩
  have hself : (builtIn f).diff wrapped wrapped = .ok none := by
    refine diff_self (isAddressable_builtIn f) (preserves_builtIn f) (fun v hv => ?_) he
    exact Option.some.inj hv ▸ hraw
  exact ⟨(hdiff wrapped).2 ▸ hself, (hdiff wrapped).1 ▸ hself⟩

/-- A source record of a title: with an identifier and, next to the content, a formatted text. -/
def Marc.sourceRecord : Table Json :=
  [("id", .str "r1"), ("parsedRecord", .obj [("content", .obj [("fields", .arr [.obj [("245",
    .obj [("ind1", .str "1"), ("subfields", .arr [.obj [("a", .str "Title")]])])]]),
      ("leader", .str "x")]), ("formattedContent", .str "LEADER x")]),
    ("recordType", .str "MARC_BIB")]

/-- The title of the source record, bare. -/
def Marc.bareTitle : Table Json :=
  [("fields", .arr [.obj [("245", .obj [("ind1", .str "1"),
    ("subfields", .arr [.obj [("a", .str "Title")]])])]]), ("leader", .str "x"),
    ("recordType", .str "MARC_BIB")]

theorem layouts_interchangeable_sourceRecord :
    (∃ e, Entity.ofSnapshot (builtIn .marcBib) (some (.obj Marc.sourceRecord)) = .ok e
        ∧ Entity.ofSnapshot (builtIn .marcBib) (some (.obj Marc.bareTitle)) = .ok e)
      ∧ (builtIn .marcBib).diff (some (.obj Marc.sourceRecord)) (some (.obj Marc.bareTitle))
        = .ok none := by
  have hcanonical : (Json.obj Marc.sourceRecord).Canonical := by
    simp only [Marc.sourceRecord, Json.Canonical, Json.CanonicalMembers, Json.CanonicalItems,
      Table.ascending_iff, List.map_cons, List.map_nil]
    decide
  obtain ⟨hread, -, hnone⟩ := layouts_interchangeable (f := .marcBib) rfl hcanonical rfl rfl rfl rfl
  exact ⟨⟨_, rfl, hread ▸ rfl⟩, (hnone _ rfl).1⟩

end Rules

end SnapshotDiff
