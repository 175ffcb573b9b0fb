import Mathlib.Logic.Relation
import SnapshotDiff.Proofs.Comparison
import SnapshotDiff.Proofs.Correlation.Stems
import SnapshotDiff.Proofs.Difference.Beneath

/-!
# The identities of members

The identity of a member is one text, put together from the identity of the owner of its collection,
the path of the collection and the key of the member, which may hold any text of a snapshot.  Among
the findings of two entities it still tells the members apart: each is introduced once, in a
collection of the root or of a member that was matched before.

## Main definitions

* `Finding.introduced?` — the member that a finding is about, with its collection.
* `Finding.Grounded` — no finding comes before its object was matched.
* `Finding.IsHeldBy` — from a member to the object in whose collection it is.
* `Finding.Identified` — the identities of members tell them apart and lead to the root.

## Main results

* `Difference.grounded_allFindings`, `Finding.Grounded.exists_matched` — the order of findings.
* `Difference.nodup_identities` — no identity is introduced twice.
* `Rules.identified_of_between` — **the findings of two entities are identified.**
-/

namespace SnapshotDiff

namespace Finding

/-- The member that the finding is about, with the collection that it belongs to. -/
def introduced? : Finding → Option (Site × Owner)
  | field .. => none
  | member site o _ _ | matched site o _ _ => some (site, o)

/-- The members that the findings are about, one by one. -/
def introduced (fs : List Finding) : List Owner := fs.filterMap fun f => f.introduced?.map Prod.snd

/-- The member whose own differences may follow. -/
def opened? : Finding → Option Owner
  | matched _ o _ _ => some o
  | _ => none

/-- Each finding is on a field or a collection of an object that is known: a given one, or a member
that was matched before. -/
def Grounded : (known : List Owner) → List Finding → Prop
  | _, [] => True
  | known, f :: fs => f.holder ∈ known ∧ Grounded (f.opened?.toList ++ known) fs

/-- The member is in a collection of the object. -/
def IsHeldBy (fs : List Finding) (o p : Owner) : Prop :=
  ∃ f ∈ fs, ∃ site, f.introduced? = some (site, o) ∧ site.owner = p

/-- The identities of members tell them apart, and lead to the root. -/
structure Identified (root : Owner) (fs : List Finding) : Prop where
  /-- No two findings introduce members of one identity. -/
  nodup : ((introduced fs).map Owner.identity).Nodup
  named : ∀ f ∈ fs, ∀ site o, f.introduced? = some (site, o) →
    ∃ typeName key, o = site.owner.member typeName site.collection key
  /-- The collection and the key can be told from the identity. -/
  inj : ∀ f ∈ fs, ∀ g ∈ fs, ∀ site site' typeName typeName' key key',
    f.introduced? = some (site, site.owner.member typeName site.collection key) →
    g.introduced? = some (site', site'.owner.member typeName' site'.collection key') →
    (site.owner.member typeName site.collection key).identity
      = (site'.owner.member typeName' site'.collection key').identity →
    site = site' ∧ key = key'
  /-- Fields and collections are those of the root or of a member that was matched before. -/
  matched_before : ∀ pre f post, fs = pre ++ f :: post → f.holder ≠ root →
    ∃ site old new, matched site f.holder old new ∈ pre
  not_isRoot : ∀ f ∈ fs, ∀ site o, f.introduced? = some (site, o) → o.isRoot = false
  /-- The way up from a member ends at the root. -/
  reaches_root : ∀ f ∈ fs, ∀ site o, f.introduced? = some (site, o) →
    Relation.TransGen (IsHeldBy fs) o root

variable {fs gs : List Finding} {f : Finding} {o top : Owner} {site : Site}
  {known known' : List Owner}

theorem introduced_append (fs gs : List Finding) :
    introduced (fs ++ gs) = introduced fs ++ introduced gs := List.filterMap_append

theorem holder_of_introduced? (h : f.introduced? = some (site, o)) : f.holder = site.owner := by
  cases f with
  | field => cases h
  | member | matched =>
    obtain ⟨rfl, rfl⟩ := Prod.mk.inj (Option.some.inj h)
    rfl

/-! ### The order of findings -/

theorem Grounded.mono (hsub : known ⊆ known') (h : Grounded known fs) : Grounded known' fs := by
  induction fs generalizing known known' with
  | nil => trivial
  | cons f fs ih =>
    obtain ⟨hholder, hrest⟩ := h
    refine ⟨hsub hholder, ih (List.append_subset.mpr ⟨List.subset_append_left _ _, ?_⟩) hrest⟩
    exact List.subset_append_of_subset_right _ hsub

theorem Grounded.append (hfs : Grounded known fs) (hgs : Grounded known gs) :
    Grounded known (fs ++ gs) := by
  induction fs generalizing known with
  | nil => exact hgs
  | cons f fs ih =>
    obtain ⟨hholder, hrest⟩ := hfs
    exact ⟨hholder, ih hrest (hgs.mono (List.subset_append_right _ _))⟩

/-- **What a finding is on was matched before**, unless it was known from the beginning. -/
theorem Grounded.exists_matched {pre post : List Finding} (h : Grounded known (pre ++ f :: post)) :
    f.holder ∈ known ∨ ∃ site old new, matched site f.holder old new ∈ pre := by
  induction pre generalizing known with
  | nil => exact Or.inl h.1
  | cons g pre ih =>
    rcases ih h.2 with hknown | ⟨site, old, new, hmem⟩
    · rcases List.mem_append.mp hknown with hopened | hknown
      · -- the member is known because the first finding matched it
        cases g with
        | field | member => exact absurd hopened List.not_mem_nil
        | matched site o old new =>
          obtain rfl := List.mem_singleton.mp hopened
          exact Or.inr ⟨site, old, new, List.mem_cons_self⟩
      · exact Or.inl hknown
    · exact Or.inr ⟨site, old, new, List.mem_cons_of_mem _ hmem⟩

/-! ### The way up -/

theorem Beneath.reaches (h : Beneath fs top o) : Relation.ReflTransGen (IsHeldBy fs) o top := by
  induction h with
  | top => exact .refl
  | member _ hmem ih => exact .head ⟨_, hmem, _, rfl, rfl⟩ ih

end Finding

namespace Difference

open Finding (introduced introduced? Grounded Identified)

variable {rootType : String} {root ds : List Difference}

/-! ### Trees of differences -/

mutual

theorem grounded_findings {o : Owner} {known : List Owner} (h : o ∈ known) :
    ∀ d : Difference, Grounded known (findings o d)
  | field _ | oneSided .. => ⟨h, trivial⟩
  | twoSided _ _ _ _ _ inner => ⟨h, grounded_allFindings List.mem_cons_self inner⟩

/-- The differences of a member come after its match. -/
theorem grounded_allFindings {o : Owner} {known : List Owner} (h : o ∈ known) :
    ∀ ds : List Difference, Grounded known (allFindings o ds)
  | [] => trivial
  | d :: ds => (grounded_findings h d).append (grounded_allFindings h ds)

end

mutual

/-- The identities that a difference introduces begin with its step. -/
theorem exists_identity_of_findings (o : Owner) : ∀ d : Difference,
    ∀ p ∈ introduced (findings o d), ∃ s rest, step? d = some s
      ∧ p.identity.toList = o.identity.toList ++ (stepText s ++ rest)
  | field _, _, hp => absurd hp List.not_mem_nil
  | oneSided typeName path key _ _, p, hp => by
    obtain rfl := List.mem_singleton.mp hp
    exact ⟨(path, key), [], rfl, by rw [List.append_nil, identity_member]⟩
  | twoSided typeName path key _ _ inner, p, hp => by
    rcases List.mem_cons.mp hp with rfl | hp
    · exact ⟨(path, key), [], rfl, by rw [List.append_nil, identity_member]⟩
    · obtain ⟨_, -, s, rest, -, hidentity⟩ := exists_identity_of_allFindings _ inner p hp
      refine ⟨(path, key), stepText s ++ rest, rfl, ?_⟩
      rw [hidentity, identity_member, List.append_assoc]

theorem exists_identity_of_allFindings (o : Owner) : ∀ ds : List Difference,
    ∀ p ∈ introduced (allFindings o ds), ∃ d ∈ ds, ∃ s rest, step? d = some s
      ∧ p.identity.toList = o.identity.toList ++ (stepText s ++ rest)
  | [], _, hp => absurd hp List.not_mem_nil
  | d :: ds, p, hp => by
    rw [allFindings, Finding.introduced_append] at hp
    rcases List.mem_append.mp hp with hp | hp
    · exact ⟨d, List.mem_cons_self, exists_identity_of_findings o d p hp⟩
    · obtain ⟨e, he, hidentity⟩ := exists_identity_of_allFindings o ds p hp
      exact ⟨e, List.mem_cons_of_mem d he, hidentity⟩

end

/-- **No identity is introduced twice.** -/
theorem nodup_identities (h : Sound ds) (o : Owner) :
    ((introduced (allFindings o ds)).map Owner.identity).Nodup := by
  -- soundness gives the induction: the tree below a member is sound as well
  induction h generalizing o with
  | @intro ds nodup readable isChange inner ih =>
    have hsteps : ds.Pairwise fun d e =>
        ∀ s, step? d = some s → ∀ t, step? e = some t → s ≠ t := by
      rwa [steps, List.nodup_iff_pairwise_ne, List.pairwise_filterMap] at nodup
    rw [allFindings_eq_flatMap, introduced, List.filterMap_flatMap, List.map_flatMap,
      List.nodup_flatMap]
    refine ⟨fun d hd => ?_, hsteps.imp_of_mem fun {d e} hd he hde => ?_⟩
    · cases d with
      | field => exact List.nodup_nil
      | oneSided => exact List.nodup_singleton _
      | twoSided typeName path key old new es =>
        refine List.nodup_cons.mpr ⟨fun hmem => ?_, ih hd _⟩
        -- an identity below the member is longer than that of the member
        obtain ⟨p, hp, hidentity⟩ := List.mem_map.mp hmem
        obtain ⟨_, -, s, rest, -, htext⟩ := exists_identity_of_allFindings _ es p hp
        rw [hidentity] at htext
        have hlength := congrArg List.length htext
        simp [stepText] at hlength
    · -- the identities that two differences introduce begin with different steps
      intro i hi hi'
      obtain ⟨p, hp, rfl⟩ := List.mem_map.mp hi
      obtain ⟨q, hq, hqp⟩ := List.mem_map.mp hi'
      obtain ⟨s, rest, hs, hptext⟩ := exists_identity_of_findings o d p hp
      obtain ⟨t, rest', ht, hqtext⟩ := exists_identity_of_findings o e q hq
      rw [hqp, hptext, List.append_cancel_left_eq] at hqtext
      exact hde s hs t ht (stepText_append_inj (readable s (step_mem_steps hd hs))
        (readable t (step_mem_steps he ht)) hqtext).1

theorem named_of_mem_allFindings (hroot : Sound root) {f : Finding}
    (hf : f ∈ allFindings (.root rootType) root) {site : Site} {o : Owner}
    (hintro : f.introduced? = some (site, o)) :
    ∃ typeName key, o = site.owner.member typeName site.collection key := by
  obtain ⟨_, _, _, _, d, _, rfl⟩ := (mem_allFindings_iff hroot).mp hf
  cases d with
  | field => cases hintro
  | oneSided | twoSided =>
    obtain ⟨rfl, rfl⟩ := Prod.mk.inj (Option.some.inj hintro)
    exact ⟨_, _, rfl⟩

/-- **The findings that a sound tree stands for are identified.** -/
theorem identified_allFindings (hroot : Sound root) (rootType : String) :
    Identified (.root rootType) (allFindings (.root rootType) root) where
  nodup := nodup_identities hroot _
  named f hf site o := named_of_mem_allFindings hroot hf
  inj f hf g hg site site' typeName typeName' key key' hintro hintro' hidentity := by
    have hnodup := nodup_identities hroot (.root rootType)
    rw [introduced, List.map_filterMap] at hnodup
    obtain rfl : f = g :=
      List.eq_of_nodup_filterMap hnodup hf hg (by rw [hintro]; rfl) (by rw [hintro', hidentity]; rfl)
    -- one finding is about one member, and what comes before the key and after it is given
    obtain ⟨rfl, -⟩ := Prod.mk.inj (Option.some.inj (hintro.symm.trans hintro'))
    refine ⟨rfl, ?_⟩
    simpa [Owner.member, String.append_left_inj, String.append_right_inj] using hidentity
  matched_before pre f post heq hne := by
    have hgrounded : Grounded [.root rootType] (allFindings (.root rootType) root) :=
      grounded_allFindings (List.mem_singleton_self _) root
    rw [heq] at hgrounded
    exact hgrounded.exists_matched.resolve_left fun hmem => hne (List.mem_singleton.mp hmem)
  not_isRoot f hf site o hintro := by
    obtain ⟨typeName, key, rfl⟩ := named_of_mem_allFindings hroot hf hintro
    exact Owner.isRoot_member ..
  reaches_root f hf site o hintro := by
    have hbeneath := (beneath_holder hroot .root .top hf).reaches
    rw [Finding.holder_of_introduced? hintro] at hbeneath
    exact .head' ⟨f, hf, site, hintro, rfl⟩ hbeneath

end Difference

namespace Entity

/-- An entity that was read by rules of alphanumeric names is legible. -/
theorem legible_ofSnapshot {rules : Rules} {s : Option Json} {e : Entity}
    (hs : rules.shape.isAlphanumeric) (h : ofSnapshot rules s = .ok e) :
    (Node.object e.root).Legible :=
  (fits_ofSnapshot Json.hereditary_true hs (fun _ _ _ _ => trivial) (fun _ _ => trivial) h).legible
    hs

end Entity

namespace Rules

variable {rules rulesOld rulesNew : Rules} {old new : Entity} {s t : Option Json}

/-- What is found between two entities, if they are of the rules' family. -/
theorem eq_findings_of_between {fs : List Finding} (h : Finding.between rules old new = .ok fs) :
    fs = rules.findings old new := by
  rw [Finding.between] at h
  split at h
  · cases h
  · exact (Except.ok.inj h).symm

/-- **The findings of two entities are identified.**  Rules of alphanumeric names, none of the root's
empty, compare two entities that such rules or others of alphanumeric names have read.  Then each
member is introduced once, its identity tells in which collection and under which key, what is found
on an object comes after its match, and the way up from every member ends at the root. -/
theorem identified_of_between {fs : List Finding} (hs : rules.shape.isAddressable)
    (hsOld : rulesOld.shape.isAlphanumeric) (hsNew : rulesNew.shape.isAlphanumeric)
    (hold : Entity.ofSnapshot rulesOld s = .ok old) (hnew : Entity.ofSnapshot rulesNew t = .ok new)
    (h : Finding.between rules old new = .ok fs) :
    Finding.Identified (.root rules.shape.typeName) fs := by
  rw [eq_findings_of_between h, findings, Finding.ofFields_eq_findings]
  exact Difference.identified_allFindings (Difference.sound_ofFields_of_legible hs
    (Entity.legible_ofSnapshot hsOld hold) (Entity.legible_ofSnapshot hsNew hnew)) _

end Rules

namespace Quoted

/-- A store of shelves with boxes, which are told apart by their labels. -/
def rules : Rules where
  family := .item
  shape := ⟨"Store", [("shelves", .objects "Shelf" [("label", .leaf .string),
    ("boxes", .objects "Box" [("label", .leaf .string), ("x", .leaf .string)] (some "label"))]
    (some "label"))]⟩

/-- The label of the second shelf tries to pass for that of a box on the first one. -/
def store (x : String) : Json :=
  .obj [("shelves", .arr
    [.obj [("label", .str "a"), ("boxes", .arr [.obj [("label", .str "b"), ("x", .str x)]])],
      .obj [("label", .str "a\"]/shelves.boxes[#\"b")]])]

/-- The label is quoted in the identity, so it does not pass for the other. -/
theorem identified_of_between_store : rules.shape.isAddressable ∧ rules.shape.isAlphanumeric
    ∧ ∃ old new fs, Entity.ofSnapshot rules (some (store "1")) = .ok old
      ∧ Entity.ofSnapshot rules (some (store "2")) = .ok new
      ∧ Finding.between rules old new = .ok fs ∧ Finding.Identified (.root "Store") fs
      ∧ (Finding.introduced fs).map Owner.identity = ["/shelves[#\"a\"]",
        "/shelves[#\"a\"]/shelves.boxes[#\"b\"]", "/shelves[#\"a\\\"]/shelves.boxes[#\\\"b\"]"] := by
  have haddressable : rules.shape.isAddressable := by decide
  have halpha : rules.shape.isAlphanumeric := by decide
  have hold : Entity.ofSnapshot rules (some (store "1")) = .ok _ := rfl
  have hnew : Entity.ofSnapshot rules (some (store "2")) = .ok _ := rfl
  refine ⟨haddressable, halpha, _, _, _, hold, hnew, rfl, ?_, rfl⟩
  exact Rules.identified_of_between haddressable halpha halpha hold hnew rfl

end Quoted

namespace Nameless

/-- The root has a collection `c`, and a part without a name that has one as well.  Both have the
same path. -/
def rules : Rules where
  family := .item
  shape := ⟨"Whole", [("", .object "Part" [copies]), copies]⟩
where
  copies : String × FieldShape :=
    ("c", .objects "Copy" [("id", .leaf .string), ("x", .leaf .string)] (some "id"))

/-- A copy of the part, and one of the whole. -/
def whole (x : String) : Json :=
  .obj [("", .obj [("c", copies x)]), ("c", copies "1")]
where
  copies (x : String) : Json := .arr [.obj [("id", .str "1"), ("x", .str x)]]

end Nameless

namespace Misread

/-- Copies are told apart by objects, and have copies themselves. -/
def rules : Rules where
  family := .item
  shape := ⟨"Shelf", [("c", .objects "Copy"
    [("id", .object "Id" [("a", .leaf .string)]), ("d", .objects "Copy"
      [("id", .object "Id" [("a", .leaf .string)]), ("x", .leaf .string)] (some "id"))]
    (some "id"))]⟩

/-- A name that passes for the end of one identity and the beginning of another. -/
def name : String := "a:\"1\"\x7d]/c.d[#\x7ba"

/-- The same, with that name among those of the objects that tell copies apart. -/
def others : Rules where
  family := .item
  shape := ⟨"Shelf", [("c", .objects "Copy"
    [("id", .object "Id" [("a", .leaf .string), (name, .leaf .string)]), ("d", .objects "Copy"
      [("id", .object "Id" [("a", .leaf .string)]), ("x", .leaf .string)] (some "id"))]
    (some "id"))]⟩

/-- A copy with a copy of its own, and a second one. -/
def shelf (x : String) : Json :=
  .obj [("c", .arr
    [.obj [("id", .obj [("a", .str "1")]), ("d", .arr
      [.obj [("id", .obj [("a", .str "2")]), ("x", .str x)]])],
      .obj [("id", .obj [(name, .str "2")])]])]

end Misread

/-- Both premises on names are needed.  A field of the root without a name gives two collections one
path, and a name of any characters lets one identity end inside another; either way two members are
introduced as one. -/
theorem not_nodup_introduced :
    (Nameless.rules.shape.isAlphanumeric
      ∧ ∃ old new fs, Entity.ofSnapshot Nameless.rules (some (Nameless.whole "1")) = .ok old
        ∧ Entity.ofSnapshot Nameless.rules (some (Nameless.whole "2")) = .ok new
        ∧ Finding.between Nameless.rules old new = .ok fs ∧ ¬(Finding.introduced fs).Nodup)
    ∧ Misread.rules.shape.isAddressable
      ∧ ∃ old new fs, Entity.ofSnapshot Misread.others (some (Misread.shelf "1")) = .ok old
        ∧ Entity.ofSnapshot Misread.others (some (Misread.shelf "2")) = .ok new
        ∧ Finding.between Misread.rules old new = .ok fs ∧ ¬(Finding.introduced fs).Nodup := by
  refine ⟨⟨by decide, _, _, _, rfl, rfl, rfl, ?_⟩, by decide, _, _, _, rfl, rfl, rfl, ?_⟩
  · decide
  · decide

end SnapshotDiff
