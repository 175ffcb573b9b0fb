import SnapshotDiff.CommandLine.Report
import SnapshotDiff.Proofs.Json.Printable
import SnapshotDiff.Proofs.Lookup

/-!
# The lines of a report

A report has a line for every change, with the path and the values of the change.  Values are
written without control characters, whatever they hold, and the names of declared fields have none.
The keys of custom fields stand in paths as they are, and there a line feed breaks the line.

## Main definitions

* `CommandLine.reportLines` — the lines that a report is made of.

## Main results

* `CommandLine.count_report` — the line feeds of a report end its lines, or are in paths.
* `CommandLine.pieces_report_iff` — a report is cut into its lines if no path has a line feed.
* `Rules.report_lines` — **the report of two snapshots of a family consists of its lines if and only
  if no line feed is in a key on a route at which the custom fields of two users differ.**
-/

namespace SnapshotDiff

/-! ### Cutting a text -/

namespace Text

variable {mark : Char}

/-- There is one piece more than there are marks. -/
theorem length_cut (cs : List Char) : (cut mark cs).length = cs.count mark + 1 := by
  induction cs with
  | nil => rfl
  | cons c cs ih =>
    obtain ⟨p, ps, hcut⟩ := List.exists_cons_of_ne_nil (cut_ne_nil mark cs)
    rw [hcut, List.length_cons] at ih
    rw [cut, hcut, List.count_cons]
    split
    · next heq => simp [heq, ih]
    · next hne => simp [hne, ih]

/-- Pieces that end with a mark each are cut apart again. -/
theorem cut_flatMap {ps : List (List Char)} (h : ∀ p ∈ ps, mark ∉ p) :
    cut mark (ps.flatMap (· ++ [mark])) = ps ++ [[]] := by
  induction ps with
  | nil => rfl
  | cons p ps ih =>
    obtain ⟨hp, hps⟩ := List.forall_mem_cons.mp h
    rw [List.flatMap_cons, List.append_assoc, List.singleton_append, cut_append hp, ih hps]
    rfl

end Text

/-! ### Lines -/

namespace CommandLine

open Text

/-- The line of a field change, without its end. -/
def fieldText (c : FieldChange) : String :=
  "  " ++ marker c.kind ++ " " ++ c.path ++ ": " ++ shownValues c.kind c.old c.new

/-- The line of an item change, without its end. -/
def itemText (c : ItemChange) : String :=
  "    " ++ marker c.kind ++ " " ++ shownValues c.kind c.old c.new

/-- The lines of a collection, without their ends. -/
def collectionTexts (c : CollectionChange) : List String := ("  " ++ c.name) :: c.items.map itemText

/-- The last line, without its end. -/
def summaryText (r : ChangeRecord) : String :=
  toString (r.count .added) ++ " added, " ++ toString (r.count .removed) ++ " removed, "
    ++ toString (r.count .modified) ++ " modified"

/-- The lines of a report, without their ends. -/
def reportLines (r : ChangeRecord) : List String :=
  (if r.fields.isEmpty then [] else "Field changes:" :: r.fields.map fieldText)
    ++ (if r.collections.isEmpty then []
      else "Collection changes:" :: r.collections.flatMap collectionTexts)
    ++ [summaryText r]

/-- One line for each field change and one above them, one for each collection and each of its item
changes and one above them, and one at the end. -/
theorem length_reportLines (r : ChangeRecord) : (reportLines r).length
    = (if r.fields.isEmpty then 0 else 1 + r.fields.length)
      + (if r.collections.isEmpty then 0
        else 1 + (r.collections.map fun c => 1 + c.items.length).sum) + 1 := by
  have hcollections : (r.collections.flatMap collectionTexts).length
      = (r.collections.map fun c => 1 + c.items.length).sum := by
    rw [List.length_flatMap]
    congr 1
    refine List.map_congr_left fun c _ => ?_
    rw [collectionTexts, List.length_cons, List.length_map, Nat.add_comm]
  unfold reportLines
  rw [List.length_append, List.length_append, List.length_singleton]
  split <;> split <;> simp [hcollections, Nat.add_comm]

/-- A text with a line feed at the end of each line. -/
def ended (ls : List String) : String := String.join (ls.map (· ++ "\n"))

theorem ended_cons (l : String) (ls : List String) : ended (l :: ls) = l ++ "\n" ++ ended ls := by
  rw [ended, List.map_cons, String.join_cons, ended]

theorem ended_append (ls ms : List String) : ended (ls ++ ms) = ended ls ++ ended ms := by
  rw [ended, List.map_append, String.join_append, ended, ended]

theorem toList_ended (ls : List String) :
    (ended ls).toList = (ls.map String.toList).flatMap (· ++ ['\n']) := by
  rw [ended, String.toList_join, List.flatMap_map, List.flatMap_map]
  exact List.flatMap_congr fun l _ => String.toList_append

/-- A report is its lines, with their ends. -/
theorem report_eq_ended (r : ChangeRecord) : report r = ended (reportLines r) := by
  have hcollection : ∀ c : CollectionChange, collectionLines c = ended (collectionTexts c) := by
    intro c
    rw [collectionLines, collectionTexts, ended_cons, ended, List.map_map]
    rfl
  have hcollections : ∀ cs : List CollectionChange,
      String.join (cs.map collectionLines) = ended (cs.flatMap collectionTexts) := by
    intro cs
    induction cs with
    | nil => rfl
    | cons c cs ih =>
      rw [List.map_cons, String.join_cons, ih, hcollection, List.flatMap_cons, ended_append]
  have hfields : String.join (r.fields.map fieldLine) = ended (r.fields.map fieldText) := by
    rw [ended, List.map_map]
    rfl
  have hsummary : ended [summaryText r] = summaryLine r := by
    have hend : " modified" ++ "\n" = " modified\n" := by decide
    rw [ended_cons, show ended [] = "" from rfl, String.append_empty, summaryText,
      String.append_assoc, hend, summaryLine]
  rw [report, reportLines, ended_append, ended_append, hsummary, hcollections, hfields]
  congr 2
  · split
    · rfl
    · rw [ended_cons]; rfl
  · split
    · rfl
    · rw [ended_cons]; rfl

/-! ### Control characters in lines -/

variable {c : Char}

theorem isPrintable_marker (kind : ChangeKind) : IsPrintable (marker kind).toList := by
  cases kind <;> decide

theorem isPrintable_shown (v : Option Json) : IsPrintable (shown v).toList := by
  cases v with
  | none => exact by decide
  | some v => exact v.isPrintable_text

theorem isPrintable_shownValues (kind : ChangeKind) (old new : Option Json) :
    IsPrintable (shownValues kind old new).toList := by
  unfold shownValues
  split
  · simp only [String.toList_append, isPrintable_append]
    exact ⟨⟨isPrintable_shown old, by decide⟩, isPrintable_shown new⟩
  · exact isPrintable_shown old
  · exact isPrintable_shown new

/-- A control character in the line of a field change is one of the path. -/
theorem count_fieldText (hc : isControl c) (change : FieldChange) :
    (fieldText change).toList.count c = change.path.toList.count c := by
  have hblank : ∀ {s : String}, IsPrintable s.toList → s.toList.count c = 0 :=
    fun h => count_of_isPrintable hc h
  simp only [fieldText, String.toList_append, List.count_append,
    hblank (isPrintable_marker change.kind), hblank (isPrintable_shownValues change.kind _ _),
    hblank (show IsPrintable "  ".toList by decide), hblank (show IsPrintable " ".toList by decide),
    hblank (show IsPrintable ": ".toList by decide), Nat.zero_add, Nat.add_zero]

theorem isPrintable_itemText (change : ItemChange) : IsPrintable (itemText change).toList := by
  simp only [itemText, String.toList_append, isPrintable_append]
  exact ⟨⟨⟨by decide, isPrintable_marker _⟩, by decide⟩, isPrintable_shownValues _ _ _⟩

theorem isPrintable_summaryText (r : ChangeRecord) : IsPrintable (summaryText r).toList := by
  simp only [summaryText, String.toList_append, isPrintable_append]
  exact ⟨⟨⟨⟨⟨isPrintable_toString _, by decide⟩, isPrintable_toString _⟩, by decide⟩,
    isPrintable_toString _⟩, by decide⟩

theorem isPrintable_collectionTexts {change : CollectionChange}
    (h : IsPrintable change.name.toList) :
    ∀ l ∈ collectionTexts change, IsPrintable l.toList := by
  refine List.forall_mem_cons.mpr ⟨?_, fun l hl => ?_⟩
  · rw [String.toList_append, isPrintable_append]
    exact ⟨by decide, h⟩
  · obtain ⟨i, -, rfl⟩ := List.mem_map.mp hl
    exact isPrintable_itemText i

/-- The control characters in the lines of a report are those of the paths of field changes, if the
names of collections have none. -/
theorem sum_count_reportLines (hc : isControl c) {r : ChangeRecord}
    (h : ∀ d ∈ r.collections, IsPrintable d.name.toList) :
    ((reportLines r).map fun l => l.toList.count c).sum
      = (r.fields.map fun d => d.path.toList.count c).sum := by
  have hnone : ∀ ls : List String, (∀ l ∈ ls, IsPrintable l.toList) →
      (ls.map fun l => l.toList.count c).sum = 0 := by
    intro ls hls
    refine List.sum_eq_zero fun n hn => ?_
    obtain ⟨l, hl, rfl⟩ := List.mem_map.mp hn
    exact count_of_isPrintable hc (hls l hl)
  have hfields : ((if r.fields.isEmpty then [] else "Field changes:" :: r.fields.map fieldText).map
      fun l => l.toList.count c).sum = (r.fields.map fun d => d.path.toList.count c).sum := by
    have hheader : "Field changes:".toList.count c = 0 := count_of_isPrintable hc (by decide)
    split
    · next hempty => rw [List.isEmpty_iff.mp hempty]; rfl
    · rw [List.map_cons, List.sum_cons, hheader, Nat.zero_add, List.map_map]
      exact congrArg List.sum (List.map_congr_left fun d _ => count_fieldText hc d)
  have hcollections : ∀ l ∈ (if r.collections.isEmpty then []
      else "Collection changes:" :: r.collections.flatMap collectionTexts),
      IsPrintable l.toList := by
    split
    · exact fun l hl => absurd hl List.not_mem_nil
    · refine List.forall_mem_cons.mpr ⟨by decide, fun l hl => ?_⟩
      obtain ⟨d, hd, hl⟩ := List.mem_flatMap.mp hl
      exact isPrintable_collectionTexts (h d hd) l hl
  rw [reportLines, List.map_append, List.map_append, List.sum_append, List.sum_append, hfields,
    hnone _ hcollections, hnone _ (List.forall_mem_singleton.mpr (isPrintable_summaryText r))]
  rfl

/-- **The line feeds of a report** end its lines, or are in the paths of field changes. -/
theorem count_report {r : ChangeRecord} (h : ∀ d ∈ r.collections, IsPrintable d.name.toList) :
    (report r).toList.count '\n'
      = (reportLines r).length + (r.fields.map fun d => d.path.toList.count '\n').sum := by
  rw [← sum_count_reportLines (by decide) h, report_eq_ended, toList_ended]
  induction reportLines r with
  | nil => rfl
  | cons l ls ih =>
    rw [List.map_cons, List.flatMap_cons, List.count_append, ih, List.count_append,
      List.map_cons, List.sum_cons, List.length_cons]
    simp
    omega

/-- **The lines of a report** are cut apart again at its line feeds if no path has one. -/
theorem pieces_report_iff {r : ChangeRecord}
    (h : ∀ d ∈ r.collections, IsPrintable d.name.toList) :
    Text.pieces '\n' (report r) = reportLines r ++ [""] ↔ ∀ d ∈ r.fields, '\n' ∉ d.path.toList := by
  constructor
  · intro hpieces d hd
    -- there are no more line feeds than there are lines
    have hlength := congrArg List.length hpieces
    rw [Text.pieces, List.length_map, length_cut, count_report h, List.length_append,
      List.length_singleton] at hlength
    have hsum : (r.fields.map fun d => d.path.toList.count '\n').sum = 0 := by omega
    have hzero := List.sum_eq_zero_iff.mp hsum
    exact List.count_eq_zero.mp (hzero _ (List.mem_map_of_mem hd))
  · intro hpaths
    have hsum : (r.fields.map fun d => d.path.toList.count '\n').sum = 0 := by
      refine List.sum_eq_zero fun n hn => ?_
      obtain ⟨d, hd, rfl⟩ := List.mem_map.mp hn
      exact List.count_eq_zero.mpr (hpaths d hd)
    rw [← sum_count_reportLines (by decide) h] at hsum
    have hlines : ∀ l ∈ (reportLines r).map String.toList, '\n' ∉ l := by
      intro l hl
      obtain ⟨t, ht, rfl⟩ := List.mem_map.mp hl
      exact List.count_eq_zero.mp (List.sum_eq_zero_iff.mp hsum _ (List.mem_map_of_mem ht))
    rw [Text.pieces, report_eq_ended, toList_ended, cut_flatMap hlines, List.map_append,
      List.map_map]
    congr 1
    exact (List.map_congr_left fun l _ => String.ofList_toList).trans (List.map_id _)

end CommandLine

/-! ### Control characters in paths -/

namespace Change

variable {rules : Rules} {c : Char}

/-- Outside of free objects a path has the characters of declared names only, and dots. -/
theorem notMem_path_of_mem_ofField (hc : c.isAlphanum = false) (hdot : c ≠ '.') {s : FieldShape}
    (hs : s.everyObject alphanumeric) : ∀ {name path : String} {old new : Option Node},
      c ∉ path.toList → ∀ d ∈ ofField rules name path old new s,
        c ∉ d.path.toList ∨ s.hasFree ∧ ∃ change, d = .field change := by
  have hitems : ∀ {path : String} {items : List ItemChange}, c ∉ path.toList →
      ∀ d ∈ ofItems path items, c ∉ d.path.toList := by
    intro path items hpath d hd
    unfold ofItems at hd
    split at hd
    · exact absurd hd List.not_mem_nil
    · rw [List.mem_singleton.mp hd, Change.path, CollectionChange.name_foldl_push]
      exact hpath
  have hfield : ∀ {path : String} {cs : List FieldChange}, c ∉ path.toList →
      (∀ change ∈ cs, change.path = path) → ∀ d ∈ cs.map field, c ∉ d.path.toList := by
    intro path cs hpath hcs d hd
    obtain ⟨change, hchange, rfl⟩ := List.mem_map.mp hd
    rwa [Change.path, hcs change hchange]
  induction s using FieldShape.fieldInduction with
  | leaf kind =>
    intro name path old new hpath d hd
    rw [ofField] at hd
    exact Or.inl (hfield hpath (fun _ => FieldChange.path_of_mem_ofLeaves) d hd)
  | object typeName fields ih =>
    intro name path old new hpath d hd
    obtain ⟨halpha, hfields⟩ := FieldShape.everyObject_object.mp hs
    rw [ofField.eq_def] at hd
    dsimp only at hd
    split at hd
    · rw [ofFields_eq_flatMap] at hd
      obtain ⟨f, hf, hd⟩ := List.mem_flatMap.mp hd
      split at hd
      · have hname := notMem_of_alphanumeric halpha (List.mem_map_of_mem hf) hc
        refine (ih f hf (hfields f hf) (Path.notMem_child hpath hname hdot) d hd).imp_right ?_
        refine And.imp_left fun hfree => ?_
        by_contra hnone
        rw [Bool.not_eq_true, FieldShape.hasFree, FieldShape.anyFree_eq_false_iff] at hnone
        rw [hnone f hf] at hfree
        cases hfree
      · exact absurd hd List.not_mem_nil
    · exact Or.inl (hfield hpath (fun _ => FieldChange.path_of_mem_ofValues) d hd)
  | leaves kind =>
    intro name path old new hpath d hd
    rw [ofField] at hd
    exact Or.inl (hitems hpath d hd)
  | objects typeName fields identity ih =>
    intro name path old new hpath d hd
    cases identity with
    | none | some identity =>
      rw [ofField] at hd
      exact Or.inl (hitems hpath d hd)
  | free =>
    intro name path old new _ d hd
    rw [ofField] at hd
    obtain ⟨change, -, rfl⟩ := List.mem_map.mp hd
    exact Or.inr ⟨rfl, change, rfl⟩

end Change

namespace Rules

variable {f : Family} {s t : Option Json} {r : ChangeRecord} {c : Char}

/-- No other path of a family has a control character than those in custom fields. -/
theorem notMem_path_of_mem_onePass {old new : Entity} (hc : Text.isControl c) {d : Change}
    (hd : d ∈ Change.ofFields (builtIn f) "" old.root new.root (builtIn f).shape.fields) :
    c ∉ d.path.toList ∨ f = .user ∧ ∃ change, d = .field change
      ∧ Path.within change.path "customFields" := by
  have hnot : ∀ d : Char, Token.isBare d → d ≠ c := by
    rintro d hd rfl
    rw [Text.isControl_of_isBare hd] at hc
    cases hc
  have halphanum : c.isAlphanum = false := by
    rw [← Bool.not_eq_true]
    exact fun h => hnot c (by simp [Token.isBare, h]) rfl
  have haddressable := isAddressable_builtIn f
  obtain ⟨halpha, hfields⟩ :=
    FieldShape.everyObject_object.mp (Shape.isAlphanumeric_of_isAddressable haddressable)
  rw [Change.ofFields_eq_flatMap] at hd
  obtain ⟨g, hg, hd⟩ := List.mem_flatMap.mp hd
  split at hd
  · have hname := notMem_of_alphanumeric halpha (List.mem_map_of_mem hg) halphanum
    have hwithin := Change.within_of_mem_ofField (hfields g hg)
      (Shape.child_ne_empty_of_isAddressable haddressable g hg) hd
    rw [Path.child_root] at hd hwithin
    rcases Change.notMem_path_of_mem_ofField halphanum (hnot '.' (by decide)).symm (hfields g hg)
      hname d hd with hpath | ⟨hfree, change, rfl⟩
    · exact Or.inl hpath
    · obtain ⟨rfl, rfl⟩ := eq_customFields_of_hasFree hg hfree
      exact Or.inr ⟨rfl, change, rfl, hwithin⟩
  · exact absurd hd List.not_mem_nil

/-- The names of collections have no control characters, and the paths of field changes have none
but in custom fields. -/
theorem isControl_of_record (h : (builtIn f).diff s t = .ok (some r)) :
    (∀ d ∈ r.collections, Text.IsPrintable d.name.toList)
      ∧ ∀ d ∈ r.fields, ∀ c ∈ d.path.toList, Text.isControl c →
        f = .user ∧ Path.within d.path "customFields" := by
  obtain ⟨old, new, -, -, hrecord⟩ := (diff_eq_ok_iff (isAddressable_builtIn f)).mp h
  have hr := Change.getD_record?
    (Change.ofFields (builtIn f) "" old.root new.root (builtIn f).shape.fields)
  rw [show Change.record? _ = some r from hrecord.symm, Option.getD_some] at hr
  subst hr
  constructor
  · intro d hd c hc
    rw [← Bool.not_eq_true]
    intro hcontrol
    rcases notMem_path_of_mem_onePass hcontrol (Change.mem_filterMap_collection?.mp hd) with
      hnot | ⟨-, change, heq, -⟩
    · exact hnot hc
    · cases heq
  · intro d hd c hc hcontrol
    rcases notMem_path_of_mem_onePass hcontrol (Change.mem_filterMap_field?.mp hd) with
      hnot | ⟨hf, change, heq, hwithin⟩
    · exact absurd hc hnot
    · cases heq
      exact ⟨hf, hwithin⟩

/-- The paths in custom fields that a record tells of are those along the routes at which the custom
fields differ. -/
theorem exists_path_iff_differAt {p : String} (hs : ∀ v ∈ s, v.Canonical)
    (ht : ∀ v ∈ t, v.Canonical) (h : (builtIn .user).diff s t = .ok (some r)) :
    (∃ d ∈ r.fields, Path.within d.path "customFields" ∧ d.path = p)
      ↔ ∃ route, FieldChange.DifferAt route (some (.obj (Snapshot.customFields s)))
          (some (.obj (Snapshot.customFields t))) ∧ Path.along "customFields" route = p := by
  obtain ⟨old, new, hold, hnew, -⟩ := (diff_eq_ok_iff (isAddressable_builtIn .user)).mp h
  have hmem : ∀ d, d ∈ r.fields ∧ Path.within d.path "customFields"
      ↔ d ∈ FieldChange.ofFree (builtIn .user) "customFields" (Snapshot.customFields s)
        (Snapshot.customFields t) := by
    intro d
    have hiff := mem_fields_within_iff (c := d) (isAddressable_builtIn .user) mem_customFields
      (reportable_customFields (Path.within_self _)) hold hnew h
    rw [Change.ofField, free?_customFields hold, free?_customFields hnew] at hiff
    simpa using hiff
  obtain ⟨routes, htold⟩ : ∃ routes, FieldChange.ToldAt (builtIn .user)
      (some (.obj (Snapshot.customFields s))) (some (.obj (Snapshot.customFields t))) routes :=
    FieldChange.exists_toldAt _ _ (canonical_customFields hs hold)
      fun _ hx => Option.some.inj hx ▸ canonical_customFields ht hnew
  have hpaths : (FieldChange.ofFree (builtIn .user) "customFields" (Snapshot.customFields s)
      (Snapshot.customFields t)).map FieldChange.path
        = routes.map (Path.along "customFields") :=
    @htold.paths "" "customFields" (by decide) fun p => reportable_customFields
  have hexists : (∃ d ∈ r.fields, Path.within d.path "customFields" ∧ d.path = p)
      ↔ p ∈ routes.map (Path.along "customFields") := by
    rw [← hpaths, List.mem_map]
    exact exists_congr fun d => by rw [← hmem d, and_assoc]
  rw [hexists, List.mem_map]
  exact exists_congr fun route => and_congr_left fun _ => htold.mem_iff

/-- The control characters of a path in custom fields are those of the keys on the route. -/
theorem mem_along_customFields_iff (hc : Text.isControl c) {route : List String} :
    c ∈ (Path.along "customFields" route).toList ↔ ∃ key ∈ route, c ∈ key.toList := by
  have hnot : ∀ cs, Text.IsPrintable cs → c ∉ cs := by
    intro cs hcs hmem
    rw [hcs c hmem] at hc
    cases hc
  rw [Path.toList_along (by decide), List.mem_append,
    or_iff_right (hnot "customFields".toList (by decide)), List.mem_flatMap]
  refine exists_congr fun key => and_congr_right fun _ => ?_
  rw [List.mem_cons, or_iff_right fun h => hnot ['.'] (by decide) (by simp [h])]

/-- **The lines of a report.**  The report of two snapshots of a family has a line for each field
change and a line above them, a line for each collection and each of its item changes and a line
above them, and a line at the end.  The only other line feeds are those in the paths of field
changes.  There are some if and only if the family is that of users and a key with a line feed is on
a route at which the custom fields of the snapshots differ; if there are none, the report is cut at
its line feeds into these lines. -/
theorem report_lines (hs : ∀ v ∈ s, v.Canonical) (ht : ∀ v ∈ t, v.Canonical)
    (h : (builtIn f).diff s t = .ok (some r)) :
    (CommandLine.reportLines r).length
        = (if r.fields.isEmpty then 0 else 1 + r.fields.length)
          + (if r.collections.isEmpty then 0
            else 1 + (r.collections.map fun c => 1 + c.items.length).sum) + 1
      ∧ (CommandLine.report r).toList.count '\n' = (CommandLine.reportLines r).length
        + (r.fields.map fun c => c.path.toList.count '\n').sum
      ∧ (Text.pieces '\n' (CommandLine.report r) = CommandLine.reportLines r ++ [""]
        ↔ ¬(f = .user ∧ ∃ route, FieldChange.DifferAt route
            (some (.obj (Snapshot.customFields s))) (some (.obj (Snapshot.customFields t)))
          ∧ ∃ key ∈ route, '\n' ∈ key.toList)) := by
  obtain ⟨hnames, hpaths⟩ := isControl_of_record h
  refine ⟨CommandLine.length_reportLines r, CommandLine.count_report hnames, ?_⟩
  rw [CommandLine.pieces_report_iff hnames]
  constructor
  · rintro hnone ⟨rfl, route, hroute, hkey⟩
    obtain ⟨d, hd, -, hpath⟩ := (exists_path_iff_differAt hs ht h).mpr ⟨route, hroute, rfl⟩
    exact hnone d hd (hpath ▸ (mem_along_customFields_iff (by decide)).mpr hkey)
  · intro hnone d hd hbreak
    obtain ⟨rfl, hwithin⟩ := hpaths d hd _ hbreak (by decide)
    obtain ⟨route, hroute, hpath⟩ :=
      (exists_path_iff_differAt hs ht h).mp ⟨d, hd, hwithin, rfl⟩
    refine hnone ⟨rfl, route, hroute, ?_⟩
    exact (mem_along_customFields_iff (by decide)).mp (hpath ▸ hbreak)

/-- The record of a user that is new and has a custom field with a line feed in its key. -/
def lineFed : ChangeRecord where
  fields := [⟨.added, "a\nb", "customFields.a\nb", none, some (.int 1)⟩]
  collections := []

/-- The line of that field is broken in two. -/
theorem report_lines_lineFed :
    (builtIn .user).diff none (some (userWith [("a\nb", .int 1)])) = .ok (some lineFed)
      ∧ CommandLine.reportLines lineFed
        = ["Field changes:", "  + customFields.a\nb: 1", "1 added, 0 removed, 0 modified"]
      ∧ (CommandLine.report lineFed).toList.count '\n' = 4
      ∧ Text.pieces '\n' (CommandLine.report lineFed)
        ≠ CommandLine.reportLines lineFed ++ [""] := by
  have hcanonical : (userWith [("a\nb", .int 1)]).Canonical := by
    simp only [userWith, Json.Canonical, Json.CanonicalMembers, Table.ascending_iff,
      List.map_cons, List.map_nil]
    decide
  have hdiff : (builtIn .user).diff none (some (userWith [("a\nb", .int 1)]))
      = .ok (some lineFed) := rfl
  obtain ⟨-, hcount, hpieces⟩ := report_lines (by simp)
    (fun v hv => Option.some.inj hv ▸ hcanonical) hdiff
  refine ⟨hdiff, by decide +kernel, by rw [hcount]; decide +kernel, fun h => ?_⟩
  refine hpieces.mp h ⟨rfl, ["a\nb"], ?_, "a\nb", List.mem_singleton_self _, by decide⟩
  rfl

end Rules

end SnapshotDiff
