import SnapshotDiff.Document.Members
import SnapshotDiff.Proofs.Json.ReadBack

/-!
# Known members are read back

An object that was written with known members in their order has each of them in its place.

## Main results

* `Document.members?_ofMembers` — **the members of an object are found under their names.**
* `Document.optional_ofOptional`, `Document.list?_map` — members that may be absent, and lists.
-/

namespace SnapshotDiff

namespace Document

variable {room : Nat} {ms : List (String × Document)}

/-! ### Members -/

/-- A member goes to the place of its name. -/
theorem place?_append_cons {name : String} {done rest : List (String × Option Document)}
    (h : name ∉ done.map Prod.fst) (d : Document) :
    place? name d (done ++ (name, none) :: rest) = some (done ++ (name, some d) :: rest) := by
  induction done with
  | nil => simp [place?]
  | cons e done ih =>
    obtain ⟨n, found⟩ := e
    rw [List.map_cons, List.mem_cons, not_or] at h
    rw [List.cons_append, place?, if_neg (Ne.symm h.1), ih h.2]
    rfl

/-- Members that are put into their places in order, some of them before. -/
theorem placeAll?_map (done : List (String × Document))
    (hnames : ((done ++ ms).map Prod.fst).Nodup) :
    placeAll? (done.map (fun m => (m.1, some m.2)) ++ ms.map fun m => (m.1, none))
        (ms.map fun m => (Json.lexeme m.1, m.2))
      = some ((done ++ ms).map fun m => (m.1, some m.2)) := by
  induction ms generalizing done with
  | nil => simp [placeAll?]
  | cons m ms ih =>
    obtain ⟨name, d⟩ := m
    have hnot : name ∉ (done.map fun m => (m.1, some m.2)).map Prod.fst := by
      rw [List.map_append, List.map_cons, List.nodup_append] at hnames
      intro hmem
      rw [List.map_map] at hmem
      exact hnames.2.2 name hmem name List.mem_cons_self rfl
    have hrest := ih (done ++ [(name, d)]) (by rwa [List.append_assoc])
    rw [List.map_append, List.append_assoc] at hrest
    rw [List.map_cons, List.map_cons, placeAll?, decoded?_lexeme]
    refine (congrArg (Option.bind · fun places => placeAll? places _)
      (place?_append_cons hnot d)).trans (hrest.trans ?_)
    rw [List.append_assoc]
    rfl

/-- **The members of an object are found under their names.** -/
theorem members?_ofMembers {names : List String} (hroom : room ≠ 0)
    (hms : ms.map Prod.fst = names) (hnames : names.Nodup) :
    (ofMembers ms).members? room names = some (ms.map fun m => some m.2) := by
  subst hms
  have hplaces := placeAll?_map [] hnames
  rw [List.map_nil, List.nil_append, List.nil_append] at hplaces
  rw [members?.eq_def, if_neg hroom]
  show (placeAll? ((ms.map Prod.fst).map (·, none)) _).map (·.map Prod.snd) = _
  rw [List.map_map]
  refine (congrArg (Option.map _) hplaces).trans ?_
  rw [Option.map_some, List.map_map]
  rfl

theorem isLexical_ofMembers (h : ∀ m ∈ ms, m.2.IsLexical) : (ofMembers ms).IsLexical := by
  rw [ofMembers, IsLexical]
  induction ms with
  | nil => trivial
  | cons m ms ih =>
    obtain ⟨hm, hms⟩ := List.forall_mem_cons.mp h
    exact ⟨⟨m.1.toList, rfl⟩, hm, ih hms⟩

/-- An object takes one level, and leaves the rest to its members. -/
theorem depth_ofMembers_le_iff :
    (ofMembers ms).depth ≤ room ↔ room ≠ 0 ∧ ∀ m ∈ ms, m.2.depth ≤ room - 1 := by
  rw [ofMembers, depth_object_le_iff, List.forall_mem_map]

/-! ### Readings -/

@[simp] theorem text?_ofString (s : String) : (ofString s).text? = some s := decoded?_lexeme s

@[simp] theorem tag?_ofString (s : String) : (ofString s).tag? room = some s := decoded?_lexeme s

theorem isLexical_ofString (s : String) : (ofString s).IsLexical := by
  rw [ofString, IsLexical]
  exact ⟨s.toList, rfl⟩

section

variable {α : Type} {write : α → Document}

/-- What may be absent is read back if no value is written as what is absent is. -/
theorem optional_ofOptional {read? : Document → Option α} {a : Option α}
    (h : ∀ x ∈ a, write x ≠ null ∧ read? (write x) = some x) :
    optional read? (some (ofOptional write a)) = some a := by
  cases a with
  | none => rfl
  | some x =>
    obtain ⟨hnull, hread⟩ := h x rfl
    rw [ofOptional]
    cases hwrite : write x with
    | null => exact absurd hwrite hnull
    | bool | number | string | array | object =>
      rw [hwrite] at hread
      rw [optional, hread]
      · rfl
      · simp

theorem isLexical_ofOptional {a : Option α} (h : ∀ x ∈ a, (write x).IsLexical) :
    (ofOptional write a).IsLexical := by
  cases a with
  | none => trivial
  | some x => exact h x rfl

/-- A list is read back if its items are. -/
theorem list?_map {read? : Nat → Document → Option α} {as : List α} (hroom : room ≠ 0)
    (h : ∀ a ∈ as, read? (room - 1) (write a) = some a) :
    list? room read? (some (array (as.map write))) = some as := by
  rw [list?, if_neg hroom]
  induction as with
  | nil => rfl
  | cons a as ih =>
    obtain ⟨ha, has⟩ := List.forall_mem_cons.mp h
    rw [List.map_cons, List.mapM_cons, ha, ih has]
    rfl

theorem isLexical_array_map {as : List α} (h : ∀ a ∈ as, (write a).IsLexical) :
    (array (as.map write)).IsLexical := by
  rw [IsLexical]
  induction as with
  | nil => trivial
  | cons a as ih =>
    obtain ⟨ha, has⟩ := List.forall_mem_cons.mp h
    exact ⟨ha, ih has⟩

end

end Document

end SnapshotDiff
