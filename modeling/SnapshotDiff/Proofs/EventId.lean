import SnapshotDiff.EventId

/-!
# Event identifiers are read back

An identifier is written as five groups of digits with hyphens between them, and the text is cut
into the groups again.

## Main definitions

* `EventId.groups` — the five groups.

## Main results

* `EventId.ofText?_text` — **an identifier is read back from its text.**
-/

namespace SnapshotDiff

namespace EventId

theorem digit?_hexDigit : ∀ d : Fin 16, digit? (Quoted.hexDigit d.val) = some d := by decide

/-- The digits of an identifier are read back. -/
theorem ofHex?_hexChars (i : EventId) : ofHex? (hexChars i.digits) = some i := by
  have hdigits : ∀ ds : List (Fin 16), (hexChars ds).mapM digit? = some ds := by
    intro ds
    induction ds with
    | nil => rfl
    | cons d ds ih =>
      rw [hexChars] at ih
      rw [hexChars, List.map_cons, List.mapM_cons, digit?_hexDigit, ih]
      rfl
  rw [ofHex?, hdigits]
  exact dif_pos i.length_digits

/-- No digit is a hyphen. -/
theorem hyphen_notMem_hexChars (ds : List (Fin 16)) : '-' ∉ hexChars ds := by
  have hdigit : ∀ d : Fin 16, Quoted.hexDigit d.val ≠ '-' := by decide
  intro h
  obtain ⟨d, -, hd⟩ := List.mem_map.mp h
  exact hdigit d hd

/-- The five groups of digits. -/
def groups (i : EventId) : List (List Char) :=
  let ds := hexChars i.digits
  [ds.take 8, (ds.drop 8).take 4, (ds.drop 12).take 4, (ds.drop 16).take 4, ds.drop 20]

theorem length_hexChars (i : EventId) : (hexChars i.digits).length = 32 := by
  rw [hexChars, List.length_map, i.length_digits]

theorem map_length_groups (i : EventId) : i.groups.map List.length = [8, 4, 4, 4, 12] := by
  simp [groups, length_hexChars]

theorem flatten_groups (i : EventId) : i.groups.flatten = hexChars i.digits := by
  have hdrop : ∀ k, (hexChars i.digits).drop (k + 4) = ((hexChars i.digits).drop k).drop 4 :=
    fun k => List.drop_drop.symm
  simp only [groups, List.flatten_cons, List.flatten_nil, List.append_nil]
  rw [hdrop 16, List.take_append_drop, hdrop 12, List.take_append_drop, hdrop 8,
    List.take_append_drop, List.take_append_drop]

theorem hyphen_notMem_groups (i : EventId) : ∀ g ∈ i.groups, '-' ∉ g := by
  intro g hg hmem
  refine hyphen_notMem_hexChars i.digits ?_
  rw [← flatten_groups]
  exact List.mem_flatten.mpr ⟨g, hg, hmem⟩

/-- The text is cut at its hyphens into the groups. -/
theorem cut_text (i : EventId) : Text.cut '-' i.text.toList = i.groups :=
  Text.cut_joined rfl (by simp) i.hyphen_notMem_groups

theorem ofGroups?_text (i : EventId) : ofGroups? i.text.toList = some i := by
  simp only [ofGroups?, cut_text, map_length_groups, if_true, flatten_groups, ofHex?_hexChars]

theorem length_text (i : EventId) : i.text.toList.length = 36 := by
  simp [text, length_hexChars]

theorem exists_head_text (i : EventId) :
    ∃ d : Fin 16, i.text.toList.head? = some (Quoted.hexDigit d.val) := by
  obtain ⟨digits, hlength⟩ := i
  obtain ⟨d, ds, rfl⟩ := List.exists_cons_of_ne_nil (l := digits) (by rintro rfl; cases hlength)
  exact ⟨d, by simp [text, hexChars]⟩

/-- **An identifier is read back from its text.** -/
theorem ofText?_text (i : EventId) : ofText? i.text = some i := by
  have hprefix : lower (i.text.toList.take 9) ≠ "urn:uuid:".toList := by
    -- the prefix does not begin with a digit
    have hdigit : ∀ d : Fin 16, (Quoted.hexDigit d.val).toLower ≠ 'u' := by decide
    obtain ⟨d, hd⟩ := i.exists_head_text
    intro h
    have hhead := congrArg List.head? h
    rw [lower, List.head?_map, List.head?_take, if_neg (by decide), hd] at hhead
    exact hdigit d (Option.some.inj hhead)
  have hlength := i.length_text
  rw [ofText?, if_neg (by omega), if_neg fun h => by omega, if_neg hprefix, ofGroups?_text]

end EventId

end SnapshotDiff
