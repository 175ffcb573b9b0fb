import SnapshotDiff.Proofs.Json.Injective
import SnapshotDiff.Proofs.Node.Agree
import SnapshotDiff.Proofs.Node.Fits

/-!
# What keys tell

Keys are texts that are joined without escaping, but they are delimited, and so they can be taken
apart again: the key of an object tells the keys of its fields, and the key of a collection which
keys its members have.  The key of a free object tells its value.

## Main results

* `Leaf.key_ne_empty`, `Node.Fits.key_ne_empty` — no key is empty.
* `Node.key_object_eq_iff` — objects have one key if their fields have.
* `Node.key_collection_eq_iff` — collections have one key if their members have the same keys.
* `Node.key_free_eq_iff` — free objects have one key only if they are equal.
-/

namespace SnapshotDiff

open Text

namespace Table

theorem get?_map {α β : Type} (f : α → β) (t : Table α) (key : String) :
    Table.get? (t.map fun e => (e.1, f e.2)) key = (t.get? key).map f := by
  induction t with
  | nil => rfl
  | cons e t ih =>
    rw [List.map_cons, get?_cons, get?_cons, ih]
    split <;> rfl

end Table

/-! ### Keys are not empty -/

namespace Binary64

theorem positional_ne_nil (pointed : Bool) (ds : List Char) (e : Int) :
    positional pointed ds e ≠ [] := by
  unfold positional
  dsimp only
  split
  · simp
  · split
    · intro hnil
      have hlength := congrArg List.length hnil
      simp only [List.length_append, zeros, List.length_replicate, List.length_nil] at hlength
      omega
    · simp

theorem text_ne_nil (style : NumberStyle) (x : Binary64) : x.text style ≠ [] := by
  have hdigits : (if x.rank.val = 0 then positional style.pointed ['0'] 0
      else layOut style (shortest style.tie x)) ≠ [] := by
    split
    · exact positional_ne_nil _ _ _
    · simp only [layOut]
      split
      · exact positional_ne_nil _ _ _
      · simp [scientific]
  unfold text
  dsimp only
  split
  · simp
  · exact hdigits

end Binary64

theorem Json.text_ne_empty (v : Json) : v.text ≠ "" := fun h =>
  v.toList_text_ne_nil (h ▸ rfl)

theorem Leaf.key_ne_empty {kind : Leaf} {v : Json} {k : String} (h : kind.key v = .ok k) :
    k ≠ "" := by
  cases kind with
  | string | integer | boolean =>
    cases v <;> simp only [key, Except.ok.injEq, reduceCtorEq] at h
    exact h ▸ Json.text_ne_empty _
  | number =>
    simp only [key] at h
    split at h
    · next x _ =>
      obtain rfl := Except.ok.inj h
      exact fun hempty => x.text_ne_nil _ (String.ofList_eq_empty_iff.mp hempty)
    · simp at h
  | dateTime =>
    cases v <;> simp only [key, reduceCtorEq] at h
    split at h
    · next t _ =>
      obtain rfl := Except.ok.inj h
      intro hempty
      have hlength := congrArg (fun s => s.toList.length) hempty
      simp [Instant.text, Instant.textIn] at hlength
    · simp at h
  | any => exact Except.ok.inj h ▸ Json.text_ne_empty _

namespace Node

variable {P : Json → Prop} {s : FieldShape} {n : Node} {ns ms : List Node}

/-- What stands between two brackets is not lost. -/
theorem append_brackets_inj {o c a b : String} (h : o ++ a ++ c = o ++ b ++ c) : a = b := by
  have hlist := congrArg String.toList h
  simp only [String.toList_append, List.append_assoc] at hlist
  exact String.toList_inj.mp (List.append_cancel_right (List.append_cancel_left hlist))

theorem Fits.key_ne_empty (h : Fits P s n) : n.key ≠ "" := by
  have hbracket : ∀ a b : String, "[" ++ a ++ b ≠ "" ∧ "\x7b" ++ a ++ b ≠ "" := by
    intro a b
    constructor <;> · intro hempty; simpa using congrArg String.toList hempty
  cases h with
  | leaf key => exact Leaf.key_ne_empty key
  | free _ => exact Json.text_ne_empty _
  | object _ _ _ => exact (hbracket _ _).2
  | leaves _ | objects _ => exact (hbracket _ _).1

/-! ### Objects -/

/-- Names and keys with a colon between them are told apart where the first colon is. -/
theorem map_name_key_inj {fs gs : List (String × Node)} (hfs : ∀ f ∈ fs, ':' ∉ f.1.toList)
    (hgs : ∀ g ∈ gs, ':' ∉ g.1.toList)
    (h : (fs.map fun f => f.1 ++ ":" ++ f.2.key) = gs.map fun g => g.1 ++ ":" ++ g.2.key) :
    (fs.map fun f => (f.1, f.2.key)) = gs.map fun g => (g.1, g.2.key) := by
  induction fs generalizing gs with
  | nil =>
    cases gs with
    | nil => rfl
    | cons g gs => simp at h
  | cons f fs ih =>
    cases gs with
    | nil => simp at h
    | cons g gs =>
      obtain ⟨hf, hfs⟩ := List.forall_mem_cons.mp hfs
      obtain ⟨hg, hgs⟩ := List.forall_mem_cons.mp hgs
      obtain ⟨hhead, htail⟩ := List.cons.inj h
      have hlist := congrArg String.toList hhead
      simp only [String.toList_append, List.append_assoc] at hlist
      obtain ⟨hname, hkey⟩ := append_mark_inj hf hg hlist
      rw [List.map_cons, List.map_cons, ih hfs hgs htail, String.toList_inj.mp hname,
        String.toList_inj.mp hkey]

/-- Fields with the same keys have the same names. -/
theorem keys_eq_of_map_key_eq {fs gs : Table Node} (hfs : fs.Ascending) (hgs : gs.Ascending)
    (h : ∀ name, (fs.get? name).map key = (gs.get? name).map key) : fs.keys = gs.keys :=
  Table.keys_eq_of_isSome hfs hgs fun name => by simpa using congrArg Option.isSome (h name)

/-- **Objects have one key if their fields have.** -/
theorem key_object_eq_iff {typeName : String} {fields : List (String × FieldShape)}
    {fs gs : Table Node} (hs : (FieldShape.object typeName fields).everyObject alphanumeric)
    (hfs : Fits P (.object typeName fields) (.object fs))
    (hgs : Fits P (.object typeName fields) (.object gs)) : (object fs).key = (object gs).key
      ↔ ∀ name, (fs.get? name).map key = (gs.get? name).map key := by
  have hkeys : ∀ {fs : Table Node}, Fits P (.object typeName fields) (.object fs) →
      (∀ k ∈ fieldKeys fs, Delimited k.toList) ∧ "" ∉ fieldKeys fs
        ∧ ∀ f ∈ fs, ':' ∉ f.1.toList := by
    intro fs hfs
    obtain ⟨hnames, hfields⟩ := FieldShape.everyObject_object.mp hs
    have hdeclared : ∀ f ∈ fs, f.1 ∈ fields.map Prod.fst := fun f hf =>
      (hfs.exists_declaration hf).elim fun _ h => List.mem_map_of_mem h.1
    rw [fieldKeys_eq_map]
    refine ⟨fun k hk => ?_, fun hempty => ?_, fun f hf =>
      notMem_of_alphanumeric hnames (hdeclared f hf) (by decide)⟩
    · obtain ⟨f, hf, rfl⟩ := List.mem_map.mp hk
      obtain ⟨s, hs, hfits⟩ := hfs.exists_declaration hf
      exact Document.delimited_colon (delimited_of_alphanumeric hnames (hdeclared f hf))
        (hfits.delimited_key (hfields _ hs))
    · obtain ⟨f, -, hf⟩ := List.mem_map.mp hempty
      simpa using congrArg String.toList hf
  constructor
  · intro h name
    obtain ⟨hdelimited, hne, hcolon⟩ := hkeys hfs
    obtain ⟨hdelimited', hne', hcolon'⟩ := hkeys hgs
    rw [key, key] at h
    have hjoined := joined_inj hdelimited hdelimited' hne hne' (append_brackets_inj h)
    rw [fieldKeys_eq_map, fieldKeys_eq_map] at hjoined
    rw [← Table.get?_map, ← Table.get?_map, map_name_key_inj hcolon hcolon' hjoined]
  · intro h
    have hnames := keys_eq_of_map_key_eq hfs.ascending_fields hgs.ascending_fields h
    have hfields : fieldKeys fs = fieldKeys gs := by
      rw [fieldKeys_eq_map, fieldKeys_eq_map]
      refine Table.map_eq_map_of_keys_eq (f := fun name n => name ++ ":" ++ Node.key n)
        (g := fun name n => name ++ ":" ++ Node.key n) hnames fun name n m hn hm => ?_
      have hname := h name
      rw [(Table.get?_eq_some_iff hfs.ascending_fields).mpr hn,
        (Table.get?_eq_some_iff hgs.ascending_fields).mpr hm] at hname
      rw [Option.some.inj hname]
    rw [key, key, hfields]

/-- Objects with one key have the same identity. -/
theorem identityKey_eq_of_key_eq {typeName : String} {fields : List (String × FieldShape)}
    {fs gs : Table Node} (hs : (FieldShape.object typeName fields).everyObject alphanumeric)
    (hfs : Fits P (.object typeName fields) (.object fs))
    (hgs : Fits P (.object typeName fields) (.object gs)) (h : (object fs).key = (object gs).key)
    (identity : String) :
    Finding.identityKey identity fs = Finding.identityKey identity gs := by
  have hidentity := (key_object_eq_iff hs hfs hgs).mp h identity
  rw [Finding.identityKey, Finding.identityKey]
  cases hn : fs.get? identity with
  | none =>
    cases hm : gs.get? identity with
    | none => rw [h]
    | some m => simp [hn, hm] at hidentity
  | some n =>
    cases hm : gs.get? identity with
    | none => simp [hn, hm] at hidentity
    | some m =>
      rw [hn, hm] at hidentity
      exact congrArg ("#" ++ ·) (Option.some.inj hidentity)

/-! ### Collections -/

/-- **Collections have one key if their members have the same keys.** -/
theorem key_collection_eq_iff (hs : s.everyObject alphanumeric) (hns : ∀ n ∈ ns, Fits P s n)
    (hms : ∀ m ∈ ms, Fits P s m) : (collection ns).key = (collection ms).key
      ↔ ∀ k, k ∈ ns.map key ↔ k ∈ ms.map key := by
  have hkeys : ∀ {ls : List Node}, (∀ l ∈ ls, Fits P s l) →
      (∀ k ∈ ascending (memberKeys ls), Delimited k.toList) ∧ "" ∉ ascending (memberKeys ls) := by
    intro ls hls
    simp only [mem_ascending, memberKeys_eq_map]
    refine ⟨fun k hk => ?_, fun hempty => ?_⟩
    · obtain ⟨l, hl, rfl⟩ := List.mem_map.mp hk
      exact (hls l hl).delimited_key hs
    · obtain ⟨l, hl, hempty⟩ := List.mem_map.mp hempty
      exact (hls l hl).key_ne_empty hempty
  constructor
  · intro h k
    rw [key, key] at h
    have hjoined := joined_inj (hkeys hns).1 (hkeys hms).1 (hkeys hns).2 (hkeys hms).2
      (append_brackets_inj h)
    rw [← memberKeys_eq_map, ← memberKeys_eq_map, ← mem_ascending, hjoined, mem_ascending]
  · intro h
    rw [key, key, memberKeys_eq_map, memberKeys_eq_map, ascending_congr h]

/-- Order and repetition of members make no difference. -/
example : (collection [leaf (.int 2) "2", leaf (.int 1) "1", leaf (.int 2) "2"]).key
    = (collection [leaf (.int 1) "1", leaf (.int 2) "2"]).key := by decide

/-! ### Free objects -/

/-- **Free objects have one key only if they are equal.** -/
theorem key_free_eq_iff {ms ns : Table Json} : (free ms).key = (free ns).key ↔ ms = ns :=
  ⟨fun h => Json.obj.inj (Json.text_inj h), fun h => h ▸ rfl⟩

end Node

/-! ### Members that are told of -/

/-- The key and the kind can be read back from what is told of a member. -/
theorem Finding.ofMember_inj {o : Owner} {path k l typeName typeName' : String}
    {kind kind' : ChangeKind} {v w : Json}
    (h : ofMember o typeName path kind k v = ofMember o typeName' path kind' l w) :
    k = l ∧ kind = kind' := by
  simp only [ofMember, member.injEq, Owner.member, Owner.mk.injEq, true_and] at h
  exact ⟨Node.append_brackets_inj h.1.2, h.2.1⟩

end SnapshotDiff
