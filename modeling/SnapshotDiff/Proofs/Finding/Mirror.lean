import Mathlib.Data.List.Perm.Basic
import SnapshotDiff.Proofs.Change.Fields
import SnapshotDiff.Proofs.Correlation.Groups
import SnapshotDiff.Proofs.Correlation.Swap
import SnapshotDiff.Proofs.Json.Same
import SnapshotDiff.Proofs.Node.Members

/-!
# The walk with the sides exchanged

The walk goes along the old side first, so with the sides exchanged it comes to the members of
collections in another order; but it finds the same, turned round.  Moreover the matches of any one
object come in the same order: only one member of a collection can have the object below it, because
the identity of that member begins the identity of the object.

## Main definitions

* `Finding.Mirror` — the findings back, up to order, with the matches of each object in order.

## Main results

* `Finding.mirror_ofFields` — the walk with the sides exchanged mirrors the walk.
-/

namespace SnapshotDiff

namespace Finding

/-! ### Single findings -/

section Single

variable {o : Owner} {name path : String}

theorem ofValues_swap (old new : Option Json) (equal : Bool) :
    ofValues o name path new old equal = (ofValues o name path old new equal).map swap := by
  have hkind := ChangeKind.classify_swap old.isSome new.isSome equal
  rw [ofValues, ofValues, ← hkind, ChangeKind.isChange_swap]
  split
  · rfl
  · rfl

theorem ofLeaves_swap (old new : Option (Json × String)) :
    ofLeaves o name path new old = (ofLeaves o name path old new).map swap := by
  match old, new with
  | none, none | none, some _ | some _, none => exact ofValues_swap _ _ _
  | some a, some b =>
    have hkeys : (b.2 == a.2) = (a.2 == b.2) := Bool.beq_comm
    show ofValues o name path (some b.1) (some a.1) (b.2 == a.2) = _
    rw [hkeys]
    exact ofValues_swap _ _ _

/-- Of the member of one side the other side tells the opposite. -/
theorem ofSides_swap {α : Type} {typeName : String} {json : α → Json}
    {both back : String → α → α → List Finding} {key : String} {a b : Option α}
    (h : ∀ x ∈ a, ∀ y ∈ b, back key y x = (both key x y).map swap) :
    ofSides o typeName path json back key b a
      = (ofSides o typeName path json both key a b).map swap := by
  match a, b with
  | none, none | none, some _ | some _, none => rfl
  | some x, some y => exact h x rfl y rfl

end Single

/-! ### Mirrors -/

/-- The match of an object, if the finding is one. -/
def matchOf? (o : Owner) (f : Finding) : Option Match := if f.owner = o then f.match? else none

theorem lastMatch?_eq_getLast? (fs : List Finding) (o : Owner) :
    lastMatch? fs o = (fs.filterMap (matchOf? o)).getLast? := by
  rw [lastMatch?, about, List.filterMap_filter]
  simp only [decide_eq_true_eq]
  rfl

theorem matchOf?_swap (o : Owner) (f : Finding) :
    matchOf? o f.swap = (matchOf? o f).map Match.swap := by
  rw [matchOf?, matchOf?, owner_swap]
  split
  · cases f <;> rfl
  · rfl

/-- The findings `gs` are the findings `fs` turned round, in some order that keeps the matches of
each object in order. -/
structure Mirror (fs gs : List Finding) : Prop where
  perm : gs.Perm (fs.map swap)
  matched : ∀ o, gs.filterMap (matchOf? o) = (fs.filterMap (matchOf? o)).map Match.swap

namespace Mirror

variable {fs gs fs' gs' : List Finding}

theorem of_eq (h : gs = fs.map swap) : Mirror fs gs where
  perm := h ▸ .refl _
  matched o := by
    rw [h, List.filterMap_map, List.map_filterMap]
    exact List.filterMap_congr fun f _ => matchOf?_swap o f

/-- Where nothing is matched, the order does not matter. -/
theorem of_perm (h : gs.Perm (fs.map swap)) (hfs : ∀ f ∈ fs, f.match? = none) : Mirror fs gs where
  perm := h
  matched o := by
    have hnone : ∀ f : Finding, f.match? = none → matchOf? o f = none := by
      intro f hf
      rw [matchOf?, hf, ite_self]
    have hgs : gs.filterMap (matchOf? o) = [] := by
      apply List.filterMap_eq_nil_iff.mpr
      intro g hg
      obtain ⟨f, hf, rfl⟩ := List.mem_map.mp (h.mem_iff.mp hg)
      rw [matchOf?_swap, hnone f (hfs f hf), Option.map_none]
    rw [hgs, List.filterMap_eq_nil_iff.mpr fun f hf => hnone f (hfs f hf), List.map_nil]

theorem append (h : Mirror fs gs) (h' : Mirror fs' gs') : Mirror (fs ++ fs') (gs ++ gs') where
  perm := by
    rw [List.map_append]
    exact h.perm.append h'.perm
  matched o := by
    rw [List.filterMap_append, List.filterMap_append, List.map_append, h.matched, h'.matched]

theorem flatMap {α : Type} {l : List α} {f g : α → List Finding} (h : ∀ a ∈ l, Mirror (f a) (g a)) :
    Mirror (l.flatMap f) (l.flatMap g) := by
  induction l with
  | nil => exact of_eq rfl
  | cons a l ih =>
    obtain ⟨ha, hl⟩ := List.forall_mem_cons.mp h
    rw [List.flatMap_cons, List.flatMap_cons]
    exact ha.append (ih hl)

/-- The last match of an object is the last match turned round. -/
theorem lastMatch? (h : Mirror fs gs) (o : Owner) :
    Finding.lastMatch? gs o = Finding.lastMatch? (fs.map swap) o := by
  have hmap := (of_eq (rfl : fs.map swap = fs.map swap)).matched o
  rw [lastMatch?_eq_getLast?, lastMatch?_eq_getLast?, h.matched o, hmap]

end Mirror

/-! ### Two sides -/

section Sides

variable {α : Type} {f : String → Option α → Option α → List Finding}
  {olds news : List (String × α)}

/-- Members that are compared key by key give the comparisons back in some order. -/
theorem sides_perm_map_swap (hf : ∀ k, f k none none = []) (hold : (olds.map Prod.fst).Nodup)
    (hnew : (news.map Prod.fst).Nodup)
    (h : ∀ k, (f k (news.lookup k) (olds.lookup k)).Perm
      ((f k (olds.lookup k) (news.lookup k)).map swap)) :
    (sides f news olds).Perm ((sides f olds news).map swap) := by
  -- first the order of the sides, then each key on its own
  have hback := sides_swap_perm hf hnew hold
  rw [sides_eq_flatMap hold hnew] at hback
  apply hback.trans
  rw [sides_eq_flatMap hold hnew, List.map_flatMap]
  exact List.Perm.flatMap_left _ fun k _ => h k

/-- They do so with the matches of each object in order, if only one of them tells of it. -/
theorem Mirror.sides (hf : ∀ k, f k none none = []) (hold : (olds.map Prod.fst).Nodup)
    (hnew : (news.map Prod.fst).Nodup)
    (h : ∀ k, Mirror (f k (olds.lookup k) (news.lookup k)) (f k (news.lookup k) (olds.lookup k)))
    (hone : ∀ o, ∃ key, ∀ k ∈ sideKeys olds news, k ≠ key →
      (f k (olds.lookup k) (news.lookup k)).filterMap (matchOf? o) = []) :
    Mirror (sides f olds news) (sides f news olds) where
  perm := sides_perm_map_swap hf hold hnew fun k => (h k).perm
  matched o := by
    obtain ⟨key, hkey⟩ := hone o
    -- the matches of `o` are those under one key, whichever side is walked first
    have hf' : ∀ k, (f k none none).filterMap (matchOf? o) = [] := fun k => by rw [hf]; rfl
    have hback : ∀ k ∈ sideKeys news olds, k ≠ key →
        (f k (news.lookup k) (olds.lookup k)).filterMap (matchOf? o) = [] := by
      intro k hk hne
      have hmem : k ∈ sideKeys olds news := by
        rw [mem_sideKeys] at hk ⊢
        exact hk.symm
      rw [(h k).matched, hkey k hmem hne, List.map_nil]
    rw [filterMap_sides, filterMap_sides, sides_eq_of_key hf' hnew hold hback,
      sides_eq_of_key hf' hold hnew hkey]
    exact (h key).matched o

/-- If one side has no members, the order is the same as well. -/
theorem sides_nil_map_swap (h : ∀ k a, f k (some a) none = (f k none (some a)).map swap)
    (news : List (String × α)) : sides f news [] = (sides f [] news).map swap := by
  have honly : onlyIn news [] = news := List.filter_eq_self.mpr fun _ _ => rfl
  have hleft : sides f [] news = news.flatMap fun m => f m.1 none (some m.2) := by
    rw [sides, honly]
    rfl
  have hright : sides f news [] = news.flatMap fun m => f m.1 (some m.2) none :=
    List.append_nil _
  rw [hleft, hright, List.map_flatMap]
  exact List.flatMap_congr fun m _ => h m.1 m.2

end Sides

/-! ### Owners -/

section Owners

variable {rules : Rules}

theorem identity_prefix_member (o : Owner) (typeName path key : String) :
    o.identity.toList <+: (o.member typeName path key).identity.toList := by
  simp only [Owner.member, String.toList_append, List.append_assoc]
  exact List.prefix_append _ _

/-- What is found on the fields of an object is about the object or below it, if that is so of each
field. -/
theorem identity_prefix_of_mem_ofFields {fields : List (String × FieldShape)} {o : Owner}
    {path : String} {old new : Table Node}
    (ih : ∀ f ∈ fields, ∀ {o : Owner} {name path : String} {old new : Option Node},
      ∀ g ∈ ofField rules o name path old new f.2, o.identity.toList <+: g.owner.identity.toList) :
    ∀ g ∈ ofFields rules o path old new fields,
      o.identity.toList <+: g.owner.identity.toList := by
  intro g hg
  rw [ofFields_eq_flatMap] at hg
  obtain ⟨f, hf, hg⟩ := List.mem_flatMap.mp hg
  split at hg
  · exact ih f hf g hg
  · exact absurd hg List.not_mem_nil

/-- What is found of a member of a collection is about the member or below it. -/
theorem identity_prefix_of_mem_ofSides {α : Type} {o : Owner} {typeName path key : String}
    {json : α → Json} {both : String → α → α → List Finding}
    (hboth : ∀ a b, ∀ g ∈ both key a b,
      (o.member typeName path key).identity.toList <+: g.owner.identity.toList)
    {a b : Option α} : ∀ g ∈ ofSides o typeName path json both key a b,
      (o.member typeName path key).identity.toList <+: g.owner.identity.toList := by
  intro g hg
  match a, b with
  | none, none => exact absurd hg List.not_mem_nil
  | none, some _ | some _, none => exact List.mem_singleton.mp hg ▸ List.prefix_refl _
  | some a, some b => exact hboth a b g hg

/-- **What is found on a field of an object is about the object or below it.** -/
theorem identity_prefix_of_mem_ofField (s : FieldShape) :
    ∀ {o : Owner} {name path : String} {old new : Option Node},
      ∀ g ∈ ofField rules o name path old new s,
        o.identity.toList <+: g.owner.identity.toList := by
  have hmap : ∀ {cs : List FieldChange} {o : Owner}, ∀ g ∈ cs.map (field o),
      o.identity.toList <+: g.owner.identity.toList := by
    intro cs o g hg
    obtain ⟨c, -, rfl⟩ := List.mem_map.mp hg
    exact List.prefix_refl _
  have hsets : ∀ {o : Owner} {typeName path : String} {olds news : List Node},
      ∀ g ∈ ofSets o typeName path olds news,
        o.identity.toList <+: g.owner.identity.toList := by
    intro o typeName path olds news g hg
    rw [ofSets_eq_sides] at hg
    obtain ⟨k, a, b, -, -, hg⟩ := exists_of_mem_sides hg
    apply (identity_prefix_member o typeName path k).trans
    exact identity_prefix_of_mem_ofSides (fun _ _ g hg => absurd hg List.not_mem_nil) g hg
  induction s using FieldShape.fieldInduction with
  | leaf kind =>
    intro o name path old new
    rw [ofField, ofLeaves_eq_map]
    exact hmap
  | object typeName fields ih =>
    intro o name path old new
    rw [ofField.eq_def]
    dsimp only
    split
    · exact identity_prefix_of_mem_ofFields ih
    · rw [ofValues_eq_map]
      exact hmap
  | leaves kind =>
    intro o name path old new
    rw [ofField]
    exact hsets
  | objects typeName fields identity ih =>
    intro o name path old new
    cases identity with
    | none =>
      rw [ofField]
      exact hsets
    | some identity =>
      rw [ofField_objects_eq_sides]
      intro g hg
      obtain ⟨k, a, b, -, -, hg⟩ := exists_of_mem_sides hg
      apply (identity_prefix_member o typeName path k).trans
      refine identity_prefix_of_mem_ofSides (fun fs gs g hg => ?_) g hg
      rcases List.mem_cons.mp hg with rfl | hg
      · exact List.prefix_refl _
      · exact identity_prefix_of_mem_ofFields ih g hg
  | free =>
    intro o name path old new
    rw [ofField, ofFree_eq_map]
    exact hmap

/-- **Of the members of a collection only one has an object below it**, because the bracket that
closes a delimited key is where it seems to be. -/
theorem eq_of_prefix_identity {o x : Owner} {typeName path k l : String}
    (hk : Text.Delimited k.toList) (hl : Text.Delimited l.toList)
    (hkx : (o.member typeName path k).identity.toList <+: x.identity.toList)
    (hlx : (o.member typeName path l).identity.toList <+: x.identity.toList) : k = l := by
  obtain ⟨r, hr⟩ := hkx
  obtain ⟨s, hs⟩ := hlx
  have hrest : k.toList ++ ']' :: r = l.toList ++ ']' :: s := by
    have heq := hr.trans hs.symm
    simpa [Owner.member, String.toList_append] using heq
  exact String.toList_inj.mp (hk.eq_of_append hl (by decide) (by decide) hrest).1

end Owners

/-! ### Free objects -/

section Free

variable {rules : Rules} {o : Owner} {name path : String}

/-- Values that are not both objects are compared as wholes. -/
theorem ofFreeValues_swap {a b : Option Json}
    (h : ∀ ms ns, a = some (.obj ms) → b = some (.obj ns) → False) :
    ofFreeValues rules o name path b a = (ofFreeValues rules o name path a b).map swap := by
  have hsame : Json.same? b a = Json.same? a b :=
    Bool.eq_iff_iff.mpr ⟨Json.same?_symm, Json.same?_symm⟩
  rw [ofFreeValues, ofFreeValues, hsame]
  · exact ofValues_swap a b _
  · exact h
  · exact fun ns ms hb ha => h ms ns ha hb

theorem ofFreeValues_perm (v : Json) : v.Canonical → ∀ {name path : String} {w : Option Json},
    (∀ x ∈ w, x.Canonical) → (ofFreeValues rules o name path w (some v)).Perm
      ((ofFreeValues rules o name path (some v) w).map swap) := by
  induction v using Json.memberInduction with
  | other v hv =>
    intro _ name path w _
    refine .of_eq (ofFreeValues_swap fun ms ns hms _ => ?_)
    rw [Option.some.inj hms] at hv
    simp at hv
  | object ms ih =>
    intro hms name path w hw
    rw [Json.canonical_obj_iff] at hms
    -- two objects are walked into, anything else is compared as a whole
    by_cases hobj : ∃ ns, w = some (.obj ns)
    · obtain ⟨ns, rfl⟩ := hobj
      have hns := Json.canonical_obj_iff.mp (hw _ rfl)
      show (ofFree rules o path ns ms).Perm ((ofFree rules o path ms ns).map swap)
      rw [ofFree_eq_sides, ofFree_eq_sides]
      refine sides_perm_map_swap ofFreeSides_none_none hms.1.nodup_keys hns.1.nodup_keys fun k => ?_
      rw [ofFreeSides, ofFreeSides]
      split
      · have hnew : ∀ x ∈ present? (ns.lookup k), x.Canonical :=
          fun x hx => hns.2 _ (mem_of_present?_lookup hx)
        cases hv : present? (ms.lookup k) with
        | none => exact .of_eq (ofFreeValues_swap fun _ _ h _ => by simp at h)
        | some v =>
          have hmem := mem_of_present?_lookup hv
          exact ih _ hmem (hms.2 _ hmem) hnew
      · exact .refl _
    · exact .of_eq (ofFreeValues_swap fun _ ns _ hns => hobj ⟨ns, hns⟩)

/-- Free objects with the sides exchanged. -/
theorem ofFree_perm {old new : Table Json} (hold : (Json.obj old).Canonical)
    (hnew : (Json.obj new).Canonical) :
    (ofFree rules o path new old).Perm ((ofFree rules o path old new).map swap) := by
  have hvalue : ∀ x ∈ some (Json.obj new), x.Canonical := fun x hx => Option.some.inj hx ▸ hnew
  exact @ofFreeValues_perm rules o (.obj old) hold "" path (some (.obj new)) hvalue

end Free

/-! ### The walk -/

section Walk

variable {rules : Rules}

/-- The fields of objects, if the fields of each declaration are mirrored. -/
theorem mirror_of_fields {typeName : String} {fields : List (String × FieldShape)}
    (ih : ∀ f ∈ fields, ∀ {o : Owner} {name path : String} {old new : Option Node},
      (∀ n ∈ old, Node.Fits Json.Canonical f.2 n) → (∀ n ∈ new, Node.Fits Json.Canonical f.2 n) →
        Mirror (ofField rules o name path old new f.2) (ofField rules o name path new old f.2))
    {o : Owner} {path : String} {old new : Table Node}
    (hold : Node.Fits Json.Canonical (.object typeName fields) (.object old))
    (hnew : Node.Fits Json.Canonical (.object typeName fields) (.object new)) :
    Mirror (ofFields rules o path old new fields) (ofFields rules o path new old fields) := by
  rw [ofFields_eq_flatMap, ofFields_eq_flatMap]
  apply Mirror.flatMap
  intro f hf
  split
  · exact ih f hf (fun n hn => hold.field hf hn) fun n hn => hnew.field hf hn
  · exact .of_eq rfl

theorem exists_owner_of_ne_nil {fs : List Finding} {o : Owner}
    (h : fs.filterMap (matchOf? o) ≠ []) : ∃ f ∈ fs, f.owner = o := by
  obtain ⟨m, hm⟩ := List.exists_mem_of_ne_nil _ h
  obtain ⟨f, hf, hmatch⟩ := List.mem_filterMap.mp hm
  unfold matchOf? at hmatch
  split at hmatch
  · next ho => exact ⟨f, hf, ho⟩
  · simp at hmatch

theorem mirror_ofSets {o : Owner} {typeName path : String} {olds news : List Node} :
    Mirror (ofSets o typeName path olds news) (ofSets o typeName path news olds) := by
  refine .of_perm ?_ fun f hf => ?_
  · rw [ofSets_eq_sides, ofSets_eq_sides]
    refine sides_perm_map_swap (fun _ => rfl) (nodup_keys_byKey _) (nodup_keys_byKey _) fun k => ?_
    exact .of_eq (ofSides_swap fun _ _ _ _ => rfl)
  · rcases List.mem_append.mp hf with hf | hf
    · obtain ⟨m, -, rfl⟩ := List.mem_map.mp hf
      rfl
    · obtain ⟨m, -, rfl⟩ := List.mem_map.mp hf
      rfl

/-- **The walk over a field with the sides exchanged.** -/
theorem mirror_ofField {s : FieldShape} (hs : s.everyObject alphanumeric) :
    ∀ {o : Owner} {name path : String} {old new : Option Node},
      (∀ n ∈ old, Node.Fits Json.Canonical s n) → (∀ n ∈ new, Node.Fits Json.Canonical s n) →
        Mirror (ofField rules o name path old new s) (ofField rules o name path new old s) := by
  induction s using FieldShape.fieldInduction with
  | leaf kind =>
    intro o name path old new _ _
    rw [ofField, ofField]
    exact .of_eq (ofLeaves_swap _ _)
  | object typeName fields ih =>
    intro o name path old new hold hnew
    obtain ⟨-, hfields⟩ := FieldShape.everyObject_object.mp hs
    rw [ofField.eq_def, ofField.eq_def]
    dsimp only
    cases hfs : presentObject? rules path old with
    | none => cases presentObject? rules path new <;> exact .of_eq (ofValues_swap _ _ _)
    | some fs =>
      cases hgs : presentObject? rules path new with
      | none => exact .of_eq (ofValues_swap _ _ _)
      | some gs =>
        exact mirror_of_fields (fun f hf => ih f hf (hfields f hf))
          (hold _ (Node.eq_object_of_presentObject? hfs))
          (hnew _ (Node.eq_object_of_presentObject? hgs))
  | leaves kind =>
    intro o name path old new _ _
    rw [ofField, ofField]
    exact mirror_ofSets
  | objects typeName fields identity ih =>
    intro o name path old new hold hnew
    rw [FieldShape.everyObject_objects] at hs
    obtain ⟨-, hfields⟩ := FieldShape.everyObject_object.mp hs
    cases identity with
    | none =>
      rw [ofField, ofField]
      exact mirror_ofSets
    | some identity =>
      have holds := Node.Fits.of_mem_members_objects hold
      have hnews := Node.Fits.of_mem_members_objects hnew
      have hdelimited : ∀ k ∈ sideKeys (byIdentity identity (members old))
          (byIdentity identity (members new)), Text.Delimited k.toList := by
        intro k hk
        rcases mem_sideKeys.mp hk with hk | hk
        · obtain ⟨m, hm, rfl⟩ := List.mem_map.mp hk
          exact Node.delimited_of_mem_byIdentity (fun n hn => (holds n hn).legible hs) m hm
        · obtain ⟨m, hm, rfl⟩ := List.mem_map.mp hk
          exact Node.delimited_of_mem_byIdentity (fun n hn => (hnews n hn).legible hs) m hm
      rw [ofField_objects_eq_sides, ofField_objects_eq_sides]
      refine Mirror.sides (fun _ => rfl) (nodup_keys_byIdentity _ _) (nodup_keys_byIdentity _ _)
        (fun k => ?_) fun x => ?_
      · cases hfs : (byIdentity identity (members old)).lookup k with
        | none => exact .of_eq (ofSides_swap fun _ h => by simp at h)
        | some fs =>
          cases hgs : (byIdentity identity (members new)).lookup k with
          | none => exact .of_eq (ofSides_swap fun _ _ _ h => by simp at h)
          | some gs =>
            have hinner : Mirror (ofFields rules (o.member typeName path k) path fs gs fields)
                (ofFields rules (o.member typeName path k) path gs fs fields) :=
              mirror_of_fields (fun f hf => ih f hf (hfields f hf))
                (holds _ (Node.exists_of_mem_byIdentity (List.mem_of_lookup_eq_some hfs)).1)
                (hnews _ (Node.exists_of_mem_byIdentity (List.mem_of_lookup_eq_some hgs)).1)
            -- the match comes first on either side, and then what is found on the fields
            have hhead : Mirror
                [matched ⟨o, path⟩ (o.member typeName path k) (Node.object fs).json
                  (Node.object gs).json]
                [matched ⟨o, path⟩ (o.member typeName path k) (Node.object gs).json
                  (Node.object fs).json] := .of_eq rfl
            exact hhead.append hinner
      · -- two members that tell of `x` would both have their identities in front of that of `x`
        have hbelow : ∀ k a b, ∀ g ∈ ofSides o typeName path (fun fs => (Node.object fs).json)
            (ofMatch rules o typeName path fields) k a b,
            (o.member typeName path k).identity.toList <+: g.owner.identity.toList := by
          intro k a b
          refine identity_prefix_of_mem_ofSides fun fs gs g hg => ?_
          rcases List.mem_cons.mp hg with rfl | hg
          · exact List.prefix_refl _
          · exact identity_prefix_of_mem_ofFields
              (fun f _ => identity_prefix_of_mem_ofField f.2) g hg
        by_contra hmany
        push Not at hmany
        obtain ⟨k, hk, -, hktells⟩ := hmany ""
        obtain ⟨l, hl, hne, hltells⟩ := hmany k
        obtain ⟨f, hf, hfx⟩ := exists_owner_of_ne_nil hktells
        obtain ⟨g, hg, hgx⟩ := exists_owner_of_ne_nil hltells
        exact hne (eq_of_prefix_identity (hdelimited l hl) (hdelimited k hk)
          (hgx ▸ hbelow l _ _ g hg) (hfx ▸ hbelow k _ _ f hf))
  | free =>
    intro o name path old new hold hnew
    rw [ofField, ofField]
    -- free objects have no members that could be matched
    refine .of_perm (ofFree_perm (Node.Fits.canonical_free hold) (Node.Fits.canonical_free hnew))
      fun f hf => ?_
    rw [ofFree_eq_map] at hf
    obtain ⟨c, -, rfl⟩ := List.mem_map.mp hf
    rfl

/-- **The walk with the sides exchanged mirrors the walk.** -/
theorem mirror_ofFields {typeName : String} {fields : List (String × FieldShape)} {o : Owner}
    {path : String} {old new : Table Node}
    (hs : (FieldShape.object typeName fields).everyObject alphanumeric)
    (hold : Node.Fits Json.Canonical (.object typeName fields) (.object old))
    (hnew : Node.Fits Json.Canonical (.object typeName fields) (.object new)) :
    Mirror (ofFields rules o path old new fields) (ofFields rules o path new old fields) :=
  mirror_of_fields (fun f hf => mirror_ofField ((FieldShape.everyObject_object.mp hs).2 f hf))
    hold hnew

end Walk

end Finding

end SnapshotDiff
