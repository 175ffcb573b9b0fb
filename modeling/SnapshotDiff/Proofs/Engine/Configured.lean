import SnapshotDiff.Engine
import SnapshotDiff.Proofs.BuiltIn.Layout
import SnapshotDiff.Proofs.OnePass

/-!
# Engines made from configurations

A configuration lists families and ignores paths by family.  Registration goes through the list, and
the first occurrence of a family takes the paths that are ignored for it.  A family that is listed
again is registered again, and then no paths are left: it ends up with its built-in rules.

## Main definitions

* `Config.pathsOf` — the paths that a configuration ignores for a family.

## Main results

* `Engine.exists_ofConfig_iff` — which configurations are sound.
* `Engine.rules?_registerAll` — the rules after registration.
* `Engine.ofConfig_spec` — the engine of a configuration.
-/

namespace SnapshotDiff

namespace Family

theorem ofName?_eq_some_iff {s : String} {f : Family} : ofName? s = some f ↔ s = f.name := by
  constructor
  · intro h
    unfold ofName? at h
    have hname := List.find?_some h
    exact (of_decide_eq_true hname).symm
  · rintro rfl
    exact ofName?_name f

theorem name_inj {f g : Family} (h : f.name = g.name) : f = g := by
  have hsome := ofName?_name f
  rw [h, ofName?_name] at hsome
  exact (Option.some.inj hsome).symm

end Family

namespace Config

/-- The paths that the configuration ignores for a family. -/
def pathsOf (c : Config) (f : Family) : List String := (c.ignoredPaths.get? f.name).getD []

variable {name : String} {paths : List String} {l : List (String × List String)}

theorem ignoredEntry_eq_ok {e : Family × List String} : ignoredEntry name paths = .ok e
    ↔ Family.ofName? name = some e.1 ∧ (∀ p ∈ paths, Text.isBlankText p = false) ∧ e.2 = paths := by
  unfold ignoredEntry
  cases hname : Family.ofName? name with
  | none => simp
  | some f =>
    cases hblank : paths.find? Text.isBlankText with
    | none =>
      have hnone : ∀ p ∈ paths, Text.isBlankText p = false := by simpa using hblank
      dsimp only
      rw [Except.ok.injEq, Option.some.injEq]
      constructor
      · rintro rfl
        exact ⟨rfl, hnone, rfl⟩
      · rintro ⟨rfl, -, rfl⟩
        rfl
    | some p =>
      -- a blank path makes the entry an error, whatever its family
      apply iff_of_false (by simp)
      rintro ⟨-, hnone, -⟩
      have hp := hnone p (List.mem_of_find?_eq_some hblank)
      rw [List.find?_some hblank] at hp
      exact absurd hp (by decide)

/-- What the entries of a configuration are read as. -/
theorem mapM_ignoredEntry {pending : List (Family × List String)}
    (h : l.mapM (fun e => ignoredEntry e.1 e.2) = .ok pending) :
    (∀ f, pending.lookup f = Table.get? l f.name)
      ∧ ∀ f, f ∈ pending.map Prod.fst ↔ f.name ∈ l.map Prod.fst := by
  induction l generalizing pending with
  | nil =>
    obtain rfl := Except.ok.inj h
    simp
  | cons e l ih =>
    rw [List.mapM_cons] at h
    obtain ⟨e', he', h⟩ := Except.bind_eq_ok.mp h
    obtain ⟨rest, hrest, h⟩ := Except.bind_eq_ok.mp h
    obtain rfl := Except.ok.inj h
    obtain ⟨hname, -, hpaths⟩ := ignoredEntry_eq_ok.mp he'
    rw [Family.ofName?_eq_some_iff] at hname
    obtain ⟨hlookup, hmem⟩ := ih hrest
    constructor
    · intro f
      -- families are looked up here and their names there, and names tell families apart
      rw [List.lookup_cons, hlookup, Table.get?_cons, hname, hpaths]
      by_cases hf : f = e'.1
      · simp [hf]
      · have hne : e'.1.name ≠ f.name := fun h => hf (Family.name_inj h).symm
        simp [beq_false_of_ne hf, hne]
    · intro f
      rw [List.map_cons, List.map_cons, List.mem_cons, List.mem_cons, hmem, hname]
      constructor
      · rintro (rfl | h)
        · exact Or.inl rfl
        · exact Or.inr h
      · rintro (h | h)
        · exact Or.inl (Family.name_inj h)
        · exact Or.inr h

/-- The entries can be read if each of them can. -/
theorem exists_mapM_iff :
    (∃ pending, l.mapM (fun e => ignoredEntry e.1 e.2) = .ok pending) ↔ ∀ e ∈ l,
      (∃ f, Family.ofName? e.1 = some f) ∧ ∀ p ∈ e.2, Text.isBlankText p = false := by
  induction l with
  | nil => exact iff_of_true ⟨[], rfl⟩ (by simp)
  | cons e l ih =>
    rw [List.forall_mem_cons, ← ih]
    constructor
    · rintro ⟨pending, h⟩
      rw [List.mapM_cons] at h
      obtain ⟨e', he', h⟩ := Except.bind_eq_ok.mp h
      obtain ⟨rest, hrest, -⟩ := Except.bind_eq_ok.mp h
      obtain ⟨hname, hblank, -⟩ := ignoredEntry_eq_ok.mp he'
      exact ⟨⟨⟨_, hname⟩, hblank⟩, rest, hrest⟩
    · rintro ⟨⟨⟨f, hname⟩, hblank⟩, rest, hrest⟩
      have hentry : ignoredEntry e.1 e.2 = .ok (f, e.2) :=
        ignoredEntry_eq_ok.mpr ⟨hname, hblank, rfl⟩
      refine ⟨(f, e.2) :: rest, ?_⟩
      rw [List.mapM_cons, hentry, hrest]
      rfl

end Config

namespace Rules

/-- To ignore no paths is to change nothing. -/
theorem ignoring_nil (rules : Rules) : rules.ignoring [] = rules := by
  cases rules
  simp [ignoring]

end Rules

namespace Engine

theorem rulesIgnoring_eq (f : Family) (paths : List String) :
    rulesIgnoring f paths = (Rules.builtIn f).ignoring paths := by
  unfold rulesIgnoring
  split
  · next h => rw [List.isEmpty_iff.mp h, Rules.ignoring_nil]
  · rfl

/-! ### Registration -/

variable {e : Engine} {pending : List (Family × List String)} {fs : List Family} {f : Family}

/-- The paths that no listed family takes are left. -/
theorem left_registerAll : (registerAll e pending fs).2 = pending.filter fun p => p.1 ∉ fs := by
  induction fs generalizing e pending with
  | nil => simp [registerAll]
  | cons g fs ih =>
    rw [registerAll, ih, List.filter_filter]
    refine List.filter_congr fun p _ => ?_
    simp [Bool.and_comm]

theorem lookup_filter_ne (g : Family) :
    (pending.filter fun p => p.1 ≠ g).lookup f = if f = g then none else pending.lookup f := by
  induction pending with
  | nil => simp
  | cons p pending ih =>
    obtain ⟨h, paths⟩ := p
    rw [List.filter_cons]
    by_cases hg : h = g
    · subst hg
      rw [if_neg (by simp), ih, List.lookup_cons]
      by_cases hf : f = h
      · simp [hf]
      · simp [hf, beq_false_of_ne hf]
    · rw [if_pos (by simpa using hg), List.lookup_cons, List.lookup_cons, ih]
      by_cases hf : f = h
      · simp [hf, hg]
      · simp [beq_false_of_ne hf]

/-- **The rules after registration**: a family keeps the paths that are ignored for it if it is
listed once. -/
theorem rules?_registerAll : (registerAll e pending fs).1.rules? f
    = if f ∈ fs then
        some ((Rules.builtIn f).ignoring
          (if fs.count f = 1 then (pending.lookup f).getD [] else []))
      else e.rules? f := by
  induction fs generalizing e pending with
  | nil => simp [registerAll]
  | cons g fs ih =>
    rw [registerAll, ih, lookup_filter_ne, rules?_register, rulesIgnoring_eq,
      Rules.ignoring_family, Rules.family_builtIn]
    by_cases hf : f = g
    · subst hf
      by_cases hmem : f ∈ fs
      · -- listed again: the first occurrence has taken the paths
        have hcount : ¬(f :: fs).count f = 1 := by
          have hpos := List.count_pos_iff.mpr hmem
          rw [List.count_cons_self]
          omega
        rw [if_pos hmem, if_pos List.mem_cons_self, if_neg hcount, if_pos rfl]
        split <;> rfl
      · have hcount : (f :: fs).count f = 1 := by
          rw [List.count_cons_self, List.count_eq_zero_of_not_mem hmem]
        rw [if_neg hmem, if_pos rfl, if_pos List.mem_cons_self, if_pos hcount]
    · have hcount : (g :: fs).count f = fs.count f := List.count_cons_of_ne (Ne.symm hf)
      simp [hf, hcount]

theorem ofConfig_eq_ok_iff {c : Config} : ofConfig c = .ok e ↔ ∃ pending, c.ignored = .ok pending
    ∧ (∀ f ∈ pending.map Prod.fst, f ∈ c.families)
    ∧ (registerAll empty pending c.families).1 = e := by
  unfold ofConfig
  cases hignored : c.ignored with
  | error fault => simp
  | ok pending =>
    rcases hregister : registerAll empty pending c.families with ⟨e', left⟩
    have hleft : left = pending.filter fun p => p.1 ∉ c.families := by
      rw [← left_registerAll, hregister]
    -- nothing is left over if and only if every family with ignored paths is listed
    have hnone : Family.all.find? (fun f => (left.lookup f).isSome) = none
        ↔ ∀ f ∈ pending.map Prod.fst, f ∈ c.families := by
      rw [List.find?_eq_none]
      constructor
      · intro h f hf
        by_contra hnot
        refine h f (Family.mem_all f) (List.lookup_isSome_iff_mem.mpr ?_)
        obtain ⟨p, hp, rfl⟩ := List.mem_map.mp hf
        exact hleft ▸ List.mem_map_of_mem (List.mem_filter.mpr ⟨hp, decide_eq_true hnot⟩)
      · intro h f _ hsome
        obtain ⟨p, hp, rfl⟩ := List.mem_map.mp (List.lookup_isSome_iff_mem.mp hsome)
        obtain ⟨hp, hnot⟩ := List.mem_filter.mp (hleft ▸ hp)
        exact of_decide_eq_true hnot (h p.1 (List.mem_map_of_mem hp))
    dsimp only
    rw [hregister]
    dsimp only
    cases hfind : Family.all.find? fun f => (left.lookup f).isSome with
    | none =>
      rw [Except.ok.injEq]
      constructor
      · rintro rfl
        exact ⟨pending, rfl, hnone.mp hfind, by rw [hregister]⟩
      · rintro ⟨_, hpending, -, hengine⟩
        obtain rfl := Except.ok.inj hpending
        rw [← hengine, hregister]
    | some f =>
      have hnot : ¬∀ f ∈ pending.map Prod.fst, f ∈ c.families := by
        rw [← hnone, hfind]
        simp
      apply iff_of_false (by simp)
      rintro ⟨_, hpending, hall, -⟩
      exact hnot (Except.ok.inj hpending ▸ hall)

/-- **A configuration has an engine** if the keys of its ignored paths are names of listed families
and none of the paths is blank. -/
theorem exists_ofConfig_iff (c : Config) : (∃ e, ofConfig c = .ok e) ↔ ∀ entry ∈ c.ignoredPaths,
    (∃ f ∈ c.families, Family.ofName? entry.1 = some f)
      ∧ ∀ p ∈ entry.2, Text.isBlankText p = false := by
  simp only [ofConfig_eq_ok_iff]
  constructor
  · rintro ⟨e, pending, hpending, hall, -⟩ entry hentry
    obtain ⟨⟨f, hname⟩, hblank⟩ := Config.exists_mapM_iff.mp ⟨pending, hpending⟩ entry hentry
    refine ⟨⟨f, hall f ?_, hname⟩, hblank⟩
    rw [(Config.mapM_ignoredEntry hpending).2, ← Family.ofName?_eq_some_iff.mp hname]
    exact List.mem_map_of_mem hentry
  · intro h
    obtain ⟨pending, hpending⟩ := Config.exists_mapM_iff.mpr fun entry hentry => by
      obtain ⟨⟨f, -, hname⟩, hblank⟩ := h entry hentry
      exact ⟨⟨f, hname⟩, hblank⟩
    refine ⟨_, pending, hpending, fun f hf => ?_, rfl⟩
    rw [(Config.mapM_ignoredEntry hpending).2] at hf
    obtain ⟨entry, hentry, hname⟩ := List.mem_map.mp hf
    -- the listed family has the same name, so it is the same family
    obtain ⟨⟨g, hg, hgname⟩, -⟩ := h entry hentry
    rw [Family.ofName?_eq_some_iff] at hgname
    rwa [Family.name_inj (hname.symm.trans hgname)]

/-- The rules of an engine that was made from a configuration. -/
theorem rules?_ofConfig {c : Config} (h : ofConfig c = .ok e) (f : Family) : e.rules? f
    = if f ∈ c.families then
        some ((Rules.builtIn f).ignoring (if c.families.count f = 1 then c.pathsOf f else []))
      else none := by
  obtain ⟨pending, hpending, -, rfl⟩ := ofConfig_eq_ok_iff.mp h
  rw [rules?_registerAll, (Config.mapM_ignoredEntry hpending).1, rules?_empty, Config.pathsOf]

theorem diff_of_rules? {rules : Rules} (h : e.rules? f = some rules) (old new : Option Json) :
    e.diff f old new = rules.diff old new := by
  rw [diff, Engine.rules, h]
  rfl

/-- Below the paths that built-in rules ignore nothing is told. -/
theorem within_eq_false_of_diff {paths : List String} {old new : Option Json} {r : ChangeRecord}
    (h : ((Rules.builtIn f).ignoring paths).diff old new = .ok (some r)) :
    (∀ change ∈ r.fields, ∀ p ∈ paths, Path.within change.path p = false)
      ∧ ∀ change ∈ r.collections, ∀ p ∈ paths, Path.within change.name p = false := by
  have hwithin : ∀ {path}, ((Rules.builtIn f).ignoring paths).reportable path →
      ∀ p ∈ paths, Path.within path p = false := by
    intro path hpath p hp
    rw [Rules.ignoring_reportable, Bool.and_eq_true, Bool.not_eq_true', List.any_eq_false] at hpath
    exact Bool.not_eq_true _ ▸ hpath.2 p hp
  -- to ignore paths leaves the shape as it is
  have hnames : ((Rules.builtIn f).ignoring paths).shape.isAddressable :=
    Rules.isAddressable_builtIn f
  obtain ⟨hfields, hcollections⟩ := Rules.reportable_of_diff_eq_ok hnames h
  exact ⟨fun change hchange => hwithin (hfields change hchange),
    fun change hchange => hwithin (hcollections change hchange)⟩

/-- **The engine of a configuration.**  There is one exactly for a sound configuration.  It supports
the listed families.  A family that is listed once is compared without the paths ignored for it, so
nothing is told at them or below; a family that is listed again is compared by its built-in rules,
whatever is ignored for it. -/
theorem ofConfig_spec (c : Config) :
    ((∃ e, ofConfig c = .ok e) ↔ ∀ entry ∈ c.ignoredPaths,
      (∃ f ∈ c.families, Family.ofName? entry.1 = some f)
        ∧ ∀ p ∈ entry.2, Text.isBlankText p = false)
    ∧ ∀ e, ofConfig c = .ok e →
      (∀ f, e.supports f ↔ f ∈ c.families)
      ∧ ∀ f ∈ c.families, ∀ old new,
        (c.families.count f = 1 →
          e.diff f old new = ((Rules.builtIn f).ignoring (c.pathsOf f)).diff old new
          ∧ ∀ r, e.diff f old new = .ok (some r) →
            (∀ change ∈ r.fields, ∀ p ∈ c.pathsOf f, Path.within change.path p = false)
            ∧ ∀ change ∈ r.collections, ∀ p ∈ c.pathsOf f, Path.within change.name p = false)
        ∧ (c.families.count f ≠ 1 → e.diff f old new = (Rules.builtIn f).diff old new) := by
  refine ⟨exists_ofConfig_iff c, fun e he => ⟨fun f => ?_, fun f hf old new => ?_⟩⟩
  · rw [supports, rules?_ofConfig he]
    split <;> simp [*]
  · have hrules := rules?_ofConfig he f
    rw [if_pos hf] at hrules
    refine ⟨fun hcount => ?_, fun hcount => ?_⟩
    · rw [if_pos hcount] at hrules
      have hdiff := diff_of_rules? hrules old new
      exact ⟨hdiff, fun r hr => within_eq_false_of_diff (hdiff ▸ hr)⟩
    · rw [if_neg hcount, Rules.ignoring_nil] at hrules
      exact diff_of_rules? hrules old new

/-- One configuration ignores the barcodes of items, another one, which lists items twice, does
not. -/
theorem ofConfig_spec_barcode :
    (∃ e, ofConfig ⟨[.item], [("item", ["barcode"])]⟩ = .ok e ∧ ∀ old new,
      e.diff .item old new = ((Rules.builtIn .item).ignoring ["barcode"]).diff old new)
    ∧ ∃ e, ofConfig ⟨[.item, .item], [("item", ["barcode"])]⟩ = .ok e ∧ ∀ old new,
      e.diff .item old new = (Rules.builtIn .item).diff old new := by
  have hsound : ∀ families : List Family, Family.item ∈ families →
      ∃ e, ofConfig ⟨families, [("item", ["barcode"])]⟩ = .ok e := by
    refine fun families hmem => (ofConfig_spec _).1.mpr fun entry hentry => ?_
    rw [List.mem_singleton.mp hentry]
    exact ⟨⟨.item, hmem, by decide⟩, by decide⟩
  obtain ⟨e, he⟩ := hsound [.item] (by decide)
  obtain ⟨e', he'⟩ := hsound [.item, .item] (by decide)
  refine ⟨⟨e, he, fun old new => ?_⟩, e', he', fun old new => ?_⟩
  · exact ((((ofConfig_spec _).2 e he).2 .item (by decide) old new).1 (by decide)).1
  · exact (((ofConfig_spec _).2 e' he').2 .item (by decide) old new).2 (by decide)

end Engine

end SnapshotDiff
