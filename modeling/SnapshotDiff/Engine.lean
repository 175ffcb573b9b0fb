import SnapshotDiff.Comparison
import SnapshotDiff.Config

/-!
# Engines

## Main definitions

* `Engine` — the rules in use, by family.
* `Engine.register`, `Engine.families`, `Engine.diff` — the operations.
* `Engine.ofConfig` — the engine of a configuration.
-/

namespace SnapshotDiff

/-- The rules in use, by family. -/
structure Engine where
  rules? : Family → Option Rules

namespace Engine

/-- No family is in use. -/
def empty : Engine := ⟨fun _ => none⟩

/-- Puts rules into use, in place of others for their family. -/
def register (e : Engine) (rules : Rules) : Engine :=
  ⟨fun f => if f = rules.family then some rules else e.rules? f⟩

/-- Every family is in use with its built-in rules. -/
def standard : Engine := Family.all.foldl (fun e f => e.register (.builtIn f)) empty

/-- The family is in use. -/
def supports (e : Engine) (f : Family) : Bool := (e.rules? f).isSome

/-- The families in use, in their order. -/
def families (e : Engine) : List Family := Family.all.filter e.supports

/-- The rules in use for a family. -/
def rules (e : Engine) (f : Family) : Except DiffError Rules :=
  match e.rules? f with
  | some rules => .ok rules
  | none => .error (.unsupported f)

/-- The record of the changes between two snapshots of a family. -/
def diff (e : Engine) (f : Family) (old new : Option Json) :
    Except DiffError (Option ChangeRecord) := do
  (← e.rules f).diff old new

/-- The built-in rules of a family without the given paths. -/
def rulesIgnoring (f : Family) (paths : List String) : Rules :=
  if paths.isEmpty then .builtIn f else (Rules.builtIn f).ignoring paths

/-- Registers families in turn.  Each takes its paths from `pending`, where they are left for no
one else. -/
def registerAll (e : Engine) (pending : List (Family × List String)) :
    List Family → Engine × List (Family × List String)
  | [] => (e, pending)
  | f :: fs =>
    registerAll (e.register (rulesIgnoring f ((pending.lookup f).getD [])))
      (pending.filter fun entry => entry.1 ≠ f) fs

/-- The engine of a configuration: the listed families, each with its built-in rules and
without its ignored paths. -/
def ofConfig (c : Config) : Except DiffError Engine :=
  match c.ignored with
  | .error fault => .error (.config fault)
  | .ok pending =>
    let (e, left) := registerAll empty pending c.families
    match Family.all.find? fun f => (left.lookup f).isSome with
    | some f => .error (.config (.unusedFamily f))
    | none => .ok e

@[simp] theorem rules?_empty (f : Family) : empty.rules? f = none := rfl

@[simp] theorem rules?_register (e : Engine) (rules : Rules) (f : Family) :
    (e.register rules).rules? f = if f = rules.family then some rules else e.rules? f := rfl

theorem supports_register (e : Engine) (rules : Rules) (f : Family) :
    (e.register rules).supports f = (decide (f = rules.family) || e.supports f) := by
  by_cases h : f = rules.family <;> simp [supports, h]

/-- The standard engine has rules for every family. -/
theorem families_standard : standard.families = Family.all := by decide

end Engine

end SnapshotDiff
