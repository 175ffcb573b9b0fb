import SnapshotDiff.Instant.Parser
import SnapshotDiff.Proofs.Text.Scan

/-!
# The parts of the texts of instants

The texts of instants are put together from numbers, a fraction and an offset.  Each part is given
here by what its texts look like, and its scan reads these texts and no others.

## Main definitions

* `Instant.IsLooseNumber`, `Instant.IsLooseYear` — numbers behind white space.
* `Instant.IsDateText`, `Instant.IsTimeText` — a date and a time of day.
* `Instant.IsOffset`, `Instant.IsZone` — how far the clock is ahead.
* `Instant.behindDate`, `Instant.behindTime` — scans that begin with a date or a time of day.

## Main results

* `Instant.reads_looseYear`, `Instant.reads_fraction`, `Instant.reads_offset` — **the scan of a part
  reads the texts of the part.**
* `Instant.exists_of_behindDate`, `Instant.behindDate_append` and the same for times — a scan goes
  on behind a date or a time if and only if it has read one.
-/

namespace SnapshotDiff

open Numeral (IsNumber)
open Scan (Reads)

namespace Instant

/-! ### Texts -/

/-- One or two digits behind white space. -/
def IsLooseNumber (n : Nat) (cs : List Char) : Prop :=
  ∃ bs ds, cs = bs ++ ds ∧ (∀ c ∈ bs, Text.isBlank c) ∧ IsNumber 1 2 n ds

/-- Up to four digits, or a sign and any digits, behind white space. -/
inductive IsLooseYear : Int → List Char → Prop
  | plain {n : Nat} {bs ds : List Char} (hbs : ∀ c ∈ bs, Text.isBlank c)
    (hds : IsNumber 1 4 n ds) : IsLooseYear n (bs ++ ds)
  | minus {n : Nat} {bs ds : List Char} (hbs : ∀ c ∈ bs, Text.isBlank c)
    (hds : IsNumber 1 ds.length n ds) : IsLooseYear (-n) (bs ++ '-' :: ds)
  | plus {n : Nat} {bs ds : List Char} (hbs : ∀ c ∈ bs, Text.isBlank c)
    (hds : IsNumber 1 ds.length n ds) : IsLooseYear n (bs ++ '+' :: ds)

/-- Year, month and day with hyphens between them. -/
def IsDateText {υ : Type} (isYear : υ → List Char → Prop) (isNumber : Nat → List Char → Prop)
    (year : υ) (month day : Nat) (cs : List Char) : Prop :=
  ∃ ys ms ds, cs = ys ++ '-' :: (ms ++ '-' :: ds) ∧ isYear year ys ∧ isNumber month ms
    ∧ isNumber day ds

/-- A point with digits behind it, or nothing. -/
def IsFraction (fs cs : List Char) : Prop :=
  fs = [] ∧ cs = [] ∨ cs = '.' :: fs ∧ fs ≠ [] ∧ ∀ c ∈ fs, c.isDigit

/-- Hour, minute and second with colons between them, and a fraction. -/
def IsTimeText (isNumber : Nat → List Char → Prop) (hour minute second : Nat)
    (fs cs : List Char) : Prop :=
  ∃ hs ns ss ps, cs = hs ++ ':' :: (ns ++ ':' :: (ss ++ ps)) ∧ isNumber hour hs
    ∧ isNumber minute ns ∧ isNumber second ss ∧ IsFraction fs ps

/-- A plus, or a hyphen or minus. -/
def IsSign (s : Int) (c : Char) : Prop := s = 1 ∧ c = '+' ∨ s = -1 ∧ (c = '-' ∨ c = '\u2212')

/-- Colons and white space, or nothing. -/
def IsLooseSeparator (cs : List Char) : Prop := ∀ c ∈ cs, c = ':' ∨ Text.isBlank c

/-- A sign, two-digit hours and two-digit minutes, less than a day. -/
def IsOffset (isSeparator : List Char → Prop) (offset : Int) (cs : List Char) : Prop :=
  ∃ s c hours minutes hs ss ms, cs = c :: (hs ++ (ss ++ ms)) ∧ IsSign s c
    ∧ IsNumber 2 2 hours hs ∧ isSeparator ss ∧ IsNumber 2 2 minutes ms
    ∧ (hours < 24 ∧ minutes < 60) ∧ s * ((hours * 60 + minutes) * 60 : Nat) = offset

/-- A `Z` in either case, or an offset with a colon in it. -/
def IsZone (offset : Int) (cs : List Char) : Prop :=
  offset = 0 ∧ (cs = ['Z'] ∨ cs = ['z']) ∨ IsOffset (· = [':']) offset cs

/-! ### Numbers -/

variable {β : Type} {b : β} {ds mid rest : List Char}

/-- The first character of a number is a digit. -/
theorem isDigit_of_mem_head {least most n : Nat} (h : IsNumber least most n ds) (hleast : 0 < least)
    (rest : List Char) : ∀ c ∈ (ds ++ rest).head?, c.isDigit := by
  cases ds with
  | nil => exact absurd h.least (Nat.not_le.mpr hleast)
  | cons d ds => exact fun c hc => Option.some.inj hc ▸ h.digits d List.mem_cons_self

theorem blanks_of_isNumber {least most n : Nat} {bs : List Char} (hbs : ∀ c ∈ bs, Text.isBlank c)
    (h : IsNumber least most n ds) (hleast : 0 < least) (rest : List Char) :
    Scan.blanks (bs ++ (ds ++ rest)) = some ((), ds ++ rest) :=
  Scan.reads_blanks.complete hbs fun c hc =>
    Text.isBlank_of_isDigit (isDigit_of_mem_head h hleast rest c hc)

theorem reads_looseNumber : Reads looseNumber IsLooseNumber (fun c => c.isDigit = false) where
  sound {n cs rest} h := by
    obtain ⟨u, mid, hblanks, hnumber⟩ := Scan.exists_of_bind h
    obtain ⟨bs, rfl, hbs⟩ := Scan.reads_blanks.sound hblanks
    obtain ⟨ds, rfl, hds⟩ := Scan.number_eq_some hnumber
    exact ⟨bs ++ ds, (List.append_assoc _ _ _).symm, bs, ds, rfl, hbs, hds⟩
  complete {n cs rest} h hrest := by
    obtain ⟨bs, ds, rfl, hbs, hds⟩ := h
    rw [List.append_assoc]
    refine (Scan.bind_eq (blanks_of_isNumber hbs hds (by decide) rest)).trans ?_
    exact (Scan.reads_number 1 2).complete hds hrest

/-- A sign in front of digits, behind white space. -/
theorem blanks_of_sign {bs : List Char} (hbs : ∀ c ∈ bs, Text.isBlank c) {c : Char}
    (hc : Text.isBlank c = false) (cs : List Char) :
    Scan.blanks (bs ++ c :: cs) = some ((), c :: cs) :=
  Scan.reads_blanks.complete hbs fun _ hd => Option.some.inj hd ▸ hc

theorem reads_looseYear : Reads looseYear IsLooseYear (fun c => c.isDigit = false) where
  sound {year cs rest} h := by
    obtain ⟨u, mid, hblanks, hyear⟩ := Scan.exists_of_bind h
    obtain ⟨bs, rfl, hbs⟩ := Scan.reads_blanks.sound hblanks
    rw [Scan.get_bind] at hyear
    clear h hblanks
    split at hyear
    · obtain ⟨u, mid', hmark, hlong⟩ := Scan.exists_of_bind hyear
      obtain ⟨n, mid'', hn, hpure⟩ := Scan.exists_of_bind hlong
      obtain ⟨ds, rfl, hds⟩ := Scan.reads_longNumber.sound hn
      obtain ⟨rfl, rfl⟩ := Scan.pure_eq_some_iff.mp hpure
      exact ⟨bs ++ '-' :: ds, by simp [Scan.mark_eq_some hmark], .minus hbs hds⟩
    · obtain ⟨u, mid', hmark, hlong⟩ := Scan.exists_of_bind hyear
      obtain ⟨n, mid'', hn, hpure⟩ := Scan.exists_of_bind hlong
      obtain ⟨ds, rfl, hds⟩ := Scan.reads_longNumber.sound hn
      obtain ⟨rfl, rfl⟩ := Scan.pure_eq_some_iff.mp hpure
      exact ⟨bs ++ '+' :: ds, by simp [Scan.mark_eq_some hmark], .plus hbs hds⟩
    · obtain ⟨n, mid', hn, hpure⟩ := Scan.exists_of_bind hyear
      obtain ⟨ds, rfl, hds⟩ := Scan.number_eq_some hn
      obtain ⟨rfl, rfl⟩ := Scan.pure_eq_some_iff.mp hpure
      exact ⟨bs ++ ds, (List.append_assoc _ _ _).symm, .plain hbs hds⟩
  complete {year cs rest} h hrest := by
    cases h with
    | @plain n bs ds hbs hds =>
      have hread : (Scan.number 1 4 >>= fun n => pure (n : Int)) (ds ++ rest)
          = some ((n : Int), rest) :=
        Scan.bind_eq ((Scan.reads_number 1 4).complete hds hrest)
      have hfirst := isDigit_of_mem_head hds (by decide) rest
      rw [List.append_assoc]
      refine (Scan.bind_eq (blanks_of_isNumber hbs hds (by decide) rest)).trans ?_
      refine (Scan.get_bind _ _).trans (Eq.trans (congrFun ?_ _) hread)
      -- a digit is no sign
      split
      · next heq => exact absurd (hfirst '-' (by rw [heq]; rfl)) (by decide)
      · next heq => exact absurd (hfirst '+' (by rw [heq]; rfl)) (by decide)
      · rfl
    | @minus n bs ds hbs hds =>
      rw [List.append_assoc]
      refine (Scan.bind_eq (blanks_of_sign hbs (by decide) _)).trans ?_
      refine (Scan.get_bind _ _).trans ?_
      refine (Scan.bind_eq (Scan.mark_cons _ _)).trans ?_
      exact Scan.bind_eq (Scan.reads_longNumber.complete hds hrest)
    | @plus n bs ds hbs hds =>
      rw [List.append_assoc]
      refine (Scan.bind_eq (blanks_of_sign hbs (by decide) _)).trans ?_
      refine (Scan.get_bind _ _).trans ?_
      refine (Scan.bind_eq (Scan.mark_cons _ _)).trans ?_
      exact Scan.bind_eq (Scan.reads_longNumber.complete hds hrest)

/-! ### Fractions -/

/-- A fraction is read as the nanoseconds that it counts. -/
theorem reads_fraction : Reads fraction (fun k cs => ∃ fs, IsFraction fs cs ∧ nanoseconds fs = k)
    (fun c => c ≠ '.' ∧ c.isDigit = false) where
  sound {k cs rest} h := by
    rw [fraction, Scan.get_bind] at h
    split at h
    · obtain ⟨u, mid, hmark, hget⟩ := Scan.exists_of_bind h
      rw [Scan.get_bind] at hget
      obtain ⟨fs, mid', hread, hpure⟩ := Scan.exists_of_bind hget
      obtain ⟨hmid, hfs⟩ := Scan.digits_eq_some hread
      obtain ⟨rfl, rfl⟩ := Scan.pure_eq_some_iff.mp hpure
      refine ⟨'.' :: fs, ?_, fs, Or.inr ⟨rfl, List.length_pos_iff.mp hfs.least, hfs.digits⟩, rfl⟩
      rw [Scan.mark_eq_some hmark, hmid, List.cons_append]
    · obtain ⟨rfl, rfl⟩ := Scan.pure_eq_some_iff.mp h
      exact ⟨[], rfl, [], Or.inl ⟨rfl, rfl⟩, rfl⟩
  complete {k cs rest} h hrest := by
    obtain ⟨fs, ⟨rfl, rfl⟩ | ⟨rfl, hne, hfs⟩, rfl⟩ := h
    · rw [List.nil_append, fraction, Scan.get_bind]
      split
      · exact absurd rfl (hrest '.' rfl).1
      · rfl
    · refine (Scan.get_bind _ _).trans ((Scan.bind_eq (Scan.mark_cons _ _)).trans ?_)
      refine (Scan.get_bind _ _).trans (Scan.bind_eq (Scan.digits_append hfs ?_ ?_))
      · exact List.length_pos_iff.mpr hne
      · exact Or.inr ⟨by simp, fun c hc => (hrest c hc).2⟩

/-! ### Offsets -/

theorem reads_sign : Reads sign (fun s cs => ∃ c, IsSign s c ∧ cs = [c]) (fun _ => True) where
  sound {s cs rest} h := by
    rcases Scan.orElse_eq_some h with h | ⟨-, h⟩
    · obtain ⟨u, mid, hmark, hpure⟩ := Scan.exists_of_bind h
      obtain ⟨rfl, rfl⟩ := Scan.pure_eq_some_iff.mp hpure
      exact ⟨['+'], Scan.mark_eq_some hmark, '+', Or.inl ⟨rfl, rfl⟩, rfl⟩
    · obtain ⟨u, mid, hone, hpure⟩ := Scan.exists_of_bind h
      obtain ⟨rfl, rfl⟩ := Scan.pure_eq_some_iff.mp hpure
      obtain ⟨c, hc, hcs⟩ := Scan.one_eq_some hone
      exact ⟨[c], hcs, c, Or.inr ⟨rfl, by simpa using hc⟩, rfl⟩
  complete {s cs rest} h _ := by
    obtain ⟨c, ⟨rfl, rfl⟩ | ⟨rfl, rfl | rfl⟩, rfl⟩ := h <;> rfl

theorem reads_looseSeparator :
    Reads looseSeparator (fun _ => IsLooseSeparator) (fun c => c.isDigit) where
  sound {u cs rest} h := by
    obtain rfl : cs.dropWhile (fun c => c = ':' || Text.isBlank c) = rest :=
      (Prod.mk.inj (Option.some.inj h)).2
    refine ⟨_, List.takeWhile_append_dropWhile.symm, fun c hc => ?_⟩
    simpa using List.mem_takeWhile_imp hc
  complete {u ss rest} hss hrest := by
    have hdrop : (ss ++ rest).dropWhile (fun c => c = ':' || Text.isBlank c) = rest := by
      rw [List.dropWhile_append_of_pos (by simpa [IsLooseSeparator] using hss)]
      cases rest with
      | nil => rfl
      | cons c rest =>
        have hc := hrest c rfl
        have hcolon : c ≠ ':' := by
          rintro rfl
          exact absurd hc (by decide)
        rw [List.dropWhile_cons_of_neg (by simp [hcolon, Text.isBlank_of_isDigit hc])]
    exact congrArg (fun cs => some ((), cs)) hdrop

theorem reads_mark (c : Char) : Reads (Scan.mark c) (fun _ cs => cs = [c]) (fun _ => True) where
  sound h := ⟨[c], Scan.mark_eq_some h, rfl⟩
  complete h _ := by rw [h]; exact Scan.mark_cons _ _

/-- An offset is read with either separator. -/
theorem reads_offset {separator : Scan Unit} {isSeparator : List Char → Prop} {stops : Char → Prop}
    (hsep : Reads separator (fun _ => isSeparator) stops)
    (hstops : ∀ {c : Char}, c.isDigit → stops c) :
    Reads (offset separator) (IsOffset isSeparator) (fun _ => True) where
  sound {o cs rest} h := by
    obtain ⟨s, cs₁, hsign, h₁⟩ := Scan.exists_of_bind h
    obtain ⟨hours, cs₂, hhours, h₂⟩ := Scan.exists_of_bind h₁
    obtain ⟨u, cs₃, hseparator, h₃⟩ := Scan.exists_of_bind h₂
    obtain ⟨minutes, cs₄, hminutes, h₄⟩ := Scan.exists_of_bind h₃
    obtain ⟨xs, rfl, c, hc, rfl⟩ := reads_sign.sound hsign
    obtain ⟨hs, rfl, hhs⟩ := Scan.number_eq_some hhours
    obtain ⟨ss, rfl, hss⟩ := hsep.sound hseparator
    obtain ⟨ms, rfl, hms⟩ := Scan.number_eq_some hminutes
    split at h₄
    · next hless =>
      obtain ⟨rfl, rfl⟩ := Scan.pure_eq_some_iff.mp h₄
      exact ⟨c :: (hs ++ (ss ++ ms)), by simp, s, c, hours, minutes, hs, ss, ms, rfl, hc, hhs, hss,
        hms, hless, rfl⟩
    · cases h₄
  complete {o cs rest} h _ := by
    obtain ⟨s, c, hours, minutes, hs, ss, ms, rfl, hc, hhs, hss, hms, hless, rfl⟩ := h
    have hdigit := isDigit_of_mem_head hms (by decide) rest
    have hread : separator (ss ++ (ms ++ rest)) = some ((), ms ++ rest) :=
      hsep.complete hss fun c hc => hstops (hdigit c hc)
    rw [List.cons_append, List.append_assoc, List.append_assoc]
    refine (Scan.bind_eq (reads_sign.complete ⟨c, hc, rfl⟩ fun _ _ => trivial)).trans ?_
    refine (Scan.bind_eq (Scan.number_eq_of_isNumber hhs _)).trans ?_
    refine (Scan.bind_eq hread).trans ?_
    refine (Scan.bind_eq (Scan.number_eq_of_isNumber hms _)).trans ?_
    rw [if_pos hless]
    rfl

theorem reads_colonOffset :
    Reads (offset (Scan.mark ':')) (IsOffset (· = [':'])) (fun _ => True) :=
  reads_offset (reads_mark ':') fun _ => trivial

theorem reads_looseOffset :
    Reads (offset looseSeparator) (IsOffset IsLooseSeparator) (fun _ => True) :=
  reads_offset reads_looseSeparator id

/-- An offset begins with a sign. -/
theorem exists_sign_of_isOffset {isSeparator : List Char → Prop} {o : Int} {zs : List Char}
    (h : IsOffset isSeparator o zs) :
    ∃ c cs, zs = c :: cs ∧ (c = '+' ∨ c = '-' ∨ c = '\u2212') := by
  obtain ⟨s, c, hours, minutes, hs, ss, ms, rfl, hc, -⟩ := h
  refine ⟨c, _, rfl, ?_⟩
  rcases hc with ⟨-, rfl⟩ | ⟨-, hc⟩
  · exact Or.inl rfl
  · exact Or.inr hc

theorem zulu_eq_none {isSeparator : List Char → Prop} {o : Int} {zs : List Char}
    (h : IsOffset isSeparator o zs) (rest : List Char) : zulu (zs ++ rest) = none := by
  obtain ⟨c, cs, rfl, rfl | rfl | rfl⟩ := exists_sign_of_isOffset h <;> rfl

/-- An offset that is written by a `Z`, or with a colon. -/
theorem reads_zone :
    Reads (Scan.orElse zulu (offset (Scan.mark ':'))) IsZone (fun _ => True) where
  sound {o cs rest} h := by
    rcases Scan.orElse_eq_some h with h | ⟨-, h⟩
    · obtain ⟨u, mid, hone, hpure⟩ := Scan.exists_of_bind h
      obtain ⟨rfl, rfl⟩ := Scan.pure_eq_some_iff.mp hpure
      obtain ⟨c, hc, hcs⟩ := Scan.one_eq_some hone
      exact ⟨[c], hcs, Or.inl ⟨rfl, by simpa using hc⟩⟩
    · obtain ⟨zs, hcs, hzs⟩ := reads_colonOffset.sound h
      exact ⟨zs, hcs, Or.inr hzs⟩
  complete {o cs rest} h hrest := by
    rcases h with ⟨rfl, rfl | rfl⟩ | hzs
    · rfl
    · rfl
    · rw [Scan.orElse, zulu_eq_none hzs]
      exact reads_colonOffset.complete hzs hrest

/-! ### Dates and times -/

section

variable {υ : Type} {readYear : Scan υ} {readNumber : Scan Nat} {isYear : υ → List Char → Prop}
  {isNumber : Nat → List Char → Prop} {year : υ} {month day hour minute second : Nat}
  {fs ts : List Char}

/-- A scan that goes on behind a date. -/
def behindDate (readYear : Scan υ) (readNumber : Scan Nat) (f : υ → Nat → Nat → Scan β) :
    Scan β := do
  let year ← readYear
  Scan.mark '-'
  let month ← readNumber
  Scan.mark '-'
  let day ← readNumber
  f year month day

/-- A scan that goes on behind a time of day. -/
def behindTime (readNumber : Scan Nat) (f : Nat → Nat → Nat → Nat → Scan β) : Scan β := do
  let hour ← readNumber
  Scan.mark ':'
  let minute ← readNumber
  Scan.mark ':'
  let second ← readNumber
  let nanosecond ← fraction
  f hour minute second nanosecond

/-- A scan that goes on behind a date has read the date. -/
theorem exists_of_behindDate (hyear : Reads readYear isYear (fun c => c.isDigit = false))
    (hnumber : Reads readNumber isNumber (fun c => c.isDigit = false))
    {f : υ → Nat → Nat → Scan β} {cs : List Char}
    (h : behindDate readYear readNumber f cs = some (b, rest)) :
    ∃ year month day ds mid, cs = ds ++ mid ∧ IsDateText isYear isNumber year month day ds
      ∧ f year month day mid = some (b, rest) := by
  obtain ⟨year, cs₁, hread, h₁⟩ := Scan.exists_of_bind h
  obtain ⟨u, cs₂, hmark, h₂⟩ := Scan.exists_of_bind h₁
  obtain ⟨month, cs₃, hread', h₃⟩ := Scan.exists_of_bind h₂
  obtain ⟨u', cs₄, hmark', h₄⟩ := Scan.exists_of_bind h₃
  obtain ⟨day, cs₅, hread'', h₅⟩ := Scan.exists_of_bind h₄
  obtain ⟨ys, hcs, hys⟩ := hyear.sound hread
  obtain ⟨ms, hcs₂, hms⟩ := hnumber.sound hread'
  obtain ⟨ds, hcs₄, hds⟩ := hnumber.sound hread''
  refine ⟨year, month, day, ys ++ '-' :: (ms ++ '-' :: ds), cs₅, ?_,
    ⟨ys, ms, ds, rfl, hys, hms, hds⟩, h₅⟩
  rw [hcs, Scan.mark_eq_some hmark, hcs₂, Scan.mark_eq_some hmark', hcs₄]
  simp

/-- A scan goes on behind a date. -/
theorem behindDate_append (hyear : Reads readYear isYear (fun c => c.isDigit = false))
    (hnumber : Reads readNumber isNumber (fun c => c.isDigit = false))
    {f : υ → Nat → Nat → Scan β} (hds : IsDateText isYear isNumber year month day ds)
    (hmid : ∀ c ∈ mid.head?, c.isDigit = false) :
    behindDate readYear readNumber f (ds ++ mid) = f year month day mid := by
  obtain ⟨ys, ms, ds, rfl, hys, hms, hds⟩ := hds
  simp only [List.append_assoc, List.cons_append]
  refine (Scan.bind_eq (hyear.complete hys (by simp))).trans ?_
  refine (Scan.bind_eq (Scan.mark_cons _ _)).trans ?_
  refine (Scan.bind_eq (hnumber.complete hms (by simp))).trans ?_
  refine (Scan.bind_eq (Scan.mark_cons _ _)).trans ?_
  exact Scan.bind_eq (hnumber.complete hds hmid)

/-- A scan that goes on behind a time has read the time. -/
theorem exists_of_behindTime (hnumber : Reads readNumber isNumber (fun c => c.isDigit = false))
    {f : Nat → Nat → Nat → Nat → Scan β} {cs : List Char}
    (h : behindTime readNumber f cs = some (b, rest)) :
    ∃ hour minute second fs ts mid, cs = ts ++ mid
      ∧ IsTimeText isNumber hour minute second fs ts
      ∧ f hour minute second (nanoseconds fs) mid = some (b, rest) := by
  obtain ⟨hour, cs₁, hread, h₁⟩ := Scan.exists_of_bind h
  obtain ⟨u, cs₂, hmark, h₂⟩ := Scan.exists_of_bind h₁
  obtain ⟨minute, cs₃, hread', h₃⟩ := Scan.exists_of_bind h₂
  obtain ⟨u', cs₄, hmark', h₄⟩ := Scan.exists_of_bind h₃
  obtain ⟨second, cs₅, hread'', h₅⟩ := Scan.exists_of_bind h₄
  obtain ⟨k, cs₆, hfraction, h₆⟩ := Scan.exists_of_bind h₅
  obtain ⟨hs, hcs, hhs⟩ := hnumber.sound hread
  obtain ⟨ns, hcs₂, hns⟩ := hnumber.sound hread'
  obtain ⟨ss, hcs₄, hss⟩ := hnumber.sound hread''
  obtain ⟨ps, hcs₅, fs, hps, rfl⟩ := reads_fraction.sound hfraction
  refine ⟨hour, minute, second, fs, hs ++ ':' :: (ns ++ ':' :: (ss ++ ps)), cs₆, ?_,
    ⟨hs, ns, ss, ps, rfl, hhs, hns, hss, hps⟩, h₆⟩
  rw [hcs, Scan.mark_eq_some hmark, hcs₂, Scan.mark_eq_some hmark', hcs₄, hcs₅]
  simp

/-- A scan goes on behind a time. -/
theorem behindTime_append (hnumber : Reads readNumber isNumber (fun c => c.isDigit = false))
    {f : Nat → Nat → Nat → Nat → Scan β} (hts : IsTimeText isNumber hour minute second fs ts)
    (hmid : ∀ c ∈ mid.head?, c ≠ '.' ∧ c.isDigit = false) :
    behindTime readNumber f (ts ++ mid) = f hour minute second (nanoseconds fs) mid := by
  obtain ⟨hs, ns, ss, ps, rfl, hhs, hns, hss, hps⟩ := hts
  have hpoint : ∀ c ∈ (ps ++ mid).head?, c.isDigit = false := by
    rcases hps with ⟨-, rfl⟩ | ⟨rfl, -⟩
    · exact fun c hc => (hmid c hc).2
    · simp
  simp only [List.append_assoc, List.cons_append]
  refine (Scan.bind_eq (hnumber.complete hhs (by simp))).trans ?_
  refine (Scan.bind_eq (Scan.mark_cons _ _)).trans ?_
  refine (Scan.bind_eq (hnumber.complete hns (by simp))).trans ?_
  refine (Scan.bind_eq (Scan.mark_cons _ _)).trans ?_
  refine (Scan.bind_eq (hnumber.complete hss hpoint)).trans ?_
  exact Scan.bind_eq (reads_fraction.complete ⟨fs, hps, rfl⟩ hmid)

end

end Instant

end SnapshotDiff
