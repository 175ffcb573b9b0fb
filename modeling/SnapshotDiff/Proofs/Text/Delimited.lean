import SnapshotDiff.Document.Quoted
import SnapshotDiff.Text.Listing

/-!
# Delimited texts

A text is *delimited* if a reader who counts brackets and skips what stands between quotes passes
over it without stopping.  Such a reader stops at the first comma or closing bracket that belongs
to nothing opened before it, so of a delimited text and a stop behind it the reader finds the stop,
whatever follows.  The keys of nodes are delimited, which is why texts that are built of keys and
stops can be taken apart again.

## Main definitions

* `fromStop` — the text from the first stop on.
* `Stops` — the text begins with a stop.
* `Delimited`, `Enclosed` — the reader passes over the text anywhere, or inside brackets.

## Main results

* `Delimited.eq_of_append` — the stop behind a delimited text is where it seems to be.
* `append_mark_inj` — so is a mark behind a text that does not hold it.
* `Enclosed.delimited_bracketed`, `delimited_quoted`, `enclosed_joined` — how such texts are built.
* `joined_inj` — how texts with commas between them are taken apart.
-/

namespace SnapshotDiff

namespace Text

/-- Where a reader stands with regard to quotes. -/
inductive Quotation
  | outside
  | inside
  /-- Inside, behind a backslash. -/
  | escaped

/-- The character opens a bracket. -/
def isOpening (c : Char) : Bool := c = '[' || c = '\x7b'

/-- The character closes a bracket. -/
def isClosing (c : Char) : Bool := c = ']' || c = '\x7d'

/-- The character means nothing to a reader who counts brackets. -/
def isPlain (c : Char) : Bool := c != '"' && !isOpening c && !isClosing c && c != ','

/-- The text from its first stop on, where `depth` brackets are open at its beginning. -/
def fromStop : Quotation → (depth : Nat) → List Char → List Char
  | _, _, [] => []
  | .outside, d, c :: cs =>
    if c = '"' then fromStop .inside d cs
    else if isOpening c then fromStop .outside (d + 1) cs
    else if isClosing c then
      match d with
      | 0 => c :: cs
      | d + 1 => fromStop .outside d cs
    else if c = ',' ∧ d = 0 then c :: cs
    else fromStop .outside d cs
  | .inside, d, c :: cs =>
    if c = '\\' then fromStop .escaped d cs
    else if c = '"' then fromStop .outside d cs
    else fromStop .inside d cs
  | .escaped, d, _ :: cs => fromStop .inside d cs

/-- The reader passes over the text inside brackets. -/
def Enclosed (cs : List Char) : Prop :=
  ∀ d rest, fromStop .outside (d + 1) (cs ++ rest) = fromStop .outside (d + 1) rest

/-- The reader passes over the text anywhere. -/
def Delimited (cs : List Char) : Prop :=
  ∀ d rest, fromStop .outside d (cs ++ rest) = fromStop .outside d rest

/-! ### Stops -/

/-- The character ends a text that is not enclosed. -/
def isStop (c : Char) : Bool := isClosing c || c = ','

theorem fromStop_of_isStop {c : Char} (h : isStop c) (cs : List Char) :
    fromStop .outside 0 (c :: cs) = c :: cs := by
  simp only [isStop, isClosing, Bool.or_eq_true, decide_eq_true_eq] at h
  rcases h with (rfl | rfl) | rfl <;> simp [fromStop, isOpening, isClosing]

/-- **The stop behind a delimited text is where it seems to be.** -/
theorem Delimited.eq_of_append {a b r s : List Char} {c d : Char} (ha : Delimited a)
    (hb : Delimited b) (hc : isStop c) (hd : isStop d) (h : a ++ c :: r = b ++ d :: s) :
    a = b ∧ c = d ∧ r = s := by
  -- a reader of either text comes to its stop, and both read one text
  have hrest : c :: r = d :: s := by
    have hread := congrArg (fromStop .outside 0) h
    rwa [ha 0, hb 0, fromStop_of_isStop hc, fromStop_of_isStop hd] at hread
  rw [hrest] at h
  obtain ⟨hcd, hrs⟩ := List.cons.inj hrest
  exact ⟨List.append_cancel_right h, hcd, hrs⟩

/-- The text goes on with a stop. -/
def Stops (cs : List Char) : Prop := ∃ c r, cs = c :: r ∧ isStop c

/-- **Before a stop, a delimited text ends where it seems to.** -/
theorem Delimited.append_inj {a b r s : List Char} (ha : Delimited a) (hb : Delimited b)
    (hr : Stops r) (hs : Stops s) (h : a ++ r = b ++ s) : a = b ∧ r = s := by
  obtain ⟨c, r, rfl, hc⟩ := hr
  obtain ⟨d, s, rfl, hd⟩ := hs
  obtain ⟨hab, hcd, hrs⟩ := ha.eq_of_append hb hc hd h
  exact ⟨hab, hcd ▸ hrs ▸ rfl⟩

/-- Behind texts without a mark, the mark is where it seems to be. -/
theorem append_mark_inj {mark : Char} {a b r s : List Char} (ha : mark ∉ a) (hb : mark ∉ b)
    (h : a ++ mark :: r = b ++ mark :: s) : a = b ∧ r = s := by
  induction a generalizing b with
  | nil =>
    cases b with
    | nil => exact ⟨rfl, (List.cons.inj h).2⟩
    | cons c b => exact absurd ((List.cons.inj h).1 ▸ List.mem_cons_self) hb
  | cons c a ih =>
    cases b with
    | nil => exact absurd ((List.cons.inj h).1 ▸ List.mem_cons_self) ha
    | cons d b =>
      obtain ⟨rfl, htail⟩ := List.cons.inj h
      obtain ⟨rfl, rfl⟩ :=
        ih (mt (List.mem_cons_of_mem c) ha) (mt (List.mem_cons_of_mem c) hb) htail
      exact ⟨rfl, rfl⟩

/-! ### Building -/

theorem Delimited.enclosed {cs : List Char} (h : Delimited cs) : Enclosed cs :=
  fun d rest => h (d + 1) rest

theorem delimited_nil : Delimited [] := fun _ _ => rfl

theorem Delimited.append {a b : List Char} (ha : Delimited a) (hb : Delimited b) :
    Delimited (a ++ b) := by
  intro d rest
  rw [List.append_assoc, ha, hb]

theorem Enclosed.append {a b : List Char} (ha : Enclosed a) (hb : Enclosed b) :
    Enclosed (a ++ b) := by
  intro d rest
  rw [List.append_assoc, ha, hb]

theorem enclosed_comma : Enclosed [','] := by
  intro d rest
  simp [fromStop, isOpening, isClosing]

/-- Plain characters are passed over one by one. -/
theorem delimited_of_isPlain {cs : List Char} (h : ∀ c ∈ cs, isPlain c) : Delimited cs := by
  intro d rest
  induction cs with
  | nil => rfl
  | cons c cs ih =>
    obtain ⟨hc, hcs⟩ := List.forall_mem_cons.mp h
    simp only [isPlain, Bool.and_eq_true, bne_iff_ne, Bool.not_eq_true'] at hc
    obtain ⟨⟨⟨hquote, hopen⟩, hclose⟩, hcomma⟩ := hc
    -- a plain character is no quote, no bracket and no comma
    have hstep : fromStop .outside d (c :: (cs ++ rest)) = fromStop .outside d (cs ++ rest) := by
      simp [fromStop, hquote, hopen, hclose, hcomma]
    exact hstep.trans (ih hcs)

/-- What is enclosed becomes delimited between brackets. -/
theorem Enclosed.delimited_bracketed {cs : List Char} (h : Enclosed cs) {o c : Char}
    (ho : isOpening o) (hc : isClosing c) : Delimited (o :: cs ++ [c]) := by
  intro d rest
  have hopen : fromStop .outside d (o :: cs ++ [c] ++ rest)
      = fromStop .outside (d + 1) (cs ++ c :: rest) := by
    simp only [isOpening, Bool.or_eq_true, decide_eq_true_eq] at ho
    rcases ho with rfl | rfl <;> simp [fromStop, isOpening]
  have hclose : fromStop .outside (d + 1) (c :: rest) = fromStop .outside d rest := by
    simp only [isClosing, Bool.or_eq_true, decide_eq_true_eq] at hc
    rcases hc with rfl | rfl <;> simp [fromStop, isOpening, isClosing]
  rw [hopen, h, hclose]

/-- A written character is an escape, which has neither quotes nor backslashes behind its second
character, or it is the character, which then is neither. -/
theorem encodeChar_cases (c : Char) :
    (∃ e cs, Quoted.encodeChar c = '\\' :: e :: cs ∧ ∀ d ∈ cs, d ≠ '"' ∧ d ≠ '\\')
      ∨ Quoted.encodeChar c = [c] ∧ c ≠ '"' ∧ c ≠ '\\' := by
  simp only [Quoted.encodeChar]
  split
  · exact Or.inl ⟨_, [], rfl, by simp⟩
  · next hc =>
    split
    · next hlt =>
      have hdigit : ∀ n : Fin 16, Quoted.hexDigit n.val ≠ '"' ∧ Quoted.hexDigit n.val ≠ '\\' := by
        decide
      have hhigh := hdigit ⟨c.toNat / 16, by omega⟩
      have hlow := hdigit ⟨c.toNat % 16, Nat.mod_lt _ (by decide)⟩
      exact Or.inl ⟨'u', _, rfl, by simp [hhigh, hlow]⟩
    · -- quotes and backslashes have short escapes
      refine Or.inr ⟨rfl, ?_, ?_⟩
      · rintro rfl
        simp [Quoted.shortEscape?] at hc
      · rintro rfl
        simp [Quoted.shortEscape?] at hc

/-- Between quotes, a written character is passed over, whatever it stands for. -/
theorem fromStop_encodeChar (c : Char) (d : Nat) (rest : List Char) :
    fromStop .inside d (Quoted.encodeChar c ++ rest) = fromStop .inside d rest := by
  rcases encodeChar_cases c with ⟨e, cs, hc, hcs⟩ | ⟨hc, hquote, hslash⟩
  · have hrest : fromStop .inside d (cs ++ rest) = fromStop .inside d rest := by
      clear hc
      induction cs with
      | nil => rfl
      | cons c cs ih =>
        obtain ⟨⟨hquote, hslash⟩, hcs⟩ := List.forall_mem_cons.mp hcs
        simpa [fromStop, hquote, hslash] using ih hcs
    simpa [hc, fromStop] using hrest
  · simp [hc, fromStop, hquote, hslash]

/-- A written text is delimited by its quotes. -/
theorem delimited_quoted (cs : List Char) : Delimited ('"' :: Quoted.encode cs ++ ['"']) := by
  intro d rest
  have hinside : ∀ rest, fromStop .inside d (Quoted.encode cs ++ rest)
      = fromStop .inside d rest := by
    intro rest
    induction cs with
    | nil => rfl
    | cons c cs ih =>
      rw [Quoted.encode, List.flatMap_cons, List.append_assoc, fromStop_encodeChar]
      exact ih
  simp only [List.cons_append, List.append_assoc, fromStop, if_true]
  rw [hinside]
  simp [fromStop]

/-- Texts with commas between them are enclosed if each of them is. -/
theorem enclosed_joined {ss : List String} (h : ∀ s ∈ ss, Enclosed s.toList) :
    Enclosed (joined "," ss).toList := by
  induction ss with
  | nil => exact fun _ _ => rfl
  | cons s ss ih =>
    obtain ⟨hs, hss⟩ := List.forall_mem_cons.mp h
    cases ss with
    | nil => exact hs
    | cons t ts =>
      rw [joined_cons_cons, String.toList_append, String.toList_append]
      exact (hs.append enclosed_comma).append (ih hss)

/-! ### Taking apart -/

/-- What stands in brackets behind the first of some texts: the closing bracket, or a comma and the
others. -/
def behindFirst : List String → List Char
  | [] => [']']
  | t :: ts => ',' :: ((joined "," (t :: ts)).toList ++ [']'])

theorem stops_behindFirst (ss : List String) : Stops (behindFirst ss) := by
  cases ss with
  | nil => exact ⟨']', [], rfl, by decide⟩
  | cons t ts => exact ⟨',', _, rfl, by decide⟩

theorem toList_joined_cons (s : String) (ss : List String) :
    (joined "," (s :: ss)).toList ++ [']'] = s.toList ++ behindFirst ss := by
  cases ss with
  | nil => rfl
  | cons t ts =>
    rw [joined_cons_cons, String.toList_append, String.toList_append, List.append_assoc,
      List.append_assoc]
    rfl

/-- **Texts with commas between them can be taken apart again**, if none of them is empty. -/
theorem joined_inj {ss ts : List String} (hss : ∀ s ∈ ss, Delimited s.toList)
    (hts : ∀ t ∈ ts, Delimited t.toList) (hss' : "" ∉ ss) (hts' : "" ∉ ts)
    (h : joined "," ss = joined "," ts) : ss = ts := by
  -- texts that are not empty are not joined to the empty one
  have hne : ∀ {s : String} {ss : List String}, "" ∉ s :: ss → joined "," (s :: ss) ≠ "" := by
    intro s ss hs hempty
    have hjoined := toList_joined_cons s ss
    obtain ⟨c, r, hr, -⟩ := stops_behindFirst ss
    have hlength := congrArg List.length hjoined
    rw [hempty, hr] at hlength
    simp only [String.toList_empty, List.nil_append, List.length_append, List.length_cons,
      List.length_nil] at hlength
    have hnil : s.toList ≠ [] := fun h => hs (String.toList_eq_nil_iff.mp h ▸ List.mem_cons_self)
    have hpos := List.length_pos_iff.mpr hnil
    omega
  induction ss generalizing ts with
  | nil =>
    cases ts with
    | nil => rfl
    | cons t ts => exact absurd h.symm (hne hts')
  | cons s ss ih =>
    cases ts with
    | nil => exact absurd h (hne hss')
    | cons t ts =>
      obtain ⟨hs, hsrest⟩ := List.forall_mem_cons.mp hss
      obtain ⟨ht, htrest⟩ := List.forall_mem_cons.mp hts
      have hjoined := toList_joined_cons s ss
      rw [h, toList_joined_cons] at hjoined
      obtain ⟨hts, hrest⟩ :=
        ht.append_inj hs (stops_behindFirst ts) (stops_behindFirst ss) hjoined
      -- behind the first text there is a bracket on both sides, or a comma and the others
      have heq : joined "," ss = joined "," ts := by
        cases ss with
        | nil =>
          cases ts with
          | nil => rfl
          | cons t ts => simp [behindFirst] at hrest
        | cons s ss =>
          cases ts with
          | nil => simp [behindFirst] at hrest
          | cons t ts =>
            exact String.toList_inj.mp (List.append_cancel_right (List.cons.inj hrest).2).symm
      rw [String.toList_inj.mp hts, ih hsrest htrest (mt (List.mem_cons_of_mem _) hss')
        (mt (List.mem_cons_of_mem _) hts') heq]

end Text

end SnapshotDiff
