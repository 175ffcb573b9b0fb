import SnapshotDiff.Proofs.Json.Injective

/-!
# The tokens that a text spells

The tokens of a text are found by a machine that reads one character after the other.  A word or a
number is not finished before the next character, so what has been read by then is a state in which
the last token may still be open.  A stretch of text that begins with a mark or a quote spells the
same tokens behind every such state; one that begins with a word or a number does so where nothing
has begun.

## Main definitions

* `Token.Reads` — the tokens that have been read, if no further character belongs to the last one.
* `Token.Spells`, `Token.SpellsFresh` — a stretch of text spells some tokens.

## Main results

* `Token.spells_quoted`, `Token.spellsFresh_bare` — strings, and words and numbers.
* `Token.SpellsFresh.ofChars?` — **a text that spells some tokens is read as these.**
-/

namespace SnapshotDiff

/-! ### Characters of numbers -/

theorem Token.isBare_of_isDigit {c : Char} (h : c.isDigit) : isBare c := by
  simp [isBare, Char.isAlphanum, h]

namespace Numeral

open Token (isBare isBare_of_isDigit)

variable {cs : List Char}

/-- Characters that belong to words and numbers stand in front of others that do. -/
theorem isBare_of_takeWhile (h : ∀ c ∈ cs.dropWhile Char.isDigit, isBare c) :
    ∀ c ∈ cs, isBare c := by
  intro c hc
  rw [← List.takeWhile_append_dropWhile (p := Char.isDigit) (l := cs)] at hc
  rcases List.mem_append.mp hc with hc | hc
  · exact isBare_of_isDigit (List.mem_takeWhile_imp hc)
  · exact h c hc

theorem isBare_of_exponentDigits? {negative : Bool} {x : Option Int}
    (h : exponentDigits? negative cs = some x) : ∀ c ∈ cs, isBare c := by
  unfold exponentDigits? at h
  split at h
  · cases h
  · next hdigits =>
    simp only [Bool.or_eq_true, Bool.not_eq_true', not_or, Bool.not_eq_false] at hdigits
    exact fun c hc => isBare_of_isDigit (List.all_eq_true.mp hdigits.2 c hc)

theorem isBare_of_exponent? {x : Option Int} (h : exponent? cs = some x) :
    ∀ c ∈ cs, isBare c := by
  unfold exponent? at h
  split at h
  · simp
  · next e cs =>
    split at h
    · cases h
    · next he =>
      -- the letter in front is one of two
      have hmark : isBare e := by
        by_cases hlower : e = 'e'
        · exact hlower ▸ rfl
        · have hupper : e = 'E' := by
            by_contra hne
            exact he ⟨hlower, hne⟩
          exact hupper ▸ rfl
      refine List.forall_mem_cons.mpr ⟨hmark, ?_⟩
      split at h
      · exact List.forall_mem_cons.mpr ⟨rfl, isBare_of_exponentDigits? h⟩
      · exact List.forall_mem_cons.mpr ⟨rfl, isBare_of_exponentDigits? h⟩
      · exact isBare_of_exponentDigits? h

theorem isBare_of_fraction? {f : Option (List Char)} {rest : List Char} {x : Option Int}
    (h : fraction? cs = some (f, rest)) (hrest : exponent? rest = some x) :
    ∀ c ∈ cs, isBare c := by
  unfold fraction? at h
  split at h
  · next cs =>
    split at h
    · cases h
    · obtain ⟨-, rfl⟩ := Prod.mk.inj (Option.some.inj h)
      exact List.forall_mem_cons.mpr ⟨rfl, isBare_of_takeWhile (isBare_of_exponent? hrest)⟩
  · obtain ⟨-, rfl⟩ := Prod.mk.inj (Option.some.inj h)
    exact isBare_of_exponent? hrest

theorem isBare_of_ofUnsigned? {negative : Bool} {n : Numeral}
    (h : ofUnsigned? negative cs = some n) : ∀ c ∈ cs, isBare c := by
  unfold ofUnsigned? at h
  dsimp only at h
  split at h
  · cases h
  · obtain ⟨⟨f, rest⟩, hfraction, h⟩ := Option.bind_eq_some_iff.mp h
    obtain ⟨x, hexponent, -⟩ := Option.bind_eq_some_iff.mp h
    exact isBare_of_takeWhile (isBare_of_fraction? hfraction hexponent)

/-- A numeral is made of characters that belong to words and numbers. -/
theorem isBare_of_ofChars? {n : Numeral} (h : ofChars? cs = some n) : ∀ c ∈ cs, isBare c := by
  unfold ofChars? at h
  split at h
  · exact List.forall_mem_cons.mpr ⟨rfl, isBare_of_ofUnsigned? h⟩
  · exact isBare_of_ofUnsigned? h

end Numeral

namespace Token

variable {s : Mode × List Token} {done ts us : List Token} {t : Token} {cs ds : List Char}
  {c : Char}

/-! ### States -/

/-- The tokens that have been read, in reverse.  A word or a number may still be open. -/
inductive Reads : Mode × List Token → List Token → Prop
  | between (done : List Token) : Reads (.between, done) done
  | bare {read : List Char} {t : Token} (done : List Token)
    (token : ofBare? read.reverse = some t) : Reads (.bare read, done) (t :: done)

/-- A character that belongs to no word or number begins anew. -/
theorem Reads.step (h : Reads s done) (hc : isBare c = false) : step s c = start done c := by
  cases h with
  | between => rfl
  | bare done token =>
    rw [Token.step, if_neg (by simp [hc]), token]
    rfl

theorem Reads.finish (h : Reads s done) : finish s = some done.reverse := by
  cases h with
  | between => rfl
  | bare done token =>
    rw [Token.finish, token]
    rfl

/-- The characters spell the tokens behind every text that they can follow. -/
def Spells (cs : List Char) (ts : List Token) : Prop :=
  ∀ s done, Reads s done → ∃ s', cs.foldlM step s = some s' ∧ Reads s' (ts.reverse ++ done)

/-- The characters spell the tokens where nothing has begun. -/
def SpellsFresh (cs : List Char) (ts : List Token) : Prop :=
  ∀ done, ∃ s, cs.foldlM step (.between, done) = some s ∧ Reads s (ts.reverse ++ done)

theorem Spells.fresh (h : Spells cs ts) : SpellsFresh cs ts := fun done => h _ done (.between done)

theorem Spells.nil : Spells [] [] := fun s _ h => ⟨s, rfl, h⟩

/-- What follows is read from the state behind what stands before. -/
theorem foldlM_append_of_reads {s s' : Mode × List Token} (hcs : cs.foldlM Token.step s = some s')
    (hs' : Reads s' (ts.reverse ++ done)) (h : Spells ds us) :
    ∃ s'', (cs ++ ds).foldlM Token.step s = some s'' ∧ Reads s'' ((ts ++ us).reverse ++ done) := by
  obtain ⟨s'', hds, hs''⟩ := h s' _ hs'
  refine ⟨s'', ?_, ?_⟩
  · rw [List.foldlM_append, hcs]
    exact hds
  · rwa [List.reverse_append, List.append_assoc]

theorem Spells.append (h : Spells cs ts) (h' : Spells ds us) : Spells (cs ++ ds) (ts ++ us) := by
  intro s done hs
  obtain ⟨s', hcs, hs'⟩ := h s done hs
  exact foldlM_append_of_reads hcs hs' h'

theorem SpellsFresh.append (h : SpellsFresh cs ts) (h' : Spells ds us) :
    SpellsFresh (cs ++ ds) (ts ++ us) := by
  intro done
  obtain ⟨s', hcs, hs'⟩ := h done
  exact foldlM_append_of_reads hcs hs' h'

/-- Behind a mark nothing has begun. -/
theorem SpellsFresh.behind (h : SpellsFresh cs ts) (hc : ofMark? c = some t) :
    Spells (c :: cs) (t :: ts) := by
  intro s done hs
  have hmark : isBare c = false ∧ start done c = some (.between, t :: done) := by
    unfold ofMark? at hc
    split at hc
    all_goals cases hc
    all_goals exact ⟨rfl, rfl⟩
  obtain ⟨s', hcs, hs'⟩ := h (t :: done)
  refine ⟨s', ?_, by simpa using hs'⟩
  rw [List.foldlM_cons, hs.step hmark.1, hmark.2]
  exact hcs

theorem spells_mark (hc : ofMark? c = some t) : Spells [c] [t] := Spells.nil.fresh.behind hc

/-! ### Strings -/

/-- Between quotes an encoded character is read as it stands. -/
theorem foldlM_encodeChar (c : Char) (read : List Char) (done : List Token) :
    (Quoted.encodeChar c).foldlM step (.text read, done)
      = some (.text ((Quoted.encodeChar c).reverse ++ read), done) := by
  unfold Quoted.encodeChar
  split
  · next e he =>
    obtain ⟨hunescape, hne⟩ := Quoted.unescape?_of_shortEscape? he
    simp [step, hne, hunescape]
  · next hc =>
    split
    · next hlt =>
      have hhigh := Quoted.hexValue?_hexDigit (n := c.toNat / 16) (by omega)
      have hlow := Quoted.hexValue?_hexDigit (n := c.toNat % 16) (Nat.mod_lt _ (by decide))
      have hzero : Quoted.hexValue? '0' = some 0 := rfl
      simp [step, hzero, hhigh, hlow]
    · next hlt =>
      have hquote : c ≠ '"' := by
        rintro rfl
        simp [Quoted.shortEscape?] at hc
      have hslash : c ≠ '\\' := by
        rintro rfl
        simp [Quoted.shortEscape?] at hc
      simp [step, hquote, hslash, hlt]

theorem foldlM_encode (cs read : List Char) (done : List Token) :
    (Quoted.encode cs).foldlM step (.text read, done)
      = some (.text ((Quoted.encode cs).reverse ++ read), done) := by
  induction cs generalizing read with
  | nil => rfl
  | cons c cs ih =>
    rw [Quoted.encode, List.flatMap_cons, List.foldlM_append, foldlM_encodeChar]
    refine (ih _).trans ?_
    rw [Quoted.encode, List.reverse_append, List.append_assoc]

/-- **An encoded text between quotes is a string.** -/
theorem spells_quoted (cs : List Char) :
    Spells ('"' :: (Quoted.encode cs ++ ['"'])) [string (Quoted.encode cs)] := by
  intro s done hs
  refine ⟨(.between, string (Quoted.encode cs) :: done), ?_, .between _⟩
  have hopen : start done '"' = some (.text [], done) := rfl
  rw [List.foldlM_cons, hs.step rfl, hopen]
  show ((Quoted.encode cs ++ ['"']).foldlM step (.text [], done)) = _
  rw [List.foldlM_append, foldlM_encode, List.append_nil]
  show some (Mode.between, string (Quoted.encode cs).reverse.reverse :: done) = _
  rw [List.reverse_reverse]

/-! ### Words and numbers -/

theorem foldlM_bare (hcs : ∀ c ∈ cs, isBare c) (read : List Char) :
    cs.foldlM step (.bare read, done) = some (.bare (cs.reverse ++ read), done) := by
  induction cs generalizing read with
  | nil => rfl
  | cons c cs ih =>
    obtain ⟨hc, hcs⟩ := List.forall_mem_cons.mp hcs
    rw [List.foldlM_cons, step, if_pos hc]
    refine (ih hcs _).trans ?_
    rw [List.reverse_cons, List.append_assoc]
    rfl

/-- **A word or a number is a token by itself.** -/
theorem spellsFresh_bare (hne : cs ≠ []) (hcs : ∀ c ∈ cs, isBare c) (ht : ofBare? cs = some t) :
    SpellsFresh cs [t] := by
  intro done
  obtain ⟨c, cs, rfl⟩ := List.exists_cons_of_ne_nil hne
  obtain ⟨hc, hcs⟩ := List.forall_mem_cons.mp hcs
  have hspace : isSpace c = false := by
    by_contra h
    simp only [isSpace, Bool.not_eq_false, Bool.or_eq_true, decide_eq_true_eq] at h
    rcases h with ((rfl | rfl) | rfl) | rfl <;> exact absurd hc (by decide)
  have hquote : c ≠ '"' := by
    rintro rfl
    exact absurd hc (by decide)
  have hstart : step (.between, done) c = some (.bare [c], done) := by
    rw [step, start, if_neg (by simp [hspace]), if_neg hquote, if_pos hc]
  refine ⟨(.bare (cs.reverse ++ [c]), done), ?_, .bare done (by simpa using ht)⟩
  rw [List.foldlM_cons, hstart]
  exact foldlM_bare hcs [c]

/-- A numeral is a token. -/
theorem spellsFresh_number {n : Numeral} (h : Numeral.ofChars? cs = some n) :
    SpellsFresh cs [number cs] := by
  refine spellsFresh_bare ?_ (Numeral.isBare_of_ofChars? h) ?_
  · rintro rfl
    simp [Numeral.ofChars?, Numeral.ofUnsigned?] at h
  · -- no word is a numeral
    have hword : ∀ w : List Char, Numeral.ofChars? w = none → cs ≠ w := by
      rintro w hw rfl
      rw [hw] at h
      cases h
    rw [ofBare?, if_neg (hword _ (by decide)), if_neg (hword _ (by decide)),
      if_neg (hword _ (by decide)), if_pos (by rw [h, Option.isSome_some])]

/-! ### Texts -/

/-- **A text that spells some tokens is read as these.** -/
theorem SpellsFresh.ofChars? (h : SpellsFresh cs ts) : ofChars? cs = some ts := by
  obtain ⟨s, hcs, hs⟩ := h []
  rw [Token.ofChars?, hcs, Option.bind_some, hs.finish, List.append_nil, List.reverse_reverse]

end Token

end SnapshotDiff
