import SnapshotDiff.Proofs.Document.Spelling

/-!
# Documents are read back

The compact text of a document spells the tokens of the document, and the machine that puts tokens
together gets the document from them.

## Main definitions

* `Document.tokens` — the tokens of a document.
* `Document.IsLexical` — strings are encoded texts, and numbers are numerals.

## Main results

* `Document.ofTokens?_tokens` — a document is put together from its tokens.
* `Document.ofText?_compact` — **a document is read back from its compact text.**
-/

namespace SnapshotDiff

namespace Document

/-! ### Tokens -/

mutual

/-- The tokens of a document. -/
def tokens : Document → List Token
  | null => [.null]
  | bool b => [.bool b]
  | number lexeme => [.number lexeme]
  | string lexeme => [.string lexeme]
  | array [] => [.openArray, .closeArray]
  | array (d :: ds) => .openArray :: (tokens d ++ (itemTokens ds ++ [.closeArray]))
  | object [] => [.openObject, .closeObject]
  | object ((k, d) :: ms) =>
    .openObject :: .string k :: .colon :: (tokens d ++ (memberTokens ms ++ [.closeObject]))

/-- The tokens of items, with a comma before each. -/
def itemTokens : List Document → List Token
  | [] => []
  | d :: ds => .comma :: (tokens d ++ itemTokens ds)

/-- The tokens of members, with a comma before each. -/
def memberTokens : List (List Char × Document) → List Token
  | [] => []
  | (k, d) :: ms => .comma :: .string k :: .colon :: (tokens d ++ memberTokens ms)

end

/-! ### Putting tokens together -/

/-- An array that does not end at once begins with an item. -/
theorem foldlM_firstItem (d : Document) (frames : List Frame) (ts : List Token) :
    (tokens d ++ ts).foldlM step (.firstItem frames)
      = (tokens d ++ ts).foldlM step (.value (.array [] :: frames)) := by
  cases d with
  | null | bool | number | string => rfl
  | array ds => cases ds <;> rfl
  | object ms =>
    match ms with
    | [] => rfl
    | (_, _) :: _ => rfl

mutual

/-- **The tokens of a document complete it**, whatever is still open around it. -/
theorem foldlM_tokens : ∀ (d : Document) (frames : List Frame) (ts : List Token),
    (tokens d ++ ts).foldlM step (.value frames) = ts.foldlM step (.complete d frames)
  | null, _, _ | bool _, _, _ | number _, _, _ | string _, _, _ | array [], _, _
  | object [], _, _ => by rw [tokens]; rfl
  | array (d :: ds), frames, ts => by
    rw [tokens, List.cons_append]
    show ((tokens d ++ (itemTokens ds ++ [Token.closeArray])) ++ ts).foldlM step
      (.firstItem frames) = _
    rw [List.append_assoc, foldlM_firstItem, foldlM_tokens d, List.append_assoc,
      foldlM_itemTokens ds d []]
    rfl
  | object ((k, d) :: ms), frames, ts => by
    rw [tokens, List.cons_append]
    show ((tokens d ++ (memberTokens ms ++ [Token.closeObject])) ++ ts).foldlM step
      (.value (.object [] k :: frames)) = _
    rw [List.append_assoc, foldlM_tokens d, List.append_assoc, foldlM_memberTokens ms d [] k]
    rfl

theorem foldlM_itemTokens : ∀ (ds : List Document) (d : Document) (items : List Document)
    (frames : List Frame) (ts : List Token),
    (itemTokens ds ++ ([Token.closeArray] ++ ts)).foldlM step (.complete d (.array items :: frames))
      = ts.foldlM step (.complete (array (items.reverse ++ d :: ds)) frames)
  | [], d, items, frames, ts => by
    rw [itemTokens, List.nil_append, ← List.reverse_cons]
    rfl
  | d' :: ds, d, items, frames, ts => by
    rw [itemTokens, List.cons_append]
    show ((tokens d' ++ itemTokens ds) ++ ([Token.closeArray] ++ ts)).foldlM step
      (.value (.array (d :: items) :: frames)) = _
    rw [List.append_assoc, foldlM_tokens d', foldlM_itemTokens ds d', List.reverse_cons,
      List.append_assoc]
    rfl

theorem foldlM_memberTokens : ∀ (ms : List (List Char × Document)) (d : Document)
    (members : List (List Char × Document)) (k : List Char) (frames : List Frame)
    (ts : List Token),
    (memberTokens ms ++ ([Token.closeObject] ++ ts)).foldlM step
        (.complete d (.object members k :: frames))
      = ts.foldlM step (.complete (object (members.reverse ++ (k, d) :: ms)) frames)
  | [], d, members, k, frames, ts => by
    rw [memberTokens, List.nil_append, ← List.reverse_cons]
    rfl
  | (k', d') :: ms, d, members, k, frames, ts => by
    rw [memberTokens, List.cons_append]
    show ((tokens d' ++ memberTokens ms) ++ ([Token.closeObject] ++ ts)).foldlM step
      (.value (.object ((k, d) :: members) k' :: frames)) = _
    rw [List.append_assoc, foldlM_tokens d', foldlM_memberTokens ms d', List.reverse_cons,
      List.append_assoc]
    rfl

end

/-- A document is put together from its tokens. -/
theorem ofTokens?_tokens (d : Document) : ofTokens? d.tokens = some d := by
  have h := foldlM_tokens d [] []
  rw [List.append_nil] at h
  rw [ofTokens?, h]
  rfl

/-! ### Texts -/

mutual

/-- Strings and keys are encoded texts, and numbers are numerals. -/
def IsLexical : Document → Prop
  | number lexeme => (Numeral.ofChars? lexeme).isSome
  | string lexeme => ∃ cs, lexeme = Quoted.encode cs
  | array ds => IsLexicalItems ds
  | object ms => IsLexicalMembers ms
  | _ => True

/-- Every item is lexical. -/
def IsLexicalItems : List Document → Prop
  | [] => True
  | d :: ds => IsLexical d ∧ IsLexicalItems ds

/-- Every member is lexical. -/
def IsLexicalMembers : List (List Char × Document) → Prop
  | [] => True
  | (k, d) :: ms => (∃ cs, k = Quoted.encode cs) ∧ IsLexical d ∧ IsLexicalMembers ms

end

open Token (Spells SpellsFresh spells_mark spells_quoted spellsFresh_bare spellsFresh_number)

theorem toList_quoted (lexeme : List Char) : (quoted lexeme).toList = '"' :: (lexeme ++ ['"']) := by
  simp [quoted]

/-- A key with a colon and a value behind it. -/
theorem spells_member {k cs : List Char} {ts : List Token} (hk : ∃ ks, k = Quoted.encode ks)
    (h : SpellsFresh cs ts) :
    Spells ((quoted k).toList ++ ':' :: cs) (.string k :: .colon :: ts) := by
  obtain ⟨ks, rfl⟩ := hk
  rw [toList_quoted]
  exact (spells_quoted ks).append (h.behind rfl)

mutual

/-- The compact text of a document spells its tokens. -/
theorem spells_compact : ∀ d : Document, d.IsLexical → SpellsFresh d.compact.toList d.tokens
  | null, _ => spellsFresh_bare (by decide) (List.all_eq_true.mp (by decide)) rfl
  | bool true, _ => spellsFresh_bare (by decide) (List.all_eq_true.mp (by decide)) rfl
  | bool false, _ => spellsFresh_bare (by decide) (List.all_eq_true.mp (by decide)) rfl
  | number lexeme, h => by
    rw [IsLexical] at h
    obtain ⟨n, hn⟩ := Option.isSome_iff_exists.mp h
    rw [compact, String.toList_ofList, tokens]
    exact spellsFresh_number hn
  | string lexeme, h => by
    rw [IsLexical] at h
    obtain ⟨cs, rfl⟩ := h
    rw [compact, toList_quoted, tokens]
    exact (spells_quoted cs).fresh
  | array [], _ => ((spells_mark rfl).append (spells_mark rfl)).fresh
  | array (d :: ds), h => by
    rw [IsLexical, IsLexicalItems] at h
    have hitems := (spells_compactItems ds h.2).append (spells_mark (c := ']') rfl)
    have hall := (((spells_compact d h.1).append hitems).behind (c := '[') rfl).fresh
    rw [tokens]
    simpa [compact] using hall
  | object [], _ => ((spells_mark rfl).append (spells_mark rfl)).fresh
  | object ((k, d) :: ms), h => by
    rw [IsLexical, IsLexicalMembers] at h
    have hmember := spells_member h.1 (spells_compact d h.2.1)
    have hmembers := (spells_compactMembers ms h.2.2).append (spells_mark (c := '\x7d') rfl)
    have hall := ((hmember.append hmembers).fresh.behind (c := '\x7b') rfl).fresh
    rw [tokens]
    simpa [compact] using hall

theorem spells_compactItems : ∀ ds : List Document, IsLexicalItems ds →
    Spells (compactItems ds).toList (itemTokens ds)
  | [], _ => Spells.nil
  | d :: ds, h => by
    rw [IsLexicalItems] at h
    have hitem := ((spells_compact d h.1).append (spells_compactItems ds h.2)).behind (c := ',') rfl
    rw [itemTokens]
    simpa [compactItems] using hitem

theorem spells_compactMembers : ∀ ms : List (List Char × Document), IsLexicalMembers ms →
    Spells (compactMembers ms).toList (memberTokens ms)
  | [], _ => Spells.nil
  | (k, d) :: ms, h => by
    rw [IsLexicalMembers] at h
    have hmember := spells_member h.1 (spells_compact d h.2.1)
    have hall := (hmember.append (spells_compactMembers ms h.2.2)).fresh.behind (c := ',') rfl
    rw [memberTokens]
    simpa [compactMembers] using hall

end

/-- **A document is read back from its compact text.** -/
theorem ofText?_compact {d : Document} (h : d.IsLexical) : ofText? d.compact = some d := by
  rw [ofText?, (spells_compact d h).ofChars?, Option.bind_some, ofTokens?_tokens]

end Document

end SnapshotDiff
