/-!
# Quoted text

How a text is written between the quotes of a JSON string, and how it is read back.

## Main definitions

* `Quoted.encode` — quotes, backslashes and the control characters below the blank are escaped,
  all else stands as it is.
* `Quoted.decode?` — the text of the characters between two quotes; an escape of half a
  surrogate pair alone stands for no text.

## Main results

* `Quoted.decode?_encode` — what was written is read back.
-/

namespace SnapshotDiff

namespace Quoted

/-- The hexadecimal digit of a number below sixteen, in lower case. -/
def hexDigit (n : Nat) : Char := Nat.digitChar n

/-- The value of a hexadecimal digit of either case. -/
def hexValue? (c : Char) : Option Nat :=
  if '0' ≤ c ∧ c ≤ '9' then some (c.toNat - '0'.toNat)
  else if 'a' ≤ c ∧ c ≤ 'f' then some (c.toNat - 'a'.toNat + 10)
  else if 'A' ≤ c ∧ c ≤ 'F' then some (c.toNat - 'A'.toNat + 10)
  else none

/-- The letter that stands for the character behind a backslash. -/
def shortEscape? (c : Char) : Option Char :=
  if c = '"' then some '"'
  else if c = '\\' then some '\\'
  else if c = '\x08' then some 'b'
  else if c = '\x0c' then some 'f'
  else if c = '\n' then some 'n'
  else if c = '\r' then some 'r'
  else if c = '\t' then some 't'
  else none

/-- One character between quotes. -/
def encodeChar (c : Char) : List Char :=
  match shortEscape? c with
  | some e => ['\\', e]
  | none =>
    if c.toNat < 0x20 then ['\\', 'u', '0', '0', hexDigit (c.toNat / 16), hexDigit (c.toNat % 16)]
    else [c]

/-- The characters between the quotes that enclose a text. -/
def encode (cs : List Char) : List Char := cs.flatMap encodeChar

/-- The character that a letter stands for behind a backslash. -/
def unescape? : Char → Option Char
  | '"' => some '"'
  | '\\' => some '\\'
  | '/' => some '/'
  | 'b' => some '\x08'
  | 'f' => some '\x0c'
  | 'n' => some '\n'
  | 'r' => some '\r'
  | 't' => some '\t'
  | _ => none

/-- The number written by four hexadecimal digits. -/
def hexUnit? (a b c d : Char) : Option Nat := do
  return (((← hexValue? a) * 16 + (← hexValue? b)) * 16 + (← hexValue? c)) * 16 + (← hexValue? d)

/-- The first half of a surrogate pair. -/
def isHigh (n : Nat) : Bool := 0xD800 ≤ n && n < 0xDC00

/-- The second half of a surrogate pair. -/
def isLow (n : Nat) : Bool := 0xDC00 ≤ n && n < 0xE000

/-- The text of the characters between two quotes.  A high half waits in `pending` for the low
half that must follow it. -/
def decodeAfter? : (pending : Option Nat) → List Char → Option (List Char)
  | none, [] => some []
  | some _, [] => none
  | none, '\\' :: 'u' :: a :: b :: c :: d :: cs => do
    let n ← hexUnit? a b c d
    if isHigh n then decodeAfter? (some n) cs
    else if isLow n then none
    else (Char.ofNat n :: ·) <$> decodeAfter? none cs
  | some high, '\\' :: 'u' :: a :: b :: c :: d :: cs => do
    let n ← hexUnit? a b c d
    if isLow n then
      (Char.ofNat (0x10000 + (high - 0xD800) * 0x400 + (n - 0xDC00)) :: ·) <$> decodeAfter? none cs
    else none
  | none, '\\' :: e :: cs => do
    let c ← unescape? e
    (c :: ·) <$> decodeAfter? none cs
  | none, c :: cs => if c = '\\' then none else (c :: ·) <$> decodeAfter? none cs
  | some _, _ :: _ => none

/-- The text of the characters between two quotes. -/
def decode? (cs : List Char) : Option (List Char) := decodeAfter? none cs

/-! ### Reading back -/

theorem hexValue?_hexDigit {n : Nat} (h : n < 16) : hexValue? (hexDigit n) = some n := by
  have all : ∀ m : Fin 16, hexValue? (hexDigit m.val) = some m.val := by decide
  exact all ⟨n, h⟩

theorem unescape?_of_shortEscape? {c e : Char} (h : shortEscape? c = some e) :
    unescape? e = some c ∧ e ≠ 'u' := by
  simp only [shortEscape?] at h
  repeat' split at h
  all_goals cases h
  all_goals subst_vars; decide

theorem hexUnit?_of_lt {n : Nat} (h : n < 0x20) :
    hexUnit? '0' '0' (hexDigit (n / 16)) (hexDigit (n % 16)) = some n := by
  have all : ∀ m : Fin 0x20,
      hexUnit? '0' '0' (hexDigit (m.val / 16)) (hexDigit (m.val % 16)) = some m.val := by decide
  exact all ⟨n, h⟩

/-- One character is read back, whatever follows. -/
theorem decodeAfter?_encodeChar (c : Char) (cs : List Char) :
    decodeAfter? none (encodeChar c ++ cs) = (c :: ·) <$> decodeAfter? none cs := by
  simp only [encodeChar]
  split
  · next e he =>
    obtain ⟨hu, hne⟩ := unescape?_of_shortEscape? he
    simp only [List.cons_append, List.nil_append]
    rw [decodeAfter?]
    · simp [hu]
    · intro a b c d cs h _; exact hne h
  · next hc =>
    split
    · next hlt =>
      have hh : isHigh c.toNat = false := by simp [isHigh]; omega
      have hl : isLow c.toNat = false := by simp [isLow]; omega
      simp [decodeAfter?, hexUnit?_of_lt hlt, hh, hl]
    · have hb : c ≠ '\\' := by rintro rfl; simp [shortEscape?] at hc
      simp only [List.cons_append, List.nil_append]
      rw [decodeAfter?]
      · simp [hb]
      all_goals (intros; simp_all)

/-- What was written is read back. -/
theorem decode?_encode (cs : List Char) : decode? (encode cs) = some cs := by
  simp only [decode?, encode]
  induction cs with
  | nil => rfl
  | cons c cs ih => rw [List.flatMap_cons, decodeAfter?_encodeChar, ih]; rfl

end Quoted

end SnapshotDiff
