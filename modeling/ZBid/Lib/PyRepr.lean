import Mathlib.Data.List.Basic

/-!
# The repr of an ASCII string

How Python writes a string that has been decoded from ASCII: in quotes, with the quote, the
backslash and the control characters escaped. What is written reads back.
-/
namespace PyRepr

def hexDigit (n : Nat) : Char := Char.ofNat (if n < 10 then 0x30 + n else 0x57 + n)

def hexValue (c : Char) : Nat := if c.toNat < 0x40 then c.toNat - 0x30 else c.toNat - 0x57

/-- A character, inside the quotes. -/
def reprChar (quote c : Char) : List Char :=
  if c = quote ∨ c = '\\' then ['\\', c]
  else if c = '\t' then ['\\', 't']
  else if c = '\n' then ['\\', 'n']
  else if c = '\r' then ['\\', 'r']
  else if c.toNat < 0x20 ∨ c.toNat = 0x7f then
    ['\\', 'x', hexDigit (c.toNat / 16), hexDigit (c.toNat % 16)]
  else [c]

/-- Single quotes, unless there are only such inside. -/
def quoteOf (t : List Char) : Char := if '\x27' ∈ t ∧ '\x22' ∉ t then '\x22' else '\x27'

def pyRepr (t : List Char) : List Char :=
  quoteOf t :: t.flatMap (reprChar (quoteOf t)) ++ [quoteOf t]

/-- Read one character back. -/
def unreprChar : List Char → Option (Char × List Char)
  | '\\' :: 't' :: rest => some ('\t', rest)
  | '\\' :: 'n' :: rest => some ('\n', rest)
  | '\\' :: 'r' :: rest => some ('\r', rest)
  | '\\' :: 'x' :: a :: b :: rest => some (Char.ofNat (16 * hexValue a + hexValue b), rest)
  | '\\' :: c :: rest => some (c, rest)
  | c :: rest => some (c, rest)
  | [] => none

theorem hexValue_hexDigit : ∀ n < 16, hexValue (hexDigit n) = n := by decide

theorem quoteOf_cases (t : List Char) : quoteOf t = '\x27' ∨ quoteOf t = '\x22' := by
  rw [quoteOf]
  split
  · exact Or.inr rfl
  · exact Or.inl rfl

theorem unreprChar_plain {c : Char} (h : c ≠ '\\') (rest : List Char) :
    unreprChar (c :: rest) = some (c, rest) := by
  rw [unreprChar] <;> simp [h]

theorem unreprChar_reprChar {quote c : Char} (hquote : quote = '\x27' ∨ quote = '\x22')
    (hascii : c.toNat < 0x80) (rest : List Char) :
    unreprChar (reprChar quote c ++ rest) = some (c, rest) := by
  simp only [reprChar]
  split
  · rename_i hc
    rcases hc with rfl | rfl
    · rcases hquote with rfl | rfl <;> rfl
    · rfl
  rename_i hc
  split
  · subst c
    rfl
  split
  · subst c
    rfl
  split
  · subst c
    rfl
  split
  · have hhigh := hexValue_hexDigit (c.toNat / 16) (by omega)
    have hlow := hexValue_hexDigit (c.toNat % 16) (by omega)
    have hvalue : 16 * (c.toNat / 16) + c.toNat % 16 = c.toNat := Nat.div_add_mod _ _
    simp only [List.cons_append, List.nil_append, unreprChar, hhigh, hlow, hvalue, Char.ofNat_toNat]
  · exact unreprChar_plain (fun h => hc (Or.inr h)) rest

theorem flatMap_reprChar_inj {quote : Char} (hquote : quote = '\x27' ∨ quote = '\x22')
    {t t' : List Char} (ht : ∀ c ∈ t, c.toNat < 0x80) (ht' : ∀ c ∈ t', c.toNat < 0x80)
    (h : t.flatMap (reprChar quote) = t'.flatMap (reprChar quote)) : t = t' := by
  have hread {c : Char} {t : List Char} (hc : ∀ d ∈ c :: t, d.toNat < 0x80) :
      unreprChar ((c :: t).flatMap (reprChar quote)) = some (c, t.flatMap (reprChar quote)) :=
    unreprChar_reprChar hquote (hc c List.mem_cons_self) _
  induction t generalizing t' with
  | nil =>
    cases t' with
    | nil => rfl
    | cons c t' =>
      have hnone := hread ht'
      rw [← h] at hnone
      cases hnone
  | cons c t ih =>
    have hfirst := hread ht
    rw [h] at hfirst
    cases t' with
    | nil => cases hfirst
    | cons d t' =>
      rw [hread ht', Option.some.injEq, Prod.mk.injEq] at hfirst
      obtain ⟨rfl, hrest⟩ := hfirst
      rw [ih (fun x hx => ht x (List.mem_cons_of_mem _ hx))
        (fun x hx => ht' x (List.mem_cons_of_mem _ hx)) hrest.symm]

/-- Different strings are written differently. -/
theorem pyRepr_inj {t t' : List Char} (ht : ∀ c ∈ t, c.toNat < 0x80)
    (ht' : ∀ c ∈ t', c.toNat < 0x80) (h : pyRepr t = pyRepr t') : t = t' := by
  simp only [pyRepr, List.cons_append, List.cons.injEq] at h
  obtain ⟨hquote, hbody⟩ := h
  rw [hquote] at hbody
  exact flatMap_reprChar_inj (quoteOf_cases t') ht ht' (List.append_cancel_right hbody)

end PyRepr
