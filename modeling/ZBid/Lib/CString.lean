import ZBid.Lib.CInt
import Mathlib.Data.List.Basic

/-!
# C strings

A text is the characters of a C string before its terminating NUL. A `char*` that is not NULL
points at a text in some allocated block; the strings modelled here are never written again, so
the pointer carries the text along. `strtok` and `atoi` follow the C library.
-/
namespace CString

open CInt

abbrev Text := List Char

/-- A pointer into an allocated block, with the text found there. -/
structure CharPtr where
  block : Nat
  text : Text
  deriving DecidableEq, Repr

/-- A `char*`; `none` is NULL. -/
abbrev CharStar := Option CharPtr

/-- What a C function reads from a buffer: the characters before the first NUL. -/
def cstr (bytes : List Char) : Text := bytes.takeWhile (· ≠ '\x00')

/-- `strcmp(a, b) == 0`, undefined on NULL. -/
def strcmpEq : CharStar → CharStar → Option Bool
  | some a, some b => some (a.text == b.text)
  | _, _ => none

/-- `a == b` on pointers: only the blocks are compared. -/
def samePtr (a b : CharStar) : Bool := a.map CharPtr.block == b.map CharPtr.block

/-- One call of `strtok` that resumes at `saved`: the next token, NULL when there is none, and
the text the next call resumes at. -/
def strtok (delim : Char → Bool) (saved : Text) : Option Text × Text :=
  match saved.dropWhile delim with
  | [] => (none, [])
  | c :: cs => (some ((c :: cs).takeWhile (fun d => !delim d)),
      ((c :: cs).dropWhile (fun d => !delim d)).tail)

def crOrLf (c : Char) : Bool := c == '\r' || c == '\n'

def crlf : Text := ['\r', '\n']

def isSpace (c : Char) : Bool :=
  c == ' ' || c == '\t' || c == '\n' || c == '\x0b' || c == '\x0c' || c == '\r'

/-- The number a string of decimal digits denotes. -/
def digitsValue (ds : Text) : Nat := ds.foldl (fun n c => 10 * n + (c.toNat - '0'.toNat)) 0

def longMin : Int := -9223372036854775808
def longMax : Int := 9223372036854775807

/-- `strtol` in base 10 clamps to the 64-bit long. -/
def strtol (t : Text) : Int :=
  let clamp := fun n : Int => max longMin (min longMax n)
  match t.dropWhile isSpace with
  | '-' :: ds => clamp (-(digitsValue (ds.takeWhile Char.isDigit)))
  | '+' :: ds => clamp (digitsValue (ds.takeWhile Char.isDigit))
  | ds => clamp (digitsValue (ds.takeWhile Char.isDigit))

/-- `atoi` truncates the long to an int. -/
def atoi (t : Text) : Int := wrap32 (strtol t)

/-- `sprintf` with `%d`. -/
def sprintfD (n : Int) : Text :=
  if n < 0 then '-' :: Nat.toDigits 10 n.natAbs else Nat.toDigits 10 n.natAbs

theorem strcmpEq_true {a b : CharStar} (h : strcmpEq a b = some true) :
    ∃ p q, a = some p ∧ b = some q ∧ p.text = q.text := by
  cases a <;> cases b <;> simp_all [strcmpEq]

theorem strcmpEq_false {a b : CharStar} (h : strcmpEq a b = some false) :
    ∃ p q, a = some p ∧ b = some q ∧ p.text ≠ q.text := by
  cases a <;> cases b <;> simp_all [strcmpEq]

end CString
