import ZBid.Lib.CString
import Mathlib.Data.List.TakeWhile

/-!
# Fields of a text

Two ways to cut a text. `tokens` are the maximal runs of characters that are no separators, which
is what a series of `strtok` calls hands out. `splitCrlf` cuts at every CR LF and nowhere else, so
that the fields joined by CR LF are the text again. The two agree on fields that are plain: not
empty, and without a CR or an LF. A decimal numeral is read without bounds, and `atoi` agrees
with it on the numbers that fit an int.
-/
namespace CString

open CInt

variable {sep : Char → Bool}

/-- A field that `strtok` hands out as it stands. -/
def Plain (sep : Char → Bool) (t : Text) : Prop := t ≠ [] ∧ ∀ c ∈ t, sep c = false

instance (sep : Char → Bool) (t : Text) : Decidable (Plain sep t) :=
  have : Decidable (∀ c ∈ t, sep c = false) := List.decidableBAll _ t
  inferInstanceAs (Decidable (_ ∧ _))

def tokens (sep : Char → Bool) (t : Text) : List Text := (t.splitOnP sep).filter (· ≠ [])

@[simp] theorem tokens_nil : tokens sep [] = [] := by simp [tokens, List.splitOnP_nil]

theorem tokens_append {c : Char} (hc : sep c = true) (x y : Text) :
    tokens sep (x ++ c :: y) = tokens sep x ++ tokens sep y := by
  simp only [tokens, List.splitOnP_append_cons x y hc, List.filter_append]

theorem tokens_cons {c : Char} (hc : sep c = true) (t : Text) :
    tokens sep (c :: t) = tokens sep t := by
  simpa using tokens_append hc [] t

theorem tokens_plain {x : Text} (hx : Plain sep x) : tokens sep x = [x] := by
  simp [tokens, List.splitOnP_eq_singleton hx.2, hx.1]

theorem tokens_plain_append {x : Text} {c : Char} (hx : Plain sep x) (hc : sep c = true)
    (t : Text) : tokens sep (x ++ c :: t) = x :: tokens sep t := by
  rw [tokens_append hc, tokens_plain hx]
  rfl

/-- A text starts with a separator, or with a plain run that ends the text or meets one. -/
inductive Cut (sep : Char → Bool) : Text → Prop where
  | nil : Cut sep []
  | skip (c : Char) (t : Text) : sep c = true → Cut sep t → Cut sep (c :: t)
  | last (x : Text) : Plain sep x → Cut sep x
  | field (x : Text) (c : Char) (t : Text) : Plain sep x → sep c = true → Cut sep t →
      Cut sep (x ++ c :: t)

theorem cut (sep : Char → Bool) (t : Text) : Cut sep t := by
  induction t with
  | nil => exact .nil
  | cons d t ih =>
    by_cases hd : sep d = true
    · exact .skip d t hd ih
    · have hplain : Plain sep [d] := ⟨by simp, by simpa using hd⟩
      cases ih with
      | nil => exact .last [d] hplain
      | skip c t hc ht => exact .field [d] c t hplain hc ht
      | last x hx => exact .last (d :: t) ⟨by simp, by simpa using ⟨by simpa using hd, hx.2⟩⟩
      | field x c t hx hc ht =>
        exact .field (d :: x) c t ⟨by simp, by simpa using ⟨by simpa using hd, hx.2⟩⟩ hc ht

theorem strtok_skip {c : Char} (hc : sep c = true) (t : Text) :
    strtok sep (c :: t) = strtok sep t := by
  simp [strtok, hc]

theorem strtok_plain {x : Text} (hx : Plain sep x) : strtok sep x = (some x, []) := by
  obtain ⟨hne, hx⟩ := hx
  cases x with
  | nil => exact absurd rfl hne
  | cons d x =>
    have hd : sep d = false := hx d (by simp)
    have hrest : ∀ c ∈ x, (!sep c) = true := fun c hc => by simp [hx c (by simp [hc])]
    simp [strtok, hd, List.takeWhile_eq_self_iff.mpr hrest, List.dropWhile_eq_nil_iff.mpr hrest]

theorem strtok_plain_append {x : Text} {c : Char} (hx : Plain sep x) (hc : sep c = true)
    (t : Text) : strtok sep (x ++ c :: t) = (some x, t) := by
  obtain ⟨hne, hx⟩ := hx
  cases x with
  | nil => exact absurd rfl hne
  | cons d x =>
    have hd : sep d = false := hx d (by simp)
    have hrest : ∀ c ∈ x, (!sep c) = true := fun c hc => by simp [hx c (by simp [hc])]
    simp [strtok, hd, List.takeWhile_append_of_pos hrest, List.dropWhile_append_of_pos hrest, hc]

/-- Every token is plain. -/
theorem mem_tokens {x t : Text} (h : x ∈ tokens sep t) : Plain sep x := by
  induction cut sep t with
  | nil => simp at h
  | skip c t hc _ ih => exact ih (tokens_cons hc t ▸ h)
  | last y hy =>
    rw [tokens_plain hy] at h
    exact List.mem_singleton.mp h ▸ hy
  | field y c t hy hc _ ih =>
    rw [tokens_plain_append hy hc] at h
    cases List.mem_cons.mp h with
    | inl h => exact h ▸ hy
    | inr h => exact ih h

/-- One call of `strtok` hands out the first token and leaves the others. -/
theorem strtok_tokens (sep : Char → Bool) (t : Text) :
    (strtok sep t).1 = (tokens sep t).head? ∧
      tokens sep (strtok sep t).2 = (tokens sep t).tail := by
  induction cut sep t with
  | nil => simp [strtok]
  | skip c t hc _ ih => rwa [strtok_skip hc, tokens_cons hc]
  | last x hx => simp [strtok_plain hx, tokens_plain hx]
  | field x c t hx hc _ _ => simp [strtok_plain_append hx hc, tokens_plain_append hx hc]

/-- The tokens of a plain field that a CR LF follows. -/
theorem tokens_crlf (x t : Text) :
    tokens crOrLf (x ++ crlf ++ t) = tokens crOrLf x ++ tokens crOrLf t := by
  have hskip : tokens crOrLf ('\n' :: t) = tokens crOrLf t := tokens_cons rfl t
  rw [List.append_assoc, ← hskip]
  exact tokens_append rfl x ('\n' :: t)

/-- A number written with at least one digit and nothing else. -/
def natural? (ds : Text) : Option Nat :=
  if ds ≠ [] ∧ ds.all Char.isDigit then some (digitsValue ds) else none

/-- A number written in decimal, of any length, perhaps with a sign. -/
def decimal? : Text → Option Int
  | '-' :: ds => (natural? ds).map fun n : Nat => -(n : Int)
  | '+' :: ds => (natural? ds).map fun n : Nat => (n : Int)
  | ds => (natural? ds).map fun n : Nat => (n : Int)

theorem natural?_eq_some {ds : Text} {n : Nat} (h : natural? ds = some n) :
    ds ≠ [] ∧ (∀ c ∈ ds, c.isDigit = true) ∧ digitsValue ds = n := by
  simp only [natural?] at h
  split at h
  · simp_all
  · cases h

theorem crOrLf_of_isDigit {c : Char} (h : c.isDigit = true) : crOrLf c = false := by
  simp only [crOrLf, Bool.or_eq_false_iff, beq_eq_false_iff_ne]
  constructor <;> rintro rfl <;> simp at h

theorem isSpace_of_isDigit {c : Char} (h : c.isDigit = true) : isSpace c = false := by
  simp only [isSpace, Bool.or_eq_false_iff, beq_eq_false_iff_ne]
  refine ⟨⟨⟨⟨⟨?_, ?_⟩, ?_⟩, ?_⟩, ?_⟩, ?_⟩ <;> rintro rfl <;> simp at h

/-- The three ways to write a number. -/
theorem decimal?_eq_some {t : Text} {n : Int} (h : decimal? t = some n) :
    ∃ ds, ds ≠ [] ∧ (∀ c ∈ ds, c.isDigit = true) ∧
      (t = '-' :: ds ∧ n = -(digitsValue ds : Int) ∨
        (t = '+' :: ds ∨ t = ds) ∧ n = (digitsValue ds : Int)) := by
  revert h
  fun_cases decimal? t with
  | case1 ds =>
    intro h
    obtain ⟨k, hk, rfl⟩ := Option.map_eq_some_iff.mp h
    obtain ⟨hne, hdigit, rfl⟩ := natural?_eq_some hk
    exact ⟨ds, hne, hdigit, Or.inl ⟨rfl, rfl⟩⟩
  | case2 ds =>
    intro h
    obtain ⟨k, hk, rfl⟩ := Option.map_eq_some_iff.mp h
    obtain ⟨hne, hdigit, rfl⟩ := natural?_eq_some hk
    exact ⟨ds, hne, hdigit, Or.inr ⟨Or.inl rfl, rfl⟩⟩
  | case3 =>
    intro h
    obtain ⟨k, hk, rfl⟩ := Option.map_eq_some_iff.mp h
    obtain ⟨hne, hdigit, rfl⟩ := natural?_eq_some hk
    exact ⟨t, hne, hdigit, Or.inr ⟨Or.inr rfl, rfl⟩⟩

theorem plain_of_decimal {t : Text} {n : Int} (h : decimal? t = some n) : Plain crOrLf t := by
  obtain ⟨ds, hne, hdigit, ⟨rfl, -⟩ | ⟨rfl | rfl, -⟩⟩ := decimal?_eq_some h
  · exact ⟨by simp, by simpa using ⟨rfl, fun c hc => crOrLf_of_isDigit (hdigit c hc)⟩⟩
  · exact ⟨by simp, by simpa using ⟨rfl, fun c hc => crOrLf_of_isDigit (hdigit c hc)⟩⟩
  · exact ⟨hne, fun c hc => crOrLf_of_isDigit (hdigit c hc)⟩

theorem strtol_clamp {n : Int} (h : InInt n) : max longMin (min longMax n) = n := by
  simp only [InInt, intMin, intMax, longMin, longMax] at *
  omega

/-- `atoi` reads a number that fits an int as it is written. -/
theorem atoi_decimal {t : Text} {n : Int} (h : decimal? t = some n) (hn : InInt n) :
    atoi t = n := by
  obtain ⟨ds, hne, hdigit, hform⟩ := decimal?_eq_some h
  have hds : ds.takeWhile Char.isDigit = ds := List.takeWhile_eq_self_iff.mpr hdigit
  have hvalue : strtol t = max longMin (min longMax n) := by
    obtain ⟨rfl, rfl⟩ | ⟨rfl | rfl, rfl⟩ := hform
    · simp [strtol, isSpace, hds]
    · simp [strtol, isSpace, hds]
    · cases t with
      | nil => exact absurd rfl hne
      | cons c ds =>
        have hc := hdigit c (by simp)
        have hminus : c ≠ '-' := by rintro rfl; simp at hc
        have hplus : c ≠ '+' := by rintro rfl; simp at hc
        simp [strtol, isSpace_of_isDigit hc, hds, hminus, hplus]
  rw [atoi, hvalue, strtol_clamp hn, wrap32_of_inInt hn]

end CString
