import Mathlib.Data.List.Basic

/-!
# Length-prefixed frames

A frame is a header of a fixed size, with the kind of the frame and the length of its body, and
behind it the body. A codec says how a header is written; it reads back every header that fits.
-/
namespace Framing

variable {β : Type}

structure Header where
  kind : Nat
  length : Nat
  deriving DecidableEq, Repr

structure Codec (β : Type) where
  size : Nat
  Fits : Header → Prop
  encode : Header → List β
  decode : List β → Header
  encode_length : ∀ h, (encode h).length = size
  decode_encode : ∀ h, Fits h → decode (encode h) = h

structure Frame (c : Codec β) where
  kind : Nat
  body : List β
  fits : c.Fits ⟨kind, body.length⟩

variable {c : Codec β}

def Frame.header (f : Frame c) : Header := ⟨f.kind, f.body.length⟩

def Frame.bytes (f : Frame c) : List β := c.encode f.header ++ f.body

/-- The frames one after the other. -/
def stream (fs : List (Frame c)) : List β := fs.flatMap Frame.bytes

@[simp] theorem stream_nil : stream ([] : List (Frame c)) = [] := rfl

@[simp] theorem stream_cons (f : Frame c) (fs : List (Frame c)) :
    stream (f :: fs) = f.bytes ++ stream fs := rfl

theorem Frame.length_bytes (f : Frame c) : f.bytes.length = c.size + f.body.length := by
  simp [Frame.bytes, c.encode_length]

/-- The header at the front of a frame reads back. -/
theorem Frame.decode_bytes (f : Frame c) (rest : List β) :
    c.decode ((f.bytes ++ rest).take c.size) = f.header := by
  rw [Frame.bytes, List.append_assoc, ← c.encode_length f.header, List.take_left]
  exact c.decode_encode _ f.fits

theorem Frame.drop_bytes (f : Frame c) (rest : List β) :
    (f.bytes ++ rest).drop c.size = f.body ++ rest := by
  rw [Frame.bytes, List.append_assoc, ← c.encode_length f.header, List.drop_left]

/-- A frame cut short still has its header, when the cut is behind it. -/
theorem Frame.decode_take (f : Frame c) {cut : Nat} (h : c.size ≤ cut) :
    c.decode ((f.bytes.take cut).take c.size) = f.header := by
  have hfront : (f.bytes.take cut).take c.size = f.bytes.take c.size := by
    rw [List.take_take, Nat.min_eq_left h]
  rw [hfront]
  simpa using f.decode_bytes []

end Framing
