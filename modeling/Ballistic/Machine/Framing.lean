import Ballistic.Machine.Memory
import Mathlib.Data.Fin.Tuple.Basic
import Mathlib.Logic.Equiv.Fin.Basic

/-!
# Records of a fixed size on a byte stream

A codec is a one-to-one correspondence between values and byte strings of one length. Records without
padding are put together from the codecs of their fields. A stream carries such records without any
mark between them: whatever pieces the bytes are put in and taken out by, what is taken out of the
stream is cut into the records that were put in (`Carries.complete`).
-/

namespace Machine

structure Codec (α : Type*) where
  size : Nat
  encode : α → List Byte
  decode : List Byte → α
  length_encode : ∀ a, (encode a).length = size
  decode_encode : ∀ a, decode (encode a) = a
  encode_decode : ∀ {bytes}, bytes.length = size → encode (decode bytes) = bytes

namespace Codec

variable {α β : Type*}

attribute [simp] length_encode decode_encode

def byte : Codec Byte where
  size := 1
  encode b := [b]
  decode bytes := bytes.headD 0
  length_encode _ := rfl
  decode_encode _ := rfl
  encode_decode := by
    intro bytes hlength
    obtain ⟨b, rfl⟩ := List.length_eq_one_iff.mp hlength
    rfl

/-- A record of no fields. -/
def unit : Codec Unit where
  size := 0
  encode _ := []
  decode _ := ()
  length_encode _ := rfl
  decode_encode _ := rfl
  encode_decode := fun hlength => (List.eq_nil_of_length_eq_zero hlength).symm

/-- Two fields, one behind the other. -/
def pair (c : Codec α) (d : Codec β) : Codec (α × β) where
  size := c.size + d.size
  encode p := c.encode p.1 ++ d.encode p.2
  decode bytes := (c.decode (bytes.take c.size), d.decode (bytes.drop c.size))
  length_encode p := by rw [List.length_append, c.length_encode, d.length_encode]
  decode_encode p := by
    rw [List.take_left' (c.length_encode p.1), List.drop_left' (c.length_encode p.1),
      c.decode_encode, d.decode_encode]
  encode_decode := by
    intro bytes hlength
    have hfirst : (bytes.take c.size).length = c.size := by
      rw [List.length_take, hlength]
      exact Nat.min_eq_left (Nat.le_add_right _ _)
    have hsecond : (bytes.drop c.size).length = d.size := by
      rw [List.length_drop, hlength, Nat.add_sub_cancel_left]
    rw [c.encode_decode hfirst, d.encode_decode hsecond, List.take_append_drop]

def map (c : Codec α) (e : α ≃ β) : Codec β where
  size := c.size
  encode b := c.encode (e.symm b)
  decode bytes := e (c.decode bytes)
  length_encode b := c.length_encode _
  decode_encode b := by rw [c.decode_encode, e.apply_symm_apply]
  encode_decode := by
    intro bytes hlength
    rw [e.symm_apply_apply, c.encode_decode hlength]

/-- An array. -/
def vec (c : Codec α) : (n : Nat) → Codec (Fin n → α)
  | 0 => unit.map (Equiv.ofUnique Unit (Fin 0 → α))
  | n + 1 => (c.pair (c.vec n)).map (Fin.consEquiv fun _ => α)

/-- A word of two halves, the low one first. -/
def halves {v w : Nat} (low : Codec (BitVec v)) (high : Codec (BitVec w)) :
    Codec (BitVec (w + v)) where
  size := low.size + high.size
  encode x := low.encode (x.extractLsb' 0 v) ++ high.encode (x.extractLsb' v w)
  decode bytes := ((low.pair high).decode bytes).2 ++ ((low.pair high).decode bytes).1
  length_encode x := by rw [List.length_append, low.length_encode, high.length_encode]
  decode_encode x := by
    have hdecode := (low.pair high).decode_encode (x.extractLsb' 0 v, x.extractLsb' v w)
    change (low.pair high).decode (low.encode _ ++ high.encode _) = _ at hdecode
    rw [hdecode]
    rw [BitVec.extractLsb'_append_extractLsb'_eq_extractLsb' (Nat.zero_add v).symm]
    exact BitVec.extractLsb'_eq_self
  encode_decode := by
    intro bytes hlength
    rw [BitVec.extractLsb'_append_eq_right, BitVec.extractLsb'_append_eq_left]
    exact (low.pair high).encode_decode hlength

def word16 : Codec (BitVec 16) := byte.halves byte

def word32 : Codec (BitVec 32) := word16.halves word16

def word64 : Codec (BitVec 64) := word32.halves word32

/-! ### Streams -/

/-- The records one after another. -/
def stream (c : Codec α) (records : List α) : List Byte := records.flatMap c.encode

@[simp]
theorem stream_nil (c : Codec α) : c.stream [] = [] := rfl

@[simp]
theorem stream_cons (c : Codec α) (a : α) (records : List α) :
    c.stream (a :: records) = c.encode a ++ c.stream records := rfl

theorem stream_append (c : Codec α) (left right : List α) :
    c.stream (left ++ right) = c.stream left ++ c.stream right :=
  List.flatMap_append

end Codec

variable {α : Type*} {c : Codec α} {part got queue : List Byte} {records : List α}

/-- The bytes on their way: `records` and the first `part` of another one have been put in and not yet
been cut off at the other end, where `got` has been taken out and `queue` is still in the stream. -/
def Carries (c : Codec α) (part queue got : List Byte) (records : List α) : Prop :=
  c.stream records ++ part = got ++ queue

namespace Carries

theorem empty : Carries c [] [] [] [] := rfl

theorem put (h : Carries c part queue got records) (bytes : List Byte) :
    Carries c (part ++ bytes) (queue ++ bytes) got records := by
  unfold Carries at h ⊢
  rw [← List.append_assoc, h, List.append_assoc]

/-- The record that was put in part by part is whole. -/
theorem close {a : α} (h : Carries c (c.encode a) queue got records) :
    Carries c [] queue got (records ++ [a]) := by
  unfold Carries at h ⊢
  rw [Codec.stream_append, List.append_nil, Codec.stream_cons, Codec.stream_nil, List.append_nil, h]

theorem take {bytes rest : List Byte} (h : Carries c part (bytes ++ rest) got records) :
    Carries c part rest (got ++ bytes) records := by
  unfold Carries at h ⊢
  rw [h, List.append_assoc]

/-- Bytes for a whole record have been taken out: they are the oldest record on its way. -/
theorem complete (h : Carries c part queue got records) (hgot : got.length = c.size)
    (hpart : part.length < c.size) :
    ∃ a later, records = a :: later ∧ got = c.encode a ∧ Carries c part queue [] later := by
  unfold Carries at h
  cases records with
  | nil =>
      have hlength := congrArg List.length h
      rw [Codec.stream_nil, List.nil_append, List.length_append, hgot] at hlength
      omega
  | cons a later =>
      rw [Codec.stream_cons, List.append_assoc] at h
      obtain ⟨hfirst, hrest⟩ := List.append_inj h ((c.length_encode a).trans hgot.symm)
      exact ⟨a, later, rfl, hfirst.symm, hrest⟩

/-- As long as a record is on its way, there are bytes to take out, or enough have been. -/
theorem size_le (h : Carries c part [] got records) (hne : records ≠ []) : c.size ≤ got.length := by
  obtain ⟨a, later, rfl⟩ := List.exists_cons_of_ne_nil hne
  have hlength := congrArg List.length h
  rw [Codec.stream_cons, List.append_nil] at hlength
  simp only [List.length_append, c.length_encode] at hlength
  omega

end Carries

end Machine
