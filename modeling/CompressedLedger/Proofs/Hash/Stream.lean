import CompressedLedger.Hash.Keccak
import Mathlib.Data.List.Basic

/-!
# Hashing a message that comes in parts

`Stream` is a digest in the making.  It takes the parts of a message one after the other: whole
blocks go into the state as soon as they are there, and the bytes behind the last one wait for the
next part (`Stream.update`).  At the end the waiting bytes are padded (`Stream.finish`).

Where the parts were cut leaves no trace.  What a stream holds depends on the joined parts
(`foldl_update`), and its digest is the one of the joined message (`hashParts_eq_hash_flatten`).
-/

namespace CompressedLedger.Keccak

/-! ### Whole blocks -/

theorem rate_pos : 0 < rate := by decide

/-- The first block of a message is left alone by the padding. -/
theorem pad_of_block {bs : List UInt8} (h : rate ≤ bs.length) :
    pad bs = bs.take rate ++ pad (bs.drop rate) := by
  have hmod : (bs.drop rate).length % rate = bs.length % rate := by
    rw [List.length_drop]
    exact (Nat.mod_eq_sub_mod h).symm
  unfold pad
  rw [hmod]
  dsimp only
  split_ifs
  · rw [← List.append_assoc, List.take_append_drop]
  · rw [← List.append_assoc, List.take_append_drop]

/-! ### Streams -/

/-- A digest in the making: the state after the whole blocks, and the bytes behind them. -/
structure Stream where
  state : State
  pending : List UInt8

namespace Stream

/-- Absorbs blocks from the front of some bytes while there are any. -/
def ofBytes (s : State) (bs : List UInt8) : Stream :=
  if rate ≤ bs.length then ofBytes (absorb s (bs.take rate)) (bs.drop rate) else ⟨s, bs⟩
termination_by bs.length
decreasing_by
  have := rate_pos
  rw [List.length_drop]
  omega

/-- Nothing taken yet. -/
def start : Stream := ⟨Vector.replicate 25 0, []⟩

theorem ofBytes_nil (s : State) : ofBytes s [] = ⟨s, []⟩ := by
  rw [ofBytes]
  exact if_neg (Nat.not_le.mpr rate_pos)

/-- Takes the next part of the message. -/
def update (s : Stream) (part : List UInt8) : Stream := ofBytes s.state (s.pending ++ part)

/-- Pads the bytes behind the whole blocks and gives the digest. -/
def finish (s : Stream) : Hash :=
  squeeze ((chunks rate rate_pos (pad s.pending)).foldl absorb s.state)

theorem ofBytes_append (s : State) (xs ys : List UInt8) :
    ofBytes s (xs ++ ys) = (ofBytes s xs).update ys := by
  fun_induction ofBytes s xs with
  | case1 s xs hblock ih =>
    have hlonger : rate ≤ (xs ++ ys).length := by
      rw [List.length_append]
      omega
    rw [ofBytes, if_pos hlonger, List.take_append_of_le_length hblock,
      List.drop_append_of_le_length hblock, ih]
  | case2 s xs hshort => rfl

/-- Taking parts one after the other is taking them joined. -/
theorem foldl_update (s : State) (bs : List UInt8) (parts : List (List UInt8)) :
    parts.foldl update (ofBytes s bs) = ofBytes s (bs ++ parts.flatten) := by
  induction parts generalizing bs with
  | nil => rw [List.foldl_nil, List.flatten_nil, List.append_nil]
  | cons part rest ih =>
    rw [List.foldl_cons, ← ofBytes_append, ih, List.flatten_cons, List.append_assoc]

/-- Blocks that were absorbed early are blocks of the padded message. -/
theorem finish_ofBytes (s : State) (bs : List UInt8) :
    (ofBytes s bs).finish = squeeze ((chunks rate rate_pos (pad bs)).foldl absorb s) := by
  fun_induction ofBytes s bs with
  | case1 s bs hblock ih =>
    have hlength : (bs.take rate).length = rate := List.length_take_of_le hblock
    rw [ih, pad_of_block hblock, chunks_block_append rate_pos hlength, List.foldl_cons]
  | case2 s bs hshort => rfl

end Stream

/-- The digest of a message that comes in parts. -/
def hashParts (parts : List (List UInt8)) : Hash := (parts.foldl Stream.update Stream.start).finish

theorem hashParts_eq_hash_flatten (parts : List (List UInt8)) :
    hashParts parts = hash parts.flatten := by
  have hstart : Stream.start = Stream.ofBytes (Vector.replicate 25 0) [] :=
    (Stream.ofBytes_nil _).symm
  rw [hashParts, hstart, Stream.foldl_update, List.nil_append, Stream.finish_ofBytes, hash]

end CompressedLedger.Keccak
