import CloudSync.Lib.OpenFiles

/-!
# Where bytes come from

`Drawn S offset bytes` says of a piece of a file, beginning at `offset`, that every byte in
it may be at its place: `S i b` says that the byte `b` may be at the offset `i`.  Pieces
that are read off such a file are such pieces again (`Drawn.readAt`), and so is a file into
which such a piece is written, if zeros may be anywhere (`Drawn.overwrite`): writing behind
the end of a file leaves a gap that reads as zeros.
-/

namespace Files

open CText

variable {S : ℕ → UInt8 → Prop} {offset : ℕ} {bytes more : Bytes}

/-- Every byte of the piece may be where it is. -/
def Drawn (S : ℕ → UInt8 → Prop) (offset : ℕ) (bytes : Bytes) : Prop :=
  ∀ i b, bytes[i]? = some b → S (offset + i) b

theorem drawn_nil (S : ℕ → UInt8 → Prop) (offset : ℕ) : Drawn S offset [] :=
  fun i _ h => absurd h (by simp)

theorem Drawn.mono {T : ℕ → UInt8 → Prop} (h : Drawn S offset bytes) (hST : ∀ i b, S i b → T i b) :
    Drawn T offset bytes := fun i b hb => hST _ b (h i b hb)

theorem Drawn.take (h : Drawn S offset bytes) (n : ℕ) : Drawn S offset (bytes.take n) := by
  intro i b hb
  rw [List.getElem?_take] at hb
  split at hb
  · exact h i b hb
  · exact absurd hb (by simp)

theorem Drawn.drop (h : Drawn S offset bytes) (n : ℕ) : Drawn S (offset + n) (bytes.drop n) := by
  intro i b hb
  rw [List.getElem?_drop] at hb
  have hi := h (n + i) b hb
  rwa [← Nat.add_assoc] at hi

theorem Drawn.append (h : Drawn S offset bytes) (hmore : Drawn S (offset + bytes.length) more) :
    Drawn S offset (bytes ++ more) := by
  intro i b hb
  by_cases hi : i < bytes.length
  · rw [List.getElem?_append_left hi] at hb
    exact h i b hb
  · rw [List.getElem?_append_right (by omega)] at hb
    have hplace := hmore (i - bytes.length) b hb
    rwa [show offset + bytes.length + (i - bytes.length) = offset + i by omega] at hplace

theorem drawn_zeros (hzero : ∀ i, S i 0) (offset n : ℕ) : Drawn S offset (List.replicate n 0) := by
  intro i b hb
  rw [List.getElem?_replicate] at hb
  split at hb
  · exact Option.some.inj hb ▸ hzero _
  · exact absurd hb (by simp)

/-- A piece of a file. -/
theorem Drawn.readAt (h : Drawn S 0 bytes) (offset count : ℕ) :
    Drawn S offset (readAt bytes offset count) := by
  have hdrop := h.drop offset
  rw [Nat.zero_add] at hdrop
  exact hdrop.take count

/-- A file into which a piece is written. -/
theorem Drawn.overwrite (hzero : ∀ i, S i 0) (h : Drawn S 0 bytes)
    (hmore : Drawn S offset more) : Drawn S 0 (Tree.overwrite bytes offset more) := by
  have hlength : (bytes.take offset ++ List.replicate (offset - bytes.length) 0).length =
      offset := by
    rw [List.length_append, List.length_take, List.length_replicate]
    omega
  have hbefore : Drawn S 0 (bytes.take offset ++ List.replicate (offset - bytes.length) 0) :=
    (h.take offset).append (drawn_zeros hzero _ _)
  unfold Tree.overwrite
  refine (hbefore.append ?_).append ?_
  · rw [hlength, Nat.zero_add]
    exact hmore
  · rw [List.length_append, hlength]
    exact h.drop _

end Files
