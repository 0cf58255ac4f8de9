import CloudSync.Lib.CText
import Mathlib.Data.List.TakeWhile

/-!
# Words and numerals

The words of a string are what stands between white space.  `scanWord` is one
`%<width>s` of `sscanf`: it stores no more of a word than fits, and what is left
of the word is found there by the next conversion (`words_scanWord`).

A numeral is an optional sign and digits and nothing else; `atoi` reads it if it
is that of an `int` (`atoi_numeral_iff`).
-/

namespace CText

variable {s w rest : Bytes}

/-! ## Words -/

/-- The words of a string. -/
def words (s : Bytes) : List Bytes := (s.splitOnP isSpace).filter (!·.isEmpty)

/-- Word number `i`, counted from 0; the empty string if there are not as many. -/
def word (i : ℕ) (s : Bytes) : Bytes := (words s).getD i []

/-- A byte that ends a word. -/
def EndsWord (rest : Bytes) : Prop := ∀ b ∈ rest.head?, isSpace b = true

theorem words_nil : words [] = [] := rfl

/-- White space ends what stands before it. -/
theorem words_append_space {b : UInt8} (hb : isSpace b = true) (s rest : Bytes) :
    words (s ++ b :: rest) = words s ++ words rest := by
  rw [words, List.splitOnP_append_cons s rest hb, List.filter_append]
  rfl

theorem words_space_cons {b : UInt8} (hb : isSpace b = true) (s : Bytes) :
    words (b :: s) = words s := words_append_space hb [] s

theorem words_of_not_space (hw : ∀ b ∈ w, isSpace b = false) (hne : w ≠ []) : words w = [w] := by
  rw [words, List.splitOnP_eq_singleton hw]
  simp [hne]

theorem words_append (hw : ∀ b ∈ w, isSpace b = false) (hne : w ≠ []) (hrest : EndsWord rest) :
    words (w ++ rest) = w :: words rest := by
  cases rest with
  | nil => rw [List.append_nil, words_of_not_space hw hne, words_nil]
  | cons b rest =>
      have hb : isSpace b = true := hrest b rfl
      rw [words_append_space hb, words_of_not_space hw hne, words_space_cons hb]
      rfl

theorem words_dropWhile (s : Bytes) : words (s.dropWhile isSpace) = words s := by
  induction s with
  | nil => rfl
  | cons b rest ih =>
      by_cases hb : isSpace b = true
      · rw [List.dropWhile_cons_of_pos hb, ih, words_space_cons hb]
      · rw [List.dropWhile_cons_of_neg hb]

/-- A string has no words, or begins with one after white space. -/
theorem words_cases (s : Bytes) : (s.dropWhile isSpace = [] ∧ words s = []) ∨
    ∃ w rest, w ≠ [] ∧ (∀ b ∈ w, isSpace b = false) ∧ EndsWord rest ∧
      s.dropWhile isSpace = w ++ rest ∧ words s = w :: words rest := by
  cases hstart : s.dropWhile isSpace with
  | nil =>
      left
      rw [← words_dropWhile, hstart]
      exact ⟨rfl, rfl⟩
  | cons b more =>
      right
      have hb : isSpace b = false := by
        have hfirst := List.head?_dropWhile_not isSpace s
        simpa [hstart] using hfirst
      have hw : ∀ c ∈ (b :: more).takeWhile (fun c => !isSpace c), isSpace c = false :=
        fun c hc => by simpa using List.mem_takeWhile_imp hc
      have hne : (b :: more).takeWhile (fun c => !isSpace c) ≠ [] := by simp [hb]
      have hrest : EndsWord ((b :: more).dropWhile fun c => !isSpace c) := by
        intro c hc
        have hhead := List.head?_dropWhile_not (fun c => !isSpace c) (b :: more)
        rw [Option.mem_def.mp hc] at hhead
        simpa using hhead
      refine ⟨_, _, hne, hw, hrest, (List.takeWhile_append_dropWhile ..).symm, ?_⟩
      rw [← words_append hw hne hrest, List.takeWhile_append_dropWhile, ← hstart, words_dropWhile]

/-- `%<width>s`: what is stored, and what the next conversion finds. -/
def scanWord (width : ℕ) (s : Bytes) : Bytes × Bytes :=
  let start := s.dropWhile isSpace
  let stored := (start.takeWhile fun b => !isSpace b).take width
  (stored, start.drop stored.length)

theorem takeWhile_append_endsWord (hw : ∀ b ∈ w, isSpace b = false) (hrest : EndsWord rest) :
    (w ++ rest).takeWhile (fun b => !isSpace b) = w := by
  rw [List.takeWhile_append_of_pos fun b hb => by simp [hw b hb]]
  cases rest with
  | nil => simp
  | cons b rest => simp [hrest b rfl]

/-- What is stored is the first word, cut to the width. -/
theorem scanWord_stored (width : ℕ) (s : Bytes) :
    (scanWord width s).1 = (word 0 s).take width := by
  rcases words_cases s with ⟨hstart, hwords⟩ | ⟨w, rest, -, hw, hrest, hstart, hwords⟩
  · rw [scanWord, hstart, word, hwords]
    rfl
  · rw [scanWord, hstart, word, hwords, takeWhile_append_endsWord hw hrest]
    rfl

/-- What is left has the rest of a word that did not fit, and the words after it. -/
theorem words_scanWord (width : ℕ) (s : Bytes) :
    words (scanWord width s).2 =
      (if (word 0 s).length ≤ width then [] else [(word 0 s).drop width]) ++ (words s).tail := by
  rcases words_cases s with ⟨hstart, hwords⟩ | ⟨w, rest, -, hw, hrest, hstart, hwords⟩
  · have hnone : word 0 s = [] := by
      rw [word, hwords]
      rfl
    rw [scanWord, hstart, hnone, hwords]
    simp [words_nil]
  · have hfirst : word 0 s = w := by
      rw [word, hwords]
      rfl
    rw [scanWord, hstart, hfirst, hwords, List.tail_cons]
    simp only [takeWhile_append_endsWord hw hrest]
    split
    · next hfits => rw [List.take_of_length_le hfits, List.drop_left, List.nil_append]
    · next hlong =>
      have hcut : (w.take width).length = width := List.length_take_of_le (by omega)
      have hleft : w.drop width ≠ [] := by
        rw [Ne, List.drop_eq_nil_iff]
        omega
      rw [hcut, List.drop_append_of_le_length (by omega),
        words_append (fun b hb => hw b (List.mem_of_mem_drop hb)) hleft hrest]
      rfl

theorem mem_of_mem_words (hword : w ∈ words s) {b : UInt8} (hb : b ∈ w) : b ∈ s := by
  induction hn : s.length using Nat.strongRecOn generalizing s with
  | ind n ih =>
      rcases words_cases s with ⟨-, hwords⟩ | ⟨first, rest, hne, -, -, hstart, hwords⟩
      · rw [hwords] at hword
        exact absurd hword List.not_mem_nil
      · have hsub : ∀ c ∈ first ++ rest, c ∈ s := fun c hc =>
          (List.dropWhile_suffix isSpace).subset (hstart ▸ hc)
        rw [hwords] at hword
        rcases List.mem_cons.mp hword with rfl | hlater
        · exact hsub b (List.mem_append_left _ hb)
        · have hshort : rest.length < n := by
            have hlength := (List.dropWhile_suffix isSpace (l := s)).length_le
            have hpositive := List.length_pos_of_ne_nil hne
            rw [hstart, List.length_append] at hlength
            omega
          exact hsub b (List.mem_append_right _ (ih _ hshort hlater rfl))

theorem mem_of_mem_word {i : ℕ} {b : UInt8} (hb : b ∈ word i s) : b ∈ s := by
  rw [word, List.getD_eq_getElem?_getD] at hb
  cases hword : (words s)[i]? with
  | none =>
      rw [hword] at hb
      exact absurd hb List.not_mem_nil
  | some w =>
      rw [hword] at hb
      exact mem_of_mem_words (List.mem_of_getElem? hword) hb

/-! ## Numerals -/

/-- The number a run of digits denotes, if it is one. -/
def digits? (s : Bytes) : Option ℕ :=
  if s ≠ [] ∧ s.all isDigit then some (digitsValue s) else none

/-- The number a numeral denotes, if the string is one. -/
def numeral? : Bytes → Option ℤ
  | [] => none
  | b :: rest =>
      if b = 45 then (digits? rest).map fun n : ℕ => -(n : ℤ)
      else if b = 43 then (digits? rest).map fun n : ℕ => (n : ℤ)
      else (digits? (b :: rest)).map fun n : ℕ => (n : ℤ)

theorem digits?_eq_some {n : ℕ} (h : digits? s = some n) :
    s ≠ [] ∧ (∀ b ∈ s, isDigit b = true) ∧ digitsValue (s.takeWhile isDigit) = n := by
  unfold digits? at h
  split at h
  · next hs =>
    have hall : ∀ b ∈ s, isDigit b = true := List.all_eq_true.mp hs.2
    rw [List.takeWhile_eq_self_iff.mpr hall]
    exact ⟨hs.1, hall, Option.some.inj h⟩
  · exact absurd h (by simp)

/-- `strtol` reads the number a numeral denotes. -/
theorem strtol_numeral {n : ℤ} (h : numeral? s = some n) : strtol s = n := by
  cases s with
  | nil => exact absurd h (by simp [numeral?])
  | cons b rest =>
      simp only [numeral?] at h
      unfold strtol
      split at h
      · next hminus =>
        obtain ⟨m, hm, rfl⟩ := Option.map_eq_some_iff.mp h
        subst hminus
        rw [List.dropWhile_cons_of_neg (by decide)]
        simp only [if_true, (digits?_eq_some hm).2.2]
      · next hminus =>
        split at h
        · next hplus =>
          obtain ⟨m, hm, rfl⟩ := Option.map_eq_some_iff.mp h
          subst hplus
          rw [List.dropWhile_cons_of_neg (by decide)]
          simp only [if_neg hminus, if_true, (digits?_eq_some hm).2.2]
        · next hplus =>
          obtain ⟨m, hm, rfl⟩ := Option.map_eq_some_iff.mp h
          obtain ⟨-, hall, hvalue⟩ := digits?_eq_some hm
          have hspace : isSpace b ≠ true := by
            have hdigit := hall b (List.mem_cons_self ..)
            unfold isDigit at hdigit
            unfold isSpace
            grind
          rw [List.dropWhile_cons_of_neg hspace]
          simp only [if_neg hminus, if_neg hplus, hvalue]

/-- `atoi` reads it if it is an `int`. -/
theorem atoi_numeral_iff {n : ℤ} (h : numeral? s = some n) : atoi s = n ↔ InInt n := by
  constructor
  · intro hread
    rw [← hread]
    exact int32_range _
  · intro hn
    have hrange := hn
    unfold InInt at hrange
    unfold atoi
    rw [strtol_numeral h, min_eq_right (by omega), max_eq_right (by omega)]
    exact int32_of_range hn

end CText
